import Mathlib
import TCBackup.Lib.Labelled

/-!
# Cells that are handed over under locks

A writer changes cells and publishes groups of them. Once a cell is published, the
writer touches it only while it holds the cell's lock, which it never takes again
after giving it up. A reader works through the groups and waits for each cell until
it is unlocked: what it reads is what the cell holds in the end.

## Main definitions

- `Access`, `after` — what the writer does, and the cells after it
- `Guarded` — published cells are touched under their locks only
- `Config`, `step` — the writer's accesses interleaved with the reader
-/

namespace Handoff

variable {ι α β γ : Type*}

/-- The writer changes a cell, passes something on for it, or hands over a group. -/
inductive Access (ι α β γ : Type*)
  | set (i : ι) (v : α)
  | act (i : ι) (x : γ)
  | publish (b : β)

/-- The cell that is touched. -/
def Access.cell? : Access ι α β γ → Option ι
  | .set i _ => some i
  | .act i _ => some i
  | .publish _ => none

/-- The groups handed over, in order. -/
def groups (log : List (Access ι α β γ)) : List β :=
  log.filterMap fun
    | .publish b => some b
    | _ => none

@[simp] theorem groups_nil : groups ([] : List (Access ι α β γ)) = [] := rfl

@[simp] theorem groups_append (log log' : List (Access ι α β γ)) :
    groups (log ++ log') = groups log ++ groups log' := List.filterMap_append

@[simp] theorem groups_set (i : ι) (v : α) : groups [(.set i v : Access ι α β γ)] = [] := rfl

@[simp] theorem groups_act (i : ι) (x : γ) : groups [(.act i x : Access ι α β γ)] = [] := rfl

@[simp] theorem groups_publish (b : β) : groups [(.publish b : Access ι α β γ)] = [b] := rfl

/-- What was passed on, in order. -/
def acts (log : List (Access ι α β γ)) : List (ι × γ) :=
  log.filterMap fun
    | .act i x => some (i, x)
    | _ => none

@[simp] theorem acts_nil : acts ([] : List (Access ι α β γ)) = [] := rfl

@[simp] theorem acts_append (log log' : List (Access ι α β γ)) :
    acts (log ++ log') = acts log ++ acts log' := List.filterMap_append

@[simp] theorem acts_set (i : ι) (v : α) : acts [(.set i v : Access ι α β γ)] = [] := rfl

@[simp] theorem acts_act (i : ι) (x : γ) : acts [(.act i x : Access ι α β γ)] = [(i, x)] := rfl

@[simp] theorem acts_publish (b : β) : acts [(.publish b : Access ι α β γ)] = [] := rfl

variable [DecidableEq ι]

/-- What was passed on in all, cell by cell. -/
theorem sum_acts (f : γ → ℕ) {passed : List (ι × γ)} {l : List ι} (hl : l.Nodup)
    (h : ∀ p ∈ passed, p.1 ∈ l) :
    (passed.map fun p => f p.2).sum =
      (l.map fun i => (((passed.filter fun p => p.1 = i).map Prod.snd).map f).sum).sum := by
  induction passed with
  | nil => simp
  | cons p passed ih =>
    have hsplit : ∀ i, ((((p :: passed).filter fun q => q.1 = i).map Prod.snd).map f).sum =
        (if p.1 = i then f p.2 else 0) +
          (((passed.filter fun q => q.1 = i).map Prod.snd).map f).sum := by
      intro i
      by_cases hi : p.1 = i
      · simp [hi]
      · simp [hi]
    have hsingle : (l.map fun i => if p.1 = i then f p.2 else 0).sum = f p.2 := by
      rw [List.sum_map_eq_nsmul_single p.1 _ fun i hi _ => if_neg (Ne.symm hi),
        List.nodup_iff_count_eq_one.mp hl _ (h p List.mem_cons_self), one_nsmul, if_pos rfl]
    rw [List.map_cons, List.sum_cons, ih fun q hq => h q (List.mem_cons_of_mem p hq)]
    simp only [hsplit]
    rw [List.sum_map_add, hsingle]

def apply (m : ι → α) : Access ι α β γ → ι → α
  | .set i v => Function.update m i v
  | _ => m

/-- The cells after a list of accesses. -/
def after (m : ι → α) (log : List (Access ι α β γ)) : ι → α := log.foldl apply m

@[simp] theorem after_nil (m : ι → α) : after m ([] : List (Access ι α β γ)) = m := rfl

@[simp] theorem after_append (m : ι → α) (log log' : List (Access ι α β γ)) :
    after m (log ++ log') = after (after m log) log' := List.foldl_append

@[simp] theorem after_singleton (m : ι → α) (a : Access ι α β γ) : after m [a] = apply m a := rfl

theorem apply_of_cell_ne {m : ι → α} {a : Access ι α β γ} {i : ι} (h : a.cell? ≠ some i) :
    apply m a i = m i := by
  cases a with
  | set j v => exact Function.update_of_ne (fun heq => h (congrArg some heq.symm)) v m
  | act j x => rfl
  | publish b => rfl

theorem after_of_cell_ne {m : ι → α} {log : List (Access ι α β γ)} {i : ι}
    (h : ∀ a ∈ log, a.cell? ≠ some i) : after m log i = m i := by
  induction log generalizing m with
  | nil => rfl
  | cons a log ih =>
    rw [after, List.foldl_cons]
    exact (ih fun b hb => h b (List.mem_cons_of_mem _ hb)).trans (apply_of_cell_ne (h a (by simp)))

variable (cells : β → List ι) (locked : α → Bool)

/-- The cell belongs to a group that was handed over. -/
def Published (log : List (Access ι α β γ)) (i : ι) : Prop := ∃ b ∈ groups log, i ∈ cells b

/-- Published cells are touched under their locks only. -/
inductive Guarded (m : ι → α) : List (Access ι α β γ) → Prop
  | nil : Guarded m []
  | snoc {log : List (Access ι α β γ)} {a : Access ι α β γ} (h : Guarded m log)
      (ha : ∀ i, a.cell? = some i → Published cells log i → locked (after m log i) = true) :
      Guarded m (log ++ [a])

variable {cells locked} {m : ι → α} {log pre post : List (Access ι α β γ)} {i : ι}

omit [DecidableEq ι] in
theorem Published.mono (h : Published cells pre i) : Published cells (pre ++ post) i := by
  obtain ⟨b, hb, hi⟩ := h
  exact ⟨b, by rw [groups_append]; exact List.mem_append_left _ hb, hi⟩

theorem guarded_snoc {a : Access ι α β γ} :
    Guarded cells locked m (log ++ [a]) ↔ Guarded cells locked m log ∧
      ∀ i, a.cell? = some i → Published cells log i → locked (after m log i) = true := by
  constructor
  · intro h
    generalize heq : log ++ [a] = l at h
    cases h with
    | nil => simp at heq
    | snoc h ha =>
      obtain ⟨rfl, hsingle⟩ := List.append_inj' heq rfl
      obtain rfl := List.head_eq_of_cons_eq hsingle
      exact ⟨h, ha⟩
  · rintro ⟨h, ha⟩
    exact h.snoc ha

variable (locked i) in
/-- All accesses are to one cell and happen under its lock. -/
def Held (m : ι → α) : List (Access ι α β γ) → Prop
  | [] => True
  | a :: log => a.cell? = some i ∧ locked (m i) = true ∧ Held (apply m a) log

theorem Guarded.append_held {m : ι → α} (h : Guarded cells locked m pre)
    (hpost : Held locked i (after m pre) post) : Guarded cells locked m (pre ++ post) := by
  induction post generalizing pre with
  | nil => simpa using h
  | cons a post ih =>
    obtain ⟨hcell, hlocked, hrest⟩ := hpost
    have ha : Guarded cells locked m (pre ++ [a]) := by
      refine h.snoc fun j hj _ => ?_
      obtain rfl := Option.some.inj (hcell.symm.trans hj)
      exact hlocked
    rw [← List.singleton_append, ← List.append_assoc]
    refine ih ha ?_
    rw [after_append, after_singleton]
    exact hrest

omit [DecidableEq ι] in
theorem groups_eq_nil_of_cell (h : ∀ a ∈ post, a.cell? = some i) : groups post = [] := by
  rw [groups, List.filterMap_eq_nil_iff]
  intro a ha
  have hcell := h a ha
  cases a with
  | publish b => simp [Access.cell?] at hcell
  | _ => rfl

/-- A cell that is not published may be touched at will. -/
theorem Guarded.append_unpublished {m : ι → α} (h : Guarded cells locked m pre)
    (hpost : ∀ a ∈ post, a.cell? = some i) (hi : ¬Published cells pre i) :
    Guarded cells locked m (pre ++ post) := by
  induction post using List.reverseRecOn with
  | nil => simpa using h
  | append_singleton post a ih =>
    have hfront : ∀ b ∈ post, b.cell? = some i := fun b hb => hpost b (List.mem_append_left _ hb)
    rw [← List.append_assoc]
    refine (ih hfront).snoc fun j hj hpub => absurd ?_ hi
    obtain rfl := Option.some.inj ((hpost a (by simp)).symm.trans hj)
    rwa [Published, groups_append, groups_eq_nil_of_cell hfront, List.append_nil] at hpub

/-- After it was published and given up, a cell is left alone. -/
theorem Guarded.untouched (h : Guarded cells locked m (pre ++ post)) (hp : Published cells pre i)
    (hi : locked (after m pre i) = false) : ∀ a ∈ post, a.cell? ≠ some i := by
  induction post using List.reverseRecOn with
  | nil => simp
  | append_singleton post a ih =>
    rw [← List.append_assoc] at h
    obtain ⟨hfront, ha⟩ := guarded_snoc.mp h
    have hrest := ih hfront
    intro b hb
    rcases List.mem_append.mp hb with hb | hb
    · exact hrest b hb
    · obtain rfl := List.mem_singleton.mp hb
      intro hcell
      have hlocked := ha i hcell hp.mono
      rw [after_append, after_of_cell_ne hrest, hi] at hlocked
      simp at hlocked

theorem Guarded.final (h : Guarded cells locked m (pre ++ post)) (hp : Published cells pre i)
    (hi : locked (after m pre i) = false) : after m (pre ++ post) i = after m pre i := by
  rw [after_append]
  exact after_of_cell_ne (h.untouched hp hi)

/-- What the writer has done and still does, and the groups the reader has read. The
group at hand comes with the cells that are left and the values read so far. -/
structure Config (ι α β γ : Type*) where
  past : List (Access ι α β γ)
  future : List (Access ι α β γ)
  current : Option (β × List ι × List α)
  finished : List (β × List α)

/-- `read` takes a lock, reads and gives the lock up again: no access of the writer to the
cell falls in between, since the writer does not have the lock. -/
inductive Event
  | write
  | take
  | read
  | finish

def start (log : List (Access ι α β γ)) : Config ι α β γ := ⟨[], log, none, []⟩

variable (cells locked m) in
def step (s : Config ι α β γ) : Event → Option (Config ι α β γ)
  | .write =>
    match s.future with
    | [] => none
    | a :: future => some { s with past := s.past ++ [a], future := future }
  | .take =>
    match s.current, (groups s.past)[s.finished.length]? with
    | none, some b => some { s with current := some (b, cells b, []) }
    | _, _ => none
  | .read =>
    match s.current with
    | some (b, i :: rest, values) =>
      if locked (after m s.past i) then none
      else some { s with current := some (b, rest, values ++ [after m s.past i]) }
    | _ => none
  | .finish =>
    match s.current with
    | some (b, [], values) =>
      some { s with current := none, finished := s.finished ++ [(b, values)] }
    | _ => none

variable (cells m) in
/-- A group with the values its cells have in the end. -/
def Final (log : List (Access ι α β γ)) (b : β) : β × List α := (b, (cells b).map (after m log))

variable (cells m) in
/-- Everything read so far is final. -/
structure Reading (log : List (Access ι α β γ)) (s : Config ι α β γ) : Prop where
  all : s.past ++ s.future = log
  finished : ∃ rest, groups s.past = s.finished.map Prod.fst ++ rest
  values : ∀ p ∈ s.finished, p = Final cells m log p.1
  current : ∀ b rest values, s.current = some (b, rest, values) →
    (groups s.past)[s.finished.length]? = some b ∧ (∀ i ∈ rest, i ∈ cells b) ∧
      values ++ rest.map (after m log) = (cells b).map (after m log)

variable {s t : Config ι α β γ}

theorem reading_start (log : List (Access ι α β γ)) : Reading cells m log (start log) :=
  ⟨rfl, ⟨[], rfl⟩, by simp [start], by simp [start]⟩

omit [DecidableEq ι] in
theorem getElem?_groups_append {n : ℕ} {b : β} (post : List (Access ι α β γ)) (h : (groups pre)[n]? = some b) :
    (groups (pre ++ post))[n]? = some b := by
  rw [groups_append]
  exact List.getElem?_append_left (List.getElem?_eq_some_iff.mp h).1 ▸ h

theorem Reading.step (hg : Guarded cells locked m log) (h : Reading cells m log s) {e : Event}
    (hs : step cells locked m s e = some t) : Reading cells m log t := by
  cases e with
  | write =>
    rw [Handoff.step] at hs
    split at hs
    · simp at hs
    · next a future hfuture =>
      obtain rfl := Option.some.inj hs
      refine ⟨?_, ?_, h.values, fun b rest values hcur => ?_⟩
      · rw [← h.all, hfuture, List.append_assoc, List.singleton_append]
      · obtain ⟨rest, hrest⟩ := h.finished
        exact ⟨rest ++ groups [a], by rw [groups_append, hrest, List.append_assoc]⟩
      · obtain ⟨hb, hcells, hvalues⟩ := h.current b rest values hcur
        exact ⟨getElem?_groups_append _ hb, hcells, hvalues⟩
  | take =>
    rw [Handoff.step] at hs
    split at hs
    · next b hnone hb =>
      obtain rfl := Option.some.inj hs
      refine ⟨h.all, h.finished, h.values, fun b' rest values hcur => ?_⟩
      obtain ⟨rfl, rfl, rfl⟩ : b = b' ∧ cells b = rest ∧ [] = values := by simpa using hcur
      exact ⟨hb, fun i hi => hi, by simp⟩
    · simp at hs
  | read =>
    rw [Handoff.step] at hs
    split at hs
    · next b i rest values hcur =>
      split at hs
      · simp at hs
      · next hunlocked =>
        obtain rfl := Option.some.inj hs
        refine ⟨h.all, h.finished, h.values, fun b' rest' values' hcur' => ?_⟩
        obtain ⟨rfl, rfl, rfl⟩ : b = b' ∧ rest = rest' ∧ values ++ [after m s.past i] = values' := by
          simpa using hcur'
        obtain ⟨hb, hcells, hvalues⟩ := h.current b (i :: rest) values hcur
        refine ⟨hb, fun j hj => hcells j (List.mem_cons_of_mem _ hj), ?_⟩
        have hpub : Published cells s.past i := ⟨b, List.mem_of_getElem? hb, hcells i (by simp)⟩
        have hfinal := (h.all ▸ hg).final hpub (by simpa using hunlocked)
        rw [h.all] at hfinal
        rw [← hfinal, List.append_assoc, List.singleton_append, ← List.map_cons]
        exact hvalues
    · simp at hs
  | finish =>
    rw [Handoff.step] at hs
    split at hs
    · next b values hcur =>
      obtain rfl := Option.some.inj hs
      obtain ⟨hb, -, hvalues⟩ := h.current b [] values hcur
      rw [List.map_nil, List.append_nil] at hvalues
      refine ⟨h.all, ?_, ?_, by simp⟩
      · obtain ⟨rest, hrest⟩ := h.finished
        rw [hrest, List.getElem?_append_right (by simp), List.length_map, Nat.sub_self] at hb
        cases rest with
        | nil => simp at hb
        | cons c rest =>
          obtain rfl : c = b := by simpa using hb
          exact ⟨rest, by rw [hrest]; simp⟩
      · intro p hp
        rcases List.mem_append.mp hp with hp | hp
        · exact h.values p hp
        · obtain rfl := List.mem_singleton.mp hp
          exact Prod.ext rfl hvalues
    · simp at hs

variable (cells) in
/-- The cells read so far, with the values that were read. -/
def reads (s : Config ι α β γ) : List (ι × α) :=
  (s.finished.flatMap fun p => (cells p.1).zip p.2) ++
    match s.current with
    | none => []
    | some (b, _, values) => (cells b).zip values

omit [DecidableEq ι] in
theorem mem_zip_of_append {f : ι → α} {l : List ι} {values rest : List α}
    (h : values ++ rest = l.map f) {p : ι × α} (hp : p ∈ l.zip values) : p.1 ∈ l ∧ p.2 = f p.1 := by
  induction l generalizing values with
  | nil => simp at hp
  | cons i l ih =>
    cases values with
    | nil => simp at hp
    | cons v values =>
      rw [List.cons_append, List.map_cons] at h
      obtain ⟨hv, hrest⟩ := List.cons_eq_cons.mp h
      rw [List.zip_cons_cons, List.mem_cons] at hp
      cases hp with
      | inl hp =>
        rw [hp]
        exact ⟨List.mem_cons_self, hv⟩
      | inr hp => exact (ih hrest hp).imp_left (List.mem_cons_of_mem i)

/-- What was read is what the cell holds in the end. -/
theorem Reading.reads (h : Reading cells m log s) {p : ι × α} (hp : p ∈ Handoff.reads cells s) :
    Published cells log p.1 ∧ p.2 = after m log p.1 := by
  have hpub : ∀ b ∈ groups s.past, p.1 ∈ cells b → Published cells log p.1 := by
    intro b hb hi
    rw [← h.all]
    exact Published.mono ⟨b, hb, hi⟩
  rw [Handoff.reads, List.mem_append] at hp
  cases hp with
  | inl hp =>
    obtain ⟨q, hq, hp⟩ := List.mem_flatMap.mp hp
    obtain ⟨rest, hrest⟩ := h.finished
    have hvalues : q.2 ++ [] = (cells q.1).map (after m log) := by
      rw [List.append_nil]
      exact congrArg Prod.snd (h.values q hq)
    obtain ⟨hi, hv⟩ := mem_zip_of_append hvalues hp
    refine ⟨hpub q.1 ?_ hi, hv⟩
    rw [hrest]
    exact List.mem_append_left _ (List.mem_map_of_mem hq)
  | inr hp =>
    cases hcur : s.current with
    | none => simp [hcur] at hp
    | some c =>
      obtain ⟨b, rest, values⟩ := c
      rw [hcur] at hp
      obtain ⟨hb, -, hvalues⟩ := h.current b rest values hcur
      obtain ⟨hi, hv⟩ := mem_zip_of_append hvalues hp
      exact ⟨hpub b (List.mem_of_getElem? hb) hi, hv⟩

/-- In every reachable state. -/
theorem reading_of_run {es : List Event} (hg : Guarded cells locked m log)
    (h : Labelled.Run (step cells locked m) (fun _ _ => True) (start log) es s) :
    Reading cells m log s :=
  h.invariant (fun _ _ _ hi _ hs => hi.step hg hs) (reading_start log)

variable (cells) in
/-- The steps that are left. -/
def remaining (s : Config ι α β γ) : ℕ :=
  let cost (n : ℕ) : ℕ :=
    (((groups (s.past ++ s.future)).drop n).map fun b => (cells b).length + 2).sum
  s.future.length +
    match s.current with
    | none => cost s.finished.length
    | some (_, rest, _) => rest.length + 1 + cost (s.finished.length + 1)

theorem remaining_lt {e : Event} (hs : step cells locked m s e = some t) :
    remaining cells t < remaining cells s := by
  cases e with
  | write =>
    rw [step] at hs
    split at hs
    · simp at hs
    · next a future hfuture =>
      obtain rfl := Option.some.inj hs
      rw [remaining, remaining, hfuture, List.length_cons, List.append_assoc, List.singleton_append]
      exact Nat.add_lt_add_right (Nat.lt_succ_self _) _
  | take =>
    rw [step] at hs
    split at hs
    · next b hnone hb =>
      obtain rfl := Option.some.inj hs
      obtain ⟨hlt, heq⟩ := List.getElem?_eq_some_iff.mp
        (getElem?_groups_append s.future hb)
      rw [remaining, remaining, hnone]
      dsimp only
      rw [List.drop_eq_getElem_cons hlt, heq, List.map_cons, List.sum_cons]
      omega
    · simp at hs
  | read =>
    rw [step] at hs
    split at hs
    · next b i rest values hcur =>
      split at hs
      · simp at hs
      · obtain rfl := Option.some.inj hs
        rw [remaining, remaining, hcur]
        dsimp only
        rw [List.length_cons]
        omega
    · simp at hs
  | finish =>
    rw [step] at hs
    split at hs
    · next b values hcur =>
      obtain rfl := Option.some.inj hs
      rw [remaining, remaining, hcur]
      dsimp only
      rw [List.length_append, List.length_singleton, List.length_nil]
      omega
    · simp at hs

/-- When all published cells are unlocked in the end, the reader does not wait for ever: it
stops after the last group, and what it has read is what the cells hold in the end. -/
theorem finished_of_stuck {es : List Event} (hg : Guarded cells locked m log)
    (hend : ∀ i, Published cells log i → locked (after m log i) = false)
    (h : Labelled.Run (step cells locked m) (fun _ _ => True) (start log) es s)
    (hs : Labelled.Stuck (step cells locked m) s) :
    s.past = log ∧ s.current = none ∧ s.finished = (groups log).map (Final cells m log) := by
  have hread := reading_of_run hg h
  have hfuture : s.future = [] := by
    cases hf : s.future with
    | nil => rfl
    | cons a future =>
      have hw := hs .write
      simp [step, hf] at hw
  have hpast : s.past = log := by
    rw [← hread.all, hfuture, List.append_nil]
  have hcurrent : s.current = none := by
    cases hcur : s.current with
    | none => rfl
    | some p =>
      obtain ⟨b, rest, values⟩ := p
      cases rest with
      | nil =>
        have hf := hs .finish
        simp [step, hcur] at hf
      | cons i rest =>
        obtain ⟨hb, hcells, -⟩ := hread.current b (i :: rest) values hcur
        have hunlocked := hend i ⟨b, List.mem_of_getElem? (hpast ▸ hb), hcells i (by simp)⟩
        have hr := hs .read
        simp [step, hcur, hpast, hunlocked] at hr
  refine ⟨hpast, hcurrent, ?_⟩
  obtain ⟨rest, hrest⟩ := hread.finished
  rw [hpast] at hrest
  have hnil : rest = [] := by
    cases rest with
    | nil => rfl
    | cons c rest =>
      have ht := hs .take
      have hget : (groups s.past)[s.finished.length]? = some c := by
        rw [hpast, hrest, List.getElem?_append_right (by simp)]
        simp
      simp [step, hcurrent, hget] at ht
  rw [hrest, hnil, List.append_nil, List.map_map]
  refine (List.map_id s.finished).symm.trans (List.map_congr_left fun p hp => ?_)
  exact hread.values p hp

end Handoff
