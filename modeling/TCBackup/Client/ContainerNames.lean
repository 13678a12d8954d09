import TCBackup.Client.Store
import TCBackup.Lib.Labelled
import Mathlib

/-!
# Names of containers over many processes

Every client process counts its containers from the same value, and the name of
a container is the second and the count. The processes run one after the other
on one store; a history records which calls of `GetContainerName` named the
written containers and which named the empty slots of a restore cache.
-/

namespace TCBackup.Client.ContainerNames

open ByteFile Labelled

/-- The counter is an `int`. -/
def IsInt (x : ℤ) : Prop := -2 ^ 31 ≤ x ∧ x < 2 ^ 31

/-- Two calls in one second, as far as 32 bits tell, with the same count. -/
def Clash (a b : NameCall) : Prop := a.second ≡ b.second [ZMOD 2 ^ 32] ∧ a.randomabc = b.randomabc

theorem isInt_bmod (x : ℤ) : IsInt (x.bmod (2 ^ 32)) := by
  have h1 := Int.le_bmod (x := x) (m := 2 ^ 32) (by decide)
  have h2 := Int.bmod_lt (x := x) (m := 2 ^ 32) (by decide)
  constructor <;> omega

theorem length_intNumeral_le {x : ℤ} (h : IsInt x) : (intNumeral x).length ≤ 11 := by
  obtain ⟨h1, h2⟩ := h
  have hlen : (numeral 10 x.natAbs).length ≤ 10 :=
    length_numeral_le (by decide) (by omega) (by decide)
  rw [intNumeral]
  split
  · rw [List.length_cons]
    omega
  · omega

theorem length_second (c : NameCall) :
    (padded 11 (numeral 8 (c.second % 2 ^ 32).toNat)).length = 11 := by
  apply length_padded
  apply length_numeral_le (by decide) _ (by decide)
  have := Int.emod_lt_of_pos c.second (show (0 : ℤ) < 2 ^ 32 by decide)
  omega

theorem text_ne_zero (c : NameCall) : (0 : UInt8) ∉ c.text := by
  rw [NameCall.text, padded, List.mem_append, List.mem_append]
  rintro ((h | h) | h)
  · exact digitByte_ne_zero (by decide) (List.eq_of_mem_replicate h).symm
  · exact numeral_ne_zero (by decide) (by decide) h
  · rw [intNumeral] at h
    split at h
    · exact numeral_ne_zero (by decide) (by decide) (List.mem_of_ne_of_mem (by decide) h)
    · exact numeral_ne_zero (by decide) (by decide) h

theorem cstr_name {c : NameCall} (h : IsInt c.randomabc) : cstr c.name = c.text := by
  apply cstr_fixed _ (text_ne_zero c)
  have := length_intNumeral_le h
  rw [NameCall.text, List.length_append, length_second]
  omega

/-- A name determines the second, modulo `2 ^ 32`, and the count. -/
theorem cstr_name_eq_iff {a b : NameCall} (ha : IsInt a.randomabc) (hb : IsInt b.randomabc) :
    cstr a.name = cstr b.name ↔ Clash a b := by
  rw [cstr_name ha, cstr_name hb]
  constructor
  · intro h
    obtain ⟨h1, h2⟩ := List.append_inj h (by rw [length_second, length_second])
    have hs := padded_numeral_inj (by decide) (by decide) h1
    have ha' := Int.emod_nonneg a.second (show (2 ^ 32 : ℤ) ≠ 0 by decide)
    have hb' := Int.emod_nonneg b.second (show (2 ^ 32 : ℤ) ≠ 0 by decide)
    exact ⟨show a.second % 2 ^ 32 = b.second % 2 ^ 32 by omega, intNumeral_injective h2⟩
  · rintro ⟨h1, h2⟩
    have h1 : a.second % 2 ^ 32 = b.second % 2 ^ 32 := h1
    rw [NameCall.text, NameCall.text, h1, h2]

/-- The disk and the process that runs. `named` is the call that named the open
container, `written` and `placeholders` the calls that named the containers
written and the cache slots filled so far. -/
structure Machine where
  disk : Disk
  names : Names
  container : Option Container
  restore : Option (HTable 64 Unit × List Container)
  named : Option NameCall
  written : List NameCall
  placeholders : List NameCall

inductive Event
  | start
  | storeInit
  | storeChunk (chunk : Chunk)
  | storeDestory
  | restoreInit
  | restoreChunk (chunk : Chunk)

/-- An empty store. -/
def init : Machine := ⟨.empty, ⟨1, []⟩, none, none, none, [], []⟩

/-- The calls of `GetContainerName` that one function made. -/
def issued (before after : Names) : List NameCall := after.calls.drop before.calls.length

variable (clock : ℕ → ℤ)

def step (s : Machine) : Event → Option Machine
  | .start =>
    some { s with names := s.names.start, container := none, restore := none, named := none }
  | .storeInit =>
    let t := storeInit clock s.disk s.names
    some { s with
      names := t.names
      container := some t.container
      named := (issued s.names t.names).getLast? }
  | .storeChunk chunk =>
    match s.container with
    | none => none
    | some container =>
      let t := (storeChunk clock ⟨s.disk, s.names, container⟩ chunk).2
      let s' := { s with disk := t.disk, names := t.names, container := some t.container }
      match (issued s.names t.names).getLast? with
      | none => some s'
      | some call => some { s' with named := some call, written := s.written ++ s.named.toList }
  | .storeDestory =>
    match s.container with
    | none => none
    | some container =>
      some { s with
        disk := storeDestory ⟨s.disk, s.names, container⟩
        container := none
        named := none
        written := if 0 < container.chunk_num then s.written ++ s.named.toList else s.written }
  | .restoreInit =>
    let r := restoreInit clock s.names
    some { s with
      names := r.names
      restore := some (r.got_containers, r.restore_cache)
      placeholders := s.placeholders ++ issued s.names r.names }
  | .restoreChunk chunk =>
    match s.restore with
    | none => none
    | some (got, cache) =>
      let r := (restoreChunk clock s.disk ⟨s.names, got, cache⟩ chunk).2
      some { s with
        names := r.names
        restore := some (r.got_containers, r.restore_cache)
        placeholders := s.placeholders ++ issued s.names r.names }

/-- The names of the container files, in the order of the writes. -/
def containerNames (log : List DiskWrite) : List Bytes :=
  log.filterMap fun
    | .container name _ => some name
    | _ => none

/-- No container is written under the name of an earlier one, and no cache slot
was given the name of a written container. -/
def UniqueNames (s : Machine) : Prop :=
  (containerNames s.disk.log).Nodup ∧
    ∀ p ∈ s.placeholders, cstr p.name ∉ containerNames s.disk.log

/-- No two of the calls behind the written containers were made in one second with
the same count, nor a call for a written container and one for a cache slot. -/
def NoClash (s : Machine) : Prop :=
  s.written.Pairwise (fun a b => ¬Clash a b) ∧
    ∀ p ∈ s.placeholders, ∀ w ∈ s.written, ¬Clash p w

structure Recorded (s : Machine) : Prop where
  ints : ∀ c ∈ s.names.calls, IsInt c.randomabc
  container : ∀ c, s.container = some c → ∃ call ∈ s.names.calls, s.named = some call ∧
    c.name = call.name
  log : containerNames s.disk.log = s.written.map fun c => cstr c.name
  written : s.written ⊆ s.names.calls
  placeholders : s.placeholders ⊆ s.names.calls

theorem init_recorded : Recorded init :=
  ⟨by simp [init], by simp [init], rfl, by simp [init], by simp [init]⟩

/-- One more call. -/
def nextCall (n : Names) : NameCall := ⟨clock n.calls.length, (n.randomabc + 1).bmod (2 ^ 32)⟩

@[simp] theorem initContainer_name (n : Names) :
    (initContainer clock n).1.name = (nextCall clock n).name := rfl

@[simp] theorem initContainer_calls (n : Names) :
    (initContainer clock n).2.calls = n.calls ++ [nextCall clock n] := rfl

theorem isInt_nextCall (n : Names) : IsInt (nextCall clock n).randomabc := isInt_bmod _

@[simp] theorem appendChunkToContainer_name (c : Container) (chunk : Chunk) :
    (appendChunkToContainer c chunk).2.name = c.name := by
  rw [appendChunkToContainer]
  split <;> rfl

/-- Calls are only added, and they count on from the counter. -/
structure Extends (n n' : Names) : Prop where
  calls : n'.calls = n.calls ++ issued n n'
  randomabc : n'.randomabc.bmod (2 ^ 32) = (n.randomabc + (issued n n').length).bmod (2 ^ 32)
  counts : ∀ (i : ℕ) (c : NameCall), (issued n n')[i]? = some c →
    c.randomabc = (n.randomabc + (i + 1)).bmod (2 ^ 32)

theorem Extends.refl {n n' : Names} (hc : n'.calls = n.calls) (hr : n'.randomabc = n.randomabc) :
    Extends n n' := by
  have hissued : issued n n' = [] := by simp [issued, hc]
  refine ⟨by simp [hissued, hc], by simp [hissued, hr], by simp [hissued]⟩

theorem Extends.isInt {n n' : Names} (h : Extends n n') {c : NameCall} (hc : c ∈ issued n n') :
    IsInt c.randomabc := by
  obtain ⟨i, hi⟩ := List.mem_iff_getElem?.mp hc
  rw [h.counts i c hi]
  exact isInt_bmod _

theorem Extends.trans {n n' n'' : Names} (h : Extends n n') (h' : Extends n' n'') :
    Extends n n'' := by
  have hissued : issued n n'' = issued n n' ++ issued n' n'' := by
    rw [issued, h'.calls, h.calls, List.append_assoc, List.drop_left]
  have hr : ∀ x : ℤ, (n'.randomabc + x).bmod (2 ^ 32) =
      (n.randomabc + ((issued n n').length + x)).bmod (2 ^ 32) := by
    intro x
    rw [← Int.bmod_add_bmod (x := n'.randomabc), h.randomabc, Int.bmod_add_bmod, Int.add_assoc]
  refine ⟨?_, ?_, ?_⟩
  · rw [hissued, ← List.append_assoc, ← h.calls, ← h'.calls]
  · rw [h'.randomabc, hr, hissued, List.length_append, Nat.cast_add]
  · intro i c hi
    rw [hissued] at hi
    rcases Nat.lt_or_ge i (issued n n').length with hlt | hge
    · rw [List.getElem?_append_left hlt] at hi
      exact h.counts i c hi
    · rw [List.getElem?_append_right hge] at hi
      rw [h'.counts _ c hi, hr]
      congr 1
      omega

theorem extends_init (n : Names) : Extends n (initContainer clock n).2 := by
  have hissued : issued n (initContainer clock n).2 = [nextCall clock n] := by
    simp [issued]
  have hr : (initContainer clock n).2.randomabc = (n.randomabc + 1).bmod (2 ^ 32) := rfl
  refine ⟨by rw [hissued]; rfl, by rw [hissued, hr, Int.bmod_bmod]; rfl, ?_⟩
  intro i c hi
  rw [hissued] at hi
  cases i with
  | zero =>
    obtain rfl := Option.some.inj hi
    rfl
  | succ i => simp at hi

theorem initCache_extends (k : ℕ) (n : Names) : Extends n (initCache clock k n).2 := by
  induction k generalizing n with
  | zero => exact .refl rfl rfl
  | succ k ih => exact (extends_init clock n).trans (ih _)

theorem restoreChunk_extends (d : Disk) (r : Restore) (chunk : Chunk) :
    Extends r.names (restoreChunk clock d r chunk).2.names := by
  have hinit := extends_init clock r.names
  rw [restoreChunk, searchCache]
  cases unlinkName chunk.address r.restore_cache with
  | some p => exact .refl rfl rfl
  | none =>
    dsimp only
    split <;> exact hinit

theorem containerNames_append (a b : List DiskWrite) :
    containerNames (a ++ b) = containerNames a ++ containerNames b :=
  List.filterMap_append ..

theorem containerNames_writeContainer (d : Disk) (c : Container) :
    containerNames (writeContainer d c).log = containerNames d.log ++ [cstr c.name] := by
  rw [writeContainer, Disk.write_log, containerNames_append]
  rfl

/-- Recording more calls as placeholders, with the store untouched. -/
theorem Recorded.extend {s t : Machine} (h : Recorded s) (hn : Extends s.names t.names)
    (hd : t.disk = s.disk) (hc : t.container = s.container) (hnamed : t.named = s.named)
    (hw : t.written = s.written)
    (hp : t.placeholders = s.placeholders ++ issued s.names t.names) : Recorded t := by
  have hsub : s.names.calls ⊆ t.names.calls := by
    rw [hn.calls]
    exact List.subset_append_left _ _
  refine ⟨?_, ?_, ?_, ?_, ?_⟩
  · intro c hmem
    rw [hn.calls, List.mem_append] at hmem
    rcases hmem with hmem | hmem
    · exact h.ints c hmem
    · exact hn.isInt hmem
  · intro c hsome
    obtain ⟨call, hcall, hnm, heq⟩ := h.container c (hc ▸ hsome)
    exact ⟨call, hsub hcall, hnamed.trans hnm, heq⟩
  · rw [hd, hw, h.log]
  · rw [hw]
    exact List.Subset.trans h.written hsub
  · rw [hp, hn.calls]
    exact List.append_subset.mpr ⟨List.Subset.trans h.placeholders (List.subset_append_left _ _),
      List.subset_append_right _ _⟩

theorem Recorded.storeInit {s t : Machine} (h : Recorded s)
    (hs : step clock s .storeInit = some t) : Recorded t := by
  have hlast : (issued s.names (initContainer clock s.names).2).getLast? =
      some (nextCall clock s.names) := by
    simp [issued]
  rw [step, Client.storeInit] at hs
  obtain rfl := Option.some.inj hs
  refine ⟨?_, ?_, h.log, ?_, ?_⟩
  · intro c hc
    rcases List.mem_append.mp hc with hc | hc
    · exact h.ints c hc
    · obtain rfl := List.mem_singleton.mp hc
      exact isInt_nextCall clock _
  · intro c hc
    obtain rfl := Option.some.inj hc
    exact ⟨_, List.mem_append_right _ (List.mem_singleton_self _), hlast, rfl⟩
  · exact fun c hc => List.mem_append_left _ (h.written hc)
  · exact fun c hc => List.mem_append_left _ (h.placeholders hc)

/-- A chunk either fits, or the open container is written and a new one named. -/
theorem Recorded.storeChunk {s t : Machine} {chunk : Chunk} (h : Recorded s)
    (hs : step clock s (.storeChunk chunk) = some t) : Recorded t := by
  rw [step] at hs
  split at hs
  · simp at hs
  · next container hsome =>
    obtain ⟨call, hcall, hnamed, hname⟩ := h.container container hsome
    cases hfull : containerFull container chunk.length with
    | false =>
      rw [storeChunk_room clock (s := ⟨s.disk, s.names, container⟩) hfull] at hs
      simp only [issued, List.drop_length, List.getLast?_nil] at hs
      obtain rfl := Option.some.inj hs
      refine ⟨h.ints, ?_, h.log, h.written, h.placeholders⟩
      intro c hc
      obtain rfl := Option.some.inj hc
      exact ⟨call, hcall, hnamed, hname⟩
    | true =>
      rw [storeChunk_full clock (s := ⟨s.disk, s.names, container⟩) hfull] at hs
      have hlast : (issued s.names (initContainer clock s.names).2).getLast? =
          some (nextCall clock s.names) := by
        simp [issued]
      simp only [hlast] at hs
      obtain rfl := Option.some.inj hs
      refine ⟨?_, ?_, ?_, ?_, ?_⟩
      · intro c hc
        rcases List.mem_append.mp hc with hc | hc
        · exact h.ints c hc
        · obtain rfl := List.mem_singleton.mp hc
          exact isInt_nextCall clock _
      · intro c hc
        obtain rfl := Option.some.inj hc
        refine ⟨_, List.mem_append_right _ (List.mem_singleton_self _), rfl, ?_⟩
        rw [appendChunkToContainer_name]
        rfl
      · simp only [containerNames_writeContainer, h.log, hnamed, Option.toList_some,
          List.map_append, List.map_cons, List.map_nil, hname]
      · intro c hc
        apply List.mem_append_left
        rcases List.mem_append.mp hc with hc | hc
        · exact h.written hc
        · rw [hnamed, Option.toList_some, List.mem_singleton] at hc
          exact hc ▸ hcall
      · exact fun c hc => List.mem_append_left _ (h.placeholders hc)

theorem Recorded.storeDestory {s t : Machine} (h : Recorded s)
    (hs : step clock s .storeDestory = some t) : Recorded t := by
  rw [step] at hs
  split at hs
  · simp at hs
  · next container hsome =>
    obtain ⟨call, hcall, hnamed, hname⟩ := h.container container hsome
    obtain rfl := Option.some.inj hs
    refine ⟨h.ints, by simp, ?_, ?_, h.placeholders⟩
    · dsimp only
      rw [Client.storeDestory]
      split
      · simp only [containerNames_writeContainer, h.log, hnamed, Option.toList_some,
          List.map_append, List.map_cons, List.map_nil, hname]
      · exact h.log
    · dsimp only
      split
      · refine List.append_subset.mpr ⟨h.written, ?_⟩
        rw [hnamed, Option.toList_some]
        exact fun c hc => List.mem_singleton.mp hc ▸ hcall
      · exact h.written

/-- Only a new process sets the counter back. -/
theorem step_extends {s t : Machine} {e : Event} (he : e ≠ .start)
    (hs : step clock s e = some t) : Extends s.names t.names := by
  cases e with
  | start => exact absurd rfl he
  | storeInit =>
    obtain rfl := Option.some.inj hs
    exact extends_init clock s.names
  | storeChunk chunk =>
    rw [step] at hs
    split at hs
    · simp at hs
    · next container hsome =>
      have hn : Extends s.names (storeChunk clock ⟨s.disk, s.names, container⟩ chunk).2.names := by
        cases hfull : containerFull container chunk.length with
        | false =>
          rw [storeChunk_room clock (s := ⟨s.disk, s.names, container⟩) hfull]
          exact .refl rfl rfl
        | true =>
          rw [storeChunk_full clock (s := ⟨s.disk, s.names, container⟩) hfull]
          exact extends_init clock s.names
      dsimp only at hs
      split at hs <;> obtain rfl := Option.some.inj hs <;> exact hn
  | storeDestory =>
    rw [step] at hs
    split at hs
    · simp at hs
    · obtain rfl := Option.some.inj hs
      exact .refl rfl rfl
  | restoreInit =>
    obtain rfl := Option.some.inj hs
    exact initCache_extends clock restoreCacheSize s.names
  | restoreChunk chunk =>
    rw [step] at hs
    split at hs
    · simp at hs
    · obtain rfl := Option.some.inj hs
      exact restoreChunk_extends clock _ ⟨s.names, _, _⟩ chunk

theorem Recorded.step {s t : Machine} {e : Event} (h : Recorded s)
    (hs : ContainerNames.step clock s e = some t) : Recorded t := by
  cases e with
  | start =>
    obtain rfl := Option.some.inj hs
    exact ⟨h.ints, by simp, h.log, h.written, h.placeholders⟩
  | storeInit => exact h.storeInit clock hs
  | storeChunk chunk => exact h.storeChunk clock hs
  | storeDestory => exact h.storeDestory clock hs
  | restoreInit =>
    have hn := step_extends clock (by simp) hs
    obtain rfl := Option.some.inj hs
    exact h.extend hn rfl rfl rfl rfl rfl
  | restoreChunk chunk =>
    have hn := step_extends clock (by simp) hs
    rw [ContainerNames.step] at hs
    split at hs
    · simp at hs
    · obtain rfl := Option.some.inj hs
      exact h.extend hn rfl rfl rfl rfl rfl

/-- Two calls of one process never clash. -/
theorem no_clash_in_process {s t : Machine} {es : List Event}
    (h : Run (step clock) (fun _ e => e ≠ .start) s es t)
    (hlen : (issued s.names t.names).length ≤ 2 ^ 32) :
    (issued s.names t.names).Pairwise fun a b => ¬Clash a b := by
  have hstep : ∀ u e v, Extends s.names u.names → e ≠ .start → step clock u e = some v →
      Extends s.names v.names := fun _ _ _ hi hc hs => hi.trans (step_extends clock hc hs)
  have hn := h.invariant hstep (.refl rfl rfl)
  rw [List.pairwise_iff_getElem]
  intro i j hi hj hij hclash
  have h1 := hn.counts i _ (List.getElem?_eq_getElem hi)
  have h2 := hn.counts j _ (List.getElem?_eq_getElem hj)
  have heq := hclash.2
  rw [h1, h2] at heq
  have hmod := congrArg (· % ((2 ^ 32 : ℕ) : ℤ)) heq
  simp only [Int.bmod_emod] at hmod
  omega

theorem Recorded.unique_iff {s : Machine} (h : Recorded s) : UniqueNames s ↔ NoClash s := by
  rw [UniqueNames, NoClash, h.log, List.Nodup, List.pairwise_map]
  refine and_congr ?_ ?_
  · apply List.Pairwise.iff_of_mem
    intro a b ha hb
    exact not_congr (cstr_name_eq_iff (h.ints a (h.written ha)) (h.ints b (h.written hb)))
  · refine forall₂_congr fun p hp => ?_
    have hp := h.ints p (h.placeholders hp)
    constructor
    · intro hno w hw hclash
      refine hno (List.mem_map.mpr ⟨w, hw, ?_⟩)
      exact ((cstr_name_eq_iff hp (h.ints w (h.written hw))).mpr hclash).symm
    · intro hno hmem
      obtain ⟨w, hw, heq⟩ := List.mem_map.mp hmem
      exact hno w hw ((cstr_name_eq_iff hp (h.ints w (h.written hw))).mp heq.symm)

theorem recorded_of_run {s : Machine} {es : List Event}
    (h : Run (step clock) (fun _ _ => True) init es s) : Recorded s :=
  h.invariant (fun _ _ _ hr _ hs => hr.step clock hs) init_recorded

/-- Container names are unique exactly when no two of the calls that count were
made in one second with the same count. -/
theorem unique_names_iff {s : Machine} {es : List Event}
    (h : Run (step clock) (fun _ _ => True) init es s) : UniqueNames s ↔ NoClash s :=
  (recorded_of_run clock h).unique_iff

/-- A chunk of one byte. -/
def oneByte (b : UInt8) : Chunk := ⟨1, fixed 20 [b], fixed 64 [], [b]⟩

/-- A process that stores one chunk. -/
def backup (b : UInt8) : List Event := [.start, .storeInit, .storeChunk (oneByte b), .storeDestory]

/-- Backups in different seconds name their containers apart, and so does a restore after them. -/
theorem unique_names_iff_backup :
    ∃ s, Run (step fun n => n) (fun _ _ => True) init (backup 1 ++ backup 2 ++ [.start, .restoreInit]) s ∧
      s.written.length = 2 ∧ UniqueNames s := by
  obtain ⟨s, hrun, hw, hp⟩ : ∃ s, Run (step fun n => n) (fun _ _ => True) init
      (backup 1 ++ backup 2 ++ [.start, .restoreInit]) s ∧
      s.written = [⟨0, 2⟩, ⟨1, 2⟩] ∧ s.placeholders = [⟨2, 2⟩, ⟨3, 3⟩, ⟨4, 4⟩, ⟨5, 5⟩] :=
    ⟨_, run_of_exec rfl, rfl, rfl⟩
  refine ⟨s, hrun, by rw [hw]; rfl, (unique_names_iff _ hrun).mpr ?_⟩
  rw [NoClash, hw, hp]
  simp only [Clash]
  decide

/-- Two backups within one second write two containers under one name, and the
cache of a restore within the same second starts with that name, too. -/
theorem names_clash : Monotone (fun _ : ℕ => (0 : ℤ)) ∧
    (∃ s, Run (step fun _ => 0) (fun _ _ => True) init (backup 1 ++ backup 2) s ∧
      ¬(containerNames s.disk.log).Nodup) ∧
    ∃ s, Run (step fun _ => 0) (fun _ _ => True) init (backup 1 ++ [.start, .restoreInit]) s ∧
      ∃ p ∈ s.placeholders, cstr p.name ∈ containerNames s.disk.log := by
  refine ⟨monotone_const, ?_, ?_⟩
  · obtain ⟨s, hrun, hw⟩ : ∃ s, Run (step fun _ => 0) (fun _ _ => True) init
        (backup 1 ++ backup 2) s ∧ s.written = [⟨0, 2⟩, ⟨0, 2⟩] := ⟨_, run_of_exec rfl, rfl⟩
    refine ⟨s, hrun, ?_⟩
    rw [(recorded_of_run _ hrun).log, hw]
    simp
  · obtain ⟨s, hrun, hw, hp⟩ : ∃ s, Run (step fun _ => 0) (fun _ _ => True) init
        (backup 1 ++ [.start, .restoreInit]) s ∧ s.written = [⟨0, 2⟩] ∧
        s.placeholders = [⟨0, 2⟩, ⟨0, 3⟩, ⟨0, 4⟩, ⟨0, 5⟩] := ⟨_, run_of_exec rfl, rfl, rfl⟩
    refine ⟨s, hrun, ⟨0, 2⟩, by simp [hp], ?_⟩
    rw [(recorded_of_run _ hrun).log, hw]
    simp

end TCBackup.Client.ContainerNames
