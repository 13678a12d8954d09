import TCBackup.Client.ChunkLife

/-!
# Chunks that wait

A rewrite policy keeps chunks back, and decides them one after the other when it flushes
its buffer.

## Main definitions

- `runWhile` — a loop that ends at the first error
- `AtHand` — the chunks of the file being processed
- `Waiting` — the chunks in a buffer

## Main results

- `Waiting.flush` — a flush settles all chunks that wait
- `markNewFile_steps` — without rewriting a file is settled at once
-/

namespace TCBackup.Client

open ByteFile Handoff

section Loops

variable {α β τ : Type*}

/-- The loop goes on while its body returns `true`. -/
def runWhile (body : α → τ → Bool × τ) : List α → τ → Bool × τ
  | [], t => (true, t)
  | a :: as, t =>
    match body a t with
    | (true, t) => runWhile body as t
    | (false, t) => (false, t)

theorem runWhile_of_true {body : α → τ → Bool × τ} {a : α} {t t' : τ} (h : body a t = (true, t'))
    (l : List α) : runWhile body (a :: l) t = runWhile body l t' := by
  rw [runWhile, h]

theorem runWhile_of_false {body : α → τ → Bool × τ} {a : α} {t t' : τ} (h : body a t = (false, t'))
    (l : List α) : runWhile body (a :: l) t = (false, t') := by
  rw [runWhile, h]

theorem runWhile_append (body : α → τ → Bool × τ) (l l' : List α) (t : τ) :
    runWhile body (l ++ l') t =
      match runWhile body l t with
      | (true, t) => runWhile body l' t
      | (false, t) => (false, t) := by
  induction l generalizing t with
  | nil => rfl
  | cons a l ih =>
    rw [List.cons_append, runWhile, runWhile]
    split
    · exact ih _
    · rfl

/-- A loop over lists of lists. -/
theorem runWhile_flatMap {ρ : Type*} (body : ρ → β → τ → Bool × τ) (g : α → ρ) (f : α → List β)
    (l : List α) (t : τ) :
    runWhile (fun a => runWhile (body (g a)) (f a)) l t =
      runWhile (fun p : β × ρ => body p.2 p.1) (l.flatMap fun a => (f a).map fun b => (b, g a)) t := by
  have hinner : ∀ (c : ρ) (bs : List β) (t : τ), runWhile (body c) bs t =
      runWhile (fun p : β × ρ => body p.2 p.1) (bs.map fun b => (b, c)) t := by
    intro c bs
    induction bs with
    | nil => exact fun t => rfl
    | cons b bs ih =>
      intro t
      rw [List.map_cons]
      cases hbody : body c b t with
      | mk ok t' =>
        cases ok with
        | true =>
          rw [runWhile_of_true hbody, runWhile_of_true (a := (b, c)) hbody]
          exact ih t'
        | false => rw [runWhile_of_false hbody, runWhile_of_false (a := (b, c)) hbody]
  induction l generalizing t with
  | nil => rfl
  | cons a l ih =>
    rw [List.flatMap_cons, runWhile_append, ← hinner, runWhile]
    split
    · exact ih _
    · rfl

/-- A loop without errors is a fold. -/
theorem runWhile_true (f : α → τ → τ) (l : List α) (t : τ) :
    runWhile (fun a t => (true, f a t)) l t = (true, l.foldl (fun t a => f a t) t) := by
  induction l generalizing t with
  | nil => rfl
  | cons a l ih => exact ih (f a t)

end Loops

variable {sha1 : Bytes → Fingerprint} {clock : ℕ → ℤ} {cells : FileInfo ℕ → List ℕ}
  {w w' : Work} {σ σ' : ℕ → Stage} {S : ℕ → Prop}

theorem ChunkOf.samePlace {file : Bytes} {fc fc' : FingerChunk} (h : ChunkOf sha1 file fc)
    (hsame : SamePlace fc fc') : ChunkOf sha1 file fc' := by
  obtain ⟨hhash, hlen, hoff⟩ := hsame
  refine ⟨?_, ?_, ?_, ?_⟩
  · rw [hhash, hlen, hoff]
    exact h.hash
  · rw [hlen, hoff]
    exact h.inside
  · rw [hlen]
    exact h.pos
  · rw [hlen]
    exact h.len

/-- No chunk stops being fresh. -/
def noFile : ℕ → Prop := fun _ => False

theorem Steps.of_step (h : Step sha1 clock S (w, σ) (w', σ')) : Steps sha1 clock S (w, σ) (w', σ') :=
  Relation.ReflTransGen.single h

theorem Steps.of_noFile {p q : Staged} (h : Steps sha1 clock noFile p q) : Steps sha1 clock S p q :=
  h.mono fun _ hf => hf.elim

theorem Steps.fresh (h : Steps sha1 clock S (w, σ) (w', σ')) {r : ℕ} (hr : ¬S r)
    (hfresh : σ r = .fresh) : σ' r = .fresh := by
  cases h.stage hr with
  | inl hsame => exact hsame.1.trans hfresh
  | inr hset => simp [hfresh] at hset

/-- The chunks of a file with these bytes, before they are looked up. -/
structure AtHand (sha1 : Bytes → Fingerprint) (file : Bytes) (rs : List ℕ) (w : Work)
    (σ : ℕ → Stage) : Prop where
  nodup : rs.Nodup
  fresh : ∀ r ∈ rs, σ r = .fresh
  place : ∀ r ∈ rs, ChunkOf sha1 file (w.chunk r)

variable {file : Bytes} {r : ℕ} {rs : List ℕ}

/-- The first chunk is processed. -/
theorem AtHand.next (h : AtHand sha1 file (r :: rs) w σ) {s : Stage}
    (hs : Step sha1 clock S (w, σ) (w', Function.update σ r s)) :
    AtHand sha1 file rs w' (Function.update σ r s) := by
  obtain ⟨hr, hnodup⟩ := List.nodup_cons.mp h.nodup
  refine ⟨hnodup, fun r' hr' => ?_, fun r' hr' => ?_⟩
  · have hne : r' ≠ r := by
      rintro rfl
      exact hr hr'
    rw [Function.update_of_ne hne]
    exact h.fresh r' (List.mem_cons_of_mem _ hr')
  · exact (h.place r' (List.mem_cons_of_mem _ hr')).samePlace (hs.at r').1

/-- The first chunk is processed, and others are settled meanwhile. -/
theorem AtHand.rest (h : AtHand sha1 file (r :: rs) w σ)
    (hs : Steps sha1 clock (· = r) (w, σ) (w', σ')) : AtHand sha1 file rs w' σ' := by
  obtain ⟨hr, hnodup⟩ := List.nodup_cons.mp h.nodup
  refine ⟨hnodup, fun r' hr' => ?_, fun r' hr' => ?_⟩
  · refine hs.fresh ?_ (h.fresh r' (List.mem_cons_of_mem _ hr'))
    rintro rfl
    exact hr hr'
  · exact (h.place r' (List.mem_cons_of_mem _ hr')).samePlace (hs.samePlace r')

variable {content : Bytes → Bytes} {buf : List (ℕ × Bytes)} {path : Bytes}

/-- The chunks that wait, with the paths of their files. -/
structure Waiting (sha1 : Bytes → Fingerprint) (content : Bytes → Bytes) (buf : List (ℕ × Bytes))
    (w : Work) (σ : ℕ → Stage) : Prop where
  nodup : (buf.map Prod.fst).Nodup
  pending : ∀ r, σ r = .pending ↔ r ∈ buf.map Prod.fst
  place : ∀ p ∈ buf, ChunkOf sha1 (content p.2) (w.chunk p.1)

theorem Waiting.place_of_step (h : Waiting sha1 content buf w σ) (hs : Step sha1 clock S (w, σ) (w', σ')) :
    ∀ p ∈ buf, ChunkOf sha1 (content p.2) (w'.chunk p.1) :=
  fun p hp => (h.place p hp).samePlace (hs.at p.1).1

/-- A chunk joins the buffer. -/
theorem Waiting.enter (h : Waiting sha1 content buf w σ) (hr : σ r ≠ .pending)
    (hplace : ChunkOf sha1 (content path) (w.chunk r))
    (hs : Step sha1 clock S (w, σ) (w', Function.update σ r .pending)) :
    Waiting sha1 content (buf ++ [(r, path)]) w' (Function.update σ r .pending) := by
  have hnot : r ∉ buf.map Prod.fst := by
    rw [← h.pending]
    exact hr
  refine ⟨?_, fun r' => ?_, fun p hp => ?_⟩
  · rw [List.map_append, List.map_singleton, List.nodup_append]
    exact ⟨h.nodup, List.nodup_singleton _, by simpa using fun a b hab => fun heq => hnot (by
      rw [← heq]
      exact List.mem_map_of_mem hab)⟩
  · rw [List.map_append, List.mem_append, List.map_singleton, List.mem_singleton, ← h.pending r']
    by_cases heq : r' = r
    · simp [heq]
    · simp [heq]
  · rcases List.mem_append.mp hp with hp | hp
    · exact h.place_of_step hs p hp
    · obtain rfl := List.mem_singleton.mp hp
      exact hplace.samePlace (hs.at r).1

/-- A chunk does not join the buffer. -/
theorem Waiting.pass (h : Waiting sha1 content buf w σ) {t : Stage} (hr : σ r ≠ .pending)
    (ht : t ≠ .pending) (hs : Step sha1 clock S (w, σ) (w', Function.update σ r t)) :
    Waiting sha1 content buf w' (Function.update σ r t) := by
  refine ⟨h.nodup, fun r' => ?_, h.place_of_step hs⟩
  rw [← h.pending r']
  by_cases heq : r' = r
  · rw [heq, Function.update_self]
    exact iff_of_false ht hr
  · rw [Function.update_of_ne heq]

/-- The first chunk leaves the buffer. -/
theorem Waiting.leave {p : ℕ × Bytes} (h : Waiting sha1 content (p :: buf) w σ)
    (hs : Step sha1 clock S (w, σ) (w', Function.update σ p.1 .settled)) :
    Waiting sha1 content buf w' (Function.update σ p.1 .settled) := by
  obtain ⟨hnot, hnodup⟩ := List.nodup_cons.mp h.nodup
  refine ⟨hnodup, fun r' => ?_, fun q hq => h.place_of_step hs q (List.mem_cons_of_mem _ hq)⟩
  by_cases heq : r' = p.1
  · simp only [heq, Function.update_self, reduceCtorEq, false_iff]
    exact hnot
  · rw [Function.update_of_ne heq, h.pending r', List.map_cons, List.mem_cons]
    exact or_iff_right heq

/-- A flush settles all chunks that wait. `P` is what the policy knows of each of them. -/
theorem Waiting.flush {P : FingerChunk → Prop} (clock : ℕ → ℤ) (body : ℕ × Bytes → Work → Bool × Work)
    (hbody : ∀ w σ p, Life cells w σ → σ p.1 = .pending → ChunkOf sha1 (content p.2) (w.chunk p.1) →
      P (w.chunk p.1) → (body p w).1 = true ∧
        Step sha1 clock noFile (w, σ) ((body p w).2, Function.update σ p.1 .settled))
    (h : Life cells w σ) (hw : Waiting sha1 content buf w σ) (hP : ∀ p ∈ buf, P (w.chunk p.1)) :
    (runWhile body buf w).1 = true ∧ ∃ σ', Steps sha1 clock noFile (w, σ) ((runWhile body buf w).2, σ') ∧
      Waiting sha1 content [] (runWhile body buf w).2 σ' := by
  induction buf generalizing w σ with
  | nil => exact ⟨rfl, σ, Steps.refl w σ, hw⟩
  | cons p buf ih =>
    have hpending : σ p.1 = .pending := (hw.pending p.1).mpr (by simp)
    obtain ⟨htrue, hstep⟩ := hbody w σ p h hpending (hw.place p (by simp)) (hP p (by simp))
    have hrest := hw.leave hstep
    have hP' : ∀ q ∈ buf, P ((body p w).2.chunk q.1) := by
      intro q hq
      rcases (hstep.at q.1).2 with ⟨-, hsame⟩ | ⟨hbad, -⟩ | ⟨-, hset⟩
      · rw [hsame]
        exact hP q (List.mem_cons_of_mem _ hq)
      · exact hbad.elim
      · have hstill := (hrest.pending q.1).mpr (List.mem_map_of_mem hq)
        rw [hset] at hstill
        simp at hstill
    obtain ⟨hall, σ', hsteps, hend⟩ := ih (h.step hstep) hrest hP'
    rw [runWhile_of_true (Prod.ext htrue rfl : body p w = (true, (body p w).2))]
    exact ⟨hall, σ', (Steps.of_step hstep).trans hsteps, hend⟩

/-- The chunks lie one after the other from `size` on. -/
def InRow (w : Work) : ℕ → List ℕ → Prop
  | _, [] => True
  | size, r :: rs => (w.chunk r).offset = size ∧ InRow w (size + (w.chunk r).chunklen) rs

theorem InRow.samePlace {size : ℕ} (h : InRow w size rs)
    (hsame : ∀ r ∈ rs, SamePlace (w.chunk r) (w'.chunk r)) : InRow w' size rs := by
  induction rs generalizing size with
  | nil => trivial
  | cons r rs ih =>
    obtain ⟨-, hlen, hoff⟩ := hsame r (by simp)
    refine ⟨hoff.trans h.1, ?_⟩
    rw [hlen]
    exact ih h.2 fun r' hr' => hsame r' (List.mem_cons_of_mem _ hr')

theorem markNewFile_steps (clock : ℕ → ℤ) {size : ℕ} (h : Life cells w σ) (hfile : AtHand sha1 file rs w σ)
    (hrow : InRow w size rs) (hS : ∀ r ∈ rs, S r) :
    ∃ σ', Steps sha1 clock S (w, σ) (markNewFile clock file size rs w, σ') ∧
      ∀ r ∈ rs, σ' r = .settled := by
  induction rs generalizing w σ size with
  | nil => exact ⟨σ, Steps.refl w σ, by simp⟩
  | cons r rs ih =>
    have hfresh := hfile.fresh r (by simp)
    have hr := hS r (by simp)
    have hstep : Step sha1 clock S (w, σ)
        (markChunk clock file size r w, Function.update σ r .settled) := by
      rw [markChunk]
      cases hfound : w.found r with
      | some address => exact step_dup h hr hfresh hfound rfl
      | none => exact step_storeNew h hr hfresh hfound ((hfile.place r (by simp)).stored hrow.1)
    obtain ⟨σ', hsteps, hsettled⟩ := ih (h.step hstep) (hfile.next hstep)
      (hrow.2.samePlace fun r' _ => (hstep.at r').1) fun r' hr' => hS r' (List.mem_cons_of_mem _ hr')
    refine ⟨σ', (Steps.of_step hstep).trans hsteps, fun r' hr' => ?_⟩
    rcases List.mem_cons.mp hr' with rfl | hr'
    · exact (hsteps.settled (Function.update_self _ _ _)).1
    · exact hsettled r' hr'

end TCBackup.Client
