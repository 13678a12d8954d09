import Mathlib.Logic.Relation
import TCBackup.Client.ChunkDedup

/-!
# The life of a chunk

Whatever the rewrite policy, a chunk is decided at once or waits under its lock in a
buffer until it is decided, and what is decided is not touched any more. The policies are
sequences of the steps below.

## Main definitions

- `Stage`, `Handle` — how far a chunk is, and what can be done with it
- `Step`, `Steps` — the same with the accesses recorded
- `Life` — what holds between the steps

## Main results

- `Steps.life` — the steps keep `Life`
- `Steps.stage`, `Steps.fixed` — which chunks they move, and what they leave alone
-/

namespace TCBackup.Client

open ByteFile Handoff Relation

/-- A chunk is `fresh` until it is looked up, `pending` while it waits under its lock, and
`settled` when it is decided. A duplicate that is about to wait is `marked` first. The chunks
of a file that is given up are `dropped`. -/
inductive Stage
  | fresh
  | marked
  | pending
  | settled
  | dropped
  deriving DecidableEq

/-- The bytes that are stored for a chunk are those that it names. -/
structure Stored (sha1 : Bytes → Fingerprint) (fc : FingerChunk) (chunk : Chunk) : Prop where
  length : chunk.length = fc.chunklen
  hash : chunk.hash = fc.chunk_hash
  data : chunk.data.length = chunk.length
  sha : sha1 chunk.data = chunk.hash
  pos : 0 < chunk.length
  len : chunk.length ≤ maxChunkSize

/-- Not decided, and not known to be a duplicate. -/
def Open (fc : FingerChunk) (s : Stage) : Prop :=
  s = .fresh ∨ s = .pending ∧ fc.is_new = .newChunk

variable (sha1 : Bytes → Fingerprint) (clock : ℕ → ℤ) (cells : FileInfo ℕ → List ℕ)

/-- What can be done with a chunk `fc`: the stage before, the chunk afterwards, what is
passed to `store_chunk`, the bin and the store afterwards, and the stage reached. -/
inductive Handle (w : Work) (fc : FingerChunk) :
    Stage → FingerChunk → List Chunk → HTable 20 Chunkaddress → Store → Stage → Prop
  | enterNew (hnone : w.fingers.lookup fc.chunk_hash = none) :
      Handle w fc .fresh { fc with is_new := .newChunk, mutex := true } [] w.fingers w.store .pending
  | enterDup {a a' : Chunkaddress} (hsome : w.fingers.lookup fc.chunk_hash = some a)
      (ha : cstr a' = cstr a) :
      Handle w fc .fresh { fc with is_new := .dedupChunk, chunkaddress := a', mutex := true } []
        w.fingers w.store .pending
  | mark {a a' : Chunkaddress} (hsome : w.fingers.lookup fc.chunk_hash = some a)
      (ha : cstr a' = cstr a) :
      Handle w fc .fresh { fc with is_new := .dedupChunk, chunkaddress := a', mutex := false } []
        w.fingers w.store .marked
  | enter (hdup : fc.is_new = .dedupChunk) (hsome : w.fingers.lookup fc.chunk_hash ≠ none) :
      Handle w fc .marked { fc with mutex := true } [] w.fingers w.store .pending
  | dup {s : Stage} {a a' : Chunkaddress} (hs : Open fc s)
      (hsome : w.fingers.lookup fc.chunk_hash = some a) (ha : cstr a' = cstr a) :
      Handle w fc s { fc with is_new := .dedupChunk, chunkaddress := a', mutex := false } []
        w.fingers w.store .settled
  | storeNew {s : Stage} {chunk : Chunk} (hs : Open fc s)
      (hnone : w.fingers.lookup fc.chunk_hash = none) (hchunk : Stored sha1 fc chunk) :
      Handle w fc s
        { fc with
          is_new := .newChunk
          chunkaddress := w.newAddress clock chunk
          mutex := false }
        [chunk] (w.fingers.insert fc.chunk_hash (w.newAddress clock chunk))
        (storeChunk clock w.store chunk).2 .settled
  | keep (hdup : fc.is_new = .dedupChunk) :
      Handle w fc .pending { fc with mutex := false } [] w.fingers w.store .settled
  | rewrite {chunk : Chunk} (hdup : fc.is_new = .dedupChunk) (hchunk : Stored sha1 fc chunk) :
      Handle w fc .pending
        { fc with
          is_new := .newChunk
          chunkaddress := w.newAddress clock chunk
          mutex := false }
        [chunk] (w.fingers.set fc.chunk_hash (w.newAddress clock chunk))
        (storeChunk clock w.store chunk).2 .settled

/-- A state of the thread with the stages of the chunks. -/
abbrev Staged := Work × (ℕ → Stage)

/-- One step. It is about a chunk that waits, or one in `S`, the chunks of the file at hand. -/
inductive Step (S : ℕ → Prop) : Staged → Staged → Prop
  | handle {w : Work} {σ : ℕ → Stage} {r : ℕ} {es : Accesses} {fc : FingerChunk}
      {chunks : List Chunk} {fingers : HTable 20 Chunkaddress} {store : Store} {s : Stage}
      (hr : σ r ≠ .pending → S r)
      (hstep : Handle sha1 clock w (w.chunk r) (σ r) fc chunks fingers store s)
      (hcell : ∀ a ∈ es, a.cell? = some r)
      (hheld : σ r = .pending → Held FingerChunk.mutex r w.chunk es)
      (hacts : acts es = chunks.map fun chunk => (r, chunk)) (hafter : after w.chunk es r = fc) :
      Step S (w, σ) (⟨w.log ++ es, fingers, store⟩, Function.update σ r s)

/-- Any number of steps. -/
def Steps (S : ℕ → Prop) : Staged → Staged → Prop := ReflTransGen (Step sha1 clock S)

/-- What was passed to `store_chunk` for a chunk. -/
def Work.passed (w : Work) (r : ℕ) : List Chunk :=
  ((acts w.log).filter fun p => p.1 = r).map Prod.snd

/-- What was passed to `store_chunk` for a chunk that is decided as `NEW_CHUNK` is one chunk
of its length; for all others it is nothing. -/
def PassedOnce (w : Work) (σ : ℕ → Stage) (r : ℕ) : Prop :=
  if σ r = .settled ∧ (w.chunk r).is_new = .newChunk then
    ∃ chunk, w.passed r = [chunk] ∧ chunk.length = (w.chunk r).chunklen
  else w.passed r = []

/-- What holds between the steps. -/
structure Life (w : Work) (σ : ℕ → Stage) : Prop where
  guarded : Guarded cells FingerChunk.mutex noChunks w.log
  chains : ChainTable.WF hashIndex w.fingers
  published : ∀ r, Published cells w.log r → σ r = .pending ∨ σ r = .settled
  locked : ∀ r, σ r = .pending → (w.chunk r).mutex = true
  unlocked : ∀ r, σ r ≠ .pending → σ r ≠ .dropped → (w.chunk r).mutex = false
  known : ∀ r, σ r = .marked ∨ σ r = .pending → (w.chunk r).is_new = .dedupChunk → w.found r ≠ none
  passed : ∀ r, PassedOnce w σ r

variable {sha1 clock cells} {w w' : Work} {σ σ' : ℕ → Stage} {S : ℕ → Prop}

-- ════════════════════════════════════════════════════════════════════════
-- One chunk
-- ════════════════════════════════════════════════════════════════════════

section Handling

variable {fc fc' : FingerChunk} {s s' : Stage} {chunks : List Chunk}
  {fingers : HTable 20 Chunkaddress} {store : Store}

theorem Handle.stage (h : Handle sha1 clock w fc s fc' chunks fingers store s') :
    s = .fresh ∧ s' ≠ .dropped ∨ s = .marked ∧ s' = .pending ∨ s = .pending ∧ s' = .settled := by
  cases h with
  | enterNew | enterDup | mark => exact .inl ⟨rfl, by simp⟩
  | enter => exact .inr (.inl ⟨rfl, rfl⟩)
  | dup hs | storeNew hs =>
    rcases hs with rfl | ⟨rfl, -⟩
    · exact .inl ⟨rfl, by simp⟩
    · exact .inr (.inr ⟨rfl, rfl⟩)
  | keep | rewrite => exact .inr (.inr ⟨rfl, rfl⟩)

/-- Hash, length and place of a chunk stay as they are. -/
def SamePlace (fc fc' : FingerChunk) : Prop :=
  fc'.chunk_hash = fc.chunk_hash ∧ fc'.chunklen = fc.chunklen ∧ fc'.offset = fc.offset

theorem Handle.samePlace (h : Handle sha1 clock w fc s fc' chunks fingers store s') :
    SamePlace fc fc' := by
  cases h <;> exact ⟨rfl, rfl, rfl⟩

theorem Handle.mutex (h : Handle sha1 clock w fc s fc' chunks fingers store s') :
    fc'.mutex = decide (s' = .pending) := by
  cases h <;> rfl

theorem Handle.chains (h : Handle sha1 clock w fc s fc' chunks fingers store s')
    (hw : ChainTable.WF hashIndex w.fingers) : ChainTable.WF hashIndex fingers := by
  cases h with
  | storeNew => exact ChainTable.WF.insert hashIndex_lt hw _ _
  | rewrite => exact hw.set _ _
  | _ => exact hw

/-- A fingerprint that the bin has stays in it. -/
theorem Handle.lookup_ne_none (h : Handle sha1 clock w fc s fc' chunks fingers store s')
    (hw : ChainTable.WF hashIndex w.fingers) {key : Fingerprint}
    (hkey : w.fingers.lookup key ≠ none) : fingers.lookup key ≠ none := by
  have hmem : key ∈ ChainTable.keys w.fingers := by
    by_contra hnot
    exact hkey (hw.lookup_eq_none_iff.mpr hnot)
  have hafter := h.chains hw
  intro hnone
  refine hafter.lookup_eq_none_iff.mp hnone ?_
  cases h with
  | storeNew =>
    exact (ChainTable.keys_insert_perm hashIndex_lt hw _ _).mem_iff.mpr (List.mem_cons_of_mem _ hmem)
  | rewrite =>
    rw [HTable.set, ChainTable.keys_set]
    exact hmem
  | _ => exact hmem

theorem Handle.known (h : Handle sha1 clock w fc s fc' chunks fingers store s')
    (hs : s' = .marked ∨ s' = .pending) (hdup : fc'.is_new = .dedupChunk) :
    fingers.lookup fc'.chunk_hash ≠ none := by
  cases h with
  | enterNew => simp at hdup
  | enterDup hsome | mark hsome =>
    dsimp only
    rw [hsome]
    simp
  | enter _ hsome => exact hsome
  | _ => simp at hs

theorem Handle.chunks_of_new (h : Handle sha1 clock w fc s fc' chunks fingers store s')
    (hs : s' = .settled) (hnew : fc'.is_new = .newChunk) :
    ∃ chunk, chunks = [chunk] ∧ chunk.length = fc'.chunklen := by
  cases h with
  | storeNew _ _ hchunk | rewrite _ hchunk => exact ⟨_, rfl, hchunk.length⟩
  | keep hdup =>
    dsimp only at hnew
    rw [hdup] at hnew
    simp at hnew
  | enterNew | enterDup | mark | enter => simp at hs
  | dup => simp at hnew

theorem Handle.chunks_of_not_new (h : Handle sha1 clock w fc s fc' chunks fingers store s')
    (hs : ¬(s' = .settled ∧ fc'.is_new = .newChunk)) : chunks = [] := by
  cases h with
  | storeNew | rewrite => exact absurd ⟨rfl, rfl⟩ hs
  | _ => rfl

end Handling

-- ════════════════════════════════════════════════════════════════════════
-- The accesses
-- ════════════════════════════════════════════════════════════════════════

theorem chunk_append (log es : Accesses) (fingers : HTable 20 Chunkaddress) (store : Store) :
    (⟨log ++ es, fingers, store⟩ : Work).chunk = after (after noChunks log) es := by
  funext r
  rw [Work.chunk, after_append]

/-- The accesses are to one chunk. -/
theorem chunk_touched {r : ℕ} {es : Accesses} (hcell : ∀ a ∈ es, a.cell? = some r)
    {fingers : HTable 20 Chunkaddress} {store : Store} :
    (⟨w.log ++ es, fingers, store⟩ : Work).chunk =
      Function.update w.chunk r (after w.chunk es r) := by
  funext r'
  rw [chunk_append]
  by_cases hr : r' = r
  · rw [hr, Function.update_self]
    rfl
  · rw [Function.update_of_ne hr]
    refine after_of_cell_ne fun a ha heq => hr ?_
    exact Option.some.inj (heq.symm.trans (hcell a ha))

theorem passed_append {r r' : ℕ} {es : Accesses} {chunks : List Chunk}
    (hacts : acts es = chunks.map fun chunk => (r, chunk)) {fingers : HTable 20 Chunkaddress}
    {store : Store} :
    (⟨w.log ++ es, fingers, store⟩ : Work).passed r' =
      w.passed r' ++ if r' = r then chunks else [] := by
  simp only [Work.passed, acts_append, List.filter_append, List.map_append, hacts]
  congr 1
  by_cases hr : r' = r
  · rw [if_pos hr, hr]
    clear hacts
    induction chunks with
    | nil => rfl
    | cons chunk chunks ih => simpa using ih
  · rw [if_neg hr]
    simp [List.filter_map, Function.comp_def, Ne.symm hr]

theorem published_touched {r r' : ℕ} {es : Accesses} (hcell : ∀ a ∈ es, a.cell? = some r) :
    Published cells (w.log ++ es) r' ↔ Published cells w.log r' := by
  rw [Published, groups_append, groups_eq_nil_of_cell hcell, List.append_nil]
  rfl

theorem Life.step (h : Life cells w σ) (hs : Step sha1 clock S (w, σ) (w', σ')) :
    Life cells w' σ' := by
  generalize hp : (w, σ) = p at hs
  generalize hq : (w', σ') = q at hs
  cases hs with
  | @handle w₀ σ₀ r es fc chunks fingers store s hr hstep hcell hheld hacts hafter =>
    obtain ⟨rfl, rfl⟩ := Prod.mk.inj hp
    obtain ⟨rfl, rfl⟩ := Prod.mk.inj hq
    have hchunk : (⟨w.log ++ es, fingers, store⟩ : Work).chunk = Function.update w.chunk r fc := by
      rw [chunk_touched hcell, hafter]
    have hbefore : w.passed r = [] := by
      have hpassed := h.passed r
      rw [PassedOnce, if_neg] at hpassed
      · exact hpassed
      · rintro ⟨hset, -⟩
        have hstage := hstep.stage
        simp [hset] at hstage
    refine ⟨?_, hstep.chains h.chains, ?_, ?_, ?_, ?_, ?_⟩
    · by_cases hpending : σ r = .pending
      · exact h.guarded.append_held (hheld hpending)
      · refine h.guarded.append_unpublished hcell fun hpub => ?_
        have hstage := hstep.stage
        rcases h.published r hpub with hpub | hpub
        · exact hpending hpub
        · simp [hpub] at hstage
    · intro r' hpub
      have hstage := h.published r' ((published_touched hcell).mp hpub)
      by_cases hr' : r' = r
      · rw [hr'] at hstage ⊢
        rw [Function.update_self]
        rcases hstep.stage with ⟨hs, -⟩ | ⟨hs, -⟩ | ⟨-, hs⟩
        · simp [hs] at hstage
        · simp [hs] at hstage
        · exact .inr hs
      · rw [Function.update_of_ne hr']
        exact hstage
    · intro r' hpending
      rw [hchunk]
      by_cases hr' : r' = r
      · rw [hr', Function.update_self] at hpending ⊢
        rw [hstep.mutex, hpending]
        rfl
      · rw [Function.update_of_ne hr'] at hpending ⊢
        exact h.locked r' hpending
    · intro r' hstage hstage'
      rw [hchunk]
      by_cases hr' : r' = r
      · rw [hr', Function.update_self] at hstage ⊢
        rw [hstep.mutex, decide_eq_false_iff_not]
        exact hstage
      · rw [Function.update_of_ne hr'] at hstage hstage' ⊢
        exact h.unlocked r' hstage hstage'
    · intro r' hpending hdup
      rw [Work.found, hchunk]
      rw [hchunk] at hdup
      by_cases hr' : r' = r
      · rw [hr', Function.update_self] at hpending hdup ⊢
        exact hstep.known hpending hdup
      · rw [Function.update_of_ne hr'] at hpending hdup ⊢
        exact hstep.lookup_ne_none h.chains (h.known r' hpending hdup)
    · intro r'
      rw [PassedOnce, passed_append hacts, hchunk]
      by_cases hr' : r' = r
      · rw [hr', Function.update_self, Function.update_self, hbefore, if_pos rfl, List.nil_append]
        split
        · next hnew => exact hstep.chunks_of_new hnew.1 hnew.2
        · next hnew => exact hstep.chunks_of_not_new hnew
      · rw [Function.update_of_ne hr', Function.update_of_ne hr', if_neg hr', List.append_nil]
        exact h.passed r'

-- ════════════════════════════════════════════════════════════════════════
-- What the steps leave alone
-- ════════════════════════════════════════════════════════════════════════

theorem Steps.refl (w : Work) (σ : ℕ → Stage) : Steps sha1 clock S (w, σ) (w, σ) :=
  ReflTransGen.refl

theorem Steps.trans {p q t : Staged} (h : Steps sha1 clock S p q)
    (h' : Steps sha1 clock S q t) : Steps sha1 clock S p t :=
  ReflTransGen.trans h h'

theorem Step.mono {S' : ℕ → Prop} (hS : ∀ r, S r → S' r) {p q : Staged}
    (h : Step sha1 clock S p q) : Step sha1 clock S' p q := by
  cases h with
  | handle hr hstep hcell hheld hacts hafter =>
    exact .handle (fun hf => hS _ (hr hf)) hstep hcell hheld hacts hafter

theorem Steps.mono {S' : ℕ → Prop} (hS : ∀ r, S r → S' r) {p q : Staged}
    (h : Steps sha1 clock S p q) : Steps sha1 clock S' p q :=
  ReflTransGen.mono (fun _ _ hstep => Step.mono hS hstep) _ _ h

/-- What a step does to one chunk and its stage. -/
theorem Step.at (h : Step sha1 clock S (w, σ) (w', σ')) (r : ℕ) :
    SamePlace (w.chunk r) (w'.chunk r) ∧
      (σ' r = σ r ∧ w'.chunk r = w.chunk r ∨ S r ∧ (σ r = .fresh ∨ σ r = .marked) ∨
        σ r = .pending ∧ σ' r = .settled) := by
  generalize hp : (w, σ) = p at h
  generalize hq : (w', σ') = q at h
  cases h with
  | @handle w₀ σ₀ r₀ es fc chunks fingers store s hr hstep hcell hheld hacts hafter =>
    obtain ⟨rfl, rfl⟩ := Prod.mk.inj hp
    obtain ⟨rfl, rfl⟩ := Prod.mk.inj hq
    rw [chunk_touched hcell, hafter]
    by_cases heq : r = r₀
    · rw [heq, Function.update_self, Function.update_self]
      refine ⟨hstep.samePlace, .inr ?_⟩
      rcases hstep.stage with ⟨hs, -⟩ | ⟨hs, -⟩ | hs
      · exact .inl ⟨hr (by simp [hs]), .inl hs⟩
      · exact .inl ⟨hr (by simp [hs]), .inr hs⟩
      · exact .inr hs
    · rw [Function.update_of_ne heq, Function.update_of_ne heq]
      exact ⟨⟨rfl, rfl, rfl⟩, .inl ⟨rfl, rfl⟩⟩

theorem SamePlace.trans {a b c : FingerChunk} (h : SamePlace a b) (h' : SamePlace b c) :
    SamePlace a c :=
  ⟨h'.1.trans h.1, h'.2.1.trans h.2.1, h'.2.2.trans h.2.2⟩

/-- The induction rule for what steps keep. -/
theorem Steps.induct {P : Work → (ℕ → Stage) → Prop}
    (hstep : ∀ w σ w' σ', P w σ → Step sha1 clock S (w, σ) (w', σ') → P w' σ')
    (h : Steps sha1 clock S (w, σ) (w', σ')) (hP : P w σ) : P w' σ' := by
  generalize hp : (w, σ) = p at h
  generalize hq : (w', σ') = q at h
  induction h generalizing w' σ' with
  | refl =>
    obtain ⟨rfl, rfl⟩ := Prod.mk.inj (hp.trans hq.symm)
    exact hP
  | @tail b c _ hs ih =>
    subst hq
    exact hstep _ _ _ _ (ih rfl) hs

theorem Steps.life (hs : Steps sha1 clock S (w, σ) (w', σ')) (h : Life cells w σ) :
    Life cells w' σ' :=
  Steps.induct (P := fun v τ => Life cells v τ) (fun _ _ _ _ hP hstep => hP.step hstep) hs h

/-- Hash, length and place of the chunks stay as they are. -/
theorem Steps.samePlace (h : Steps sha1 clock S (w, σ) (w', σ')) (r : ℕ) :
    SamePlace (w.chunk r) (w'.chunk r) :=
  Steps.induct (P := fun v _ => SamePlace (w.chunk r) (v.chunk r))
    (fun _ _ _ _ hP hs => hP.trans (hs.at r).1) h ⟨rfl, rfl, rfl⟩

/-- A chunk that does not belong to the file at hand stays where it is, unless it was pending
and gets settled. -/
theorem Steps.stage (h : Steps sha1 clock S (w, σ) (w', σ')) {r : ℕ} (hr : ¬S r) :
    σ' r = σ r ∧ w'.chunk r = w.chunk r ∨ σ r = .pending ∧ σ' r = .settled := by
  refine Steps.induct (P := fun v τ => τ r = σ r ∧ v.chunk r = w.chunk r ∨
    σ r = .pending ∧ τ r = .settled) ?_ h (.inl ⟨rfl, rfl⟩)
  intro v τ v' τ' hP hs
  rcases (hs.at r).2 with ⟨hsame, hchunk⟩ | ⟨hS, -⟩ | ⟨hpending, hsettled⟩
  · rw [hsame, hchunk]
    exact hP
  · exact absurd hS hr
  · cases hP with
    | inl heq => exact .inr ⟨heq.1 ▸ hpending, hsettled⟩
    | inr hset => simp [hset.2] at hpending

/-- What waits or is settled does so afterwards. -/
theorem Steps.decided (h : Steps sha1 clock S (w, σ) (w', σ')) {r : ℕ}
    (hr : σ r = .pending ∨ σ r = .settled) : σ' r = .pending ∨ σ' r = .settled := by
  refine Steps.induct (P := fun _ τ => τ r = .pending ∨ τ r = .settled) ?_ h hr
  intro v τ v' τ' hP hs
  rcases (hs.at r).2 with ⟨hsame, -⟩ | ⟨-, hbad⟩ | ⟨-, hsettled⟩
  · rw [hsame]
    exact hP
  · cases hbad with
    | inl hbad => simp [hbad] at hP
    | inr hbad => simp [hbad] at hP
  · exact .inr hsettled

/-- What is settled stays settled, and as it is. -/
theorem Steps.settled (h : Steps sha1 clock S (w, σ) (w', σ')) {r : ℕ}
    (hr : σ r = .settled) : σ' r = .settled ∧ w'.chunk r = w.chunk r := by
  refine Steps.induct (P := fun v τ => τ r = .settled ∧ v.chunk r = w.chunk r) ?_ h ⟨hr, rfl⟩
  rintro v τ v' τ' ⟨hset, hchunk⟩ hs
  rcases (hs.at r).2 with ⟨hsame, heq⟩ | ⟨-, hbad⟩ | ⟨hbad, -⟩
  · exact ⟨hsame.trans hset, heq.trans hchunk⟩
  · simp [hset] at hbad
  · simp [hset] at hbad

theorem Step.groups (h : Step sha1 clock S (w, σ) (w', σ')) :
    Handoff.groups w'.log = Handoff.groups w.log := by
  generalize hp : (w, σ) = p at h
  generalize hq : (w', σ') = q at h
  cases h with
  | handle hr hstep hcell hheld hacts hafter =>
    obtain ⟨rfl, rfl⟩ := Prod.mk.inj hp
    obtain ⟨rfl, rfl⟩ := Prod.mk.inj hq
    rw [groups_append, groups_eq_nil_of_cell hcell, List.append_nil]

/-- Nothing is pushed by the steps. -/
theorem Steps.groups (h : Steps sha1 clock S (w, σ) (w', σ')) :
    Handoff.groups w'.log = Handoff.groups w.log :=
  Steps.induct (P := fun v _ => Handoff.groups v.log = Handoff.groups w.log)
    (fun _ _ _ _ hP hs => hs.groups.trans hP) h rfl

-- ════════════════════════════════════════════════════════════════════════
-- Between the files
-- ════════════════════════════════════════════════════════════════════════

theorem life_start {fingers : HTable 20 Chunkaddress} (hchains : ChainTable.WF hashIndex fingers)
    (store : Store) : Life cells ⟨[], fingers, store⟩ (fun _ => .fresh) := by
  refine ⟨.nil, hchains, ?_, by simp, fun r _ _ => rfl, by simp, fun r => ?_⟩
  · rintro r ⟨b, hb, -⟩
    simp at hb
  · rw [PassedOnce, if_neg (by simp)]
    rfl

/-- A new chunk. -/
theorem Life.alloc (h : Life cells w σ) {r : ℕ} (hr : σ r = .fresh) {fc : FingerChunk}
    (hfc : fc.mutex = false) : Life cells (w.set r fc) σ := by
  have hcell : ∀ a ∈ ([.set r fc] : Accesses), a.cell? = some r := by simp [Access.cell?]
  have hchunk := chunk_set w r fc
  have hunpub : ¬Published cells w.log r := by
    intro hpub
    have hstage := h.published r hpub
    rw [hr] at hstage
    simp at hstage
  refine ⟨h.guarded.append_unpublished hcell hunpub, h.chains, ?_, ?_, ?_, ?_, ?_⟩
  · intro r' hpub
    exact h.published r' ((published_touched hcell).mp hpub)
  · intro r' hpending
    have hne : r' ≠ r := by
      rintro rfl
      simp [hr] at hpending
    rw [hchunk, Function.update_of_ne hne]
    exact h.locked r' hpending
  · intro r' hstage hstage'
    rw [hchunk]
    by_cases heq : r' = r
    · rw [heq, Function.update_self]
      exact hfc
    · rw [Function.update_of_ne heq]
      exact h.unlocked r' hstage hstage'
  · intro r' hpending
    have hne : r' ≠ r := by
      rintro rfl
      simp [hr] at hpending
    rw [Work.found, hchunk, Function.update_of_ne hne]
    exact h.known r' hpending
  · intro r'
    have hpassed := h.passed r'
    have hsame : (w.set r fc).passed r' = w.passed r' := by
      simp [Work.passed, Work.set]
    rw [PassedOnce, hsame, hchunk]
    rw [PassedOnce] at hpassed
    by_cases heq : r' = r
    · rw [heq, if_neg (by simp [hr])] at hpassed ⊢
      exact hpassed
    · rw [Function.update_of_ne heq]
      exact hpassed

theorem push_chunk (w : Work) (fileinfo : FileInfo ℕ) : (w.push fileinfo).chunk = w.chunk := by
  funext r
  rw [Work.chunk, Work.push, after_append]
  rfl

/-- A file goes to `chunk_dedup_queue`. -/
theorem Life.push (h : Life cells w σ) {fileinfo : FileInfo ℕ}
    (hcells : ∀ r ∈ cells fileinfo, σ r = .pending ∨ σ r = .settled) :
    Life cells (w.push fileinfo) σ := by
  have hguarded : Guarded cells FingerChunk.mutex noChunks (w.push fileinfo).log := by
    refine h.guarded.snoc fun r hr => ?_
    simp [Access.cell?] at hr
  refine ⟨hguarded, h.chains, ?_, ?_, ?_, ?_, ?_⟩
  · rintro r ⟨b, hb, hr⟩
    rw [Work.push, groups_append, List.mem_append] at hb
    cases hb with
    | inl hb => exact h.published r ⟨b, hb, hr⟩
    | inr hb =>
      obtain rfl := List.mem_singleton.mp hb
      exact hcells r hr
  · rw [push_chunk]
    exact h.locked
  · rw [push_chunk]
    exact h.unlocked
  · intro r
    rw [Work.found, push_chunk]
    exact h.known r
  · intro r
    have hpassed := h.passed r
    have hsame : (w.push fileinfo).passed r = w.passed r := by
      simp [Work.passed, Work.push]
    rw [PassedOnce, hsame, push_chunk]
    exact hpassed

/-- A chunk of a file that is given up. -/
theorem Life.drop (h : Life cells w σ) {r : ℕ} (hpub : ¬Published cells w.log r)
    (hstage : σ r ≠ .settled) : Life cells w (Function.update σ r .dropped) := by
  have hne : ∀ r', Function.update σ r .dropped r' ≠ .dropped → r' ≠ r := by
    rintro r' hstage' rfl
    exact hstage' (Function.update_self _ _ _)
  refine ⟨h.guarded, h.chains, ?_, ?_, ?_, ?_, ?_⟩
  · intro r' hpub'
    have hr' : r' ≠ r := by
      rintro rfl
      exact hpub hpub'
    rw [Function.update_of_ne hr']
    exact h.published r' hpub'
  · intro r' hpending
    rw [Function.update_of_ne (hne r' (by simp [hpending]))] at hpending
    exact h.locked r' hpending
  · intro r' hstage' hdropped
    rw [Function.update_of_ne (hne r' hdropped)] at hstage' hdropped
    exact h.unlocked r' hstage' hdropped
  · intro r' hpending
    have hr' : r' ≠ r := hne r' (by rcases hpending with hs | hs <;> simp [hs])
    rw [Function.update_of_ne hr'] at hpending
    exact h.known r' hpending
  · intro r'
    have hpassed := h.passed r'
    rw [PassedOnce] at hpassed ⊢
    by_cases hr' : r' = r
    · rw [hr', if_neg (fun hs => hstage hs.1)] at hpassed
      rw [hr', Function.update_self, if_neg (by simp)]
      exact hpassed
    · rw [Function.update_of_ne hr']
      exact hpassed

/-- The bin is loaded before a chunk was looked up. -/
theorem Life.load (h : Life cells w σ) (hfresh : ∀ r, σ r ≠ .marked ∧ σ r ≠ .pending)
    {fingers : HTable 20 Chunkaddress} (hchains : ChainTable.WF hashIndex fingers) :
    Life cells { w with fingers := fingers } σ :=
  ⟨h.guarded, hchains, h.published, h.locked, h.unlocked,
    fun r hr => (hr.elim (hfresh r).1 (hfresh r).2).elim, h.passed⟩

-- ════════════════════════════════════════════════════════════════════════
-- What the code does with one chunk
-- ════════════════════════════════════════════════════════════════════════

/-- A step, given the accesses and the state after it. -/
theorem Step.of_handle {r : ℕ} {s : Stage} (es : Accesses) (chunks : List Chunk)
    (hr : σ r ≠ .pending → S r) (hlog : w'.log = w.log ++ es)
    (hstep : Handle sha1 clock w (w.chunk r) (σ r) (w'.chunk r) chunks w'.fingers w'.store s)
    (hcell : ∀ a ∈ es, a.cell? = some r)
    (hheld : σ r = .pending → Held FingerChunk.mutex r w.chunk es)
    (hacts : acts es = chunks.map fun chunk => (r, chunk)) :
    Step sha1 clock S (w, σ) (w', Function.update σ r s) := by
  have hafter : after w.chunk es r = w'.chunk r := by
    rw [Work.chunk, hlog, after_append]
    rfl
  obtain ⟨log, fingers, store⟩ := w'
  obtain rfl : log = w.log ++ es := hlog
  exact .handle hr hstep hcell hheld hacts hafter

section Code

variable {r off_set : ℕ} {a a' : Chunkaddress} {file : Bytes}

/-- The bytes at the place of a chunk are stored for it. -/
theorem ChunkOf.stored {fc : FingerChunk} (h : ChunkOf sha1 file fc) (hoff : fc.offset = off_set) :
    Stored sha1 fc (chunkFrom file off_set fc) := by
  subst hoff
  have hlen := length_readAt_of_le h.inside
  exact ⟨rfl, rfl, hlen, h.hash.symm, h.pos, h.len⟩

/-- A duplicate is decided at once. -/
theorem step_dup (h : Life cells w σ) (hS : S r) (hfresh : σ r = .fresh) (hfound : w.found r = some a)
    (ha : cstr a' = cstr a) :
    Step sha1 clock S (w, σ) (w.markDedup r a', Function.update σ r .settled) := by
  have hchunk : (w.markDedup r a').chunk r =
      { w.chunk r with is_new := .dedupChunk, chunkaddress := a', mutex := false } := by
    rw [Work.markDedup, chunk_set_self, ← h.unlocked r (by simp [hfresh]) (by simp [hfresh])]
  refine .of_handle [.set r { w.chunk r with is_new := .dedupChunk, chunkaddress := a' }] []
    (fun _ => hS) rfl ?_ (by simp [Access.cell?]) (by simp [hfresh]) rfl
  rw [hchunk, hfresh]
  exact .dup (.inl rfl) hfound ha

/-- A new chunk is stored at once. -/
theorem step_storeNew (h : Life cells w σ) (hS : S r) (hfresh : σ r = .fresh)
    (hfound : w.found r = none)
    (hstored : Stored sha1 (w.chunk r) (chunkFrom file off_set (w.chunk r))) :
    Step sha1 clock S (w, σ)
      (storeNew clock file off_set r (w.markNew r), Function.update σ r .settled) := by
  obtain ⟨chunk, hdef⟩ : ∃ chunk, chunk = chunkFrom file off_set (w.chunk r) := ⟨_, rfl⟩
  rw [← hdef] at hstored
  have hsame : chunkFrom file off_set { w.chunk r with is_new := .newChunk } = chunk := hdef.symm
  have hchunk : (storeNew clock file off_set r (w.markNew r)).chunk r =
      { w.chunk r with
        is_new := .newChunk
        chunkaddress := w.newAddress clock chunk
        mutex := false } := by
    rw [storeNew, insertMeta_chunk, write_chunk_self, Work.markNew, chunk_set_self, hsame,
      ← h.unlocked r (by simp [hfresh]) (by simp [hfresh])]
    rfl
  refine .of_handle
    [.set r { w.chunk r with is_new := .newChunk }, .act r chunk,
      .set r { w.chunk r with is_new := .newChunk, chunkaddress := w.newAddress clock chunk }]
    [chunk] (fun _ => hS) ?_ ?_ (by simp [Access.cell?]) (by simp [hfresh]) rfl
  · rw [storeNew, insertMeta_log, write_log, Work.markNew, chunk_set_self, hsame, set_log,
      List.append_assoc]
    rfl
  · have hfingers : (storeNew clock file off_set r (w.markNew r)).fingers =
        w.fingers.insert (w.chunk r).chunk_hash (w.newAddress clock chunk) := by
      rw [storeNew, Work.insertMeta, write_chunk_self, Work.markNew, chunk_set_self, hsame]
      rfl
    have hstore : (storeNew clock file off_set r (w.markNew r)).store =
        (storeChunk clock w.store chunk).2 := by
      rw [storeNew, insertMeta_store, write_store, Work.markNew, chunk_set_self, hsame]
      rfl
    rw [hchunk, hfingers, hstore, hfresh]
    exact .storeNew (.inl rfl) hfound hstored

/-- A chunk that waits: whether it is marked before or after it is locked. -/
theorem step_enterNew (hS : S r) (hfresh : σ r = .fresh) (hfound : w.found r = none) :
    Step sha1 clock S (w, σ) ((w.markNew r).lock r, Function.update σ r .pending) ∧
      Step sha1 clock S (w, σ) ((w.lock r).markNew r, Function.update σ r .pending) := by
  refine ⟨.of_handle [.set r { w.chunk r with is_new := .newChunk },
      .set r { w.chunk r with is_new := .newChunk, mutex := true }] [] (fun _ => hS) ?_ ?_
      (by simp [Access.cell?]) (by simp [hfresh]) rfl,
    .of_handle [.set r { w.chunk r with mutex := true },
      .set r { w.chunk r with is_new := .newChunk, mutex := true }] [] (fun _ => hS) ?_ ?_
      (by simp [Access.cell?]) (by simp [hfresh]) rfl⟩
  · rw [Work.lock, Work.markNew, chunk_set_self, set_log, set_log, List.append_assoc]
    rfl
  · rw [Work.lock, Work.markNew, chunk_set_self, chunk_set_self, hfresh]
    exact .enterNew hfound
  · rw [Work.lock, Work.markNew, chunk_set_self, set_log, set_log, List.append_assoc]
    rfl
  · rw [Work.lock, Work.markNew, chunk_set_self, chunk_set_self, hfresh]
    exact .enterNew hfound

theorem step_enterDup (hS : S r) (hfresh : σ r = .fresh) (hfound : w.found r = some a)
    (ha : cstr a' = cstr a) :
    Step sha1 clock S (w, σ) ((w.markDedup r a').lock r, Function.update σ r .pending) ∧
      Step sha1 clock S (w, σ) ((w.lock r).markDedup r a', Function.update σ r .pending) := by
  refine ⟨.of_handle [.set r { w.chunk r with is_new := .dedupChunk, chunkaddress := a' },
      .set r { w.chunk r with is_new := .dedupChunk, chunkaddress := a', mutex := true }] []
      (fun _ => hS) ?_ ?_ (by simp [Access.cell?]) (by simp [hfresh]) rfl,
    .of_handle [.set r { w.chunk r with mutex := true },
      .set r { w.chunk r with is_new := .dedupChunk, chunkaddress := a', mutex := true }] []
      (fun _ => hS) ?_ ?_ (by simp [Access.cell?]) (by simp [hfresh]) rfl⟩
  · rw [Work.lock, Work.markDedup, chunk_set_self, set_log, set_log, List.append_assoc]
    rfl
  · rw [Work.lock, Work.markDedup, chunk_set_self, chunk_set_self, hfresh]
    exact .enterDup hfound ha
  · rw [Work.lock, Work.markDedup, chunk_set_self, set_log, set_log, List.append_assoc]
    rfl
  · rw [Work.lock, Work.markDedup, chunk_set_self, chunk_set_self, hfresh]
    exact .enterDup hfound ha

/-- A duplicate that is marked first and waits later. -/
theorem step_mark (h : Life cells w σ) (hS : S r) (hfresh : σ r = .fresh)
    (hfound : w.found r = some a) (ha : cstr a' = cstr a) :
    Step sha1 clock S (w, σ) (w.markDedup r a', Function.update σ r .marked) := by
  have hchunk : (w.markDedup r a').chunk r =
      { w.chunk r with is_new := .dedupChunk, chunkaddress := a', mutex := false } := by
    rw [Work.markDedup, chunk_set_self, ← h.unlocked r (by simp [hfresh]) (by simp [hfresh])]
  refine .of_handle [.set r { w.chunk r with is_new := .dedupChunk, chunkaddress := a' }] []
    (fun _ => hS) rfl ?_ (by simp [Access.cell?]) (by simp [hfresh]) rfl
  rw [hchunk, hfresh]
  exact .mark hfound ha

theorem step_enter (h : Life cells w σ) (hS : S r) (hmarked : σ r = .marked)
    (hdup : (w.chunk r).is_new = .dedupChunk) :
    Step sha1 clock S (w, σ) (w.lock r, Function.update σ r .pending) := by
  refine .of_handle [.set r { w.chunk r with mutex := true }] [] (fun _ => hS) rfl ?_
    (by simp [Access.cell?]) (by simp [hmarked]) rfl
  rw [Work.lock, chunk_set_self, hmarked]
  exact .enter hdup (h.known r (.inl hmarked) hdup)

/-- A duplicate that waited stays one. -/
theorem step_keep (h : Life cells w σ) (hpending : σ r = .pending)
    (hdup : (w.chunk r).is_new = .dedupChunk) :
    Step sha1 clock S (w, σ) (w.unlock r, Function.update σ r .settled) := by
  refine .of_handle [.set r { w.chunk r with mutex := false }] [] (by simp [hpending]) rfl ?_
    (by simp [Access.cell?]) (fun _ => ⟨rfl, h.locked r hpending, trivial⟩) rfl
  rw [Work.unlock, chunk_set_self, hpending]
  exact .keep hdup

/-- The bin has got the chunk while it waited. -/
theorem step_late (h : Life cells w σ) (hpending : σ r = .pending)
    (hnew : (w.chunk r).is_new = .newChunk) (hfound : w.found r = some a) (ha : cstr a' = cstr a) :
    Step sha1 clock S (w, σ) ((w.markDedup r a').unlock r, Function.update σ r .settled) := by
  have hlocked := h.locked r hpending
  refine .of_handle [.set r { w.chunk r with is_new := .dedupChunk, chunkaddress := a' },
      .set r { w.chunk r with is_new := .dedupChunk, chunkaddress := a', mutex := false }] []
    (by simp [hpending]) ?_ ?_ (by simp [Access.cell?])
    (fun _ => ⟨rfl, hlocked, rfl, by simp [apply, hlocked], trivial⟩) rfl
  · rw [Work.unlock, Work.markDedup, chunk_set_self, set_log, set_log, List.append_assoc]
    rfl
  · rw [Work.unlock, Work.markDedup, chunk_set_self, chunk_set_self]
    exact .dup (.inr ⟨hpending, hnew⟩) hfound ha

/-- A new chunk that waited is stored. -/
theorem step_storeLate (h : Life cells w σ) (hpending : σ r = .pending)
    (hnew : (w.chunk r).is_new = .newChunk) (hfound : w.found r = none)
    (hstored : Stored sha1 (w.chunk r) (chunkFrom file off_set (w.chunk r))) :
    Step sha1 clock S (w, σ)
      ((storeNew clock file off_set r w).unlock r, Function.update σ r .settled) := by
  obtain ⟨chunk, hdef⟩ : ∃ chunk, chunkFrom file off_set (w.chunk r) = chunk := ⟨_, rfl⟩
  rw [hdef] at hstored
  have hlocked := h.locked r hpending
  have hchunk : (storeNew clock file off_set r w).chunk r =
      { w.chunk r with chunkaddress := w.newAddress clock chunk } := by
    rw [storeNew, insertMeta_chunk, write_chunk_self, hdef]
  refine .of_handle
    [.act r chunk, .set r { w.chunk r with chunkaddress := w.newAddress clock chunk },
      .set r { w.chunk r with chunkaddress := w.newAddress clock chunk, mutex := false }]
    [chunk] (by simp [hpending]) ?_ ?_ (by simp [Access.cell?])
    (fun _ => ⟨rfl, hlocked, rfl, hlocked, rfl, by simp [apply, hlocked], trivial⟩) rfl
  · rw [Work.unlock, set_log, hchunk, storeNew, insertMeta_log, write_log, hdef, List.append_assoc]
    rfl
  · have hfingers : ((storeNew clock file off_set r w).unlock r).fingers =
        w.fingers.insert (w.chunk r).chunk_hash (w.newAddress clock chunk) := by
      rw [Work.unlock, set_fingers, storeNew, Work.insertMeta, write_chunk_self, hdef]
      rfl
    have hstore : ((storeNew clock file off_set r w).unlock r).store =
        (storeChunk clock w.store chunk).2 := by
      rw [Work.unlock, set_store, storeNew, insertMeta_store, write_store, hdef]
    have hafter : ((storeNew clock file off_set r w).unlock r).chunk r =
        { w.chunk r with
          is_new := .newChunk
          chunkaddress := w.newAddress clock chunk
          mutex := false } := by
      rw [Work.unlock, chunk_set_self, hchunk, ← hnew]
    rw [hafter, hfingers, hstore]
    exact .storeNew (.inr ⟨hpending, hnew⟩) hfound hstored

/-- A duplicate that waited is stored once more. -/
theorem step_rewrite (h : Life cells w σ) (hpending : σ r = .pending)
    (hdup : (w.chunk r).is_new = .dedupChunk)
    (hstored : Stored sha1 (w.chunk r) (chunkFrom file (w.chunk r).offset (w.chunk r))) :
    Step sha1 clock S (w, σ)
      ((rewriteDup clock file r w).unlock r, Function.update σ r .settled) := by
  obtain ⟨chunk, hdef⟩ : ∃ chunk, chunkFrom file (w.chunk r).offset (w.chunk r) = chunk := ⟨_, rfl⟩
  rw [hdef] at hstored
  have hlocked := h.locked r hpending
  have hchunk : (rewriteDup clock file r w).chunk r =
      { w.chunk r with is_new := .newChunk, chunkaddress := w.newAddress clock chunk } := by
    rw [rewriteDup, updateMeta_chunk, Work.markNew, chunk_set_self, write_chunk_self, hdef]
  refine .of_handle
    [.act r chunk, .set r { w.chunk r with chunkaddress := w.newAddress clock chunk },
      .set r { w.chunk r with is_new := .newChunk, chunkaddress := w.newAddress clock chunk },
      .set r { w.chunk r with
        is_new := .newChunk
        chunkaddress := w.newAddress clock chunk
        mutex := false }]
    [chunk] (by simp [hpending]) ?_ ?_ (by simp [Access.cell?])
    (fun _ => ⟨rfl, hlocked, rfl, hlocked, rfl, by simp [apply, hlocked], rfl,
      by simp [apply, hlocked], trivial⟩) rfl
  · rw [Work.unlock, set_log, hchunk, rewriteDup, updateMeta_log, Work.markNew, set_log,
      write_chunk_self, write_log, hdef, List.append_assoc, List.append_assoc]
    rfl
  · have hfingers : ((rewriteDup clock file r w).unlock r).fingers =
        w.fingers.set (w.chunk r).chunk_hash (w.newAddress clock chunk) := by
      rw [Work.unlock, set_fingers, rewriteDup, Work.updateMeta, Work.markNew, chunk_set_self,
        write_chunk_self, hdef]
      rfl
    have hstore : ((rewriteDup clock file r w).unlock r).store =
        (storeChunk clock w.store chunk).2 := by
      rw [Work.unlock, set_store, rewriteDup, updateMeta_store, Work.markNew, set_store, write_store,
        hdef]
    have hafter : ((rewriteDup clock file r w).unlock r).chunk r =
        { w.chunk r with
          is_new := .newChunk
          chunkaddress := w.newAddress clock chunk
          mutex := false } := by
      rw [Work.unlock, chunk_set_self, hchunk]
    rw [hafter, hfingers, hstore, hpending]
    exact .rewrite hdup hstored

end Code

end TCBackup.Client
