import Mathlib.Data.List.Sort
import TCBackup.Client.PerfectRewrite

/-!
# Rewriting with a bound on containers (`client/src/capping.c`)

Chunks are kept back until the buffer is full. Then the containers that the buffer refers
to most stay in use, up to `max_refer_count`, and duplicates in all others are written again.

## Main definitions

- `Capping` — the chunks that wait and the containers that they refer to
- `sortSegments`, `rewrite`, `cappingProcess`

## Main results

- `sortSegments_spec` — the containers are never too few or too many
- `cappingProcess_steps`, `rewrite_steps` — a file waits or is settled, and a flush settles
  what waits
-/

namespace TCBackup.Client

open ByteFile Handoff

/-- The chunks from `first` to `last`. -/
structure ChunkList where
  path : Bytes
  chunks : List ℕ

structure Capping where
  buffer_length : ℤ
  chunk_buffer : List ChunkList
  segment_buffer : HTable 64 ℤ

/-- `capping_init` -/
def cappingInit : Capping := ⟨0, [], htableInit 50⟩

/-- The list that `sort_segments` builds: a segment goes in front of the first shorter one. -/
def linkSegments (l : List (Chunkaddress × ℤ)) : List (Chunkaddress × ℤ) :=
  l.foldl (fun sorted rn => sorted.orderedInsert (fun a b => b.2 < a.2) rn) []

/-- `sort_segments` -/
def sortSegments (max_refer_count : ℕ) (segments : HTable 64 ℤ) : Bool × HTable 64 ℤ :=
  let segments := ((linkSegments segments.walk).drop max_refer_count).foldl
    (fun t rn => t.remove rn.1) segments
  (decide (segments.size = max_refer_count), segments)

variable (s : Settings) (clock : ℕ → ℤ) (content : Bytes → Bytes)

/-- A round of the loop of `rewrite`. -/
def cappingDecide (segments : HTable 64 ℤ) (path : Bytes) (r : ℕ) (w : Work) : Work :=
  match (w.chunk r).is_new with
  | .newChunk =>
    match w.found r with
    | some address => (w.markDedup r address).unlock r
    | none => (storeNew clock (content path) (w.chunk r).offset r w).unlock r
  | .dedupChunk =>
    match segments.lookup (w.chunk r).chunkaddress with
    | none => (rewriteDup clock (content path) r w).unlock r
    | some _ => w.unlock r

/-- `rewrite` -/
def rewrite (c : Capping) (w : Work) : Bool × Capping × Work :=
  let sorted :=
    if s.max_refer_count < c.segment_buffer.size then
      sortSegments s.max_refer_count c.segment_buffer
    else (true, c.segment_buffer)
  if sorted.1 then
    (true, { c with chunk_buffer := [], segment_buffer := htableInit 50 },
      c.chunk_buffer.foldl
        (fun w cl => cl.chunks.foldl
          (fun w r => cappingDecide clock content sorted.2 cl.path r w) w) w)
  else (false, { c with segment_buffer := sorted.2 }, w)

/-- `buffer_length` after an addition, in 32-bit arithmetic. -/
def addLength (chunklen : ℕ) (buffer_length : ℤ) : ℤ := (chunklen + buffer_length).bmod (2 ^ 32)

/-- The buffer is emptied before a chunk that does not fit. The chunks of the file that wait
come into it, unless the chunk is the first one. -/
def cappingRoom (fileinfo : FileInfo ℕ) (r : ℕ) (p : List ℕ × Capping × Work) :
    Bool × List ℕ × Capping × Work :=
  if s.buffer_capacity < addLength (p.2.2.chunk r).chunklen p.2.1.buffer_length then
    let c :=
      if fileinfo.chunks.head? = some r then p.2.1
      else { p.2.1 with chunk_buffer := p.2.1.chunk_buffer ++ [⟨fileinfo.file_path, p.1⟩] }
    let q := rewrite s clock content c p.2.2
    (q.1, [], { q.2.1 with buffer_length := 0 }, q.2.2)
  else (true, p)

/-- The chunk is marked and locked. -/
def cappingMark (r : ℕ) (p : List ℕ × Capping × Work) : List ℕ × Capping × Work :=
  let w := p.2.2
  let c := { p.2.1 with buffer_length := addLength (w.chunk r).chunklen p.2.1.buffer_length }
  match w.found r with
  | none => (p.1 ++ [r], c, (w.markNew r).lock r)
  | some address =>
    (p.1 ++ [r], { c with
      segment_buffer := addUsage (· + ·) c.segment_buffer address (w.chunk r).chunklen },
      (w.markDedup r address).lock r)

/-- A round of the loop of `capping_process`. -/
def cappingChunk (fileinfo : FileInfo ℕ) (r : ℕ) (p : List ℕ × Capping × Work) :
    Bool × List ℕ × Capping × Work :=
  let q := cappingRoom s clock content fileinfo r p
  if q.1 then (true, cappingMark r q.2) else q

/-- `capping_process` of a file. -/
def cappingProcess (fileinfo : FileInfo ℕ) (c : Capping) (w : Work) : Bool × Capping × Work :=
  let q := runWhile (cappingChunk s clock content fileinfo) fileinfo.chunks ([], c, w)
  if q.1 then
    (true, { q.2.2.1 with
      chunk_buffer := q.2.2.1.chunk_buffer ++ [⟨fileinfo.file_path, q.2.1⟩] }, q.2.2.2)
  else (false, q.2.2)

theorem linkSegments_perm (l : List (Chunkaddress × ℤ)) : (linkSegments l).Perm l := by
  rw [linkSegments]
  have hgen : ∀ sorted : List (Chunkaddress × ℤ),
      (l.foldl (fun sorted rn => sorted.orderedInsert (fun a b => b.2 < a.2) rn) sorted).Perm
        (l ++ sorted) := by
    induction l with
    | nil => exact fun sorted => .refl _
    | cons rn l ih =>
      intro sorted
      rw [List.foldl_cons]
      refine (ih _).trans (((List.perm_orderedInsert _ rn sorted).append_left l).trans ?_)
      exact List.perm_middle
  simpa using hgen []

/-- The segments that are removed are in the table, each once, and the others stay. -/
theorem removeAll_spec {l : List (Chunkaddress × ℤ)} {segments : HTable 64 ℤ}
    (h : segments.WF) (hl : (l.map Prod.fst).Nodup) (hsub : l ⊆ segments.walk) :
    (l.foldl (fun t rn => HTable.remove t rn.1) segments).WF ∧
      (l ++ (l.foldl (fun t rn => HTable.remove t rn.1) segments).walk).Perm segments.walk := by
  induction l generalizing segments with
  | nil => exact ⟨h, .refl _⟩
  | cons rn l ih =>
    obtain ⟨hnot, hnodup⟩ := List.nodup_cons.mp hl
    have hlookup : segments.lookup rn.1 = some rn.2 := h.lookup_eq_some_iff.mpr (hsub (by simp))
    have hperm := h.walk_remove hlookup
    have hafter : l ⊆ (segments.remove rn.1).walk := by
      intro p hp
      have hmem := hperm.mem_iff.mpr (hsub (List.mem_cons_of_mem _ hp))
      refine (List.mem_cons.mp hmem).resolve_left fun heq => hnot ?_
      have hfirst : p.1 = rn.1 := congrArg Prod.fst heq
      exact hfirst ▸ List.mem_map_of_mem hp
    obtain ⟨hwf, hwalk⟩ := ih (h.remove hlookup) hnodup hafter
    exact ⟨hwf, (hwalk.cons rn).trans hperm⟩

/-- The containers are never too few or too many. -/
theorem sortSegments_spec {segments : HTable 64 ℤ} {max_refer_count : ℕ} (h : segments.WF)
    (hmax : max_refer_count < segments.size) :
    (sortSegments max_refer_count segments).1 = true ∧
      (sortSegments max_refer_count segments).2.WF := by
  have hperm := linkSegments_perm segments.walk
  have hnodup : ((linkSegments segments.walk).map Prod.fst).Nodup :=
    (hperm.map Prod.fst).nodup_iff.mpr h.nodup
  obtain ⟨hwf, hwalk⟩ := removeAll_spec (l := (linkSegments segments.walk).drop max_refer_count) h
    (by rw [List.map_drop]; exact hnodup.sublist (List.drop_sublist _ _))
    fun p hp => hperm.mem_iff.mp (List.mem_of_mem_drop hp)
  have hlength := hwalk.length_eq
  rw [List.length_append, List.length_drop, hperm.length_eq, ← hwf.size_eq, ← h.size_eq] at hlength
  refine ⟨?_, hwf⟩
  rw [sortSegments]
  exact decide_eq_true (by omega)

variable {s clock content} {sha1 : Bytes → Fingerprint} {cells : FileInfo ℕ → List ℕ}
  {c : Capping} {w : Work} {σ : ℕ → Stage} {S : ℕ → Prop} {fileinfo : FileInfo ℕ} {r : ℕ}
  {rs cl : List ℕ} {segments : HTable 64 ℤ}

/-- The chunks of a list with its path. -/
def ChunkList.places (cl : ChunkList) : List (ℕ × Bytes) := cl.chunks.map fun r => (r, cl.path)

def Capping.buffer (c : Capping) : List (ℕ × Bytes) := c.chunk_buffer.flatMap ChunkList.places

theorem cappingDecide_step {path : Bytes} (segments : HTable 64 ℤ) (h : Life cells w σ)
    (hpending : σ r = .pending) (hplace : ChunkOf sha1 (content path) (w.chunk r)) :
    Step sha1 clock S (w, σ)
      (cappingDecide clock content segments path r w, Function.update σ r .settled) := by
  rw [cappingDecide]
  cases hnew : (w.chunk r).is_new with
  | newChunk =>
    cases hfound : w.found r with
    | some a => exact step_late h hpending hnew hfound rfl
    | none => exact step_storeLate h hpending hnew hfound (hplace.stored rfl)
  | dedupChunk =>
    dsimp only
    split
    · exact step_rewrite h hpending hnew (hplace.stored rfl)
    · exact step_keep h hpending hnew

/-- The loop of `rewrite`, chunk by chunk. -/
theorem foldl_chunkLists (f : Bytes → ℕ → Work → Work) (l : List ChunkList) (w : Work) :
    l.foldl (fun w cl => cl.chunks.foldl (fun w r => f cl.path r w) w) w =
      (runWhile (fun p w => (true, f p.2 p.1 w)) (l.flatMap ChunkList.places) w).2 := by
  rw [runWhile_true, List.foldl_flatMap]
  simp only [ChunkList.places, List.foldl_map]

/-- A flush settles what waits, and meets no error. -/
theorem rewrite_steps (clock : ℕ → ℤ) (h : Life cells w σ) (hc : c.segment_buffer.WF)
    (hw : Waiting sha1 content c.buffer w σ) :
    (rewrite s clock content c w).1 = true ∧
      (rewrite s clock content c w).2.1.buffer = [] ∧
      (rewrite s clock content c w).2.1.segment_buffer.WF ∧
      ∃ σ', Steps sha1 clock noFile (w, σ) ((rewrite s clock content c w).2.2, σ') ∧
        Waiting sha1 content [] (rewrite s clock content c w).2.2 σ' := by
  obtain ⟨sorted, hsorted⟩ : ∃ sorted, sorted =
      if s.max_refer_count < c.segment_buffer.size then
        sortSegments s.max_refer_count c.segment_buffer
      else (true, c.segment_buffer) := ⟨_, rfl⟩
  have htrue : sorted.1 = true := by
    rw [hsorted]
    split
    · next hmax => exact (sortSegments_spec hc hmax).1
    · rfl
  have heq : rewrite s clock content c w =
      (true, { c with chunk_buffer := [], segment_buffer := htableInit 50 },
        (runWhile (fun p w => (true, cappingDecide clock content sorted.2 p.2 p.1 w)) c.buffer w).2) := by
    rw [rewrite, ← hsorted, if_pos htrue, foldl_chunkLists]
    rfl
  rw [heq]
  refine ⟨rfl, rfl, HTable.init_wf 50, ?_⟩
  exact (hw.flush (P := fun _ => True) clock _
    (fun w σ p hlife hpending hplace _ => ⟨rfl, cappingDecide_step sorted.2 hlife hpending hplace⟩) h
    fun _ _ => trivial).2

/-- What waits before a round: the buffer, and the chunks of the file that are not in it. -/
structure CappingWaiting (sha1 : Bytes → Fingerprint) (content : Bytes → Bytes) (path : Bytes)
    (cl : List ℕ) (c : Capping) (w : Work) (σ : ℕ → Stage) : Prop where
  waiting : Waiting sha1 content (c.buffer ++ cl.map fun r => (r, path)) w σ
  segments_wf : c.segment_buffer.WF

theorem buffer_push (c : Capping) (path : Bytes) (cl : List ℕ) :
    Capping.buffer { c with chunk_buffer := c.chunk_buffer ++ [⟨path, cl⟩] } =
      c.buffer ++ cl.map fun r => (r, path) := by
  rw [Capping.buffer, Capping.buffer, List.flatMap_append, List.flatMap_singleton]
  rfl

/-- There is room afterwards. -/
theorem cappingRoom_steps (clock : ℕ → ℤ) (h : Life cells w σ)
    (hw : CappingWaiting sha1 content fileinfo.file_path cl c w σ)
    (hfirst : fileinfo.chunks.head? = some r → cl = []) :
    ∃ cl' c' w' σ', cappingRoom s clock content fileinfo r (cl, c, w) = (true, cl', c', w') ∧
      Steps sha1 clock noFile (w, σ) (w', σ') ∧
      CappingWaiting sha1 content fileinfo.file_path cl' c' w' σ' := by
  rw [cappingRoom]
  dsimp only
  split
  · obtain ⟨c₁, hc₁⟩ : ∃ c₁, c₁ = if fileinfo.chunks.head? = some r then c
        else { c with chunk_buffer := c.chunk_buffer ++ [⟨fileinfo.file_path, cl⟩] } := ⟨_, rfl⟩
    have hbuffer : c₁.buffer = c.buffer ++ cl.map fun r => (r, fileinfo.file_path) := by
      rw [hc₁]
      split
      · next hhead => rw [hfirst hhead, List.map_nil, List.append_nil]
      · exact buffer_push c _ cl
    have hsegments : c₁.segment_buffer.WF := by
      rw [hc₁]
      split <;> exact hw.segments_wf
    obtain ⟨htrue, hnil, hwf, σ', hsteps, hwaiting⟩ :=
      rewrite_steps (s := s) clock h hsegments (hbuffer ▸ hw.waiting)
    rw [← hc₁]
    refine ⟨_, _, _, σ', Prod.ext htrue rfl, hsteps, ?_, hwf⟩
    have hempty : Capping.buffer { (rewrite s clock content c₁ w).2.1 with buffer_length := 0 } = [] :=
      hnil
    rw [hempty]
    exact hwaiting
  · exact ⟨cl, c, w, σ, rfl, Steps.refl w σ, hw⟩

/-- The chunk waits afterwards. -/
theorem cappingMark_step (clock : ℕ → ℤ)
    (hw : CappingWaiting sha1 content fileinfo.file_path cl c w σ) (hS : S r) (hfresh : σ r = .fresh) (hplace : ChunkOf sha1 (content fileinfo.file_path) (w.chunk r)) :
    Step sha1 clock S (w, σ) ((cappingMark r (cl, c, w)).2.2, Function.update σ r .pending) ∧
      CappingWaiting sha1 content fileinfo.file_path (cappingMark r (cl, c, w)).1
        (cappingMark r (cl, c, w)).2.1 (cappingMark r (cl, c, w)).2.2
        (Function.update σ r .pending) := by
  have hr : σ r ≠ .pending := by simp [hfresh]
  have hlist : (cl ++ [r]).map (fun r => (r, fileinfo.file_path)) =
      cl.map (fun r => (r, fileinfo.file_path)) ++ [(r, fileinfo.file_path)] := List.map_append
  rw [cappingMark]
  cases hfound : w.found r with
  | none =>
    have hstep : Step sha1 clock S (w, σ) ((w.markNew r).lock r, Function.update σ r .pending) :=
      (step_enterNew hS hfresh hfound).1
    refine ⟨hstep, ?_, hw.segments_wf⟩
    rw [hlist, ← List.append_assoc]
    exact hw.waiting.enter hr hplace hstep
  | some a =>
    have hstep : Step sha1 clock S (w, σ) ((w.markDedup r a).lock r, Function.update σ r .pending) :=
      (step_enterDup hS hfresh hfound rfl).1
    refine ⟨hstep, ?_, addUsage_wf hw.segments_wf a _⟩
    rw [hlist, ← List.append_assoc]
    exact hw.waiting.enter hr hplace hstep

/-- The loop over the chunks of a file meets no error. -/
theorem cappingChunks_steps (clock : ℕ → ℤ) (h : Life cells w σ)
    (hw : CappingWaiting sha1 content fileinfo.file_path cl c w σ)
    (hfile : AtHand sha1 (content fileinfo.file_path) rs w σ) (hS : ∀ r ∈ rs, S r)
    (hfirst : cl = [] ∨ ∀ r ∈ rs, fileinfo.chunks.head? ≠ some r)
    (htail : ∀ r ∈ rs.tail, fileinfo.chunks.head? ≠ some r) :
    ∃ cl' c' w' σ', runWhile (cappingChunk s clock content fileinfo) rs (cl, c, w) =
        (true, cl', c', w') ∧
      Steps sha1 clock S (w, σ) (w', σ') ∧
      CappingWaiting sha1 content fileinfo.file_path cl' c' w' σ' ∧
      ∀ r ∈ rs, σ' r = .pending ∨ σ' r = .settled := by
  induction rs generalizing cl c w σ with
  | nil => exact ⟨cl, c, w, σ, rfl, Steps.refl w σ, hw, by simp⟩
  | cons r rs ih =>
    obtain ⟨cl₁, c₁, w₁, σ₁, hroom, hsteps, hw₁⟩ := cappingRoom_steps (s := s) (r := r) clock h hw
      fun hhead => hfirst.resolve_right fun hne => hne r (by simp) hhead
    obtain ⟨hstage, hchunk⟩ : σ₁ r = σ r ∧ w₁.chunk r = w.chunk r := by
      cases hsteps.stage (r := r) id with
      | inl hsame => exact hsame
      | inr hbad => simp [hfile.fresh r (by simp)] at hbad
    obtain ⟨hstep, hw₂⟩ := cappingMark_step (S := (· = r)) clock hw₁ rfl
      (hstage.trans (hfile.fresh r (by simp))) (hchunk ▸ hfile.place r (by simp))
    have hround : Steps sha1 clock (· = r) (w, σ)
        ((cappingMark r (cl₁, c₁, w₁)).2.2, Function.update σ₁ r .pending) :=
      hsteps.of_noFile.trans (.of_step hstep)
    have hbody : cappingChunk s clock content fileinfo r (cl, c, w) =
        (true, cappingMark r (cl₁, c₁, w₁)) := by
      rw [cappingChunk, hroom]
      rfl
    obtain ⟨cl', c', w', σ', hrun, hrest, hw', hall⟩ := ih (hround.life h) hw₂
      (hfile.rest hround) (fun r' hr' => hS r' (List.mem_cons_of_mem _ hr')) (.inr htail)
      fun r' hr' => htail r' (List.mem_of_mem_tail hr')
    refine ⟨cl', c', w', σ', ?_, ?_, hw', fun r' hr' => ?_⟩
    · rw [runWhile_of_true hbody]
      exact hrun
    · exact (hround.mono (fun r' (hr' : r' = r) => hr' ▸ hS r (by simp))).trans hrest
    · rcases List.mem_cons.mp hr' with rfl | hr'
      · exact hrest.decided (.inl (Function.update_self _ _ _))
      · exact hall r' hr'

/-- The chunks of a file wait or are settled after `capping_process`, which meets no error. -/
theorem cappingProcess_steps (clock : ℕ → ℤ) (h : Life cells w σ) (hc : c.segment_buffer.WF)
    (hw : Waiting sha1 content c.buffer w σ)
    (hfile : AtHand sha1 (content fileinfo.file_path) fileinfo.chunks w σ)
    (hS : ∀ r ∈ fileinfo.chunks, S r) :
    ∃ c' w' σ', cappingProcess s clock content fileinfo c w = (true, c', w') ∧
      Steps sha1 clock S (w, σ) (w', σ') ∧ c'.segment_buffer.WF ∧
      Waiting sha1 content c'.buffer w' σ' ∧
      ∀ r ∈ fileinfo.chunks, σ' r = .pending ∨ σ' r = .settled := by
  have hstart : CappingWaiting sha1 content fileinfo.file_path [] c w σ := by
    refine ⟨?_, hc⟩
    rw [List.map_nil, List.append_nil]
    exact hw
  have htail : ∀ r ∈ fileinfo.chunks.tail, fileinfo.chunks.head? ≠ some r := by
    intro r hr
    have hnodup := hfile.nodup
    cases hchunks : fileinfo.chunks with
    | nil => simp
    | cons r' rs =>
      rw [hchunks] at hr hnodup
      rintro heq
      obtain rfl : r' = r := Option.some.inj heq
      exact (List.nodup_cons.mp hnodup).1 hr
  obtain ⟨cl', c', w', σ', hrun, hsteps, hw', hall⟩ :=
    cappingChunks_steps (s := s) clock h hstart hfile hS (.inl rfl) htail
  refine ⟨{ c' with chunk_buffer := c'.chunk_buffer ++ [⟨fileinfo.file_path, cl'⟩] }, w', σ', ?_,
    hsteps, hw'.segments_wf, ?_, hall⟩
  · rw [cappingProcess, hrun]
    rfl
  · rw [buffer_push]
    exact hw'.waiting

end TCBackup.Client
