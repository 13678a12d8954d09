import TCBackup.Client.CappingBatches

/-!
# The capping buffer without its pointers (`client/src/capping.c`)

As long as nothing fails, the lists of `CappingLists` hold the chunks that `Capping` has
for them, and both do the same to chunks, bin and store.

## Main definitions

- `CappingLists.erase` — the chunks instead of the pointers

## Main results

- `rewrite_erase`, `cappingProcess_erase` — a flush and a file
-/

namespace TCBackup.Client

open ByteFile Handoff Locking

def ChunkRange.erase (cl : ChunkRange) : ChunkList := ⟨cl.path, cl.walk⟩

/-- The chunks instead of the pointers. -/
def CappingLists.erase (b : CappingLists) : Capping :=
  ⟨b.buffer_length, b.chunk_buffer.map ChunkRange.erase, b.segment_buffer⟩

variable {fails : Fails} {s : Settings} {clock : ℕ → ℤ} {content : Bytes → Bytes}
  {segments : HTable 64 ℤ} {path : Bytes} {r : ℕ} {t : Attempt} {b : CappingLists}

section Flush

variable (clock content segments path)

theorem rewriteChunk_erase (h : FlushOk fails) (r : ℕ) (t : Attempt) :
    ∃ t', rewriteChunk fails clock content segments path true r t = (true, t') ∧
      t'.work = cappingDecide clock content segments path r t.work := by
  have hwrite : tryWrite fails clock true true (content path) (t.work.chunk r).offset r t = _ :=
    tryWrite_ok true (content path) (t.work.chunk r).offset r t h
  rw [rewriteChunk, Attempt.cappingDecide, cappingDecide]
  cases (t.work.chunk r).is_new with
  | newChunk =>
    cases t.work.found r with
    | some address => exact ⟨_, rfl, rfl⟩
    | none =>
      dsimp only
      rw [hwrite]
      exact ⟨_, rfl, rfl⟩
  | dedupChunk =>
    cases segments.lookup (t.work.chunk r).chunkaddress with
    | some length => exact ⟨_, rfl, rfl⟩
    | none =>
      dsimp only
      rw [hwrite]
      exact ⟨_, rfl, rfl⟩

theorem rewriteRange_erase (h : FlushOk fails) (group : List ℕ) (t : Attempt) :
    ∃ t', runWhile (rewriteChunk fails clock content segments path true) group t = (true, t') ∧
      t'.work = group.foldl (fun w r => cappingDecide clock content segments path r w) t.work := by
  induction group generalizing t with
  | nil => exact ⟨t, rfl, rfl⟩
  | cons r group ih =>
    obtain ⟨t₁, hround, hwork⟩ := rewriteChunk_erase clock content segments path h r t
    obtain ⟨t', hrun, hwork'⟩ := ih t₁
    refine ⟨t', ?_, ?_⟩
    · rw [runWhile_of_true hround, hrun]
    · rw [hwork', hwork, List.foldl_cons]

omit path in
theorem rewriteRanges_erase (h : FlushOk fails) (ranges : List ChunkRange) (t : Attempt) :
    ∃ t', t.rewriteRanges fails clock content segments ranges = (true, [], t') ∧
      t'.work = (ranges.map ChunkRange.erase).foldl
        (fun w cl => cl.chunks.foldl
          (fun w r => cappingDecide clock content segments cl.path r w) w) t.work := by
  induction ranges generalizing t with
  | nil => exact ⟨t, rfl, rfl⟩
  | cons cl ranges ih =>
    have hopen := tryOpen_ok true (t.take cl.walk) h
    obtain ⟨t₁, hrange, hwork⟩ := rewriteRange_erase clock content segments cl.path h cl.walk
      (tryOpen fails true (t.take cl.walk)).2
    obtain ⟨t', hrest, hwork'⟩ := ih t₁
    refine ⟨t', ?_, ?_⟩
    · rw [Attempt.rewriteRanges, rewriteRange_eq]
      have hopened : (tryOpen fails true (t.take cl.walk)).1 = true := by rw [hopen]
      rw [hopened, show upTo cl.last cl.first = cl.walk from rfl, hrange, if_pos rfl, hrest]
    · rw [hwork', hwork]
      rfl

end Flush

/-- A flush. -/
theorem rewrite_erase (h : FlushOk fails) (s : Settings) (clock : ℕ → ℤ) (content : Bytes → Bytes)
    (hwf : b.segment_buffer.WF) (t : Attempt) :
    ∃ b' t', t.rewrite fails s clock content b = (true, b', t') ∧
      rewrite s clock content b.erase t.work = (true, b'.erase, t'.work) ∧
      b'.segment_buffer.WF := by
  obtain ⟨sorted, hsorted⟩ : ∃ sorted, sorted =
      if s.max_refer_count < b.segment_buffer.size then
        sortSegments s.max_refer_count b.segment_buffer
      else (true, b.segment_buffer) := ⟨_, rfl⟩
  have hsame : (if s.max_refer_count < b.erase.segment_buffer.size then
        sortSegments s.max_refer_count b.erase.segment_buffer
      else (true, b.erase.segment_buffer)) = sorted := hsorted.symm
  have htrue : sorted.1 = true := by
    rw [hsorted]
    split
    · next hmax => exact (sortSegments_spec hwf hmax).1
    · rfl
  obtain ⟨t', hranges, hwork⟩ := rewriteRanges_erase clock content sorted.2 h b.chunk_buffer t
  refine ⟨{ b with chunk_buffer := [], segment_buffer := htableInit 50 }, t', ?_, ?_,
    HTable.init_wf 50⟩
  · rw [Attempt.rewrite, ← hsorted]
    dsimp only
    rw [if_pos htrue, hranges, if_pos rfl]
  · rw [rewrite, hsame]
    rw [if_pos htrue, hwork]
    rfl

/-- The loop with pointers is in front of the chunks `fcs`, and the other one is as far. -/
structure Erases (path : Bytes) (fcs : List ℕ) (x : Attempt.CappingLoop)
    (p : List ℕ × Capping × Work) : Prop where
  path : x.1.path = path
  first : x.1.first = p.1 ++ fcs
  last : p.1 ≠ [] → x.1.last = p.1.getLast?
  buffers : x.2.1.erase = p.2.1
  work : x.2.2.work = p.2.2
  segments_wf : x.2.1.segment_buffer.WF

variable {fcs : List ℕ} {x : Attempt.CappingLoop} {p : List ℕ × Capping × Work}
  {fileinfo : FileInfo ℕ}

/-- The list at hand. -/
theorem Erases.list (h : Erases path fcs x p) (hnodup : (p.1 ++ fcs).Nodup)
    (hstart : p.1 = [] → fcs = []) : x.1.erase = ⟨path, p.1⟩ := by
  rw [ChunkRange.erase, ChunkRange.walk, h.path, h.first]
  by_cases hnil : p.1 = []
  · rw [hnil, hstart hnil]
    rfl
  · rw [h.last hnil, upTo_getLast p.1 fcs hnil hnodup]

theorem Erases.push (h : Erases path fcs x p) (hnodup : (p.1 ++ fcs).Nodup)
    (hstart : p.1 = [] → fcs = []) :
    CappingLists.erase { x.2.1 with chunk_buffer := x.2.1.chunk_buffer ++ [x.1] } =
      { p.2.1 with chunk_buffer := p.2.1.chunk_buffer ++ [⟨path, p.1⟩] } := by
  rw [← h.buffers, ← h.list hnodup hstart, CappingLists.erase, List.map_append]
  rfl

/-- There is room in both. -/
theorem cappingRoom_erase (s : Settings) (clock : ℕ → ℤ) (content : Bytes → Bytes) (hok : FlushOk fails) (h : Erases fileinfo.file_path (r :: fcs) x p)
    (hnodup : (p.1 ++ r :: fcs).Nodup) (hstart : p.1 = [] ↔ r :: fcs = fileinfo.chunks)
    (hhead : fileinfo.chunks.head? = some r ↔ r :: fcs = fileinfo.chunks) :
    ∃ y q, Attempt.cappingRoom fails s clock content fileinfo r (r :: fcs) x = (true, y) ∧
      cappingRoom s clock content fileinfo r p = (true, q) ∧
      Erases fileinfo.file_path (r :: fcs) y q ∧ (q.1 = [] ∨ q.1 = p.1) := by
  have hlength : x.2.1.buffer_length = p.2.1.buffer_length :=
    congrArg Capping.buffer_length h.buffers
  rw [Attempt.cappingRoom, cappingRoom, h.work, hlength]
  split
  · split
    · next hfcs =>
      obtain ⟨b', t', hlists, hbuffer, hwf⟩ := rewrite_erase
        (b := { x.2.1 with chunk_buffer := x.2.1.chunk_buffer ++ [x.1] }) hok s clock content
        h.segments_wf x.2.2
      rw [h.push hnodup fun hnil => absurd (hstart.mp hnil) hfcs, h.work] at hbuffer
      rw [hlists, if_neg fun heq => hfcs (hhead.mp heq)]
      dsimp only
      rw [hbuffer]
      exact ⟨_, _, rfl, rfl, ⟨rfl, rfl, by simp, rfl, rfl, hwf⟩, .inl rfl⟩
    · next hfcs =>
      have hfirst := not_not.mp hfcs
      obtain ⟨b', t', hlists, hbuffer, hwf⟩ := rewrite_erase hok s clock content h.segments_wf x.2.2
      rw [h.buffers, h.work] at hbuffer
      rw [hlists, if_pos (hhead.mpr hfirst)]
      dsimp only
      rw [hbuffer]
      refine ⟨_, _, rfl, rfl, ⟨h.path, ?_, by simp, rfl, rfl, hwf⟩, .inl rfl⟩
      rw [h.first, hstart.mpr hfirst]
  · exact ⟨x, p, rfl, rfl, h, .inr rfl⟩

theorem cappingMark_erase (h : Erases path (r :: fcs) x p) :
    Erases path fcs (Attempt.cappingMark r x) (cappingMark r p) := by
  have hfirst : x.1.first = (p.1 ++ [r]) ++ fcs := by rw [h.first, List.append_cons]
  have hlast : (some r : Option ℕ) = (p.1 ++ [r]).getLast? := List.getLast?_concat.symm
  obtain ⟨l, c, w⟩ := p
  obtain rfl : x.2.1.erase = c := h.buffers
  obtain rfl : x.2.2.work = w := h.work
  rw [Attempt.cappingMark, cappingMark]
  cases x.2.2.work.found r with
  | none => exact ⟨h.path, hfirst, fun _ => hlast, rfl, rfl, h.segments_wf⟩
  | some address =>
    exact ⟨h.path, hfirst, fun _ => hlast, rfl, rfl, addUsage_wf h.segments_wf _ _⟩

/-- The loops over the chunks of a file, from one on. -/
theorem cappingChunks_erase (s : Settings) (clock : ℕ → ℤ) (content : Bytes → Bytes) (hok : FlushOk fails) {done : List ℕ}
    (h : Erases fileinfo.file_path fcs x p) (hchunks : fileinfo.chunks = done ++ fcs)
    (hnodup : fileinfo.chunks.Nodup) (hcur : p.1 <:+ done) (hstart : p.1 = [] ↔ done = []) :
    ∃ y q, Attempt.cappingChunks fails s clock content fileinfo fcs x = (true, y) ∧
      runWhile (cappingChunk s clock content fileinfo) fcs p = (true, q) ∧
      Erases fileinfo.file_path [] y q ∧ q.1.Nodup := by
  induction fcs generalizing x p done with
  | nil =>
    rw [hchunks, List.append_nil] at hnodup
    exact ⟨x, p, rfl, rfl, h, hnodup.sublist hcur.sublist⟩
  | cons r fcs ih =>
    have hsuffix : done = [] ↔ r :: fcs = fileinfo.chunks := by
      rw [hchunks, List.self_eq_append_left]
    have hdone : (done ++ r :: fcs).Nodup := hchunks ▸ hnodup
    have hhead : fileinfo.chunks.head? = some r ↔ r :: fcs = fileinfo.chunks := by
      rw [← hsuffix, hchunks]
      cases done with
      | nil => simp
      | cons a done =>
        have hne : a ≠ r := by
          rintro rfl
          exact (List.nodup_cons.mp hdone).1 (List.mem_append_right _ List.mem_cons_self)
        simp [hne]
    obtain ⟨y, q, hroom, hroom', hy, hq⟩ := cappingRoom_erase s clock content hok h
      (hdone.sublist (hcur.sublist.append_right _))
      (hstart.trans hsuffix) hhead
    have hq' : q.1 <:+ done := by
      rcases hq with hnil | hsame
      · exact hnil ▸ List.nil_suffix
      · exact hsame ▸ hcur
    have hlist : (cappingMark r q).1 = q.1 ++ [r] := by
      rw [cappingMark]
      split <;> rfl
    obtain ⟨z, q', hrun, hrun', hz, hnodup'⟩ := ih (cappingMark_erase hy)
      (show fileinfo.chunks = (done ++ [r]) ++ fcs by rw [hchunks, List.append_cons])
      (by rw [hlist]; exact List.suffix_append_self_iff.mpr hq') (by rw [hlist]; simp)
    refine ⟨z, q', ?_, ?_, hz, hnodup'⟩
    · rw [Attempt.cappingChunks, hroom]
      exact hrun
    · have hround : cappingChunk s clock content fileinfo r p = (true, cappingMark r q) := by
        rw [cappingChunk, hroom']
        rfl
      rw [runWhile_of_true hround, hrun']

/-- A file. -/
theorem cappingProcess_erase (hok : FlushOk fails) (s : Settings) (clock : ℕ → ℤ)
    (content : Bytes → Bytes) (hwf : b.segment_buffer.WF) (hnodup : fileinfo.chunks.Nodup)
    (t : Attempt) :
    ∃ b' t', t.cappingProcess fails s clock content fileinfo b = (true, b', t') ∧
      cappingProcess s clock content fileinfo b.erase t.work = (true, b'.erase, t'.work) ∧
      b'.segment_buffer.WF := by
  have hloop : Erases fileinfo.file_path fileinfo.chunks
      (⟨fileinfo.file_path, fileinfo.chunks, fileinfo.chunks.head?⟩, b, t) ([], b.erase, t.work) :=
    ⟨rfl, rfl, by simp, rfl, rfl, hwf⟩
  obtain ⟨y, q, hrun, hrun', hy, hcur⟩ := cappingChunks_erase s clock content hok hloop
    (show fileinfo.chunks = [] ++ fileinfo.chunks from rfl) hnodup List.nil_suffix (by simp)
  refine ⟨{ y.2.1 with chunk_buffer := y.2.1.chunk_buffer ++ [y.1] }, y.2.2, ?_, ?_, hy.segments_wf⟩
  · rw [Attempt.cappingProcess, hrun]
    rfl
  · rw [cappingProcess, hrun', hy.push (by rw [List.append_nil]; exact hcur) fun _ => rfl, hy.work]
    rfl

end TCBackup.Client
