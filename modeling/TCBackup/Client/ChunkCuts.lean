import TCBackup.Client.BufferedChunks
import TCBackup.Client.RabinWindow

/-!
# Where a file is cut depends on its content only

The next chunk is a function of the bytes that follow. What was slid through the window
before does not matter, because no mark counts in the first `MIN_CHUNK_SIZE` bytes, and
where the reads end does not matter, because a cut at the end of a block is made again
when more has been read.

## Main definitions

- `cut` — the length of the next chunk
- `chunksOf` — the chunks of the bytes that follow

## Main results

- `chunkFile_eq_chunksOf` — `chunk_file` produces the chunks of its content
- `chunkFile_local` — after a boundary the chunks depend on what follows it only
-/

namespace TCBackup.Client

open ByteFile

/-- Two histories: from the `i`-th byte on the same bytes are slid through both windows. -/
theorem chunkLoop_agree {i : ℕ} {r r' : Rabin} (h : Agree (i - 1) r r') (hi : 0 < i)
    (hr : Consistent r) (hr' : Consistent r') (p : Bytes) :
    (chunkLoop r i p).1 = (chunkLoop r' i p).1 := by
  induction p generalizing i r r' with
  | nil => rfl
  | cons m p ih =>
    have hslide : Agree i (slide r m) (slide r' m) := by
      have hnext := h.slide m
      rwa [Nat.sub_add_cancel hi] at hnext
    have hmark : (breakmark (slide r m) ∧ minChunkSize ≤ i ∨ maxChunkSize ≤ i ∨ p = []) ↔
        (breakmark (slide r' m) ∧ minChunkSize ≤ i ∨ maxChunkSize ≤ i ∨ p = []) := by
      by_cases hmin : minChunkSize ≤ i
      · have hwindow : windowSize ≤ i := by
          rw [minChunkSize] at hmin
          rw [windowSize]
          omega
        rw [hslide.breakmark hwindow (hr.slide m) (hr'.slide m)]
      · simp only [hmin, and_false]
    rw [chunkLoop, chunkLoop]
    by_cases hcut : breakmark (slide r m) ∧ minChunkSize ≤ i ∨ maxChunkSize ≤ i ∨ p = []
    · rw [if_pos hcut, if_pos (hmark.mp hcut)]
    · rw [if_neg hcut, if_neg fun h' => hcut (hmark.mpr h')]
      exact ih hslide (Nat.succ_pos i) (hr.slide m) (hr'.slide m)

theorem consistent_chunkLoop {r : Rabin} (h : Consistent r) (i : ℕ) (p : Bytes) :
    Consistent (chunkLoop r i p).2 := by
  induction p generalizing r i with
  | nil => exact h
  | cons m p ih =>
    rw [chunkLoop]
    split
    · exact h.slide m
    · exact ih (h.slide m) (i + 1)

/-- A cut before the end stays where it is when more bytes follow. -/
theorem chunkLoop_append {p : Bytes} (hp : p ≠ []) (r : Rabin) (i : ℕ)
    (h : (chunkLoop r i p).1 + 1 < i + p.length ∨ maxChunkSize ≤ (chunkLoop r i p).1) (q : Bytes) :
    (chunkLoop r i (p ++ q)).1 = (chunkLoop r i p).1 := by
  induction p generalizing r i with
  | nil => exact absurd rfl hp
  | cons m p ih =>
    rw [List.length_cons] at h
    rw [List.cons_append, chunkLoop, chunkLoop]
    rw [chunkLoop] at h
    by_cases hmark : breakmark (slide r m) ∧ minChunkSize ≤ i ∨ maxChunkSize ≤ i
    · rw [if_pos (or_assoc.mp (.inl hmark)), if_pos (or_assoc.mp (.inl hmark))]
    · by_cases hend : p = []
      · have hcut : breakmark (slide r m) ∧ minChunkSize ≤ i ∨ maxChunkSize ≤ i ∨ p = [] :=
          .inr (.inr hend)
        rw [if_pos hcut, hend] at h
        rcases h with h | h
        · simp at h
        · exact absurd (.inr h) hmark
      · have hgo : ¬(breakmark (slide r m) ∧ minChunkSize ≤ i ∨ maxChunkSize ≤ i ∨ p = []) := by
          rw [← or_assoc]
          exact not_or.mpr ⟨hmark, hend⟩
        have hgo' : ¬(breakmark (slide r m) ∧ minChunkSize ≤ i ∨ maxChunkSize ≤ i ∨
            p ++ q = []) := by
          rw [← or_assoc]
          refine not_or.mpr ⟨hmark, fun hnil => hend (List.append_eq_nil_iff.mp hnil).1⟩
        rw [if_neg hgo] at h ⊢
        rw [if_neg hgo']
        exact ih hend (slide r m) (i + 1) (by omega)

/-- The length of the next chunk. -/
def cut (p : Bytes) : ℕ := (chunkData (Rabin.reset ⟨0, 0, fun _ => 0⟩) p).1

theorem chunkData_eq {r : Rabin} (h : Consistent r) (p : Bytes) : (chunkData r p).1 = cut p :=
  chunkLoop_agree (agree_zero r _) Nat.one_pos h (consistent_reset _) p

theorem cut_bounds {p : Bytes} (hp : p ≠ []) : 0 < cut p ∧ cut p ≤ p.length ∧ cut p ≤ maxChunkSize :=
  chunkData_bounds hp _

theorem cut_append {p : Bytes} (hp : p ≠ []) (h : cut p < p.length ∨ cut p = maxChunkSize)
    (q : Bytes) : cut (p ++ q) = cut p := by
  refine chunkLoop_append hp _ 1 ?_ q
  cases h with
  | inl hlt =>
    rw [cut, chunkData] at hlt
    exact .inl (by omega)
  | inr hmax => exact .inr hmax.ge

theorem cut_short {p : Bytes} (hp : p ≠ []) (h : p.length < minChunkSize) : cut p = p.length := by
  by_contra hne
  have hmin := Buffered.chunkData_min hp _ hne
  have hle := (cut_bounds hp).2.1
  rw [cut] at hle
  omega

/-- The chunks of the bytes that follow. -/
def chunksOf (p : Bytes) : List Bytes :=
  if _h : p = [] then [] else p.take (cut p) :: chunksOf (p.drop (cut p))
termination_by p.length
decreasing_by
  have hpos := (cut_bounds _h).1
  have hlen := List.length_pos_iff.mpr _h
  rw [List.length_drop]
  omega

@[simp] theorem chunksOf_nil : chunksOf [] = [] := by
  rw [chunksOf]
  rfl

theorem chunksOf_cons {p : Bytes} (h : p ≠ []) :
    chunksOf p = p.take (cut p) :: chunksOf (p.drop (cut p)) := by
  rw [chunksOf, dif_neg h]

/-- Bytes that are not cut, with nothing behind them. -/
def Uncut (left : Bytes) : Prop := left ≠ [] → cut left = left.length

theorem chunksOf_uncut {left : Bytes} (h : Uncut left) :
    chunksOf left = if left = [] then [] else [left] := by
  by_cases hnil : left = []
  · rw [if_pos hnil, hnil, chunksOf_nil]
  · rw [if_neg hnil, chunksOf_cons hnil, h hnil, List.take_length, List.drop_length, chunksOf_nil]

theorem cutBlock_chunksOf {fuel : ℕ} {r : Rabin} {src : Bytes} (h : src.length ≤ fuel)
    (hr : Consistent r) (more : Bytes) :
    chunksOf (src ++ more) =
        (cutBlock fuel r src).1 ++ chunksOf ((cutBlock fuel r src).2.1 ++ more) ∧
      Uncut (cutBlock fuel r src).2.1 ∧ Consistent (cutBlock fuel r src).2.2 := by
  induction fuel generalizing r src with
  | zero =>
    have hnil : src = [] := List.length_eq_zero_iff.mp (Nat.le_zero.mp h)
    rw [cutBlock, hnil]
    exact ⟨rfl, fun hne => absurd rfl hne, hr⟩
  | succ fuel ih =>
    rw [cutBlock]
    by_cases hnil : src = []
    · rw [if_pos hnil, hnil]
      exact ⟨rfl, fun hne => absurd rfl hne, hr⟩
    · rw [if_neg hnil]
      dsimp only
      have hcut := chunkData_eq hr src
      have hnext : Consistent (chunkData r src).2 := consistent_chunkLoop hr 1 src
      obtain ⟨hpos, hle, hmax⟩ := cut_bounds hnil
      rw [hcut]
      by_cases hlast : src.length = cut src ∧ src.length < maxChunkSize
      · rw [if_pos hlast]
        exact ⟨rfl, fun _ => hlast.1.symm, hnext⟩
      · rw [if_neg hlast]
        have hdrop : (src.drop (cut src)).length ≤ fuel := by
          rw [List.length_drop]
          omega
        obtain ⟨hchunks, hleft, hend⟩ := ih hdrop hnext
        refine ⟨?_, hleft, hend⟩
        have hkept : cut (src ++ more) = cut src := cut_append hnil (by omega) more
        have hne : src ++ more ≠ [] := fun hboth => hnil (List.append_eq_nil_iff.mp hboth).1
        rw [chunksOf_cons hne, hkept, List.take_append_of_le_length hle,
          List.drop_append_of_le_length hle, hchunks]
        rfl

theorem chunkBlocks_chunksOf {fuel : ℕ} {r : Rabin} {left rest : Bytes} (h : rest.length ≤ fuel)
    (hr : Consistent r) (hleft : Uncut left) :
    (chunkBlocks fuel r left rest).1 = chunksOf (left ++ rest) := by
  induction fuel generalizing r left rest with
  | zero =>
    have hnil : rest = [] := List.length_eq_zero_iff.mp (Nat.le_zero.mp h)
    rw [chunkBlocks, hnil, List.append_nil, chunksOf_uncut hleft]
  | succ fuel ih =>
    rw [chunkBlocks]
    by_cases hnil : rest = []
    · rw [if_pos hnil, hnil, List.append_nil, chunksOf_uncut hleft]
    · rw [if_neg hnil]
      dsimp only
      have hpos : 0 < rest.length := List.length_pos_iff.mpr hnil
      by_cases hshort : (left ++ rest.take maxChunkSize).length < minChunkSize
      · rw [if_pos hshort]
        have hall : rest.take maxChunkSize = rest := by
          refine List.take_of_length_le ?_
          rw [List.length_append, List.length_take, minChunkSize] at hshort
          rw [maxChunkSize] at hshort ⊢
          omega
        rw [hall] at hshort ⊢
        have hne : left ++ rest ≠ [] := fun hboth => hnil (List.append_eq_nil_iff.mp hboth).2
        have huncut : Uncut (left ++ rest) := fun _ => cut_short hne hshort
        rw [chunksOf_uncut huncut, if_neg hne]
      · rw [if_neg hshort]
        obtain ⟨hchunks, huncut, hend⟩ := cutBlock_chunksOf
          (le_refl (left ++ rest.take maxChunkSize).length) hr (rest.drop maxChunkSize)
        have hdrop : (rest.drop maxChunkSize).length ≤ fuel := by
          have hmax := maxChunkSize_pos
          rw [List.length_drop]
          omega
        rw [ih hdrop hend huncut, ← hchunks, List.append_assoc, List.take_append_drop]

/-- `chunk_file` produces the chunks of its content. -/
theorem chunkFile_eq_chunksOf (r : Rabin) (content : Bytes) :
    (chunkFile r content).1 = chunksOf content :=
  chunkBlocks_chunksOf (le_refl content.length) (consistent_reset r) fun h => absurd rfl h

/-- Behind some of the chunks come those of the bytes behind them. -/
theorem chunksOf_append {p : Bytes} {front back : List Bytes} (h : chunksOf p = front ++ back) :
    back = chunksOf (p.drop front.flatten.length) := by
  induction front generalizing p with
  | nil => exact h.symm
  | cons c front ih =>
    have hne : p ≠ [] := by
      rintro rfl
      rw [chunksOf_nil] at h
      exact absurd h (List.cons_ne_nil _ _).symm
    rw [chunksOf_cons hne, List.cons_append, List.cons.injEq] at h
    have hlength : c.length = cut p := by
      rw [← h.1, List.length_take, Nat.min_eq_left (cut_bounds hne).2.1]
    rw [ih h.2, List.drop_drop, List.flatten_cons, List.length_append, hlength]

/-- The start of the file, or the end of a chunk. -/
def Boundary (n : ℕ) (l : List FingerChunk) : Prop :=
  n = 0 ∨ ∃ fc ∈ l, fc.offset + fc.chunklen = n

/-- The lengths and the hashes of the chunks from `n` on. -/
def chunksAfter (n : ℕ) (l : List FingerChunk) : List (ℕ × Fingerprint) :=
  (l.filter fun fc => n ≤ fc.offset).map fun fc => (fc.chunklen, fc.chunk_hash)

variable {sha1 : Bytes → Fingerprint}

theorem exists_split_of_mem {offset : ℕ} {l : List Bytes} {fc : FingerChunk}
    (h : fc ∈ fingerChunks sha1 offset l) :
    ∃ front back, l = front ++ back ∧ fc.offset + fc.chunklen = offset + front.flatten.length := by
  induction l generalizing offset with
  | nil => simp [fingerChunks] at h
  | cons bs l ih =>
    rw [fingerChunks, List.mem_cons] at h
    cases h with
    | inl hfirst =>
      refine ⟨[bs], l, rfl, ?_⟩
      rw [hfirst, List.flatten_singleton]
    | inr hmem =>
      obtain ⟨front, back, hl, hend⟩ := ih hmem
      refine ⟨bs :: front, back, by rw [hl, List.cons_append], ?_⟩
      rw [hend, List.flatten_cons, List.length_append, Nat.add_assoc]

theorem Boundary.split {n : ℕ} {l : List Bytes} (h : Boundary n (fingerChunks sha1 0 l)) :
    ∃ front back, l = front ++ back ∧ n = front.flatten.length := by
  obtain rfl | ⟨fc, hfc, hn⟩ := h
  · exact ⟨[], l, rfl, rfl⟩
  · obtain ⟨front, back, hl, hend⟩ := exists_split_of_mem hfc
    exact ⟨front, back, hl, by omega⟩

theorem offset_fingerChunks {offset : ℕ} {l : List Bytes} (hl : ∀ c ∈ l, IsChunk c)
    {fc : FingerChunk} (h : fc ∈ fingerChunks sha1 offset l) :
    offset ≤ fc.offset ∧ fc.offset < offset + l.flatten.length := by
  induction l generalizing offset with
  | nil => simp [fingerChunks] at h
  | cons bs l ih =>
    have hpos : 0 < bs.length := List.length_pos_iff.mpr (hl bs List.mem_cons_self).1
    rw [fingerChunks, List.mem_cons] at h
    rw [List.flatten_cons, List.length_append]
    cases h with
    | inl hfirst =>
      rw [hfirst]
      dsimp only
      omega
    | inr hmem =>
      have hrest := ih (fun c hc => hl c (List.mem_cons_of_mem _ hc)) hmem
      omega

theorem map_fingerChunks (offset : ℕ) (l : List Bytes) :
    (fingerChunks sha1 offset l).map (fun fc => (fc.chunklen, fc.chunk_hash)) =
      l.map fun bs => (bs.length, sha1 bs) := by
  induction l generalizing offset with
  | nil => rfl
  | cons bs l ih => rw [fingerChunks, List.map_cons, List.map_cons, ih]

theorem chunksAfter_fingerChunks {front back : List Bytes} (h : ∀ c ∈ front ++ back, IsChunk c) :
    chunksAfter front.flatten.length (fingerChunks sha1 0 (front ++ back)) =
      back.map fun bs => (bs.length, sha1 bs) := by
  have hfront : (fingerChunks sha1 0 front).filter
      (fun fc => front.flatten.length ≤ fc.offset) = [] := by
    rw [List.filter_eq_nil_iff]
    intro fc hfc
    have hin := offset_fingerChunks (fun c hc => h c (List.mem_append_left _ hc)) hfc
    rw [decide_eq_true_eq]
    omega
  have hback : (fingerChunks sha1 (0 + front.flatten.length) back).filter
      (fun fc => front.flatten.length ≤ fc.offset) =
        fingerChunks sha1 (0 + front.flatten.length) back := by
    rw [List.filter_eq_self]
    intro fc hfc
    have hin := offset_fingerChunks (fun c hc => h c (List.mem_append_right _ hc)) hfc
    rw [decide_eq_true_eq]
    omega
  rw [chunksAfter, Buffered.fingerChunks_append, List.filter_append, hfront, hback,
    List.nil_append, map_fingerChunks]

theorem chunksAfter_boundary {r : Rabin} {front back : Bytes}
    (h : Boundary front.length (fingerChunks sha1 0 (chunkFile r (front ++ back)).1)) :
    chunksAfter front.length (fingerChunks sha1 0 (chunkFile r (front ++ back)).1) =
      (chunksOf back).map fun bs => (bs.length, sha1 bs) := by
  obtain ⟨l, l', hsplit, hlength⟩ := h.split
  have hl' : l' = chunksOf back := by
    rw [chunkFile_eq_chunksOf] at hsplit
    rw [chunksOf_append hsplit, ← hlength, List.drop_left]
  have hchunks : ∀ c ∈ l ++ l', IsChunk c := by
    intro c hc
    rw [← hsplit] at hc
    exact isChunk_chunkFile hc
  rw [hsplit, hlength, chunksAfter_fingerChunks hchunks, hl']

/-- The first chunk ends at a boundary. -/
theorem boundary_cut (sha1 : Bytes → Fingerprint) (r : Rabin) {p : Bytes} (hp : p ≠ []) :
    Boundary (p.take (cut p)).length (fingerChunks sha1 0 (chunkFile r p).1) := by
  rw [chunkFile_eq_chunksOf, chunksOf_cons hp, fingerChunks]
  exact .inr ⟨_, List.mem_cons_self, Nat.zero_add _⟩

end TCBackup.Client

namespace TCBackup.Client.Buffered

open ByteFile Memory

variable {sha1 : Bytes → Fingerprint}

/-- The chunks that `chunk_file` appends to an empty `FileInfo`. -/
theorem chunks_chunkFile {r : Rabin} {fileinfo : FileInfo FingerChunk} {src : Mem}
    {file : OpenFile} (hscript : .fails ∉ file.script) {s : Scan Counted}
    (hs : s ∈ (chunkFile sha1 r ⟨{ fileinfo with chunks := [] }, 0⟩ (some src) (some file)).2) :
    s.out.fileinfo.chunks = fingerChunks sha1 0 (Client.chunkFile r file.rest).1 := by
  obtain ⟨t, ht, hout, -⟩ := chunkFile_eq sha1 r ⟨{ fileinfo with chunks := [] }, 0⟩ src hscript
  rw [ht] at hs
  obtain rfl := Option.some.inj hs
  rw [hout, (foldl_fileAppend _ _ int32_zero.symm).1, List.nil_append]

/-- After a boundary the chunks depend on what follows it only. -/
theorem chunkFile_local (sha1 : Bytes → Fingerprint) (r r' : Rabin)
    (fileinfo fileinfo' : FileInfo FingerChunk) (src src' : Mem) (f g : OpenFile)
    (front front' back : Bytes) (hf : f.rest = front ++ back) (hg : g.rest = front' ++ back)
    (hfscript : .fails ∉ f.script) (hgscript : .fails ∉ g.script) {s t : Scan Counted}
    (hs : s ∈ (chunkFile sha1 r ⟨{ fileinfo with chunks := [] }, 0⟩ (some src) (some f)).2)
    (ht : t ∈ (chunkFile sha1 r' ⟨{ fileinfo' with chunks := [] }, 0⟩ (some src') (some g)).2)
    (hfront : Boundary front.length s.out.fileinfo.chunks)
    (hfront' : Boundary front'.length t.out.fileinfo.chunks) :
    chunksAfter front.length s.out.fileinfo.chunks =
      chunksAfter front'.length t.out.fileinfo.chunks := by
  rw [chunks_chunkFile hfscript hs, hf] at hfront ⊢
  rw [chunks_chunkFile hgscript ht, hg] at hfront' ⊢
  rw [chunksAfter_boundary hfront, chunksAfter_boundary hfront']

/-- A file of 70000 zeros. -/
def zeros : OpenFile := ⟨List.replicate 70000 0, []⟩

/-- What lies behind its first chunk, in a file of its own. -/
def zerosBehind : OpenFile := ⟨zeros.rest.drop (cut zeros.rest), [.interrupted]⟩

theorem chunkFile_local_zeros :
    ∃ s ∈ (chunkFile (fun _ => zeroFinger) ⟨0, 0, fun _ => 0⟩
        ⟨{ (fileNew : FileInfo FingerChunk) with chunks := [] }, 0⟩ (some fun _ => 0)
        (some zeros)).2,
      ∃ t ∈ (chunkFile (fun _ => zeroFinger) ⟨1, 30, fun _ => 1⟩
        ⟨{ (fileNew : FileInfo FingerChunk) with chunks := [] }, 0⟩ (some fun _ => 1)
        (some zerosBehind)).2,
      chunksAfter (zeros.rest.take (cut zeros.rest)).length s.out.fileinfo.chunks =
        chunksAfter 0 t.out.fileinfo.chunks := by
  have hne : zeros.rest ≠ [] := by
    rw [zeros, Ne, List.replicate_eq_nil_iff]
    decide
  have hscript : Outcome.fails ∉ zeros.script := List.not_mem_nil
  have hbehind : Outcome.fails ∉ zerosBehind.script := by
    rw [zerosBehind]
    decide
  have hrest : zerosBehind.rest = [] ++ zeros.rest.drop (cut zeros.rest) := by
    rw [zerosBehind, List.nil_append]
  obtain ⟨s, hs, -⟩ := chunkFile_eq (fun _ => zeroFinger) ⟨0, 0, fun _ => 0⟩
    ⟨{ (fileNew : FileInfo FingerChunk) with chunks := [] }, 0⟩ (fun _ => 0) hscript
  obtain ⟨t, ht, -⟩ := chunkFile_eq (fun _ => zeroFinger) ⟨1, 30, fun _ => 1⟩
    ⟨{ (fileNew : FileInfo FingerChunk) with chunks := [] }, 0⟩ (fun _ => 1) hbehind
  have hsmem := congrArg Prod.snd hs
  have htmem := congrArg Prod.snd ht
  refine ⟨s, hsmem, t, htmem, ?_⟩
  refine chunkFile_local (fun _ => zeroFinger) _ _ fileNew fileNew _ _ zeros zerosBehind _ []
    (zeros.rest.drop (cut zeros.rest)) (List.take_append_drop _ _).symm hrest hscript hbehind
    hsmem htmem ?_ (.inl rfl)
  rw [chunks_chunkFile hscript hsmem]
  exact boundary_cut _ _ hne

end TCBackup.Client.Buffered
