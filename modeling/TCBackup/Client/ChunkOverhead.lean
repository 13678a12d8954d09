import TCBackup.Client.ChunkCuts
import TCBackup.Client.Sha1

/-!
# `chunk_overhead` against `chunk_file` (`client/src/overhead_test.c`)

`chunk_overhead` is a copy of the loops of `chunk_file` that makes a `FileInfo` of every
chunk. For the last chunk it hashes `size` bytes instead of `len`: what the last cut found,
which is not the length of the last chunk when the file ends in a short buffer.

## Main definitions

- `chunkOverhead` — `chunk_overhead`
- `shortEnd` — how a file ends in a short buffer

## Main results

- `readLoop_shortEnd` — the buffer behind the loops
- `chunkOverhead_agrees_iff` — when both paths produce the same chunks
-/

namespace TCBackup.Client.Buffered

open ByteFile Memory

/-- A `FileInfo` of its own for a chunk. -/
def pushFile (path : Bytes) (queue : List (FileInfo FingerChunk)) (fc : FingerChunk) :
    List (FileInfo FingerChunk) :=
  queue ++ [fileAppendFingerchunk
    { fileNew with file_path := path, is_new := .newFile, file_size := fc.chunklen } fc]

/-- `chunk_overhead(path)` with the buffer that `malloc` returned and the file that `open`
returned: the result and the variables at the end. The deduplication of each chunk, which comes
between the steps, does not change its place, its length and its hash. -/
def chunkOverhead (sha1 : Bytes → Fingerprint) (r : Rabin) (path : Bytes) (src : Option Mem)
    (file : Option OpenFile) : ℤ × Option (Scan (List (FileInfo FingerChunk))) :=
  match src, file with
  | some src, some file =>
    let s := scan sha1 (pushFile path) r [] src file
    (success, some (pushTail sha1 (pushFile path) s.size s))
  | _, _ => (failure, none)

/-- `(offset, chunklen, chunk_hash)` -/
def records (l : List FingerChunk) : List (ℕ × ℕ × Fingerprint) :=
  l.map fun fc => (fc.offset, fc.chunklen, fc.chunk_hash)

/-- What the inner loop leaves of a block, whatever was slid through the window before. -/
def leftOf (block : Bytes) : Bytes :=
  (cutBlock block.length (Rabin.reset ⟨0, 0, fun _ => 0⟩) block).2.1

/-- The first `size` bytes of a buffer that holds `block`, when `left` had been carried over and
`prev` is the block before: as many as were carried over, or a largest chunk. -/
def staleBytes (prev left block : Bytes) : Bytes :=
  if left ≠ [] then left
  else if prev = [] then []
  else (block ++ prev.drop block.length).take maxChunkSize

/-- A file that ends in a buffer of fewer than `MIN_CHUNK_SIZE` bytes: the bytes that `size` covers
there, and all of them. -/
def shortEnd : ℕ → Bytes → Bytes → Bytes → Option (Bytes × Bytes)
  | 0, _, _, _ => none
  | fuel + 1, prev, left, rest =>
    if rest = [] then none
    else
      let block := left ++ rest.take maxChunkSize
      if block.length < minChunkSize then some (staleBytes prev left block, block)
      else shortEnd fuel block (leftOf block) (rest.drop maxChunkSize)

/-- How the file ends. -/
def fileEnd (content : Bytes) : Option (Bytes × Bytes) := shortEnd content.length [] [] content

/-- `size` does not cover as many bytes as the buffer holds. -/
theorem shortEnd_length_ne {fuel : ℕ} {prev left rest : Bytes}
    (hprev : prev = [] ∨ minChunkSize ≤ prev.length) :
    ∀ x ∈ shortEnd fuel prev left rest, x.1.length ≠ x.2.length := by
  induction fuel generalizing prev left rest with
  | zero => exact fun x hx => absurd hx (Option.not_mem_none x)
  | succ fuel ih =>
    rw [shortEnd]
    by_cases hend : rest = []
    · rw [if_pos hend]
      exact fun x hx => absurd hx (Option.not_mem_none x)
    rw [if_neg hend]
    dsimp only
    have hmax := maxChunkSize_pos
    have hpos : 0 < (rest.take maxChunkSize).length := by
      have hlength := List.length_pos_iff.mpr hend
      rw [List.length_take]
      omega
    by_cases hshort : (left ++ rest.take maxChunkSize).length < minChunkSize
    · rw [if_pos hshort]
      intro x hx
      obtain rfl := Option.some.inj hx
      dsimp only
      rw [staleBytes]
      split
      · rw [List.length_append]
        omega
      · next hleft =>
        have hnil := not_not.mp hleft
        rw [hnil, List.nil_append] at hshort ⊢
        split
        · exact hpos.ne
        · next hne =>
          have hmin := hprev.resolve_left hne
          have hle : minChunkSize ≤ maxChunkSize := by decide
          rw [List.length_take, List.length_append, List.length_drop]
          omega
    · rw [if_neg hshort]
      exact ih (.inr (not_lt.mp hshort))

theorem cutBlock_agree (fuel : ℕ) {r r' : Rabin} (hr : Consistent r) (hr' : Consistent r')
    (src : Bytes) : (cutBlock fuel r src).2.1 = (cutBlock fuel r' src).2.1 := by
  induction fuel generalizing r r' src with
  | zero => rfl
  | succ fuel ih =>
    rw [cutBlock, cutBlock]
    by_cases hnil : src = []
    · rw [if_pos hnil, if_pos hnil]
    · rw [if_neg hnil, if_neg hnil]
      dsimp only
      rw [chunkData_eq hr, chunkData_eq hr']
      split
      · rfl
      · exact ih (consistent_chunkLoop hr 1 src) (consistent_chunkLoop hr' 1 src) _

theorem leftOf_eq {r : Rabin} (hr : Consistent r) (block : Bytes) :
    (cutBlock block.length r block).2.1 = leftOf block :=
  cutBlock_agree block.length hr (consistent_reset _) block

variable {σ : Type} {sha1 : Bytes → Fingerprint} {push : σ → FingerChunk → σ} {s t : Scan σ}

variable (sha1 push) in
/-- A block that is cut up to its end ends in a largest chunk. -/
theorem cutLoop_whole (fuel : ℕ) (s : Scan σ) (len : ℕ) (hleft : s.left_bytes = 0)
    (hfuel : s.srclen ≤ len + fuel)
    (hend : (cutLoop sha1 push fuel s len len).left_bytes = 0) :
    (cutLoop sha1 push fuel s len len).io = s.io ∧
      (cutLoop sha1 push fuel s len len).size =
        (if (len : ℤ) < s.srclen then maxChunkSize else s.size) ∧
      ((len : ℤ) < s.srclen → (maxChunkSize : ℤ) ≤ s.srclen) := by
  induction fuel generalizing s len with
  | zero =>
    rw [if_neg (by omega)]
    exact ⟨rfl, rfl, fun hlt => by omega⟩
  | succ fuel ih =>
    rw [cutLoop] at hend ⊢
    by_cases hlt : (len : ℤ) < s.srclen
    · have hpos : 0 < (s.srclen - len).toNat := by omega
      have hlength := length_load s.io.src len (s.srclen - len).toNat
      have hne : load s.io.src len (s.srclen - len).toNat ≠ [] :=
        List.length_pos_iff.mp (hpos.trans_eq hlength.symm)
      have hbounds := chunkData_bounds hne s.rabin
      rw [hlength] at hbounds
      rw [if_pos hlt] at hend ⊢
      rw [if_pos hlt]
      dsimp only at hend ⊢
      obtain ⟨q, hq⟩ : ∃ q, chunkData s.rabin (load s.io.src len (s.srclen - len).toNat) = q :=
        ⟨_, rfl⟩
      rw [hq] at hbounds hend ⊢
      by_cases hlast : (s.srclen - len).toNat = q.1 ∧ (s.srclen - len).toNat < maxChunkSize
      · rw [if_pos hlast] at hend
        dsimp only at hend
        omega
      · rw [if_neg hlast] at hend ⊢
        obtain ⟨hio, hsize, hlong⟩ := ih
          { s with
            rabin := q.2
            size := q.1
            offset := s.offset + q.1
            out := push s.out (newChunk (sha1 (load s.io.src len q.1)) q.1 s.offset) }
          (len + q.1) hleft (show s.srclen ≤ ((len + q.1 : ℕ) : ℤ) + fuel by omega) hend
        dsimp only at hsize hlong
        refine ⟨hio, hsize.trans ?_, fun _ => ?_⟩
        · split
          · rfl
          · omega
        · by_cases hmore : ((len + q.1 : ℕ) : ℤ) < s.srclen
          · exact hlong hmore
          · omega
    · rw [if_neg hlt, if_neg hlt]
      exact ⟨rfl, rfl, fun h => absurd h hlt⟩

/-- What `size` and the buffer are after a block, `prev`, or before the first one. -/
structure Stale (s : Scan σ) (prev : Bytes) : Prop where
  carried : 0 < s.left_bytes → s.size = s.left_bytes
  first : s.left_bytes = 0 → prev = [] → s.size = 0
  whole : s.left_bytes = 0 → prev ≠ [] →
    s.size = maxChunkSize ∧ maxChunkSize ≤ prev.length ∧ load s.io.src 0 prev.length = prev

/-- The bytes that `size` covers after a short read. -/
theorem Stale.load {prev bs : Bytes} (h : Stale s prev) {io : Io}
    (hfill : s.io.Fills io s.left_bytes maxChunkSize bs true) :
    load io.src 0 s.size =
      staleBytes prev (load s.io.src 0 s.left_bytes) (load s.io.src 0 s.left_bytes ++ bs) := by
  have hlength := length_load s.io.src 0 s.left_bytes
  rw [staleBytes]
  by_cases hzero : s.left_bytes = 0
  · have hnil : Memory.load s.io.src 0 s.left_bytes = [] := by
      rw [hzero]
      rfl
    rw [hnil, if_neg (not_not.mpr rfl), List.nil_append]
    by_cases hprev : prev = []
    · rw [if_pos hprev, h.first hzero hprev]
      rfl
    · obtain ⟨hsize, hle, hblock⟩ := h.whole hzero hprev
      have hbs : bs.length ≤ maxChunkSize := hfill.le
      have hrest : Memory.load s.io.src bs.length (maxChunkSize - bs.length) =
          (prev.drop bs.length).take (maxChunkSize - bs.length) := by
        rw [← hblock, load_drop _ (by omega), Nat.zero_add, load_take _ (by omega)]
      have hsplit : maxChunkSize = bs.length + (maxChunkSize - bs.length) := by omega
      have hfront : Memory.load io.src 0 bs.length = bs := by
        rw [hfill.src, hzero]
        exact load_store_self _ _ _
      have hback : Memory.load io.src (0 + bs.length) (maxChunkSize - bs.length) =
          Memory.load s.io.src bs.length (maxChunkSize - bs.length) := by
        rw [hfill.src, hzero, Nat.zero_add]
        exact load_congr fun i _ => store_of_ge _ (by omega)
      rw [if_neg hprev, hsize]
      nth_rewrite 1 [hsplit]
      rw [load_add, hfront, hback, hrest, List.take_append, List.take_of_length_le hbs]
  · have hne : Memory.load s.io.src 0 s.left_bytes ≠ [] := by
      refine List.length_pos_iff.mp ?_
      rw [hlength]
      omega
    rw [if_pos hne, h.carried (Nat.pos_of_ne_zero hzero), hfill.src]
    exact load_store_below _ (by omega)

/-- The buffer behind the loops agrees with the end of the file. -/
def Ends (t : Scan σ) : Option (Bytes × Bytes) → Prop
  | none => t.srclen ≤ 0
  | some x => 0 < tailLen t ∧ x = (load t.io.src 0 t.size, load t.io.src 0 (tailLen t))

/-- The loop ends with the file. -/
theorem ends_break {fuel : ℕ} {prev : Bytes} {io : Io} {ret : ℤ} (hend : s.io.file.rest = [])
    (hret : ret ≤ 0) :
    Ends { s with io := io, srclen := ret }
      (shortEnd fuel prev (load s.io.src 0 s.left_bytes) s.io.file.rest) := by
  have hnone : shortEnd fuel prev (load s.io.src 0 s.left_bytes) s.io.file.rest = none := by
    rw [hend]
    cases fuel with
    | zero => rfl
    | succ fuel => rw [shortEnd, if_pos rfl]
  rw [hnone]
  exact hret

/-- What a block leaves for the next one. -/
theorem stale_cut {io : Io} {block left : Bytes} {chunks : List Bytes} {s₁ s₂ : Scan σ}
    (hcuts : Cuts sha1 push s₁ s₂ chunks left)
    (hwhole : s₂.left_bytes = 0 → s₂.io = io ∧ s₂.size = maxChunkSize ∧ maxChunkSize ≤ block.length)
    (hload : load io.src 0 block.length = block) (hne : block ≠ []) : Stale s₂ block where
  carried := by
    intro hpos
    rw [hcuts.left_bytes] at hpos ⊢
    exact hcuts.size (List.length_pos_iff.mp hpos)
  first := fun _ hnil => absurd hnil hne
  whole := by
    intro hzero _
    obtain ⟨hio, hsize, hle⟩ := hwhole hzero
    exact ⟨hsize, hle, by rw [hio, hload]⟩

variable (sha1 push) in
/-- The buffer behind the loops, when no read fails. -/
theorem readLoop_shortEnd {fuel : ℕ} (s : Scan σ) {prev : Bytes} (hscript : .fails ∉ s.io.file.script)
    (hfuel : s.io.file.rest.length ≤ fuel) (hleft : s.left_bytes < maxChunkSize)
    (hrabin : Consistent s.rabin) (hstale : Stale s prev) :
    Ends (readLoop sha1 push (fuel + 1) s)
      (shortEnd fuel prev (load s.io.src 0 s.left_bytes) s.io.file.rest) := by
  induction fuel generalizing s prev with
  | zero =>
    have hend : s.io.file.rest = [] := List.length_eq_zero_iff.mp (Nat.le_zero.mp hfuel)
    obtain ⟨bs, -, hfill⟩ | ⟨hret, -⟩ := readn_spec s.io s.left_bytes maxChunkSize
    · exact absurd (hfill.file.ok_of_noFailure hscript).1 (by decide)
    have hzero : (readn s.io s.left_bytes maxChunkSize).1 ≤ 0 := by
      rw [hret, hend, List.take_nil]
      exact le_refl _
    rw [readLoop_break sha1 push 0 s hzero]
    exact ends_break hend hzero
  | succ fuel ih =>
    obtain ⟨bs, -, hfill⟩ | ⟨hret, hfill, hrest⟩ := readn_spec s.io s.left_bytes maxChunkSize
    · exact absurd (hfill.file.ok_of_noFailure hscript).1 (by decide)
    by_cases hend : s.io.file.rest = []
    · have hzero : (readn s.io s.left_bytes maxChunkSize).1 ≤ 0 := by
        rw [hret, hend, List.take_nil]
        exact le_refl _
      rw [readLoop_break sha1 push (fuel + 1) s hzero]
      exact ends_break hend hzero
    rw [readLoop, shortEnd, if_neg hend]
    obtain ⟨⟨ret, io⟩, hq⟩ : ∃ q, readn s.io s.left_bytes maxChunkSize = q := ⟨_, rfl⟩
    rw [hq] at hret hfill hrest ⊢
    dsimp only at hret hfill hrest ⊢
    have hpos : 0 < (s.io.file.rest.take maxChunkSize).length := by
      have hmax := maxChunkSize_pos
      have hlength := List.length_pos_iff.mpr hend
      rw [List.length_take]
      omega
    have hsrc := load_fill hfill
    obtain ⟨block, hblock⟩ : ∃ block,
        load s.io.src 0 s.left_bytes ++ s.io.file.rest.take maxChunkSize = block := ⟨_, rfl⟩
    have hlength : (block.length : ℤ) = ret + s.left_bytes := by
      rw [← hblock, List.length_append, length_load, hret]
      omega
    have hnum : s.left_bytes + (s.io.file.rest.take maxChunkSize).length = block.length := by
      rw [← hblock, List.length_append, length_load]
    rw [hblock, hnum] at hsrc
    rw [if_neg (by omega), carry_eq, hblock]
    dsimp only
    by_cases hshort : ret + s.left_bytes < minChunkSize
    · have htail : tailLen { s with io := io, srclen := ret + s.left_bytes, left_bytes := 0 } =
          block.length := by
        rw [tailLen]
        dsimp only
        rw [if_pos (by omega)]
        omega
      have hstale' := hstale.load hfill
      rw [hblock] at hstale'
      rw [if_pos hshort, if_pos (by omega), Ends, htail, hsrc, hstale']
      exact ⟨by omega, rfl⟩
    · rw [if_neg hshort, if_neg (by omega)]
      have hto : (ret + s.left_bytes - (0 : ℕ)).toNat = block.length := by omega
      have hcut := cutLoop_spec sha1 push (ret + s.left_bytes).toNat
        ⟨io, s.rabin, 0, ret + s.left_bytes, s.size, s.offset, s.out⟩ 0 rfl
        (show ((0 : ℕ) : ℤ) ≤ ret + s.left_bytes by omega)
        (show ret + s.left_bytes ≤ ((0 : ℕ) : ℤ) + (ret + s.left_bytes).toNat by omega)
      have hwhole := cutLoop_whole sha1 push (ret + s.left_bytes).toNat
        ⟨io, s.rabin, 0, ret + s.left_bytes, s.size, s.offset, s.out⟩ 0 rfl
        (show ret + s.left_bytes ≤ ((0 : ℕ) : ℤ) + (ret + s.left_bytes).toNat by omega)
      obtain ⟨s₂, hs₂⟩ : ∃ s₂, cutLoop sha1 push (ret + s.left_bytes).toNat
        ⟨io, s.rabin, 0, ret + s.left_bytes, s.size, s.offset, s.out⟩ 0 0 = s₂ := ⟨_, rfl⟩
      rw [hs₂] at hcut hwhole ⊢
      obtain ⟨chunks, left, r, hcutBlock, hrabin₂, hcuts, -⟩ := hcut
      dsimp only at hcutBlock hrabin₂ hwhole
      rw [hto, hsrc] at hcutBlock
      have hsize₀ : (ret + s.left_bytes).toNat = block.length := by omega
      rw [hsize₀] at hcutBlock
      have hspec := cutBlock_spec (r := s.rabin) (le_refl block.length)
      have hcongr := cutBlock_chunksOf (le_refl block.length) hrabin []
      have hleftOf := leftOf_eq hrabin block
      rw [hcutBlock] at hspec hcongr hleftOf
      dsimp only at hspec hcongr hleftOf
      have hne : block ≠ [] := by
        refine List.length_pos_iff.mp ?_
        omega
      have hstale₂ : Stale s₂ block := by
        refine stale_cut hcuts (fun hzero => ?_) hsrc hne
        obtain ⟨hio, hsize, hlong⟩ := hwhole hzero
        rw [if_pos (by omega)] at hsize
        exact ⟨hio, hsize, by omega⟩
      have hfile : s₂.io.file = io.file := hcuts.file
      have hcarried : load s₂.io.src 0 s₂.left_bytes = leftOf block := by
        rw [hcuts.left_bytes, hcuts.carried, hleftOf]
      have hnext := ih s₂ (by rw [hfile]; exact (hfill.file.ok_of_noFailure hscript).2)
        (by rw [hfile, hrest, List.length_drop]; omega)
        (by rw [hcuts.left_bytes]; exact hspec.2.2) (by rw [hrabin₂]; exact hcongr.2.2) hstale₂
      rwa [hcarried, hfile, hrest] at hnext

theorem foldl_pushFile (path : Bytes) (l : List FingerChunk) (queue : List (FileInfo FingerChunk)) :
    (l.foldl (pushFile path) queue).flatMap FileInfo.chunks = queue.flatMap FileInfo.chunks ++ l := by
  induction l generalizing queue with
  | nil => exact (List.append_nil _).symm
  | cons fc l ih =>
    rw [List.foldl_cons, ih, pushFile, List.flatMap_append, List.append_assoc]
    rfl

theorem stale_start (r : Rabin) (out : σ) (src : Mem) (file : OpenFile) :
    Stale (start r out src file) [] where
  carried := fun h => absurd h (Nat.lt_irrefl 0)
  first := fun _ _ => rfl
  whole := fun _ h => absurd rfl h

/-- The chunks in front of the tail, and the tail with the hash that is taken. -/
theorem records_pushTail {path : Bytes} {chunks : List Bytes} {s : Scan (List (FileInfo FingerChunk))}
    (hout : s.out = (fingerChunks sha1 0 chunks).foldl (pushFile path) [])
    (hoffset : s.offset = chunks.flatten.length) (hashed : ℕ) :
    records ((pushTail sha1 (pushFile path) hashed s).out.flatMap FileInfo.chunks) =
      records (fingerChunks sha1 0 chunks) ++
        if 0 < tailLen s then
          [(chunks.flatten.length, tailLen s, sha1 (load s.io.src 0 hashed))] else [] := by
  have hfront : s.out.flatMap FileInfo.chunks = fingerChunks sha1 0 chunks := by
    rw [hout, foldl_pushFile]
    rfl
  rw [pushTail]
  split
  · dsimp only
    rw [pushFile, List.flatMap_append, hfront, records, List.map_append, ← hoffset]
    rfl
  · rw [hfront, List.append_nil]

/-- The chunks of a file in the order of the file. -/
theorem records_tail (chunks : List Bytes) (s : Scan σ) :
    records (fingerChunks sha1 0 (chunks ++ tail s)) =
      records (fingerChunks sha1 0 chunks) ++
        if 0 < tailLen s then
          [(chunks.flatten.length, tailLen s, sha1 (load s.io.src 0 (tailLen s)))] else [] := by
  rw [fingerChunks_append, records, List.map_append, tail, Nat.zero_add]
  split
  · rw [fingerChunks, fingerChunks, length_load]
    rfl
  · rfl

/-- The tail has its own hash unless the file ends short. -/
theorem tail_hash_iff {chunks : List Bytes} {s t : Scan σ} {x : Option (Bytes × Bytes)}
    (hscan : Scanned sha1 push s t chunks) (hends : Ends t x) :
    (0 < tailLen t → sha1 (load t.io.src 0 t.size) = sha1 (load t.io.src 0 (tailLen t))) ↔
      ∀ y ∈ x, sha1 y.1 = sha1 y.2 := by
  cases x with
  | none =>
    refine ⟨fun _ y hy => (Option.not_mem_none y hy).elim, fun _ hpos => ?_⟩
    rw [hscan.ended hends hpos]
  | some x =>
    obtain ⟨hpos, rfl⟩ := hends
    constructor
    · intro h y hy
      obtain rfl := Option.some.inj hy
      exact h hpos
    · intro h _
      exact h _ rfl

/-- `chunk_overhead` records the chunks of its file, but for the hash of a short end. -/
theorem chunkOverhead_records (sha1 : Bytes → Fingerprint) (r : Rabin) (path : Bytes) (src : Mem)
    {file : OpenFile} (hscript : .fails ∉ file.script) :
    ∃ t, chunkOverhead sha1 r path (some src) (some file) = (success, some t) ∧
      (records (t.out.flatMap FileInfo.chunks) =
          records (fingerChunks sha1 0 (chunksOf file.rest)) ↔
        ∀ x ∈ fileEnd file.rest, sha1 x.1 = sha1 x.2) := by
  obtain ⟨chunks, hscan, hcovers⟩ := scan_spec sha1 (pushFile path) r [] src file
  have hends : Ends (scan sha1 (pushFile path) r [] src file) (fileEnd file.rest) :=
    readLoop_shortEnd sha1 (pushFile path) (start r [] src file) hscript (le_refl _)
      maxChunkSize_pos (consistent_reset r) (stale_start r [] src file)
  have hopen : chunkOverhead sha1 r path (some src) (some file) =
      (success, some (pushTail sha1 (pushFile path) (scan sha1 (pushFile path) r [] src file).size
        (scan sha1 (pushFile path) r [] src file))) := rfl
  obtain ⟨t, ht⟩ : ∃ t, scan sha1 (pushFile path) r [] src file = t := ⟨_, rfl⟩
  rw [ht] at hscan hcovers hends hopen
  refine ⟨_, hopen, ?_⟩
  have hchunks : chunksOf file.rest = chunks ++ tail t := by
    rw [← chunkFile_eq_chunksOf r, hcovers.chunkFile hscript]
  rw [← tail_hash_iff hscan hends, hchunks,
    records_pushTail hscan.out (hscan.offset.trans (Nat.zero_add _)), records_tail,
    List.append_cancel_left_eq]
  split
  · next hpos =>
    rw [List.singleton_inj, Prod.mk.injEq, Prod.mk.injEq]
    exact ⟨fun h _ => h.2.2, fun h => ⟨rfl, rfl, h hpos⟩⟩
  · next hzero => exact ⟨fun _ hpos => absurd hpos hzero, fun _ => rfl⟩

/-- Both paths produce the same chunks if and only if the file does not end in a short buffer, or
the bytes that `size` covers there have the hash of the last chunk. -/
theorem chunkOverhead_agrees_iff (sha1 : Bytes → Fingerprint) (r r' : Rabin)
    (fileinfo : FileInfo FingerChunk) (path : Bytes) (src src' : Mem) (f g : OpenFile)
    (hrest : g.rest = f.rest) (hf : .fails ∉ f.script) (hg : .fails ∉ g.script) {s : Scan Counted}
    {t : Scan (List (FileInfo FingerChunk))}
    (hs : s ∈ (chunkFile sha1 r ⟨{ fileinfo with chunks := [] }, 0⟩ (some src) (some f)).2)
    (ht : t ∈ (chunkOverhead sha1 r' path (some src') (some g)).2) :
    records (t.out.flatMap FileInfo.chunks) = records s.out.fileinfo.chunks ↔
      ∀ x ∈ fileEnd f.rest, sha1 x.1 = sha1 x.2 := by
  obtain ⟨t', ht', hiff⟩ := chunkOverhead_records sha1 r' path src' hg
  rw [ht'] at ht
  obtain rfl := Option.some.inj ht
  rw [chunks_chunkFile hf hs, chunkFile_eq_chunksOf, ← hrest]
  exact hiff

/-- A file of one byte: nothing is hashed for it. -/
theorem fileEnd_one : fileEnd [7] = some ([], [7]) := by decide

/-- With SHA-1 as it is. -/
theorem chunkOverhead_agrees_iff_one :
    ∃ s ∈ (chunkFile Sha1.sha1 ⟨0, 0, fun _ => 0⟩
        ⟨{ (fileNew : FileInfo FingerChunk) with chunks := [] }, 0⟩ (some fun _ => 0)
        (some ⟨[7], []⟩)).2,
      ∃ t ∈ (chunkOverhead Sha1.sha1 ⟨0, 0, fun _ => 0⟩ [] (some fun _ => 0) (some ⟨[7], []⟩)).2,
        (records (t.out.flatMap FileInfo.chunks) = records s.out.fileinfo.chunks ↔
          ∀ x ∈ fileEnd [7], Sha1.sha1 x.1 = Sha1.sha1 x.2) :=
  ⟨_, rfl, _, rfl, chunkOverhead_agrees_iff Sha1.sha1 _ _ fileNew [] _ _ ⟨[7], []⟩ ⟨[7], []⟩ rfl
    List.not_mem_nil List.not_mem_nil rfl rfl⟩

theorem sha1_one_ne : Sha1.sha1 [] ≠ Sha1.sha1 [7] := by decide +kernel

/-- The chunk of a file of one byte has the hash of no bytes. -/
theorem chunkOverhead_disagrees :
    ¬ ∀ (r r' : Rabin) (fileinfo : FileInfo FingerChunk) (path : Bytes) (src src' : Mem)
      (f g : OpenFile), g.rest = f.rest → .fails ∉ f.script → .fails ∉ g.script →
      ∀ s ∈ (chunkFile Sha1.sha1 r ⟨{ fileinfo with chunks := [] }, 0⟩ (some src) (some f)).2,
      ∀ t ∈ (chunkOverhead Sha1.sha1 r' path (some src') (some g)).2,
        records (t.out.flatMap FileInfo.chunks) = records s.out.fileinfo.chunks := by
  intro h
  have hscript : Outcome.fails ∉ (⟨[7], []⟩ : OpenFile).script := List.not_mem_nil
  obtain ⟨t, ht, hiff⟩ := chunkOverhead_records Sha1.sha1 ⟨0, 0, fun _ => 0⟩ [] (fun _ => 0) hscript
  obtain ⟨s, hs, -⟩ := chunkFile_eq Sha1.sha1 ⟨0, 0, fun _ => 0⟩
    ⟨{ (fileNew : FileInfo FingerChunk) with chunks := [] }, 0⟩ (fun _ => 0) hscript
  have hsmem := congrArg Prod.snd hs
  have hsame := h ⟨0, 0, fun _ => 0⟩ ⟨0, 0, fun _ => 0⟩ fileNew [] (fun _ => 0) (fun _ => 0)
    ⟨[7], []⟩ ⟨[7], []⟩ rfl hscript hscript s hsmem t (congrArg Prod.snd ht)
  rw [chunks_chunkFile hscript hsmem, chunkFile_eq_chunksOf] at hsame
  exact sha1_one_ne (hiff.mp hsame ([], [7]) fileEnd_one)

end TCBackup.Client.Buffered
