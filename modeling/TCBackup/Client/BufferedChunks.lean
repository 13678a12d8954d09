import TCBackup.Bnet
import TCBackup.Client.Chunking
import TCBackup.Client.Reads

/-!
# `chunk_file` over its buffer

`chunk_file` reads the file into a buffer of two times `MAX_CHUNK_SIZE` bytes. What the
inner loop leaves is moved to the front, and the next read goes behind it.
`chunk_overhead` is a copy of the same loops, so that they are written once, with what
becomes of a chunk as a parameter.

## Main definitions

- `Scan`, `cutLoop`, `readLoop`, `pushTail` — the loops and their variables
- `chunkFile` — `chunk_file`
- `Scanned` — what the loops have done when they are left

## Main results

- `readLoop_spec` — without a read failure the chunks are those of `Client.chunkFile`
- `chunkFile_partition` — the chunks are consecutive pieces of the file
- `chunkFile_failed` — a read failure is answered by success and a prefix of the file
-/

namespace TCBackup.Client.Buffered

open ByteFile Memory

/-- The variables of `chunk_file`; `p` and `len` are arguments of the inner loop. -/
structure Scan (σ : Type) where
  io : Io
  rabin : Rabin
  left_bytes : ℕ
  srclen : ℤ
  size : ℕ
  offset : ℕ
  out : σ

section Loops

variable {σ : Type} (sha1 : Bytes → Fingerprint) (push : σ → FingerChunk → σ)

def newChunk (chunk_hash : Fingerprint) (chunklen offset : ℕ) : FingerChunk :=
  { fingerchunkNew with chunk_hash := chunk_hash, chunklen := chunklen, offset := offset }

/-- The inner loop. -/
def cutLoop : ℕ → Scan σ → ℕ → ℕ → Scan σ
  | 0, s, _, _ => s
  | fuel + 1, s, p, len =>
    if (len : ℤ) < s.srclen then
      let n := (s.srclen - len).toNat
      let q := chunkData s.rabin (load s.io.src p n)
      if n = q.1 ∧ n < maxChunkSize then
        { s with
          io := { s.io with
            src := move s.io.src 0 len n
            touched := s.io.touched ++ [(len, n), (0, n)] }
          rabin := q.2
          size := q.1
          left_bytes := n }
      else
        cutLoop fuel
          { s with
            rabin := q.2
            size := q.1
            offset := s.offset + q.1
            out := push s.out (newChunk (sha1 (load s.io.src p q.1)) q.1 s.offset) }
          (p + q.1) (len + q.1)
    else s

/-- What was carried over goes in front of what was read. -/
def carry (s : Scan σ) : Scan σ :=
  if 0 < s.left_bytes then { s with srclen := s.srclen + s.left_bytes, left_bytes := 0 } else s

/-- The outer loop. -/
def readLoop : ℕ → Scan σ → Scan σ
  | 0, s => s
  | fuel + 1, s =>
    let r := readn s.io s.left_bytes maxChunkSize
    let s := { s with io := r.2, srclen := r.1 }
    if r.1 ≤ 0 then s
    else
      let s := carry s
      if s.srclen < minChunkSize then s
      else readLoop fuel (cutLoop sha1 push s.srclen.toNat s 0 0)

/-- `len` behind the loops. -/
def tailLen (s : Scan σ) : ℕ :=
  if 0 < s.srclen then s.srclen.toNat else if 0 < s.left_bytes then s.left_bytes else 0

/-- The last chunk, with the hash of the first `hashed` bytes of the buffer. -/
def pushTail (hashed : ℕ) (s : Scan σ) : Scan σ :=
  if 0 < tailLen s then
    { s with out := push s.out (newChunk (sha1 (load s.io.src 0 hashed)) (tailLen s) s.offset) }
  else s

/-- The variables before the first read. -/
def start (r : Rabin) (out : σ) (src : Mem) (file : OpenFile) : Scan σ where
  io := ⟨src, file, []⟩
  rabin := r.reset
  left_bytes := 0
  srclen := 0
  size := 0
  offset := 0
  out := out

@[simp] theorem start_out (r : Rabin) (out : σ) (src : Mem) (file : OpenFile) :
    (start r out src file).out = out := rfl

/-- Both loops. -/
def scan (r : Rabin) (out : σ) (src : Mem) (file : OpenFile) : Scan σ :=
  readLoop sha1 push (file.rest.length + 1) (start r out src file)

end Loops

/-- `SUCCESS` -/
def success : ℤ := 1

/-- `FAILURE` -/
def failure : ℤ := 0

/-- A `FileInfo` with its `chunknum` as the code counts it, in an `int32_t`. -/
structure Counted where
  fileinfo : FileInfo FingerChunk
  chunknum : ℤ

/-- `file_append_fingerchunk` -/
def fileAppend (c : Counted) (fchunk : FingerChunk) : Counted :=
  ⟨fileAppendFingerchunk c.fileinfo fchunk, int32 (c.chunknum + 1)⟩

/-- `chunk_file(fileinfo)` with the buffer that `malloc` returned and the file that `open`
returned: the result and the variables at the end. -/
def chunkFile (sha1 : Bytes → Fingerprint) (r : Rabin) (fileinfo : Counted)
    (src : Option Mem) (file : Option OpenFile) : ℤ × Option (Scan Counted) :=
  match src, file with
  | some src, some file =>
    let s := scan sha1 fileAppend r fileinfo src file
    (success, some (pushTail sha1 fileAppend (tailLen s) s))
  | _, _ => (failure, none)

-- ════════════════════════════════════════════════════════════════════════
-- The inner loop
-- ════════════════════════════════════════════════════════════════════════

variable {σ : Type} {sha1 : Bytes → Fingerprint} {push : σ → FingerChunk → σ} {s t : Scan σ}

/-- A cut before the end of what is there is no earlier than `MIN_CHUNK_SIZE`. -/
theorem chunkLoop_min {p : Bytes} (hp : p ≠ []) (r : Rabin) (i : ℕ) :
    minChunkSize ≤ (chunkLoop r i p).1 ∨ (chunkLoop r i p).1 + 1 = i + p.length := by
  induction p generalizing r i with
  | nil => exact absurd rfl hp
  | cons m p ih =>
    rw [chunkLoop, List.length_cons]
    split
    · next hcut =>
      rcases hcut with ⟨-, hmin⟩ | hmax | hend
      · exact .inl hmin
      · rw [maxChunkSize] at hmax
        rw [minChunkSize]
        exact .inl (by omega)
      · subst hend
        exact .inr rfl
    · next hgo =>
      have hne : p ≠ [] := fun h => hgo (.inr (.inr h))
      cases ih hne (slide r m) (i + 1) with
      | inl hmin => exact .inl hmin
      | inr hend => exact .inr (by omega)

theorem chunkData_min {p : Bytes} (hp : p ≠ []) (r : Rabin) (h : (chunkData r p).1 ≠ p.length) :
    minChunkSize ≤ (chunkData r p).1 := by
  cases chunkLoop_min hp r 1 with
  | inl hmin => exact hmin
  | inr hend =>
    refine absurd ?_ h
    rw [chunkData]
    omega

/-- The ranges that were used between two states lie in the first `n` bytes. -/
def Within (s t : Scan σ) (n : ℕ) : Prop :=
  ∃ ts, t.io.touched = s.io.touched ++ ts ∧ ∀ x ∈ ts, x.1 + x.2 ≤ n

theorem Within.refl (s : Scan σ) (n : ℕ) : Within s s n := ⟨[], by simp, by simp⟩

theorem Within.trans {u : Scan σ} {n : ℕ} (h : Within s t n) (h' : Within t u n) :
    Within s u n := by
  obtain ⟨ts, hts, hin⟩ := h
  obtain ⟨us, hus, hin'⟩ := h'
  refine ⟨ts ++ us, by rw [hus, hts, List.append_assoc], fun x hx => ?_⟩
  exact (List.mem_append.mp hx).elim (hin x) (hin' x)

theorem Within.mono {n k : ℕ} (h : Within s t n) (hle : n ≤ k) : Within s t k := by
  obtain ⟨ts, hts, hin⟩ := h
  exact ⟨ts, hts, fun x hx => (hin x hx).trans hle⟩

/-- The inner loop has cut a block into `chunks` and left `left`. -/
structure Cuts (sha1 : Bytes → Fingerprint) (push : σ → FingerChunk → σ) (s t : Scan σ)
    (chunks : List Bytes) (left : Bytes) : Prop where
  out : t.out = (fingerChunks sha1 s.offset chunks).foldl push s.out
  offset : t.offset = s.offset + chunks.flatten.length
  file : t.io.file = s.io.file
  left_bytes : t.left_bytes = left.length
  carried : load t.io.src 0 left.length = left
  min : ∀ c ∈ chunks, minChunkSize ≤ c.length
  size : left ≠ [] → t.size = left.length

theorem Cuts.nil (s : Scan σ) (hleft : s.left_bytes = 0) : Cuts sha1 push s s [] [] where
  out := rfl
  offset := rfl
  file := rfl
  left_bytes := hleft
  carried := rfl
  min := by simp
  size := fun h => absurd rfl h

/-- A chunk, and then the rest of the loop. -/
theorem Cuts.cons {s₁ : Scan σ} {bs : Bytes} {chunks : List Bytes} {left : Bytes}
    (h : Cuts sha1 push s₁ t chunks left) (hmin : minChunkSize ≤ bs.length)
    (hout : s₁.out = push s.out (newChunk (sha1 bs) bs.length s.offset))
    (hoffset : s₁.offset = s.offset + bs.length) (hfile : s₁.io.file = s.io.file) :
    Cuts sha1 push s t (bs :: chunks) left where
  out := by
    rw [h.out, hout, hoffset]
    rfl
  offset := by
    rw [h.offset, hoffset, List.flatten_cons, List.length_append]
    omega
  file := h.file.trans hfile
  left_bytes := h.left_bytes
  carried := h.carried
  min := by
    intro c hc
    cases List.mem_cons.mp hc with
    | inl heq => rwa [heq]
    | inr hmem => exact h.min c hmem
  size := h.size

variable (sha1 push) in
theorem cutLoop_spec (fuel : ℕ) (s : Scan σ) (len : ℕ) (hleft : s.left_bytes = 0)
    (hlen : (len : ℤ) ≤ s.srclen) (hfuel : s.srclen ≤ len + fuel) :
    ∃ chunks left r,
      cutBlock fuel s.rabin (load s.io.src len (s.srclen - len).toNat) = (chunks, left, r) ∧
      (cutLoop sha1 push fuel s len len).rabin = r ∧
      Cuts sha1 push s (cutLoop sha1 push fuel s len len) chunks left ∧
      Within s (cutLoop sha1 push fuel s len len) s.srclen.toNat := by
  induction fuel generalizing s len with
  | zero =>
    have hzero : (s.srclen - len).toNat = 0 := by omega
    rw [hzero]
    exact ⟨[], [], s.rabin, rfl, rfl, .nil s hleft, .refl s _⟩
  | succ fuel ih =>
    rw [cutLoop, cutBlock]
    by_cases hlt : (len : ℤ) < s.srclen
    · have hpos : 0 < (s.srclen - len).toNat := by omega
      have hlength := length_load s.io.src len (s.srclen - len).toNat
      have hne : load s.io.src len (s.srclen - len).toNat ≠ [] :=
        List.length_pos_iff.mp (hpos.trans_eq hlength.symm)
      rw [if_pos hlt, if_neg hne]
      dsimp only
      rw [hlength]
      have hbounds := chunkData_bounds hne s.rabin
      have hmin := chunkData_min hne s.rabin
      rw [hlength] at hbounds hmin
      generalize hq : chunkData s.rabin (load s.io.src len (s.srclen - len).toNat) = q
        at hbounds hmin ⊢
      by_cases hlast : (s.srclen - len).toNat = q.1 ∧ (s.srclen - len).toNat < maxChunkSize
      · -- what is left is moved to the front
        rw [if_pos hlast, if_pos hlast]
        refine ⟨[], _, q.2, rfl, rfl, ?_, ?_⟩
        · exact
            { out := rfl
              offset := rfl
              file := rfl
              left_bytes := hlength.symm
              carried := by
                rw [hlength]
                exact load_move _ 0 len _
              min := by simp
              size := fun _ => by rw [hlength, hlast.1] }
        · refine ⟨_, rfl, fun x hx => ?_⟩
          rw [List.mem_cons, List.mem_singleton] at hx
          rcases hx with rfl | rfl <;> dsimp only <;> omega
      · rw [if_neg hlast, if_neg hlast]
        have hsize : minChunkSize ≤ q.1 := by
          by_cases heq : q.1 = (s.srclen - len).toNat
          · have hlarge : maxChunkSize ≤ (s.srclen - len).toNat := by
              by_contra hsmall
              exact hlast ⟨heq.symm, by omega⟩
            rw [maxChunkSize] at hlarge
            rw [minChunkSize]
            omega
          · exact hmin heq
        have hmin₀ : 0 < minChunkSize := by decide
        obtain ⟨chunks, left, r, hblock, hrabin, hcuts, hwithin⟩ :=
          ih { s with
            rabin := q.2
            size := q.1
            offset := s.offset + q.1
            out := push s.out (newChunk (sha1 (load s.io.src len q.1)) q.1 s.offset) }
            (len + q.1) hleft (show ((len + q.1 : ℕ) : ℤ) ≤ s.srclen by omega)
            (show s.srclen ≤ ((len + q.1 : ℕ) : ℤ) + fuel by omega)
        have hdrop : (load s.io.src len (s.srclen - len).toNat).drop q.1 =
            load s.io.src (len + q.1) (s.srclen - (len + q.1 : ℕ)).toNat := by
          rw [load_drop _ hbounds.2.1]
          congr 1
          omega
        have htake : (load s.io.src len (s.srclen - len).toNat).take q.1 =
            load s.io.src len q.1 := load_take _ hbounds.2.1
        have hlen₁ : (load s.io.src len q.1).length = q.1 := length_load _ _ _
        dsimp only at hblock hrabin
        rw [hdrop, hblock, htake]
        refine ⟨_, _, _, rfl, hrabin, ?_, hwithin⟩
        refine hcuts.cons ?_ ?_ ?_ rfl
        · rwa [hlen₁]
        · rw [hlen₁]
        · rw [hlen₁]
    · have hzero : (s.srclen - len).toNat = 0 := by omega
      rw [if_neg hlt, hzero]
      exact ⟨[], [], s.rabin, rfl, rfl, .nil s hleft, .refl s _⟩

-- ════════════════════════════════════════════════════════════════════════
-- The outer loop
-- ════════════════════════════════════════════════════════════════════════

theorem carry_eq (s : Scan σ) :
    carry s = { s with srclen := s.srclen + s.left_bytes, left_bytes := 0 } := by
  rw [carry]
  split
  · rfl
  · next hzero =>
    obtain ⟨io, rabin, left_bytes, srclen, size, offset, out⟩ := s
    have hleft : left_bytes = 0 := by
      dsimp only at hzero
      omega
    subst hleft
    simp

/-- The bytes that are left behind the loops. -/
def tail (t : Scan σ) : List Bytes :=
  if 0 < tailLen t then [load t.io.src 0 (tailLen t)] else []

/-- The last cut found the bytes that were carried over. -/
def Sized (s : Scan σ) : Prop := 0 < s.left_bytes → s.size = s.left_bytes

/-- The loops have cut `chunks` off. When the file has ended, `size` is the length of the tail. -/
structure Scanned (sha1 : Bytes → Fingerprint) (push : σ → FingerChunk → σ) (s t : Scan σ)
    (chunks : List Bytes) : Prop where
  out : t.out = (fingerChunks sha1 s.offset chunks).foldl push s.out
  offset : t.offset = s.offset + chunks.flatten.length
  min : ∀ c ∈ chunks, minChunkSize ≤ c.length
  within : Within s t (2 * maxChunkSize)
  ended : t.srclen ≤ 0 → 0 < tailLen t → t.size = tailLen t

/-- What was read and cut, compared with the blocks of the file: all of it without a failure, a
front part with one. -/
def Covers (fuel : ℕ) (s t : Scan σ) (chunks : List Bytes) : Prop :=
  (s.io.file.Reads t.io.file s.io.file.rest true ∧
    chunkBlocks fuel s.rabin (load s.io.src 0 s.left_bytes) s.io.file.rest =
      (chunks ++ tail t, t.rabin)) ∨
  ((∃ bs, s.io.file.Reads t.io.file bs false) ∧
    (chunks ++ tail t).flatten <+: load s.io.src 0 s.left_bytes ++ s.io.file.rest)

/-- The front of the buffer after a read behind the bytes that were carried over. -/
theorem load_fill {io io' : Io} {left : ℕ} {bs : Bytes} {n : ℕ} {ok : Bool}
    (h : io.Fills io' left n bs ok) :
    load io'.src 0 (left + bs.length) = load io.src 0 left ++ bs := by
  rw [load_add, h.src, Nat.zero_add, load_store_self, load_store_below _ (by omega)]

theorem Within.fill {s : Scan σ} {io : Io} {bs : Bytes} {ok : Bool}
    (h : s.io.Fills io s.left_bytes maxChunkSize bs ok) (hleft : s.left_bytes < maxChunkSize)
    (srclen : ℤ) : Within s { s with io := io, srclen := srclen } (2 * maxChunkSize) := by
  obtain ⟨ts, hts, hin⟩ := h.touched
  refine ⟨ts, hts, fun x hx => ?_⟩
  have hx := (hin x hx).2
  omega

theorem chunkBlocks_nil (fuel : ℕ) (r : Rabin) (left : Bytes) :
    chunkBlocks fuel r left [] = (if left = [] then [] else [left], r) := by
  cases fuel with
  | zero => rw [chunkBlocks, List.append_nil]
  | succ fuel => rw [chunkBlocks, if_pos rfl]

/-- The loop is left with the bytes that were carried over. -/
theorem scanned_break {io : Io} {srclen : ℤ} {bs : Bytes} {ok : Bool} (hsize : Sized s)
    (hleft : s.left_bytes < maxChunkSize) (hfill : s.io.Fills io s.left_bytes maxChunkSize bs ok)
    (hsrclen : srclen ≤ 0) :
    Scanned sha1 push s { s with io := io, srclen := srclen } [] ∧
      tail { s with io := io, srclen := srclen } =
        if load s.io.src 0 s.left_bytes = [] then [] else [load s.io.src 0 s.left_bytes] := by
  have htail : tailLen { s with io := io, srclen := srclen } = s.left_bytes := by
    rw [tailLen]
    dsimp only
    rw [if_neg (by omega)]
    split <;> omega
  refine ⟨⟨rfl, rfl, by simp, .fill hfill hleft _, ?_⟩, ?_⟩
  · intro _ hpos
    rw [htail] at hpos ⊢
    exact hsize hpos
  · rw [tail, htail]
    dsimp only
    rw [hfill.src, load_store_below _ (by omega)]
    have hlength := length_load s.io.src 0 s.left_bytes
    by_cases hnil : load s.io.src 0 s.left_bytes = []
    · rw [hnil, List.length_nil] at hlength
      rw [if_neg (by omega), if_pos hnil]
    · have hpos := List.length_pos_iff.mpr hnil
      rw [if_pos (by omega), if_neg hnil]

theorem fingerChunks_append (sha1 : Bytes → Fingerprint) (offset : ℕ) (l more : List Bytes) :
    fingerChunks sha1 offset (l ++ more) =
      fingerChunks sha1 offset l ++ fingerChunks sha1 (offset + l.flatten.length) more := by
  induction l generalizing offset with
  | nil => rfl
  | cons bs l ih =>
    rw [List.cons_append, fingerChunks, fingerChunks, ih, List.flatten_cons, List.length_append,
      List.cons_append, Nat.add_assoc]

/-- A block is cut, and then the loop goes on. -/
theorem Scanned.append {s₁ s₂ : Scan σ} {chunks more : List Bytes} {left : Bytes}
    (h : Scanned sha1 push s₂ t more) (hcuts : Cuts sha1 push s₁ s₂ chunks left)
    (hout : s₁.out = s.out) (hoffset : s₁.offset = s.offset)
    (hwithin : Within s s₂ (2 * maxChunkSize)) : Scanned sha1 push s t (chunks ++ more) where
  out := by
    rw [h.out, hcuts.out, hcuts.offset, hout, hoffset, fingerChunks_append, List.foldl_append]
  offset := by
    rw [h.offset, hcuts.offset, hoffset, List.flatten_append, List.length_append]
    omega
  min := fun c hc => (List.mem_append.mp hc).elim (hcuts.min c) (h.min c)
  within := hwithin.trans h.within
  ended := h.ended

theorem Cuts.sized {s₁ s₂ : Scan σ} {chunks : List Bytes} {left : Bytes}
    (h : Cuts sha1 push s₁ s₂ chunks left) : Sized s₂ := by
  intro hpos
  rw [h.left_bytes] at hpos ⊢
  exact h.size (List.length_pos_iff.mp hpos)

/-- The loop is left in a buffer shorter than the smallest chunk. -/
theorem scanned_short {io : Io} {bs : Bytes} {srclen : ℤ} (hleft : s.left_bytes < maxChunkSize)
    (hfill : s.io.Fills io s.left_bytes maxChunkSize bs true) (hbs : bs ≠ [])
    (hsrclen : srclen = bs.length + s.left_bytes) :
    Scanned sha1 push s { s with io := io, srclen := srclen, left_bytes := 0 } [] ∧
      tail { s with io := io, srclen := srclen, left_bytes := 0 } =
        [load s.io.src 0 s.left_bytes ++ bs] := by
  have hpos : 0 < bs.length := List.length_pos_iff.mpr hbs
  have htail : tailLen { s with io := io, srclen := srclen, left_bytes := 0 } =
      s.left_bytes + bs.length := by
    rw [tailLen]
    dsimp only
    rw [if_pos (by omega)]
    omega
  refine ⟨⟨rfl, rfl, by simp, Within.fill hfill hleft srclen, ?_⟩, ?_⟩
  · intro hle
    dsimp only at hle
    omega
  · rw [tail, htail, if_pos (by omega)]
    dsimp only
    rw [load_fill hfill]

variable (sha1 push) in
theorem readLoop_break (fuel : ℕ) (s : Scan σ)
    (h : (readn s.io s.left_bytes maxChunkSize).1 ≤ 0) :
    readLoop sha1 push (fuel + 1) s =
      { s with
        io := (readn s.io s.left_bytes maxChunkSize).2
        srclen := (readn s.io s.left_bytes maxChunkSize).1 } := by
  rw [readLoop]
  exact if_pos h

/-- The first read fails or finds the end of the file. -/
theorem readLoop_last (fuel k : ℕ) (hleft : s.left_bytes < maxChunkSize) (hsize : Sized s)
    (h : (readn s.io s.left_bytes maxChunkSize).1 = readError ∨ s.io.file.rest = []) :
    ∃ chunks, Scanned sha1 push s (readLoop sha1 push (fuel + 1) s) chunks ∧
      Covers k s (readLoop sha1 push (fuel + 1) s) chunks := by
  have hspec := readn_spec s.io s.left_bytes maxChunkSize
  have hbreak := readLoop_break sha1 push fuel s
  obtain ⟨q, hq⟩ : ∃ q, readn s.io s.left_bytes maxChunkSize = q := ⟨_, rfl⟩
  rw [hq] at hspec hbreak h
  obtain ⟨bs, herror, hfill⟩ | ⟨hret, hfill, -⟩ := hspec
  · have hneg : q.1 ≤ 0 := by
      rw [herror]
      decide
    obtain ⟨hscan, htail⟩ := scanned_break hsize hleft hfill hneg
    rw [hbreak hneg]
    refine ⟨[], hscan, .inr ⟨⟨bs, hfill.file⟩, ?_⟩⟩
    rw [htail, List.nil_append]
    split
    · exact List.nil_prefix
    · rw [List.flatten_singleton]
      exact List.prefix_append _ _
  · have hend : s.io.file.rest = [] := by
      refine h.resolve_left fun herror => ?_
      rw [herror, readError] at hret
      omega
    rw [hend, List.take_nil] at hret hfill
    have hzero : q.1 ≤ 0 := by
      rw [hret]
      simp
    obtain ⟨hscan, htail⟩ := scanned_break hsize hleft hfill hzero
    rw [hbreak hzero]
    refine ⟨[], hscan, .inl ⟨?_, ?_⟩⟩
    · rw [hend]
      exact hfill.file
    · rw [hend, chunkBlocks_nil, htail]
      rfl

variable (sha1 push) in
/-- The outer loop cuts what `chunkBlocks` cuts, as long as no read fails. -/
theorem readLoop_spec {fuel : ℕ} (s : Scan σ) (hfuel : s.io.file.rest.length ≤ fuel)
    (hleft : s.left_bytes < maxChunkSize) (hsize : Sized s) :
    ∃ chunks, Scanned sha1 push s (readLoop sha1 push (fuel + 1) s) chunks ∧
      Covers fuel s (readLoop sha1 push (fuel + 1) s) chunks := by
  induction fuel generalizing s with
  | zero =>
    have hend : s.io.file.rest = [] := List.length_eq_zero_iff.mp (Nat.le_zero.mp hfuel)
    exact readLoop_last 0 0 hleft hsize (.inr hend)
  | succ fuel ih =>
    obtain ⟨bs, herror, -⟩ | ⟨hret, hfill, hrest⟩ := readn_spec s.io s.left_bytes maxChunkSize
    · exact readLoop_last (fuel + 1) (fuel + 1) hleft hsize (.inl herror)
    by_cases hend : s.io.file.rest = []
    · exact readLoop_last (fuel + 1) (fuel + 1) hleft hsize (.inr hend)
    rw [readLoop]
    obtain ⟨⟨ret, io⟩, hq⟩ : ∃ q, readn s.io s.left_bytes maxChunkSize = q := ⟨_, rfl⟩
    rw [hq] at hret hfill hrest ⊢
    dsimp only at hret hfill hrest ⊢
    have hne : s.io.file.rest.take maxChunkSize ≠ [] := by
      rw [Ne, List.take_eq_nil_iff, not_or]
      exact ⟨by decide, hend⟩
    have hpos : 0 < (s.io.file.rest.take maxChunkSize).length := List.length_pos_iff.mpr hne
    have hsrc := load_fill hfill
    have hparts := List.take_append_drop maxChunkSize s.io.file.rest
    rw [if_neg (by omega), carry_eq]
    dsimp only
    by_cases hshort : ret + s.left_bytes < minChunkSize
    · -- a short read is the end of the file
      rw [if_pos hshort]
      have hall : s.io.file.rest.take maxChunkSize = s.io.file.rest := by
        refine List.take_of_length_le ?_
        rw [List.length_take] at hret
        rw [minChunkSize] at hshort
        rw [maxChunkSize] at hret ⊢
        omega
      obtain ⟨hscan, htail⟩ := scanned_short hleft hfill hne
        (congrArg (· + (s.left_bytes : ℤ)) hret)
      refine ⟨[], hscan, .inl ⟨?_, ?_⟩⟩
      · have hreads := hfill.file
        rwa [hall] at hreads
      · have hlength : ((load s.io.src 0 s.left_bytes ++ s.io.file.rest.take maxChunkSize).length : ℤ) <
            minChunkSize := by
          rw [List.length_append, length_load]
          omega
        rw [htail, chunkBlocks, if_neg hend]
        dsimp only
        rw [if_pos (by exact_mod_cast hlength)]
        rfl
    · rw [if_neg hshort]
      have hnum : (ret + s.left_bytes - (0 : ℕ)).toNat =
          s.left_bytes + (s.io.file.rest.take maxChunkSize).length := by omega
      obtain ⟨chunks, left, r, hblock, hrabin, hcuts, hwithin⟩ :=
        cutLoop_spec sha1 push (ret + s.left_bytes).toNat
          ⟨io, s.rabin, 0, ret + s.left_bytes, s.size, s.offset, s.out⟩ 0 rfl
          (show ((0 : ℕ) : ℤ) ≤ ret + s.left_bytes by omega)
          (show ret + s.left_bytes ≤ ((0 : ℕ) : ℤ) + (ret + s.left_bytes).toNat by omega)
      dsimp only at hblock hrabin hwithin
      rw [hnum, hsrc] at hblock
      generalize cutLoop sha1 push (ret + s.left_bytes).toNat
        ⟨io, s.rabin, 0, ret + s.left_bytes, s.size, s.offset, s.out⟩ 0 0 = s₂
        at hrabin hcuts hwithin ⊢
      have hsize₀ : (load s.io.src 0 s.left_bytes ++ s.io.file.rest.take maxChunkSize).length =
          (ret + s.left_bytes).toNat := by
        rw [List.length_append, length_load]
        omega
      have hspec := cutBlock_spec (r := s.rabin) hsize₀.le
      rw [hblock] at hspec
      obtain ⟨hflat, -, hlt⟩ := hspec
      dsimp only at hflat hlt
      have hfile : s₂.io.file = io.file := hcuts.file
      have hfuel₂ : s₂.io.file.rest.length ≤ fuel := by
        rw [hfile, hrest, List.length_drop]
        omega
      obtain ⟨more, hscan, hcovers⟩ := ih s₂ hfuel₂ (by rw [hcuts.left_bytes]; exact hlt)
        hcuts.sized
      refine ⟨chunks ++ more, hscan.append hcuts rfl rfl ?_, ?_⟩
      · have hcut := hwithin.mono (k := 2 * maxChunkSize) (by
          have hle := hfill.le
          omega)
        exact (Within.fill hfill hleft ret).trans hcut
      · have hcarried : load s₂.io.src 0 s₂.left_bytes = left := by
          rw [hcuts.left_bytes, hcuts.carried]
        rw [Covers, hfile, hcarried, hrest] at hcovers
        obtain ⟨hreads, hblocks⟩ | ⟨⟨bs, hreads⟩, hprefix⟩ := hcovers
        · refine .inl ⟨?_, ?_⟩
          · have hall := hfill.file.trans hreads
            rwa [hparts] at hall
          · rw [chunkBlocks, if_neg hend]
            dsimp only
            rw [if_neg (by omega), hsize₀, hblock]
            dsimp only
            rw [← hrabin, hblocks, List.append_assoc]
        · refine .inr ⟨⟨_, hfill.file.trans hreads⟩, ?_⟩
          rw [List.append_assoc, List.flatten_append]
          have hwhole : load s.io.src 0 s.left_bytes ++ s.io.file.rest =
              chunks.flatten ++ (left ++ s.io.file.rest.drop maxChunkSize) := by
            rw [← List.append_assoc, hflat, List.append_assoc, hparts]
          rw [hwhole]
          exact (List.prefix_append_right_inj _).mpr hprefix

-- ════════════════════════════════════════════════════════════════════════
-- The whole function
-- ════════════════════════════════════════════════════════════════════════

variable (sha1 push) in
theorem scan_spec (r : Rabin) (out : σ) (src : Mem) (file : OpenFile) :
    ∃ chunks, Scanned sha1 push (start r out src file) (scan sha1 push r out src file) chunks ∧
      Covers file.rest.length (start r out src file) (scan sha1 push r out src file) chunks :=
  readLoop_spec sha1 push (start r out src file) (le_refl file.rest.length) maxChunkSize_pos
    fun h => absurd h (Nat.lt_irrefl 0)

/-- Without a read failure the pieces are the chunks of the file. -/
theorem Covers.chunkFile {r : Rabin} {out : σ} {src : Mem} {file : OpenFile} {t : Scan σ}
    {chunks : List Bytes} (h : Covers file.rest.length (start r out src file) t chunks)
    (hscript : .fails ∉ file.script) :
    Client.chunkFile r file.rest = (chunks ++ tail t, t.rabin) := by
  obtain ⟨-, hblocks⟩ | ⟨⟨bs, hreads⟩, -⟩ := h
  · exact hblocks
  · exact absurd (hreads.ok_of_noFailure hscript).1 (by decide)

/-- The tail is one more chunk. -/
theorem pushTail_out {chunks : List Bytes} {out : σ}
    (hout : s.out = (fingerChunks sha1 0 chunks).foldl push out)
    (hoffset : s.offset = chunks.flatten.length) :
    (pushTail sha1 push (tailLen s) s).out =
      (fingerChunks sha1 0 (chunks ++ tail s)).foldl push out := by
  rw [pushTail, tail, fingerChunks_append, List.foldl_append, ← hout]
  split
  · rw [fingerChunks, fingerChunks, Nat.zero_add, ← hoffset, length_load]
    rfl
  · rfl

theorem int32_zero : int32 0 = 0 := int32_eq (by decide) (by decide)

theorem foldl_fileAppend (l : List FingerChunk) (c : Counted)
    (hnum : c.chunknum = int32 c.fileinfo.chunks.length) :
    (l.foldl fileAppend c).fileinfo.chunks = c.fileinfo.chunks ++ l ∧
      (l.foldl fileAppend c).chunknum = int32 (c.fileinfo.chunks ++ l).length := by
  induction l generalizing c with
  | nil => simpa using hnum
  | cons fc l ih =>
    have hstep : (fileAppend c fc).chunknum =
        int32 (fileAppend c fc).fileinfo.chunks.length := by
      simp only [fileAppend, fileAppendFingerchunk, hnum, List.length_append,
        List.length_singleton, Nat.cast_add, Nat.cast_one]
      rw [int32, int32, int32, Int.add_bmod, Int.bmod_bmod, ← Int.add_bmod]
    obtain ⟨hchunks, hcount⟩ := ih (fileAppend c fc) hstep
    have happ : (fileAppend c fc).fileinfo.chunks ++ l = c.fileinfo.chunks ++ fc :: l := by
      simp [fileAppend, fileAppendFingerchunk]
    rw [happ] at hchunks hcount
    exact ⟨hchunks, hcount⟩

/-- Consecutive pieces from `first` to `last`. -/
def Tiles : ℕ → ℕ → List FingerChunk → Prop
  | first, last, [] => first = last
  | first, last, fc :: l => fc.offset = first ∧ Tiles (fc.offset + fc.chunklen) last l

theorem tiles_fingerChunks (sha1 : Bytes → Fingerprint) (offset : ℕ) (l : List Bytes) :
    Tiles offset (offset + l.flatten.length) (fingerChunks sha1 offset l) := by
  induction l generalizing offset with
  | nil => rfl
  | cons bs l ih =>
    rw [fingerChunks, List.flatten_cons, List.length_append, ← Nat.add_assoc]
    exact ⟨rfl, ih (offset + bs.length)⟩

theorem exists_of_mem_fingerChunks {offset : ℕ} {l : List Bytes} {fc : FingerChunk}
    (h : fc ∈ fingerChunks sha1 offset l) : ∃ c ∈ l, fc.chunklen = c.length := by
  induction l generalizing offset with
  | nil => simp [fingerChunks] at h
  | cons bs l ih =>
    rw [fingerChunks, List.mem_cons] at h
    cases h with
    | inl hfirst => exact ⟨bs, List.mem_cons_self, by rw [hfirst]⟩
    | inr hmem =>
      obtain ⟨c, hc, hlen⟩ := ih hmem
      exact ⟨c, List.mem_cons_of_mem _ hc, hlen⟩

/-- The `FingerChunk`s partition the file, and the buffer is kept to. -/
structure Partition (sha1 : Bytes → Fingerprint) (content : Bytes) (s : Scan Counted) : Prop where
  tiles : Tiles 0 content.length s.out.fileinfo.chunks
  hash : ∀ fc ∈ s.out.fileinfo.chunks,
    fc.chunk_hash = sha1 (readAt content fc.offset fc.chunklen)
  max : ∀ fc ∈ s.out.fileinfo.chunks, fc.chunklen ≤ maxChunkSize
  min : ∀ fc ∈ s.out.fileinfo.chunks.dropLast, minChunkSize ≤ fc.chunklen
  buffer : ∀ x ∈ s.io.touched, x.1 + x.2 ≤ 2 * maxChunkSize

theorem dropLast_min {chunks : List Bytes} {t : Scan σ}
    (hmin : ∀ c ∈ chunks, minChunkSize ≤ c.length) :
    ∀ fc ∈ (fingerChunks sha1 0 (chunks ++ tail t)).dropLast, minChunkSize ≤ fc.chunklen := by
  intro fc hfc
  have hmem : fc ∈ fingerChunks sha1 0 chunks := by
    rw [tail] at hfc
    split at hfc
    · rw [fingerChunks_append, fingerChunks, fingerChunks, List.dropLast_concat] at hfc
      exact hfc
    · rw [List.append_nil] at hfc
      exact List.dropLast_subset _ hfc
  obtain ⟨c, hc, hlen⟩ := exists_of_mem_fingerChunks hmem
  rw [hlen]
  exact hmin c hc

theorem chunkFile_open (sha1 : Bytes → Fingerprint) (r : Rabin) (fileinfo : Counted) (src : Mem)
    (file : OpenFile) :
    chunkFile sha1 r fileinfo (some src) (some file) =
      (success, some (pushTail sha1 fileAppend (tailLen (scan sha1 fileAppend r fileinfo src file))
        (scan sha1 fileAppend r fileinfo src file))) := rfl

theorem pushTail_io (sha1 : Bytes → Fingerprint) (push : σ → FingerChunk → σ) (hashed : ℕ)
    (s : Scan σ) :
    (pushTail sha1 push hashed s).io = s.io ∧ (pushTail sha1 push hashed s).rabin = s.rabin := by
  rw [pushTail]
  split <;> exact ⟨rfl, rfl⟩

/-- `chunk_file` cuts the file into the chunks of `Client.chunkFile`. -/
theorem chunkFile_eq (sha1 : Bytes → Fingerprint) (r : Rabin) (fileinfo : Counted) (src : Mem)
    {file : OpenFile} (hscript : .fails ∉ file.script) :
    ∃ s, chunkFile sha1 r fileinfo (some src) (some file) = (success, some s) ∧
      s.out = (fingerChunks sha1 0 (Client.chunkFile r file.rest).1).foldl fileAppend fileinfo ∧
      s.rabin = (Client.chunkFile r file.rest).2 := by
  rw [chunkFile_open]
  obtain ⟨chunks, hscan, hcovers⟩ := scan_spec sha1 fileAppend r fileinfo src file
  obtain ⟨t, ht⟩ : ∃ t, scan sha1 fileAppend r fileinfo src file = t := ⟨_, rfl⟩
  rw [ht] at hscan hcovers ⊢
  rw [hcovers.chunkFile hscript]
  exact ⟨_, rfl, pushTail_out hscan.out (hscan.offset.trans (Nat.zero_add _)),
    (pushTail_io sha1 fileAppend (tailLen t) t).2⟩

theorem Tiles.length_le {first last : ℕ} {l : List FingerChunk} (h : Tiles first last l)
    (hmax : ∀ fc ∈ l, fc.chunklen ≤ maxChunkSize) : last ≤ first + l.length * maxChunkSize := by
  induction l generalizing first with
  | nil =>
    have heq : first = last := h
    omega
  | cons fc l ih =>
    obtain ⟨hoffset, htail⟩ := h
    have hlast := ih htail fun g hg => hmax g (List.mem_cons_of_mem _ hg)
    have hfc := hmax fc List.mem_cons_self
    rw [List.length_cons, Nat.add_mul]
    omega

/-- `chunk_file` cuts the file into consecutive chunks, each with the hash of its bytes. -/
theorem chunkFile_partition (sha1 : Bytes → Fingerprint) (r : Rabin)
    (fileinfo : FileInfo FingerChunk) (src : Mem) (file : OpenFile)
    (hscript : .fails ∉ file.script) :
    ∃ s, chunkFile sha1 r ⟨{ fileinfo with chunks := [] }, 0⟩ (some src) (some file) =
        (success, some s) ∧
      Partition sha1 file.rest s ∧ s.out.chunknum = int32 s.out.fileinfo.chunks.length := by
  generalize hinfo : (⟨{ fileinfo with chunks := [] }, 0⟩ : Counted) = info
  have hempty : info.fileinfo.chunks = [] := by rw [← hinfo]
  have hzero : info.chunknum = int32 info.fileinfo.chunks.length := by
    rw [hempty, ← hinfo]
    exact int32_zero.symm
  rw [chunkFile_open]
  obtain ⟨chunks, hscan, hcovers⟩ := scan_spec sha1 fileAppend r info src file
  obtain ⟨t, ht⟩ : ∃ t, scan sha1 fileAppend r info src file = t := ⟨_, rfl⟩
  rw [ht] at hscan hcovers ⊢
  have hfile := hcovers.chunkFile hscript
  have hout := pushTail_out hscan.out (hscan.offset.trans (Nat.zero_add _))
  rw [start_out] at hout
  obtain ⟨hchunks, hcount⟩ := foldl_fileAppend (fingerChunks sha1 0 (chunks ++ tail t)) info hzero
  rw [hempty, List.nil_append, ← hout] at hchunks hcount
  have hflat : (chunks ++ tail t).flatten = file.rest := by
    rw [← chunkFile_flatten r file.rest, hfile]
  have hpieces : ∀ fc ∈ fingerChunks sha1 0 (chunks ++ tail t), ChunkOf sha1 file.rest fc := by
    intro fc hfc
    rw [← hflat]
    refine fingerChunks_spec [] (fun c hc => ?_) hfc
    have hmem : c ∈ (Client.chunkFile r file.rest).1 := by rwa [hfile]
    exact isChunk_chunkFile hmem
  refine ⟨_, rfl, ⟨?_, ?_, ?_, ?_, ?_⟩, by rw [hcount, hchunks]⟩
  · have htiles := tiles_fingerChunks sha1 0 (chunks ++ tail t)
    rwa [hflat, Nat.zero_add, ← hchunks] at htiles
  · rw [hchunks]
    exact fun fc hfc => (hpieces fc hfc).hash
  · rw [hchunks]
    exact fun fc hfc => (hpieces fc hfc).len
  · rw [hchunks]
    exact dropLast_min hscan.min
  · obtain ⟨ts, hts, hin⟩ := hscan.within
    rw [(pushTail_io sha1 fileAppend (tailLen t) t).1, hts]
    exact hin

/-- Zeros are cut where a chunk gets too long. -/
theorem chunkFile_partition_zeros :
    ∃ s, chunkFile (fun _ => zeroFinger) ⟨0, 0, fun _ => 0⟩
        ⟨{ (fileNew : FileInfo FingerChunk) with chunks := [] }, 0⟩ (some fun _ => 0)
        (some ⟨List.replicate (2 * maxChunkSize) 0, [.interrupted]⟩) = (success, some s) ∧
      Partition (fun _ => zeroFinger) (List.replicate (2 * maxChunkSize) 0) s ∧
      s.out.chunknum = int32 s.out.fileinfo.chunks.length ∧ 2 ≤ s.out.fileinfo.chunks.length := by
  obtain ⟨s, hs, hpart, hcount⟩ := chunkFile_partition (fun _ => zeroFinger) ⟨0, 0, fun _ => 0⟩ fileNew
    (fun _ => 0) ⟨List.replicate (2 * maxChunkSize) 0, [.interrupted]⟩ (by simp)
  have hmany := hpart.tiles.length_le hpart.max
  rw [List.length_replicate, Nat.zero_add] at hmany
  exact ⟨s, hs, hpart, hcount, Nat.le_of_mul_le_mul_right hmany (by decide)⟩

/-- A file of 2^48 bytes has more chunks than `chunknum` can count. -/
theorem chunknum_overflow :
    ¬ ∃ sha1 : Bytes → Fingerprint, ∀ (r : Rabin) (fileinfo : FileInfo FingerChunk) (src : Mem)
      (file : OpenFile), .fails ∉ file.script →
      ∃ s, chunkFile sha1 r ⟨{ fileinfo with chunks := [] }, 0⟩ (some src) (some file) =
          (success, some s) ∧
        Partition sha1 file.rest s ∧ s.out.chunknum = s.out.fileinfo.chunks.length := by
  rintro ⟨sha1, h⟩
  obtain ⟨content, hlength⟩ : ∃ content : Bytes, content.length = 2 ^ 48 :=
    ⟨List.replicate (2 ^ 48) 0, List.length_replicate⟩
  have hscript : Outcome.fails ∉ (⟨content, []⟩ : OpenFile).script := List.not_mem_nil
  obtain ⟨s, hs, hpart, hcount⟩ := h ⟨0, 0, fun _ => 0⟩ fileNew (fun _ => 0) ⟨content, []⟩ hscript
  obtain ⟨s', hs', -, hcount'⟩ := chunkFile_partition sha1 ⟨0, 0, fun _ => 0⟩ fileNew (fun _ => 0)
    ⟨content, []⟩ hscript
  rw [hs] at hs'
  obtain rfl : s = s' := Option.some.inj (Prod.mk.inj hs').2
  have hmany := hpart.tiles.length_le hpart.max
  have hsmall := int32_lt (s.out.fileinfo.chunks.length : ℤ)
  rw [← hcount', hcount] at hsmall
  dsimp only at hmany
  rw [hlength, maxChunkSize] at hmany
  omega

-- ════════════════════════════════════════════════════════════════════════
-- Read failures
-- ════════════════════════════════════════════════════════════════════════

/-- One of the calls that were made between `f` and `g` has failed. -/
def Failed (f g : OpenFile) : Prop := ∃ used, f.script = used ++ g.script ∧ .fails ∈ used

/-- `chunk_file` does not succeed after a failed read. -/
def Reports (file : OpenFile) (result : ℤ × Option (Scan Counted)) : Prop :=
  ∀ s ∈ result.2, Failed file s.io.file → result.1 ≠ success

/-- A failed read is never reported, and the chunks are a front part of the file. -/
theorem chunkFile_failed (sha1 : Bytes → Fingerprint) (r : Rabin) (fileinfo : Counted) (src : Mem)
    (file : OpenFile) {s : Scan Counted}
    (hs : s ∈ (chunkFile sha1 r fileinfo (some src) (some file)).2)
    (hfailed : Failed file s.io.file) :
    ¬ Reports file (chunkFile sha1 r fileinfo (some src) (some file)) ∧
      ∃ pieces, s.out = (fingerChunks sha1 0 pieces).foldl fileAppend fileinfo ∧
        pieces.flatten <+: file.rest := by
  refine ⟨fun hreports => hreports s hs hfailed rfl, ?_⟩
  rw [chunkFile_open] at hs
  obtain ⟨chunks, hscan, hcovers⟩ := scan_spec sha1 fileAppend r fileinfo src file
  obtain ⟨t, ht⟩ : ∃ t, scan sha1 fileAppend r fileinfo src file = t := ⟨_, rfl⟩
  rw [ht] at hs hscan hcovers
  obtain rfl := Option.some.inj hs
  refine ⟨_, pushTail_out hscan.out (hscan.offset.trans (Nat.zero_add _)), ?_⟩
  obtain ⟨-, hblocks⟩ | ⟨-, hprefix⟩ := hcovers
  · have hflat := chunkFile_flatten r file.rest
    have hfile : Client.chunkFile r file.rest = _ := hblocks
    rw [hfile] at hflat
    rw [hflat]
  · exact hprefix

/-- The first read of a file fails. -/
def unreadable : OpenFile := ⟨[7], [.fails]⟩

theorem unreadable_failed (sha1 : Bytes → Fingerprint) :
    ∃ s ∈ (chunkFile sha1 ⟨0, 0, fun _ => 0⟩ ⟨fileNew, 0⟩ (some fun _ => 0)
      (some unreadable)).2, Failed unreadable s.io.file := by
  refine ⟨_, rfl, [.fails], ?_, List.mem_singleton.mpr rfl⟩
  rfl

theorem chunkFile_failed_unreadable :
    ¬ Reports unreadable (chunkFile (fun _ => zeroFinger) ⟨0, 0, fun _ => 0⟩ ⟨fileNew, 0⟩
      (some fun _ => 0) (some unreadable)) := by
  obtain ⟨s, hs, hfailed⟩ := unreadable_failed fun _ => zeroFinger
  exact (chunkFile_failed _ _ _ _ _ hs hfailed).1

/-- The failure is answered by success. -/
theorem read_failure_unreported :
    ¬ ∃ sha1 : Bytes → Fingerprint, ∀ (r : Rabin) (fileinfo : Counted) (src : Mem)
      (file : OpenFile), Reports file (chunkFile sha1 r fileinfo (some src) (some file)) := by
  rintro ⟨sha1, h⟩
  obtain ⟨s, hs, hfailed⟩ := unreadable_failed sha1
  exact h _ _ _ _ s hs hfailed rfl

end TCBackup.Client.Buffered
