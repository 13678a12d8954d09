import TCBackup.Bnet
import TCBackup.UpdateAttr
import TCBackup.Global

/-!
# Traces (`client/src/read_trace.c`)

A trace is a text with a line for every file and every chunk. `read_trace` makes a `FileInfo` of
every file and pushes it to a queue, whose elements are pointers.

## Main definitions

- `hash2code`, `code2hash` — hashes as hexadecimal digits
- `fgets`, `atoi` — the library functions that `read_trace` calls
- `turn`, `readTraceLoop` — the loop over the lines
- `printTrace` — the trace of a list of files

## Main results

- `code2hash_hash2code` — a hash is read as it was printed
- `trace_read_back` — the files are read as they were printed
-/

namespace TCBackup.Client

open ByteFile

-- ════════════════════════════════════════════════════════════════════════
-- Hashes as text
-- ════════════════════════════════════════════════════════════════════════

/-- The `switch` of `hash2code`. -/
def codeOf (b : UInt8) : UInt8 :=
  match b with
  | 10 => 65
  | 11 => 66
  | 12 => 67
  | 13 => 68
  | 14 => 69
  | 15 => 70
  | b => b + 48

/-- `hash2code` -/
def hash2code (hash : Fingerprint) : Bytes :=
  hash.toList.flatMap fun a => [codeOf (a / 16), codeOf (a <<< 4 / 16)]

/-- The `switch` of `code2hash`. -/
def codeValue (a : UInt8) : UInt8 :=
  match a with
  | 65 => 10
  | 97 => 10
  | 66 => 11
  | 98 => 11
  | 67 => 12
  | 99 => 12
  | 68 => 13
  | 100 => 13
  | 69 => 14
  | 101 => 14
  | 70 => 15
  | 102 => 15
  | a => a - 48

/-- The bytes for pairs of digits. -/
def codeBytes : Bytes → Bytes
  | a :: b :: code => ((0 * 16 + codeValue a) * 16 + codeValue b) :: codeBytes code
  | _ => []

/-- `code2hash` -/
def code2hash (code : Bytes) : Fingerprint := fixed 20 (codeBytes code)

/-- The value of a hexadecimal digit. -/
def hexDigit (c : UInt8) : Option ℕ :=
  if 48 ≤ c ∧ c ≤ 57 then some (c.toNat - 48)
  else if 65 ≤ c ∧ c ≤ 70 then some (c.toNat - 55)
  else if 97 ≤ c ∧ c ≤ 102 then some (c.toNat - 87)
  else none

/-- The text has the hexadecimal digits of the bytes. -/
def IsHex (code bytes : Bytes) : Prop :=
  code.map hexDigit = bytes.flatMap fun b => [some (b.toNat / 16), some (b.toNat % 16)]

-- ════════════════════════════════════════════════════════════════════════
-- Lines
-- ════════════════════════════════════════════════════════════════════════

/-- At most `n` bytes, up to a line feed. -/
def takeLine : ℕ → Bytes → Bytes
  | 0, _ => []
  | _ + 1, [] => []
  | n + 1, c :: s => if c = 10 then [c] else c :: takeLine n s

/-- `fgets(line, size, file)`: what is left of the file, and the buffer with what lies behind it.
At the end of the file the buffer stays as it is. -/
def fgets (size : ℕ) (rest line : Bytes) : Bytes × Bytes :=
  if rest = [] then (rest, line)
  else (rest.drop (takeLine (size - 1) rest).length,
    writeAt line 0 (takeLine (size - 1) rest ++ [0]))

/-- `atoi`, which is `(int) strtol(s, NULL, 10)`. -/
def atoi (s : Bytes) : ℤ :=
  match scanInt s with
  | none => 0
  | some (x, _) => int32 (max (-2 ^ 63) (min (2 ^ 63 - 1) x))

/-- `STREAM_END` -/
def streamEndWord : Bytes := [83, 84, 82, 69, 65, 77, 95, 69, 78, 68]

/-- `fileindex=` -/
def fileindexWord : Bytes := [102, 105, 108, 101, 105, 110, 100, 101, 120, 61]

/-- `FILE_END` -/
def fileEndWord : Bytes := [70, 73, 76, 69, 95, 69, 78, 68]

/-- A `FileInfo`, whose chunks are hashes and lengths. -/
structure TraceFile where
  file_path : Bytes
  is_new : FileStatus
  file_size : ℤ
  chunknum : ℤ
  chunks : List (Fingerprint × ℤ)
  deriving DecidableEq

/-- `file_new` -/
def traceFileNew : TraceFile := ⟨[], .unset, 0, 0, []⟩

/-- A new chunk is counted and appended. -/
def TraceFile.append (f : TraceFile) (chunk_hash : Fingerprint) (chunklen : ℤ) : TraceFile :=
  { f with
    file_size := f.file_size + chunklen
    chunknum := int32 (f.chunknum + 1)
    chunks := f.chunks ++ [(chunk_hash, chunklen)] }

/-- `read_trace` between two lines: the file, the buffer with what lies behind it, the pointer
`fileinfo`, the records it has allocated, and the pointers in the queue. -/
structure Reading where
  rest : Bytes
  line : Bytes
  fileinfo : Option ℕ
  files : List TraceFile
  queue : List (Option ℕ)

/-- What an iteration of the loop leads to. -/
inductive Turn
  | again (s : Reading)
  | done (s : Reading)
  | undefined

/-- A new record, and `fileinfo` points to it. -/
def Reading.alloc (s : Reading) (f : TraceFile) : Reading :=
  { s with fileinfo := some s.files.length, files := s.files ++ [f] }

/-- `sync_queue_push(fileinfo_queue, fileinfo)` -/
def Reading.push (s : Reading) : Reading := { s with queue := s.queue ++ [s.fileinfo] }

/-- The loop for the line in the buffer. An index that does not fit into `fileindex` and a chunk
without a file are undefined. -/
def onLine (s : Reading) : Turn :=
  if streamEndWord.isPrefixOf s.line then
    .done (s.alloc { traceFileNew with chunknum := TCBackup.streamEnd }).push
  else if fileindexWord.isPrefixOf s.line then
    let index := cstring (s.line.drop 10)
    if 1 ≤ index.length ∧ index.length ≤ 10 then
      .again (s.alloc { traceFileNew with
        file_path := index.take (index.length - 1), is_new := .newFile })
    else .undefined
  else if fileEndWord.isPrefixOf s.line then .again s.push
  else
    match s.fileinfo with
    | none => .undefined
    | some i =>
      let code := (fixed 40 (cstring s.line)).toList
      .again { s with
        files := s.files.modify i fun f => f.append (code2hash code) (atoi (s.line.drop 41)) }

/-- An iteration of the loop. -/
def turn (s : Reading) : Turn :=
  let (rest, line) := fgets 128 s.rest s.line
  onLine { s with rest := rest, line := line }

/-- The loop, for so many iterations; `none` while it goes on. -/
def readTraceLoop : ℕ → Reading → Option Reading
  | 0, _ => none
  | fuel + 1, s =>
    match turn s with
    | .again s => readTraceLoop fuel s
    | .done s => some s
    | .undefined => none

/-- `read_trace`, with whatever lies in the buffer. -/
def readTrace (fuel : ℕ) (trace line : Bytes) : Option Reading :=
  readTraceLoop fuel ⟨trace, line, none, [], []⟩

/-- What the pointers in the queue point to. -/
def Reading.pushed (s : Reading) : List (Option TraceFile) :=
  s.queue.map fun p => p.bind fun i => s.files[i]?

-- ════════════════════════════════════════════════════════════════════════
-- Printed traces
-- ════════════════════════════════════════════════════════════════════════

structure PrintedChunk where
  chunk_hash : Fingerprint
  code : Bytes
  chunklen : ℕ
  hex : IsHex code chunk_hash.toList
  fits : chunklen < 2 ^ 31

structure PrintedFile where
  index : Bytes
  chunks : List PrintedChunk
  digits : ∀ c ∈ index, isDigit c = true
  size : 1 ≤ index.length ∧ index.length ≤ 9

/-- `fprintf(trace, "%s:%d\n", code, chunk->length)` -/
def PrintedChunk.print (c : PrintedChunk) : Bytes := c.code ++ 58 :: numeral 10 c.chunklen ++ [10]

def PrintedFile.print (f : PrintedFile) : Bytes :=
  fileindexWord ++ f.index ++ [10] ++ f.chunks.flatMap PrintedChunk.print ++ fileEndWord ++ [10]

def printTrace (fs : List PrintedFile) : Bytes := fs.flatMap PrintedFile.print ++ streamEndWord

/-- The record that the printed file stands for. -/
def PrintedFile.record (f : PrintedFile) : TraceFile where
  file_path := f.index
  is_new := .newFile
  file_size := (f.chunks.map PrintedChunk.chunklen).sum
  chunknum := int32 f.chunks.length
  chunks := f.chunks.map fun c => (c.chunk_hash, (c.chunklen : ℤ))

-- ════════════════════════════════════════════════════════════════════════
-- Reading hashes
-- ════════════════════════════════════════════════════════════════════════

theorem forall_uint8 {p : UInt8 → Prop} (h : ∀ n < 256, p (UInt8.ofNat n)) (c : UInt8) : p c := by
  have hc := h c.toNat c.toNat_lt
  rwa [UInt8.ofNat_toNat] at hc

/-- `code2hash` has the value of every hexadecimal digit. -/
theorem hexDigit_eq (c : UInt8) :
    hexDigit c = none ∨ hexDigit c = some (codeValue c).toNat :=
  forall_uint8 (p := fun c => hexDigit c = none ∨ hexDigit c = some (codeValue c).toNat)
    (by decide +kernel) c

theorem hexDigit_codeOf (a : UInt8) : hexDigit (codeOf (a / 16)) = some (a.toNat / 16) ∧
    hexDigit (codeOf (a <<< 4 / 16)) = some (a.toNat % 16) :=
  forall_uint8 (p := fun a => hexDigit (codeOf (a / 16)) = some (a.toNat / 16) ∧
    hexDigit (codeOf (a <<< 4 / 16)) = some (a.toNat % 16)) (by decide +kernel) a

theorem codeValue_of_hexDigit {c : UInt8} {v : ℕ} (h : hexDigit c = some v) :
    (codeValue c).toNat = v := by
  rcases hexDigit_eq c with hnone | hsome
  · rw [hnone] at h
    cases h
  · rw [hsome] at h
    exact Option.some.inj h

theorem codeBytes_of_isHex {code bytes : Bytes} (h : IsHex code bytes) :
    codeBytes code = bytes := by
  induction bytes generalizing code with
  | nil =>
    rw [IsHex, List.flatMap_nil, List.map_eq_nil_iff] at h
    rw [h]
    rfl
  | cons b bytes ih =>
    obtain ⟨hi, code, rfl, hhi, hcode⟩ := List.map_eq_cons_iff.mp h
    obtain ⟨lo, code, rfl, hlo, hcode⟩ := List.map_eq_cons_iff.mp hcode
    have hb := b.toNat_lt
    rw [codeBytes, ih hcode]
    congr 1
    rw [← UInt8.toNat_inj]
    simp only [UInt8.toNat_add, UInt8.toNat_mul, UInt8.toNat_zero, codeValue_of_hexDigit hhi,
      codeValue_of_hexDigit hlo, show (16 : UInt8).toNat = 16 from rfl]
    omega

/-- A hash is read from its digits. -/
theorem code2hash_of_isHex {code : Bytes} {hash : Fingerprint} (h : IsHex code hash.toList) :
    code2hash code = hash := by
  rw [code2hash, codeBytes_of_isHex h, fixed_toList]

theorem isHex_hash2code (hash : Fingerprint) : IsHex (hash2code hash) hash.toList := by
  rw [IsHex, hash2code, List.map_flatMap]
  congr 1
  funext a
  rw [List.map_cons, List.map_cons, (hexDigit_codeOf a).1, (hexDigit_codeOf a).2, List.map_nil]

/-- A hash is read as it was printed. -/
theorem code2hash_hash2code (hash : Fingerprint) : code2hash (hash2code hash) = hash :=
  code2hash_of_isHex (isHex_hash2code hash)

theorem length_of_isHex {code bytes : Bytes} (h : IsHex code bytes) :
    code.length = 2 * bytes.length := by
  have hlen := congrArg List.length h
  rw [List.length_map, List.length_flatMap] at hlen
  simpa [Nat.mul_comm] using hlen

/-- All bytes of the text are digits. -/
theorem hexDigit_of_isHex {code bytes : Bytes} (h : IsHex code bytes) {c : UInt8}
    (hc : c ∈ code) : hexDigit c ≠ none := by
  intro hnone
  have hmem : none ∈ code.map hexDigit := List.mem_map.mpr ⟨c, hc, hnone⟩
  rw [h] at hmem
  simp at hmem

-- ════════════════════════════════════════════════════════════════════════
-- Reading lines
-- ════════════════════════════════════════════════════════════════════════

variable {s s' : Reading} {c rest line : Bytes} {n fuel : ℕ}

theorem takeLine_line (hc : 10 ∉ c) (hlen : c.length < n) :
    takeLine n (c ++ 10 :: rest) = c ++ [10] := by
  induction c generalizing n with
  | nil =>
    obtain ⟨n, rfl⟩ := Nat.exists_eq_succ_of_ne_zero (Nat.ne_of_gt hlen)
    exact if_pos rfl
  | cons a c ih =>
    obtain ⟨n, rfl⟩ := Nat.exists_eq_succ_of_ne_zero (Nat.ne_of_gt (Nat.zero_lt_of_lt hlen))
    rw [List.mem_cons, not_or] at hc
    rw [List.cons_append, takeLine, if_neg fun h => hc.1 h.symm, ih hc.2 (by simpa using hlen),
      List.cons_append]

theorem takeLine_append (hc : 10 ∉ c) (n : ℕ) (rest : Bytes) :
    takeLine (c.length + n) (c ++ rest) = c ++ takeLine n rest := by
  induction c with
  | nil => rw [List.length_nil, Nat.zero_add, List.nil_append, List.nil_append]
  | cons a c ih =>
    rw [List.mem_cons, not_or] at hc
    rw [List.length_cons, Nat.add_right_comm, List.cons_append, takeLine,
      if_neg fun h => hc.1 h.symm, ih hc.2, List.cons_append]

/-- A line that is not too long comes into the buffer as a string. -/
theorem fgets_line (hc : 10 ∉ c) (hlen : c.length < 127) (line : Bytes) :
    ∃ stale, fgets 128 (c ++ 10 :: rest) line = (rest, c ++ 10 :: 0 :: stale) := by
  refine ⟨line.drop (c.length + 2), ?_⟩
  rw [fgets, if_neg (by simp), takeLine_line hc hlen]
  refine Prod.ext ?_ ?_
  · show (c ++ 10 :: rest).drop (c ++ [10]).length = rest
    rw [show c ++ 10 :: rest = (c ++ [10]) ++ rest by simp, List.drop_left]
  · simp [writeAt]

theorem cstring_append {a b : Bytes} (ha : 0 ∉ a) : cstring (a ++ b) = a ++ cstring b := by
  rw [cstring, List.takeWhile_append_of_pos]
  · rfl
  · intro x hx
    have hne : x ≠ 0 := by
      rintro rfl
      exact ha hx
    simpa using hne

theorem toList_fixed_append {a : Bytes} (ha : a.length = n) (b : Bytes) :
    (fixed n (a ++ b)).toList = a := by
  show (a ++ b).take n ++ List.replicate (n - (a ++ b).length) 0 = a
  rw [← ha, List.take_left]
  simp

/-- A printed `int` is read back. -/
theorem atoi_numeral (hn : n < 2 ^ 31) {b : UInt8} (hb : isDigit b = false) (s : Bytes) :
    atoi (numeral 10 n ++ b :: s) = n := by
  have hvalue := scanDigits_numeral n hb s
  obtain ⟨c, cs, hcs, hc⟩ := numeral_cons n
  have hspace : skipSpace (numeral 10 n ++ b :: s) = numeral 10 n ++ b :: s := by
    rw [hcs]
    exact skipSpace_cons (isSpace_of_isDigit hc) _
  have hscan : scanInt (numeral 10 n ++ b :: s) = some ((n : ℤ), b :: s) := by
    rw [scanInt, hspace]
    split
    · next h =>
      rw [hcs] at h
      obtain ⟨rfl, -⟩ := List.cons.inj h
      exact absurd hc (by decide)
    · next h =>
      rw [hcs] at h
      obtain ⟨rfl, -⟩ := List.cons.inj h
      exact absurd hc (by decide)
    · rw [hvalue]
      rfl
  rw [atoi, hscan]
  show int32 (max (-2 ^ 63) (min (2 ^ 63 - 1) (n : ℤ))) = n
  rw [int32_eq (by omega) (by omega)]
  omega

-- ════════════════════════════════════════════════════════════════════════
-- Reading files
-- ════════════════════════════════════════════════════════════════════════

theorem readTraceLoop_again (h : turn s = .again s') (fuel : ℕ) :
    readTraceLoop (fuel + 1) s = readTraceLoop fuel s' := by
  rw [readTraceLoop, h]

/-- An iteration for a line that is not too long. -/
theorem turn_line (hc : 10 ∉ c) (hlen : c.length < 127) (hrest : s.rest = c ++ 10 :: rest) :
    ∃ stale, turn s = onLine { s with rest := rest, line := c ++ 10 :: 0 :: stale } := by
  obtain ⟨stale, hget⟩ : ∃ stale, fgets 128 (c ++ 10 :: rest) s.line =
      (rest, c ++ 10 :: 0 :: stale) := fgets_line hc hlen s.line
  exact ⟨stale, by rw [turn, hrest, hget]⟩

theorem isPrefixOf_append (a b : Bytes) : a.isPrefixOf (a ++ b) = true :=
  List.isPrefixOf_iff_prefix.mpr (List.prefix_append a b)

/-- A line with the index of a file. -/
theorem turn_fileindex (f : PrintedFile)
    (hrest : s.rest = fileindexWord ++ f.index ++ [10] ++ rest) :
    ∃ line, turn s = .again (({ s with rest := rest, line := line } : Reading).alloc
      { traceFileNew with file_path := f.index, is_new := .newFile }) := by
  have hne : ∀ b ∈ f.index, b ≠ 10 ∧ b ≠ 0 := by
    intro b hb
    have := f.digits b hb
    constructor <;> rintro rfl <;> exact absurd this (by decide)
  have hfeed : 10 ∉ fileindexWord ++ f.index := by
    rw [List.mem_append, not_or]
    exact ⟨by decide, fun h => (hne 10 h).1 rfl⟩
  have hzero : 0 ∉ f.index ++ [10] := by
    rw [List.mem_append, not_or]
    exact ⟨fun h => (hne 0 h).2 rfl, by decide⟩
  have hword : fileindexWord.length = 10 := rfl
  have hsize := f.size
  have hline : s.rest = fileindexWord ++ f.index ++ 10 :: rest := hrest.trans (by simp)
  obtain ⟨stale, hturn⟩ := turn_line hfeed (by rw [List.length_append]; omega) hline
  refine ⟨fileindexWord ++ f.index ++ 10 :: 0 :: stale, hturn.trans ?_⟩
  have hindex : cstring ((fileindexWord ++ f.index ++ 10 :: 0 :: stale).drop 10) = f.index ++ [10] := by
    rw [show fileindexWord ++ f.index ++ 10 :: 0 :: stale =
      fileindexWord ++ ((f.index ++ [10]) ++ 0 :: stale) by simp, ← hword, List.drop_left,
      cstring_append hzero]
    simp [cstring]
  rw [onLine]
  dsimp only
  rw [hindex, if_neg (by simp [streamEndWord, fileindexWord, List.isPrefixOf]), if_pos
    (by rw [List.append_assoc]; exact isPrefixOf_append ..), if_pos (by simp; omega)]
  simp

/-- The first byte of a chunk line is no letter that the words begin with, or the second is not. -/
theorem not_word_of_isHex {code bytes : Bytes} (h : IsHex code bytes) (hlen : 2 ≤ code.length)
    (more : Bytes) : streamEndWord.isPrefixOf (code ++ more) = false ∧
      fileindexWord.isPrefixOf (code ++ more) = false ∧
      fileEndWord.isPrefixOf (code ++ more) = false := by
  match code, hlen with
  | a :: b :: code, _ =>
    have ha := hexDigit_of_isHex h (c := a) (by simp)
    have hb := hexDigit_of_isHex h (c := b) (by simp)
    refine ⟨?_, ?_, ?_⟩
    · cases hp : streamEndWord.isPrefixOf (a :: b :: code ++ more) with
      | false => rfl
      | true =>
        simp only [streamEndWord, List.cons_append, List.isPrefixOf, Bool.and_eq_true, beq_iff_eq]
          at hp
        obtain ⟨rfl, -⟩ := hp
        exact absurd rfl ha
    · cases hp : fileindexWord.isPrefixOf (a :: b :: code ++ more) with
      | false => rfl
      | true =>
        simp only [fileindexWord, List.cons_append, List.isPrefixOf, Bool.and_eq_true, beq_iff_eq]
          at hp
        obtain ⟨-, rfl, -⟩ := hp
        exact absurd rfl hb
    · cases hp : fileEndWord.isPrefixOf (a :: b :: code ++ more) with
      | false => rfl
      | true =>
        simp only [fileEndWord, List.cons_append, List.isPrefixOf, Bool.and_eq_true, beq_iff_eq]
          at hp
        obtain ⟨-, rfl, -⟩ := hp
        exact absurd rfl hb

/-- A line with a chunk. -/
theorem turn_chunk (p : PrintedChunk) {i : ℕ} (hi : s.fileinfo = some i)
    (hrest : s.rest = p.print ++ rest) :
    ∃ line, turn s = .again { s with
      rest := rest
      line := line
      files := s.files.modify i fun f => f.append p.chunk_hash p.chunklen } := by
  have hcode : p.code.length = 40 := by
    rw [length_of_isHex p.hex, List.Vector.toList_length]
  have hnum : (numeral 10 p.chunklen).length ≤ 10 :=
    length_numeral_le (by decide) (by have := p.fits; omega) (by decide)
  have hfeed : 10 ∉ p.code ++ 58 :: numeral 10 p.chunklen := by
    simp only [List.mem_append, List.mem_cons, not_or]
    refine ⟨fun h => hexDigit_of_isHex p.hex h rfl, by decide, fun h => ?_⟩
    exact absurd (isDigit_numeral _ _ h) (by decide)
  have hzero : 0 ∉ p.code := fun h => hexDigit_of_isHex p.hex h rfl
  have hline : s.rest = p.code ++ 58 :: numeral 10 p.chunklen ++ 10 :: rest :=
    hrest.trans (by rw [PrintedChunk.print, List.append_assoc]; rfl)
  obtain ⟨stale, hturn⟩ := turn_line hfeed (by rw [List.length_append, List.length_cons]; omega)
    hline
  rw [List.append_assoc, List.cons_append] at hturn
  refine ⟨p.code ++ 58 :: (numeral 10 p.chunklen ++ 10 :: 0 :: stale), hturn.trans ?_⟩
  obtain ⟨hend, hindex, hfile⟩ := not_word_of_isHex p.hex (by omega)
    (58 :: (numeral 10 p.chunklen ++ 10 :: 0 :: stale))
  have hhash : (fixed 40 (cstring (p.code ++ 58 :: (numeral 10 p.chunklen ++ 10 :: 0 :: stale)))).toList =
      p.code := by
    rw [cstring_append hzero, toList_fixed_append hcode]
  have hlen : (p.code ++ 58 :: (numeral 10 p.chunklen ++ 10 :: 0 :: stale)).drop 41 =
      numeral 10 p.chunklen ++ 10 :: 0 :: stale := by
    rw [show p.code ++ 58 :: (numeral 10 p.chunklen ++ 10 :: 0 :: stale) =
      (p.code ++ [58]) ++ (numeral 10 p.chunklen ++ 10 :: 0 :: stale) by simp,
      show 41 = (p.code ++ [58]).length by simp [hcode], List.drop_left]
  rw [onLine]
  dsimp only
  rw [hend, hindex, hfile, if_neg (by decide), if_neg (by decide), if_neg (by decide), hi, hhash, hlen,
    code2hash_of_isHex p.hex, atoi_numeral p.fits (by decide)]

/-- The line behind the chunks. -/
theorem turn_fileEnd (hrest : s.rest = fileEndWord ++ [10] ++ rest) :
    ∃ line, turn s = .again ({ s with rest := rest, line := line } : Reading).push := by
  have hline : s.rest = fileEndWord ++ 10 :: rest := hrest.trans (by rw [List.append_assoc]; rfl)
  obtain ⟨stale, hturn⟩ := turn_line (by decide) (by decide) hline
  refine ⟨fileEndWord ++ 10 :: 0 :: stale, hturn.trans ?_⟩
  rw [onLine]
  dsimp only
  rw [if_neg (by simp [streamEndWord, fileEndWord, List.isPrefixOf]),
    if_neg (by simp [fileindexWord, fileEndWord, List.isPrefixOf]), if_pos (isPrefixOf_append ..)]

/-- The line that ends the loop, whatever stands behind it. -/
theorem turn_streamEnd {tail : Bytes} (hrest : s.rest = streamEndWord ++ tail) :
    ∃ rest line, turn s = .done (({ s with rest := rest, line := line } : Reading).alloc
      { traceFileNew with chunknum := TCBackup.streamEnd }).push := by
  have htake : takeLine 127 (streamEndWord ++ tail) = streamEndWord ++ takeLine 117 tail :=
    takeLine_append (c := streamEndWord) (by decide) 117 tail
  have hget : ∃ rest line, fgets 128 s.rest s.line = (rest, streamEndWord ++ line) := by
    rw [hrest, fgets, if_neg (by simp [streamEndWord]), htake]
    exact ⟨_, takeLine 117 tail ++ [0] ++ s.line.drop (streamEndWord ++ takeLine 117 tail ++ [0]).length,
      Prod.ext rfl (by simp [writeAt])⟩
  obtain ⟨rest, line, hget⟩ := hget
  refine ⟨rest, streamEndWord ++ line, ?_⟩
  rw [turn, hget]
  exact if_pos (isPrefixOf_append ..)

/-- The files that have been pushed, one after the other. -/
def filesPushed (files : List TraceFile) : List (Option ℕ) :=
  (List.range files.length).map some

theorem modify_last {α : Type*} (l : List α) (x : α) (g : α → α) :
    (l ++ [x]).modify l.length g = l ++ [g x] := by
  induction l with
  | nil => rfl
  | cons a l ih => rw [List.cons_append, List.length_cons, List.modify_succ_cons, ih, List.cons_append]

theorem filesPushed_succ (files : List TraceFile) (f : TraceFile) :
    filesPushed (files ++ [f]) = filesPushed files ++ [some files.length] := by
  rw [filesPushed, List.length_append, List.length_singleton, List.range_succ, List.map_append]
  rfl

/-- The chunks of a file, which go to the record that `fileinfo` points to. -/
theorem chunks_run (chunks : List PrintedChunk) (f : TraceFile) (files : List TraceFile)
    (queue : List (Option ℕ)) (rest line : Bytes) :
    ∃ line', ∀ fuel, readTraceLoop (fuel + chunks.length)
        ⟨chunks.flatMap PrintedChunk.print ++ rest, line, some files.length, files ++ [f], queue⟩ =
      readTraceLoop fuel ⟨rest, line', some files.length, files ++
        [chunks.foldl (fun f c => f.append c.chunk_hash c.chunklen) f], queue⟩ := by
  induction chunks generalizing f line with
  | nil => exact ⟨line, fun fuel => rfl⟩
  | cons p chunks ih =>
    let s : Reading := ⟨(p :: chunks).flatMap PrintedChunk.print ++ rest, line, some files.length,
      files ++ [f], queue⟩
    have hrest : s.rest = p.print ++ (chunks.flatMap PrintedChunk.print ++ rest) := by
      show (p :: chunks).flatMap PrintedChunk.print ++ rest = _
      rw [List.flatMap_cons, List.append_assoc]
    obtain ⟨line₁, hturn⟩ := turn_chunk p rfl hrest
    obtain ⟨line', hrun⟩ := ih (f.append p.chunk_hash p.chunklen) line₁
    refine ⟨line', fun fuel => ?_⟩
    rw [List.length_cons, ← Nat.add_assoc, readTraceLoop_again hturn]
    dsimp only [s]
    rw [modify_last]
    exact hrun fuel

/-- The chunks make the record that the printed file stands for. -/
theorem foldl_append (chunks : List PrintedChunk) (f : TraceFile) :
    chunks.foldl (fun f c => f.append c.chunk_hash c.chunklen) f =
      { f with
        file_size := f.file_size + ((chunks.map PrintedChunk.chunklen).sum : ℕ)
        chunknum := if chunks = [] then f.chunknum else int32 (f.chunknum + chunks.length)
        chunks := f.chunks ++ chunks.map fun c => (c.chunk_hash, (c.chunklen : ℤ)) } := by
  induction chunks generalizing f with
  | nil => simp
  | cons p chunks ih =>
    rw [List.foldl_cons, ih]
    simp only [TraceFile.append, List.map_cons, List.sum_cons, List.append_assoc,
      List.singleton_append, reduceCtorEq, if_false, TraceFile.mk.injEq, true_and, and_true]
    refine ⟨by push_cast; omega, ?_⟩
    split
    · next hnil => rw [hnil]; rfl
    · rw [int32, int32, Int.bmod_add_bmod]
      congr 1
      push_cast [List.length_cons]
      omega

/-- A file is read into a record of its own and pushed. -/
theorem file_run (f : PrintedFile) (s : Reading) (rest : Bytes)
    (hrest : s.rest = f.print ++ rest) :
    ∃ k line, ∀ fuel, readTraceLoop (fuel + k) s = readTraceLoop fuel
      ⟨rest, line, some s.files.length, s.files ++ [f.record], s.queue ++ [some s.files.length]⟩ := by
  have hsplit : s.rest = fileindexWord ++ f.index ++ [10] ++
      (f.chunks.flatMap PrintedChunk.print ++ (fileEndWord ++ [10] ++ rest)) := by
    rw [hrest, PrintedFile.print]
    simp
  obtain ⟨line₁, hindex⟩ := turn_fileindex f hsplit
  obtain ⟨line₂, hchunks⟩ := chunks_run f.chunks
    { traceFileNew with file_path := f.index, is_new := .newFile } s.files s.queue
    (fileEndWord ++ [10] ++ rest) line₁
  rw [foldl_append] at hchunks
  have hrecord : ({ traceFileNew with
      file_path := f.index
      is_new := .newFile
      file_size := traceFileNew.file_size + ((f.chunks.map PrintedChunk.chunklen).sum : ℕ)
      chunknum := if f.chunks = [] then traceFileNew.chunknum
        else int32 (traceFileNew.chunknum + f.chunks.length)
      chunks := traceFileNew.chunks ++ f.chunks.map fun c => (c.chunk_hash, (c.chunklen : ℤ)) } :
      TraceFile) = f.record := by
    simp only [traceFileNew, PrintedFile.record, zero_add, List.nil_append, TraceFile.mk.injEq,
      true_and, and_true]
    split
    · next hnil => rw [hnil]; rfl
    · rfl
  dsimp only at hchunks hrecord
  rw [hrecord] at hchunks
  let s' : Reading := ⟨fileEndWord ++ [10] ++ rest, line₂, some s.files.length,
    s.files ++ [f.record], s.queue⟩
  obtain ⟨line₃, hend⟩ := turn_fileEnd (s := s') rfl
  refine ⟨1 + f.chunks.length + 1, line₃, fun fuel => ?_⟩
  rw [← Nat.add_assoc, readTraceLoop_again hindex, ← Nat.add_assoc]
  exact (hchunks (fuel + 1)).trans (readTraceLoop_again hend fuel)

/-- All files, and the marker. -/
theorem files_run (fs : List PrintedFile) (tail : Bytes) (s : Reading)
    (hrest : s.rest = printTrace fs ++ tail) (hqueue : s.queue = filesPushed s.files) :
    ∃ fuel s', readTraceLoop fuel s = some s' ∧
      s'.files = s.files ++ fs.map PrintedFile.record ++
        [{ traceFileNew with chunknum := TCBackup.streamEnd }] ∧
      s'.queue = filesPushed s'.files := by
  induction fs generalizing s with
  | nil =>
    obtain ⟨rest, line, hturn⟩ := turn_streamEnd (hrest.trans (by rw [printTrace]; rfl))
    refine ⟨1, _, by rw [readTraceLoop, hturn], by simp [Reading.alloc, Reading.push], ?_⟩
    show s.queue ++ [some s.files.length] = filesPushed (s.files ++ [_])
    rw [filesPushed_succ, hqueue]
  | cons f fs ih =>
    have hsplit : s.rest = f.print ++ (printTrace fs ++ tail) := by
      rw [hrest, printTrace, printTrace, List.flatMap_cons]
      simp
    obtain ⟨k, line, hrun⟩ := file_run f s _ hsplit
    obtain ⟨fuel, s', hmore, hfiles, hpushed⟩ := ih
      ⟨printTrace fs ++ tail, line, some s.files.length, s.files ++ [f.record],
        s.queue ++ [some s.files.length]⟩ rfl (by rw [filesPushed_succ, hqueue])
    refine ⟨fuel + k, s', (hrun fuel).trans hmore, ?_, hpushed⟩
    rw [hfiles]
    simp

theorem map_filesPushed (files : List TraceFile) :
    ((filesPushed files).map fun p => p.bind fun i => files[i]?) = files.map some := by
  rw [filesPushed, List.map_map]
  refine List.ext_getElem (by simp) fun i hi hi' => ?_
  simp only [List.length_map] at hi'
  simp [List.getElem?_eq_getElem hi']

/-- The files of a printed trace are pushed in order, each one with its index, its chunks and the sum
of their lengths, and then the marker. -/
theorem trace_read_back (fs : List PrintedFile) (tail line : Bytes) :
    ∃ fuel s, readTrace fuel (printTrace fs ++ tail) line = some s ∧
      s.pushed =
        (fs.map PrintedFile.record ++
          [{ traceFileNew with chunknum := TCBackup.streamEnd }]).map some := by
  obtain ⟨fuel, s, hrun, hfiles, hqueue⟩ := files_run fs tail
    ⟨printTrace fs ++ tail, line, none, [], []⟩ rfl rfl
  refine ⟨fuel, s, hrun, ?_⟩
  rw [Reading.pushed, hqueue, map_filesPushed, hfiles, List.nil_append]

end TCBackup.Client
