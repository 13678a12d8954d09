import TCBackup.Client.ChunkDedupModule
import TCBackup.Client.PipelineBackup
import TCBackup.Commands
import TCBackup.Server.Backup

/-!
# Recipes on the wire

The pipelined client packs the recipe of a new file into one message, in a buffer that
it keeps from file to file and enlarges when a file has more chunks than all before; the
pipelined server receives it into a buffer that it treats in the same way. The plain
client sends one message for each chunk. Sizes are computed in `int`.

## Main definitions

- `store`, `zrealloc`, `bufferSize` — the buffer and its allocation
- `packRecipe`, `unpackRecipe`, `pipelined` — the pipelined drivers
- `plainFile`, `plain` — the plain drivers
- `Transported` — both servers rebuild the lists of the client, inside their buffers
-/

namespace TCBackup.Pipeline.RecipeTransport

open ByteFile

abbrev File := Client.FileInfo Client.FingerChunk

/-- Copy `d` to position `p` of an allocated buffer; `none` when it leaves it. -/
def store (buf : Bytes) (p : ℕ) (d : Bytes) : Option Bytes :=
  if p + d.length ≤ buf.length then some (writeAt buf p d) else none

/-- `FINGER_LENGTH + chunknum * (FINGER_LENGTH + CHUNK_ADDRESS_LENGTH) + 1` -/
def bufferSize (chunknum : ℤ) : ℤ := int32 (int32 (20 + int32 (chunknum * 84)) + 1)

/-- `zrealloc`; a negative `int` is no size that can be had. -/
def zrealloc (buf : Bytes) (size : ℤ) : Option Bytes :=
  if size < 0 then none
  else some (buf.take size.toNat ++ List.replicate (size.toNat - buf.length) 0)

-- ════════════════════════════════════════════════════════════════════════
-- The pipelined drivers
-- ════════════════════════════════════════════════════════════════════════

/-- What `update_recipe_module` of the client keeps from file to file. -/
structure Packer where
  last_chunknum : ℤ
  buf : Bytes

def Packer.init : Packer := ⟨-1, []⟩

/-- The buffer for a file of `chunknum` chunks. -/
def Packer.reserve (s : Packer) (chunknum : ℤ) : Option Packer :=
  if chunknum > s.last_chunknum then
    (zrealloc s.buf (bufferSize chunknum)).map fun buf => ⟨chunknum, buf⟩
  else some s

/-- Hash and address of every chunk, from position `p` on. -/
def packChunks : Bytes → ℕ → List Client.FingerChunk → Option (Bytes × ℕ)
  | buf, p, [] => some (buf, p)
  | buf, p, fc :: fcs =>
    (store buf p fc.chunk_hash.toList).bind fun buf =>
      (store buf (p + 20) fc.chunkaddress.toList).bind fun buf => packChunks buf (p + 84) fcs

/-- The recipe message of a new file. `sizeof(buf)` is the size of a pointer. -/
def packRecipe (s : Packer) (f : File) : Option (Packer × Bytes) :=
  (s.reserve f.chunknum).bind fun s =>
    (store s.buf 0 (List.replicate 8 0)).bind fun buf =>
      (store buf 0 f.file_hash.toList).bind fun buf =>
        (packChunks buf 20 f.chunks).map fun (buf, p) =>
          ({ s with buf := buf }, readAt buf 0 p)

/-- What `update_recipe_module` of the server keeps, with the size of its buffer. -/
structure Unpacker where
  capacity : ℕ
  locals : Server.Locals

def Unpacker.init : Unpacker := ⟨0, .init⟩

/-- The size of the buffer for a file of `chunknum` chunks. -/
def Unpacker.reserve (u : Unpacker) (chunknum : ℤ) : Option ℕ :=
  if chunknum > u.locals.last_chunknum then
    if bufferSize chunknum < 0 then none else some (bufferSize chunknum).toNat
  else some u.capacity

/-- The recipe of a new file from its two messages. The message and its NUL, and the
records that are read, have to lie in the buffer. -/
def unpackRecipe (u : Unpacker) (attr msg : Bytes) (rp : Server.Recipe) :
    Option (Unpacker × Server.Recipe) :=
  let (_, locals, rp) := Server.scanAttr (.whole attr) u.locals rp
  (u.reserve locals.chunknum).bind fun capacity =>
    if msg.length + 1 ≤ capacity ∧ 20 + 84 * locals.chunknum.toNat ≤ capacity then
      let (_, locals, rp) := Server.takeRecipe (.whole msg) true locals rp
      some (⟨capacity, locals⟩, rp)
    else none

/-- The recipe that the server has made for the hash of the file. -/
def newRecipe (f : File) : Server.Recipe := { Server.recipeNew f.file_hash with is_new := .newFile }

/-- `UPDATEATTR` for a file. -/
def attrOf (f : File) : Bytes := updateAttrMsg f.chunknum f.file_path

/-- The recipes that the pipelined server rebuilds. -/
def pipelined : Packer → Unpacker → List File → Option (List Server.Recipe)
  | _, _, [] => some []
  | s, u, f :: fs =>
    (packRecipe s f).bind fun (s, msg) =>
      (unpackRecipe u (attrOf f) msg (newRecipe f)).bind fun (u, rp) =>
        (pipelined s u fs).map fun rps => rp :: rps

-- ════════════════════════════════════════════════════════════════════════
-- The plain drivers
-- ════════════════════════════════════════════════════════════════════════

/-- The message of a chunk in `update_file_recipe`. -/
def packChunk (fc : Client.FingerChunk) : Option Bytes :=
  (store (List.replicate 85 0) 0 fc.chunk_hash.toList).bind fun buf =>
    (store buf 20 fc.chunkaddress.toList).map fun buf => readAt buf 0 84

/-- What one `bnet_recv` after the other meets. -/
def deliveries (msgs : List Bytes) (i : ℕ) : Delivery := (msgs[i]?).elim .error .whole

/-- The recipe of a new file from `UPDATEATTR` and the messages of its chunks, each of
which goes with its NUL into a buffer of 85 bytes. -/
def unpackChunks (locals : Server.Locals) (attr : Bytes) (msgs : List Bytes) (rp : Server.Recipe) :
    Option (Server.Locals × Server.Recipe) :=
  let (_, locals, rp) := Server.scanAttr (.whole attr) locals rp
  if ∀ msg ∈ msgs, msg.length + 1 ≤ 85 then
    some (locals, (Server.recvDeplicateChunk (deliveries msgs) 0 locals.chunknum.toNat rp).2)
  else none

/-- The recipes that the plain server rebuilds. -/
def plain : Server.Locals → List File → Option (List Server.Recipe)
  | _, [] => some []
  | locals, f :: fs =>
    (f.chunks.mapM packChunk).bind fun msgs =>
      (unpackChunks locals (attrOf f) msgs (newRecipe f)).bind fun (locals, rp) =>
        (plain locals fs).map fun rps => rp :: rps

/-- A chunk as the server names it. -/
def serverChunk (fc : Client.FingerChunk) : Server.FingerChunk := ⟨fc.chunk_hash, fc.chunkaddress⟩

/-- Both servers rebuild the chunk list of every file, and no access leaves a buffer. -/
def Transported (fs : List File) : Prop :=
  (pipelined .init .init fs).map (List.map (·.chunks)) =
      some (fs.map fun f => f.chunks.map serverChunk) ∧
    (plain .init fs).map (List.map (·.chunks)) = some (fs.map fun f => f.chunks.map serverChunk)

/-- The number of chunks up to which all sizes fit an `int`. -/
def maxChunks : ℕ := 25565281

/-- A file with these bytes has no more chunks than that. -/
def FitsRecipe (bytes : Bytes) : Prop := ∀ rabin, (Client.chunkFile rabin bytes).1.length ≤ maxChunks

-- ════════════════════════════════════════════════════════════════════════
-- Sizes and stores
-- ════════════════════════════════════════════════════════════════════════

theorem int32_chunknum {n : ℕ} (h : n ≤ maxChunks) : int32 n = n := by
  rw [maxChunks] at h
  exact int32_eq (by omega) (by omega)

theorem FitsRecipe.fitsChunknum {bytes : Bytes} (h : FitsRecipe bytes) : Client.FitsChunknum bytes :=
  fun rabin => (h rabin).trans_lt (by decide)

theorem bufferSize_eq {n : ℕ} (h : n ≤ maxChunks) : bufferSize n = 21 + 84 * n := by
  rw [maxChunks] at h
  have hmul : int32 ((n : ℤ) * 84) = n * 84 := int32_eq (by omega) (by omega)
  have hadd : int32 (20 + (n : ℤ) * 84) = 20 + n * 84 := int32_eq (by omega) (by omega)
  rw [bufferSize, hmul, hadd, int32_eq (by omega) (by omega)]
  omega

theorem store_some {buf : Bytes} {p : ℕ} {d : Bytes} (h : p + d.length ≤ buf.length) :
    store buf p d = some (writeAt buf p d) := if_pos h

theorem length_of_store {buf buf' : Bytes} {p : ℕ} {d : Bytes} (h : store buf p d = some buf') :
    buf'.length = buf.length ∧ p + d.length ≤ buf.length := by
  rw [store] at h
  split at h
  · next hle =>
    cases Option.some.inj h
    rw [length_writeAt]
    exact ⟨by omega, hle⟩
  · simp at h

theorem length_of_zrealloc {buf buf' : Bytes} {size : ℤ} (h : zrealloc buf size = some buf') :
    (buf'.length : ℤ) = size := by
  rw [zrealloc] at h
  split at h
  · simp at h
  · cases Option.some.inj h
    simp only [List.length_append, List.length_take, List.length_replicate]
    omega

theorem length_of_reserve {s s' : Packer} {chunknum : ℤ} (h : s.reserve chunknum = some s')
    (hs : s.buf.length < 2 ^ 31) : s'.buf.length < 2 ^ 31 := by
  rw [Packer.reserve] at h
  split at h
  · obtain ⟨buf, hbuf, rfl⟩ := Option.map_eq_some_iff.mp h
    have hlen := length_of_zrealloc hbuf
    have hlt := int32_lt (int32 (20 + int32 (chunknum * 84)) + 1)
    rw [← bufferSize] at hlt
    dsimp only
    omega
  · cases Option.some.inj h
    exact hs

theorem length_of_packChunks {fcs : List Client.FingerChunk} {buf buf' : Bytes} {p p' : ℕ}
    (h : packChunks buf p fcs = some (buf', p')) (hp : p ≤ buf.length) :
    buf'.length = buf.length ∧ p + 84 * fcs.length ≤ buf.length := by
  induction fcs generalizing buf p with
  | nil =>
    obtain ⟨rfl, rfl⟩ := Prod.mk.inj (Option.some.inj h)
    exact ⟨rfl, by simpa using hp⟩
  | cons fc fcs ih =>
    obtain ⟨b, hb, h⟩ := Option.bind_eq_some_iff.mp h
    obtain ⟨b', hb', h⟩ := Option.bind_eq_some_iff.mp h
    obtain ⟨hlen, -⟩ := length_of_store hb
    obtain ⟨hlen', hle⟩ := length_of_store hb'
    rw [List.Vector.toList_length] at hle
    obtain ⟨hlast, hfits⟩ := ih h (by omega)
    rw [List.length_cons]
    exact ⟨by omega, by omega⟩

/-- A recipe that is packed fits the buffer, whose size is an `int`. -/
theorem length_of_packRecipe {s s' : Packer} {f : File} {msg : Bytes}
    (h : packRecipe s f = some (s', msg)) (hs : s.buf.length < 2 ^ 31) :
    s'.buf.length < 2 ^ 31 ∧ f.chunks.length ≤ maxChunks := by
  obtain ⟨t, ht, h⟩ := Option.bind_eq_some_iff.mp h
  obtain ⟨b, hb, h⟩ := Option.bind_eq_some_iff.mp h
  obtain ⟨b', hb', h⟩ := Option.bind_eq_some_iff.mp h
  obtain ⟨⟨buf, p⟩, hpack, heq⟩ := Option.map_eq_some_iff.mp h
  obtain ⟨rfl, -⟩ := Prod.mk.inj heq
  have ht' := length_of_reserve ht hs
  obtain ⟨hlen, -⟩ := length_of_store hb
  obtain ⟨hlen', hle⟩ := length_of_store hb'
  rw [List.Vector.toList_length] at hle
  obtain ⟨hlast, hfits⟩ := length_of_packChunks hpack (by omega)
  refine ⟨by dsimp only; omega, ?_⟩
  rw [maxChunks]
  omega

/-- A file with too many chunks does not get through. -/
theorem pipelined_none {fs : List File} {f : File} (hf : f ∈ fs)
    (hlong : maxChunks < f.chunks.length) {s : Packer} {u : Unpacker}
    (hs : s.buf.length < 2 ^ 31) : pipelined s u fs = none := by
  induction fs generalizing s u with
  | nil => simp at hf
  | cons g fs ih =>
    rw [pipelined, Option.bind_eq_none_iff]
    rintro ⟨t, msg⟩ hpack
    obtain ⟨ht, hshort⟩ := length_of_packRecipe hpack hs
    have hmem : f ∈ fs := by
      rcases List.mem_cons.mp hf with rfl | hmem
      · exact absurd hlong (Nat.not_lt_of_le hshort)
      · exact hmem
    rw [Option.bind_eq_none_iff]
    rintro ⟨u', rp⟩ -
    dsimp only
    rw [ih hmem ht, Option.map_none]

-- ════════════════════════════════════════════════════════════════════════
-- Packing and unpacking
-- ════════════════════════════════════════════════════════════════════════

/-- Hash and address of the chunks of a file. -/
def chunkBytes (fcs : List Client.FingerChunk) : Bytes :=
  fcs.flatMap fun fc => fc.chunk_hash.toList ++ fc.chunkaddress.toList

theorem chunkBytes_eq (fcs : List Client.FingerChunk) :
    chunkBytes fcs = (fcs.map serverChunk).flatMap Server.FingerChunk.bytes := by
  rw [chunkBytes, List.flatMap_map]
  rfl

theorem length_chunkBytes (fcs : List Client.FingerChunk) :
    (chunkBytes fcs).length = 84 * fcs.length := by
  rw [chunkBytes_eq, length_flatMap_enc Server.FingerChunk.length_bytes, List.length_map]

theorem packChunks_eq {fcs : List Client.FingerChunk} {buf : Bytes} {p : ℕ}
    (h : p + 84 * fcs.length ≤ buf.length) :
    packChunks buf p fcs = some (writeAt buf p (chunkBytes fcs), p + 84 * fcs.length) := by
  induction fcs generalizing buf p with
  | nil =>
    have hnil : writeAt buf p [] = buf := by
      rw [List.length_nil] at h
      simp [writeAt, Nat.sub_eq_zero_of_le (show p ≤ buf.length by omega)]
    rw [packChunks, chunkBytes, List.flatMap_nil, hnil]
    rfl
  | cons fc fcs ih =>
    rw [List.length_cons] at h
    have hhash : fc.chunk_hash.toList.length = 20 := fc.chunk_hash.toList_length
    have haddr : fc.chunkaddress.toList.length = 64 := fc.chunkaddress.toList_length
    have hwrite : writeAt (writeAt buf p fc.chunk_hash.toList) (p + 20) fc.chunkaddress.toList =
        writeAt buf p (fc.chunk_hash.toList ++ fc.chunkaddress.toList) := by
      rw [← writeAt_writeAt, hhash]
    have hlen : (fc.chunk_hash.toList ++ fc.chunkaddress.toList).length = 84 := by
      rw [List.length_append, hhash, haddr]
    rw [packChunks, store_some (by omega), Option.bind_some,
      store_some (by rw [length_writeAt]; omega), Option.bind_some, hwrite,
      ih (by rw [length_writeAt]; omega)]
    have htail : writeAt (writeAt buf p (fc.chunk_hash.toList ++ fc.chunkaddress.toList)) (p + 84)
        (chunkBytes fcs) = writeAt buf p (chunkBytes (fc :: fcs)) := by
      rw [← hlen, writeAt_writeAt]
      rfl
    rw [htail, List.length_cons, Nat.mul_succ]
    congr 2
    omega

/-- The buffer has room for the longest recipe so far. -/
structure Packer.Ok (s : Packer) : Prop where
  low : -1 ≤ s.last_chunknum
  high : s.last_chunknum ≤ maxChunks
  room : 0 ≤ s.last_chunknum → (s.buf.length : ℤ) = 21 + 84 * s.last_chunknum

theorem Packer.Ok.reserve {s : Packer} (h : s.Ok) {n : ℕ} (hn : n ≤ maxChunks) :
    ∃ s', s.reserve n = some s' ∧ s'.Ok ∧ s'.last_chunknum = max s.last_chunknum n := by
  rw [Packer.reserve, bufferSize_eq hn]
  split
  · next hgt =>
    have hbuf : zrealloc s.buf (21 + 84 * n) = some (s.buf.take (21 + 84 * n : ℤ).toNat ++
        List.replicate ((21 + 84 * n : ℤ).toNat - s.buf.length) 0) := if_neg (by omega)
    have hlen := length_of_zrealloc hbuf
    rw [hbuf]
    refine ⟨_, rfl, ⟨?_, ?_, fun _ => hlen⟩, (max_eq_right hgt.le).symm⟩
    · dsimp only
      omega
    · dsimp only
      omega
  · next hle => exact ⟨s, rfl, h, (max_eq_left (not_lt.mp hle)).symm⟩

theorem packRecipe_eq {s : Packer} (h : s.Ok) {f : File} (hf : f.chunks.length ≤ maxChunks) :
    ∃ s', packRecipe s f = some (s', Client.recipeMsg f) ∧ s'.Ok ∧
      s'.last_chunknum = max s.last_chunknum f.chunks.length := by
  obtain ⟨t, hreserve, ht, hlast⟩ := h.reserve hf
  have hlen := ht.room (by omega)
  have hroom : 21 + 84 * f.chunks.length ≤ t.buf.length := by omega
  have hhash : f.file_hash.toList.length = 20 := f.file_hash.toList_length
  have hmsg : Client.recipeMsg f = f.file_hash.toList ++ chunkBytes f.chunks := rfl
  have hmsgLen : (Client.recipeMsg f).length = 20 + 84 * f.chunks.length := by
    rw [hmsg, List.length_append, hhash, length_chunkBytes]
  let buf := writeAt t.buf 0 (List.replicate 8 0)
  have hbuf : buf.length = t.buf.length := by
    rw [length_writeAt]
    simp
    omega
  have hpack : packChunks (writeAt buf 0 f.file_hash.toList) 20 f.chunks =
      some (writeAt buf 0 (Client.recipeMsg f), 20 + 84 * f.chunks.length) := by
    have hwrite := writeAt_writeAt buf 0 f.file_hash.toList (chunkBytes f.chunks)
    rw [hhash, Nat.zero_add] at hwrite
    rw [packChunks_eq (by rw [length_writeAt]; omega), hwrite, hmsg]
  have hread : readAt (writeAt buf 0 (Client.recipeMsg f)) 0 (20 + 84 * f.chunks.length) =
      Client.recipeMsg f := by
    rw [← hmsgLen]
    exact readAt_writeAt_self buf 0 _
  refine ⟨{ t with buf := writeAt buf 0 (Client.recipeMsg f) }, ?_, ⟨ht.low, ht.high, ?_⟩, hlast⟩
  · rw [packRecipe, Client.FileInfo.chunknum, int32_chunknum hf, hreserve, Option.bind_some,
      store_some (by simp; omega), Option.bind_some, store_some (by rw [hhash, hbuf]; omega),
      Option.bind_some, hpack, Option.map_some]
    dsimp only
    rw [hread]
  · intro hpos
    rw [length_writeAt, hmsgLen]
    have := ht.room hpos
    dsimp only at hpos ⊢
    omega

/-- The buffer of the server has room for the longest recipe so far. -/
structure Unpacker.Ok (u : Unpacker) (s : Packer) : Prop where
  last : u.locals.last_chunknum = s.last_chunknum
  room : 0 ≤ s.last_chunknum → (u.capacity : ℤ) = 21 + 84 * s.last_chunknum

theorem Unpacker.Ok.reserve {u : Unpacker} {s : Packer} (h : u.Ok s) {n : ℕ} (hn : n ≤ maxChunks) :
    ∃ capacity : ℕ, u.reserve n = some capacity ∧ (capacity : ℤ) = 21 + 84 * max s.last_chunknum n := by
  rw [Unpacker.reserve, bufferSize_eq hn, h.last]
  split
  · next hgt =>
    rw [if_neg (by omega), max_eq_right hgt.le]
    exact ⟨_, rfl, by omega⟩
  · next hle =>
    have hroom := h.room (by omega)
    rw [max_eq_left (not_lt.mp hle)]
    exact ⟨_, rfl, hroom⟩

/-- The number of chunks is scanned as printed, whatever the path. -/
theorem scanAttr_attrOf (l : Server.Locals) (rp : Server.Recipe) {f : File}
    (hf : f.chunks.length ≤ maxChunks) :
    ∃ ok filename hash, Server.scanAttr (.whole (attrOf f)) l rp =
      (ok, { l with chunknum := f.chunks.length }, { rp with filename := filename, file_hash := hash }) := by
  have hzero : ∀ c ∈ attrCommand ++ 32 :: (attrChunknum ++ (intNumeral f.chunks.length ++
      32 :: attrFilepath)), decide (c ≠ 0) = true := by
    intro c hc
    simp only [ne_eq, decide_eq_true_eq]
    rintro rfl
    have hnum := zero_notMem_intNumeral (f.chunks.length : ℤ)
    simp [attrCommand, attrChunknum, attrFilepath, hnum] at hc
  have hstring : cstring ((Delivery.whole (attrOf f)).into []) =
      updateAttrMsg f.chunks.length (cstring (f.file_path ++ [0])) := by
    have happend := @List.takeWhile_append_of_pos _ _ _ (f.file_path ++ [0]) hzero
    rw [attrOf, Client.FileInfo.chunknum, int32_chunknum hf, cstring, Delivery.whole, Delivery.into,
      writeAt_nil]
    simpa [updateAttrMsg, cstring] using happend
  have hcount : Server.storedInt (f.chunks.length : ℤ) = f.chunks.length := by
    rw [maxChunks] at hf
    exact Server.storedInt_eq (by omega) (by omega)
  rw [Server.scanAttr, hstring, scanUpdateAttr_chunknum]
  dsimp only [Option.map_some, Option.getD_some]
  rw [hcount]
  cases scanWord (cstring (f.file_path ++ [0])) with
  | none => exact ⟨_, rp.filename, rp.file_hash, rfl⟩
  | some filename => exact ⟨_, _, _, rfl⟩

/-- The recipe is rebuilt from the message, whatever the buffer held before. -/
theorem unpackRecipe_eq {u : Unpacker} {s : Packer} (h : u.Ok s) {f : File}
    (hf : f.chunks.length ≤ maxChunks) :
    ∃ u' rp, unpackRecipe u (attrOf f) (Client.recipeMsg f) (newRecipe f) = some (u', rp) ∧
      rp.chunks = f.chunks.map serverChunk ∧
      u'.locals.last_chunknum = max s.last_chunknum f.chunks.length ∧
      (u'.capacity : ℤ) = 21 + 84 * max s.last_chunknum f.chunks.length := by
  obtain ⟨ok, filename, hash, hscan⟩ := scanAttr_attrOf u.locals (newRecipe f) hf
  obtain ⟨capacity, hreserve, hcapacity⟩ := h.reserve hf
  have hreserve' : Unpacker.reserve u (f.chunks.length : ℤ) = some capacity := hreserve
  have hhash : f.file_hash.toList.length = 20 := f.file_hash.toList_length
  have hmsg : Client.recipeMsg f = f.file_hash.toList ++ chunkBytes f.chunks := rfl
  have hmsgLen : (Client.recipeMsg f).length = 20 + 84 * f.chunks.length := by
    rw [hmsg, List.length_append, hhash, length_chunkBytes]
  let buf := (Delivery.whole (Client.recipeMsg f)).into u.locals.buf
  have hread : readAt buf 20 (84 * (f.chunks.map serverChunk).length) =
      (f.chunks.map serverChunk).flatMap Server.FingerChunk.bytes := by
    have hinside : 20 + 84 * f.chunks.length ≤ (Client.recipeMsg f ++ [0]).length := by
      rw [List.length_append, hmsgLen]
      exact Nat.le_add_right _ _
    have hbuf := @readAt_writeAt_inside u.locals.buf _ 0 _ _ hinside
    rw [Nat.zero_add] at hbuf
    have hskip : 20 = f.file_hash.toList.length + 0 := by rw [hhash]
    rw [List.length_map]
    refine hbuf.trans ?_
    rw [hmsg, List.append_assoc, readAt_skip hskip, ← chunkBytes_eq]
    exact readAt_front (length_chunkBytes f.chunks)
  have hrecords := readRecords_of_readAt Server.FingerChunk.length_bytes
    Server.fingerChunkOf_bytes hread
  rw [List.length_map] at hrecords
  have htake : ∃ ok', Server.takeRecipe (.whole (Client.recipeMsg f)) true
      { u.locals with chunknum := f.chunks.length }
      { newRecipe f with filename := filename, file_hash := hash } =
      (ok', ⟨f.chunks.length, max u.locals.last_chunknum f.chunks.length, buf⟩,
        { newRecipe f with filename := filename, file_hash := hash, chunks := f.chunks.map serverChunk }) := by
    rw [Server.takeRecipe]
    dsimp only
    rw [Int.toNat_natCast, hrecords, Server.foldl_recipeAppendFingerchunk]
    exact ⟨_, rfl⟩
  obtain ⟨ok', htake⟩ := htake
  refine ⟨⟨capacity, ⟨f.chunks.length, max u.locals.last_chunknum f.chunks.length, buf⟩⟩,
    { newRecipe f with filename := filename, file_hash := hash, chunks := f.chunks.map serverChunk }, ?_,
    rfl, ?_,
    hcapacity⟩
  · rw [unpackRecipe, hscan]
    dsimp only
    rw [hreserve', Option.bind_some, if_pos, htake]
    rw [hmsgLen, Int.toNat_natCast]
    constructor <;> omega
  · dsimp only
    rw [h.last]

theorem pipelined_eq {fs : List File} (hfs : ∀ f ∈ fs, f.chunks.length ≤ maxChunks) {s : Packer}
    {u : Unpacker} (hs : s.Ok) (hu : u.Ok s) :
    (pipelined s u fs).map (List.map (·.chunks)) =
      some (fs.map fun f => f.chunks.map serverChunk) := by
  induction fs generalizing s u with
  | nil => rfl
  | cons f fs ih =>
    have hf := hfs f (by simp)
    obtain ⟨s', hpack, hs', hlast⟩ := packRecipe_eq hs hf
    obtain ⟨u', rp, hunpack, hchunks, hlast', hcapacity⟩ := unpackRecipe_eq hu hf
    have hu' : u'.Ok s' := ⟨by rw [hlast', hlast], fun _ => by rw [hcapacity, hlast]⟩
    have hrest := ih (fun g hg => hfs g (List.mem_cons_of_mem _ hg)) hs' hu'
    obtain ⟨rps, hrps, heq⟩ := Option.map_eq_some_iff.mp hrest
    rw [pipelined, hpack, Option.bind_some]
    dsimp only
    rw [hunpack, Option.bind_some]
    dsimp only
    rw [hrps, Option.map_some, Option.map_some, List.map_cons, heq, hchunks, List.map_cons]

-- ════════════════════════════════════════════════════════════════════════
-- One message for each chunk
-- ════════════════════════════════════════════════════════════════════════

theorem packChunk_eq (fc : Client.FingerChunk) : packChunk fc = some (serverChunk fc).bytes := by
  have hhash : fc.chunk_hash.toList.length = 20 := fc.chunk_hash.toList_length
  have haddr : fc.chunkaddress.toList.length = 64 := fc.chunkaddress.toList_length
  have hbytes : fc.chunk_hash.toList ++ fc.chunkaddress.toList = (serverChunk fc).bytes := rfl
  have hlen : (List.replicate 85 (0 : UInt8)).length = 85 := List.length_replicate
  have hwrite := writeAt_writeAt (List.replicate 85 0) 0 fc.chunk_hash.toList fc.chunkaddress.toList
  rw [hhash, Nat.zero_add, hbytes] at hwrite
  have hread := readAt_writeAt_self (List.replicate 85 0) 0 (serverChunk fc).bytes
  rw [Server.FingerChunk.length_bytes] at hread
  rw [packChunk, store_some (by rw [hhash, hlen]; decide), Option.bind_some,
    store_some (by rw [haddr, length_writeAt, hlen, hhash]; decide), Option.map_some, hwrite, hread]

theorem mapM_packChunk (fcs : List Client.FingerChunk) :
    fcs.mapM packChunk = some (fcs.map fun fc => (serverChunk fc).bytes) := by
  induction fcs with
  | nil => rfl
  | cons fc fcs ih => simp [packChunk_eq, ih]

theorem fingerChunkOf_into (fc : Server.FingerChunk) :
    Server.fingerChunkOf ((Delivery.whole fc.bytes).into []) = fc := by
  have hinto : (Delivery.whole fc.bytes).into [] = fc.bytes ++ [0] := writeAt_nil _
  have hlen := Server.FingerChunk.length_bytes fc
  have h1 : readAt (fc.bytes ++ [0]) 0 20 = readAt fc.bytes 0 20 := readAt_append_left (by omega)
  have h2 : readAt (fc.bytes ++ [0]) 20 64 = readAt fc.bytes 20 64 := readAt_append_left (by omega)
  have hof := Server.fingerChunkOf_bytes fc
  rw [Server.fingerChunkOf] at hof
  rw [hinto, Server.fingerChunkOf, h1, h2, hof]

/-- The chunks are appended in the order of their messages. -/
theorem recvDeplicateChunk_eq {next : ℕ → Delivery} {fcs : List Server.FingerChunk} {i : ℕ}
    {rp : Server.Recipe} (h : ∀ j fc, fcs[j]? = some fc → next (i + j) = .whole fc.bytes) :
    (Server.recvDeplicateChunk next i fcs.length rp).2.chunks = rp.chunks ++ fcs := by
  induction fcs generalizing i rp with
  | nil => simp [Server.recvDeplicateChunk]
  | cons fc fcs ih =>
    have hfirst : next i = .whole fc.bytes := h 0 fc rfl
    have hret : (Delivery.whole fc.bytes).ret ≠ 0 := by
      simp [Delivery.whole, Delivery.ret]
    have hrest : ∀ j fc', fcs[j]? = some fc' → next (i + 1 + j) = .whole fc'.bytes := by
      intro j fc' hj
      have hnext := h (j + 1) fc' hj
      rwa [← Nat.add_assoc, Nat.add_right_comm] at hnext
    rw [List.length_cons, Server.recvDeplicateChunk, hfirst, if_neg hret, ih hrest,
      fingerChunkOf_into, Server.recipeAppendFingerchunk, List.append_assoc, List.singleton_append]

theorem unpackChunks_eq (locals : Server.Locals) {f : File} (hf : f.chunks.length ≤ maxChunks) :
    ∃ locals' rp, unpackChunks locals (attrOf f) (f.chunks.map fun fc => (serverChunk fc).bytes)
        (newRecipe f) = some (locals', rp) ∧ rp.chunks = f.chunks.map serverChunk := by
  obtain ⟨ok, filename, hash, hscan⟩ := scanAttr_attrOf locals (newRecipe f) hf
  have hlen : ∀ msg ∈ f.chunks.map (fun fc => (serverChunk fc).bytes), msg.length + 1 ≤ 85 := by
    intro msg hmsg
    obtain ⟨fc, -, rfl⟩ := List.mem_map.mp hmsg
    rw [Server.FingerChunk.length_bytes]
  have hnext : ∀ j fc, (f.chunks.map serverChunk)[j]? = some fc →
      deliveries (f.chunks.map fun fc => (serverChunk fc).bytes) (0 + j) = .whole fc.bytes := by
    intro j fc hj
    rw [List.getElem?_map] at hj
    obtain ⟨fc', hfc', rfl⟩ := Option.map_eq_some_iff.mp hj
    rw [deliveries, Nat.zero_add, List.getElem?_map, hfc']
    rfl
  let rp := { newRecipe f with filename := filename, file_hash := hash }
  have hchunks : (Server.recvDeplicateChunk _ 0 _ rp).2.chunks = rp.chunks ++ _ :=
    recvDeplicateChunk_eq hnext
  rw [List.length_map] at hchunks
  have hunpack : unpackChunks locals (attrOf f)
      (f.chunks.map fun fc => (serverChunk fc).bytes) (newRecipe f) =
      some ({ locals with chunknum := f.chunks.length }, (Server.recvDeplicateChunk
        (deliveries (f.chunks.map fun fc => (serverChunk fc).bytes)) 0 f.chunks.length rp).2) := by
    rw [unpackChunks, hscan]
    dsimp only
    rw [if_pos hlen, Int.toNat_natCast]
  exact ⟨_, _, hunpack, hchunks⟩

theorem plain_eq {fs : List File} (hfs : ∀ f ∈ fs, f.chunks.length ≤ maxChunks)
    (locals : Server.Locals) :
    (plain locals fs).map (List.map (·.chunks)) = some (fs.map fun f => f.chunks.map serverChunk) := by
  induction fs generalizing locals with
  | nil => rfl
  | cons f fs ih =>
    obtain ⟨locals', rp, hunpack, hchunks⟩ := unpackChunks_eq locals (hfs f (by simp))
    have hrest := ih (fun g hg => hfs g (List.mem_cons_of_mem _ hg)) locals'
    obtain ⟨rps, hrps, heq⟩ := Option.map_eq_some_iff.mp hrest
    rw [plain, mapM_packChunk, Option.bind_some, hunpack, Option.bind_some]
    dsimp only
    rw [hrps, Option.map_some, Option.map_some, List.map_cons, heq, hchunks, List.map_cons]

-- ════════════════════════════════════════════════════════════════════════
-- Transport
-- ════════════════════════════════════════════════════════════════════════

theorem transported_short {fs : List File} (hfs : ∀ f ∈ fs, f.chunks.length ≤ maxChunks) :
    Transported fs := by
  refine ⟨pipelined_eq hfs ⟨le_refl _, ?_, ?_⟩ ⟨rfl, ?_⟩, plain_eq hfs _⟩
  · simp [Packer.init, maxChunks]
  · intro h
    simp [Packer.init] at h
  · intro h
    simp [Packer.init] at h

theorem not_transported_long {fs : List File} {f : File} (hf : f ∈ fs)
    (hlong : maxChunks < f.chunks.length) : ¬Transported fs := by
  rintro ⟨hpipelined, -⟩
  have hroom : Packer.init.buf.length < 2 ^ 31 := by simp [Packer.init]
  rw [pipelined_none hf hlong hroom, Option.map_none] at hpipelined
  exact absurd hpipelined (by simp)

/-- Recipes get through exactly when no file has more than `maxChunks` chunks. -/
theorem transported_iff_short (fs : List File) :
    Transported fs ↔ ∀ f ∈ fs, f.chunks.length ≤ maxChunks := by
  constructor
  · intro h f hf
    by_contra hlong
    exact not_transported_long hf (not_le.mp hlong) h
  · exact transported_short

/-- A file of 200 GB in chunks of 8 KB. -/
def longFile : File :=
  { (Client.fileNew : File) with chunks := List.replicate (maxChunks + 1) Client.fingerchunkNew }

theorem long_file_not_transported : ¬ ∀ fs, Transported fs := by
  intro h
  have hlen : longFile.chunks.length = maxChunks + 1 := List.length_replicate
  exact not_transported_long (List.mem_singleton.mpr rfl) (by rw [hlen]; exact Nat.lt_succ_self _)
    (h [longFile])

end TCBackup.Pipeline.RecipeTransport
