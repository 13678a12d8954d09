import TCBackup.Global

/-!
# Recipes and the recipe volume (`server/src/recipe.c`)

A recipe is the list of chunks of one file. All recipes are appended to one
volume, whose 16-byte header holds a magic key, the number of recipes and the
length of the volume.

## Main definitions

- `Recipe`, `recipeAppendFingerchunk` — recipes in memory
- `Volume` — the file `recipe` together with the `rv` of the process
- `recipeVolumeInit`, `recipeVolumeFlush` — opening and closing
- `writeRecipeToVol`, `readRecipeFromVol` — the two recipe operations
-/

namespace TCBackup.Server

open ByteFile

structure FingerChunk where
  chunk_hash : Fingerprint
  chunk_address : Chunkaddress
  deriving DecidableEq

structure Recipe where
  filename : Bytes
  file_hash : Fingerprint
  is_new : FileStatus
  chunks : List FingerChunk
  deriving DecidableEq

/-- `chunknum` counts the appended chunks. -/
def Recipe.chunknum (rp : Recipe) : ℕ := rp.chunks.length

/-- `recipe_new` followed by setting the file hash. -/
def recipeNew (hash : Fingerprint) : Recipe := ⟨[], hash, .unset, []⟩

def recipeAppendFingerchunk (rp : Recipe) (fc : FingerChunk) : Recipe :=
  { rp with chunks := rp.chunks ++ [fc] }

/-- A chunk as it is written to the volume and to the sockets. -/
def FingerChunk.bytes (fc : FingerChunk) : Bytes :=
  fc.chunk_hash.toList ++ fc.chunk_address.toList

def fingerChunkOf (b : Bytes) : FingerChunk :=
  ⟨fixed 20 (readAt b 0 20), fixed 64 (readAt b 20 64)⟩

@[simp] theorem FingerChunk.length_bytes (fc : FingerChunk) : fc.bytes.length = 84 := by
  simp [FingerChunk.bytes]

@[simp] theorem fingerChunkOf_bytes (fc : FingerChunk) : fingerChunkOf fc.bytes = fc := by
  have h1 : readAt fc.bytes 0 20 = fc.chunk_hash.toList :=
    readAt_front fc.chunk_hash.toList_length
  have h2 : readAt fc.bytes 20 64 = fc.chunk_address.toList := by
    rw [FingerChunk.bytes, readAt_skip (k := 0) (by simp), readAt_vector]
  rw [fingerChunkOf, h1, h2, fixed_toList, fixed_toList]

/-- `rv`: the counters and whether `rv->mutex` is held. -/
structure RecipeVolume where
  file_num : ℤ
  volume_length : ℕ
  mutex : Bool
  deriving DecidableEq

/-- The file `recipe` and the process's view of it. -/
structure Volume where
  file : Bytes
  rv : RecipeVolume
  deriving DecidableEq

/-- Results of the system calls of one volume operation: whether `open`
succeeds, and how many bytes the `i`-th `write` stores. -/
structure VolIO where
  opened : Bool
  wrote : ℕ → ℕ

/-- No failure: every write, of at most 64 bytes, is complete. -/
def VolIO.ok : VolIO := ⟨true, fun _ => 64⟩

/-- `recipe_volume_head_size`. -/
def recipeVolumeHeadSize : ℕ := 16

def volumeHeader (rv : RecipeVolume) : Bytes :=
  magicKey ++ intBytes 4 rv.file_num ++ intBytes 8 rv.volume_length

/-- `recipe_volume_init`: read the header, or write one into a new volume. -/
def recipeVolumeInit (file : Bytes) : Volume :=
  if readAt file 0 4 = magicKey then
    ⟨file, intOf (readAt file 4 4), (intOf (readAt file 8 8)).toNat, false⟩
  else
    let rv := ⟨0, recipeVolumeHeadSize, false⟩
    ⟨writeAt file 0 (volumeHeader rv), rv⟩

/-- `recipe_volume_flush`; `none` when it waits for the mutex for ever. A
failed `open` returns with the mutex held. -/
def recipeVolumeFlush (opened : Bool) (v : Volume) : Option (Bool × Volume) :=
  if v.rv.mutex then none
  else if opened then some (true, { v with file := writeAt v.file 0 (volumeHeader v.rv) })
  else some (false, { v with rv := { v.rv with mutex := true } })

/-- Successive writes from position `pos`, the `i`-th one storing at most
`wrote i` bytes; the file position follows what was stored. -/
def runWrites (wrote : ℕ → ℕ) : ℕ → ℕ → List Bytes → Bytes → Bytes
  | _, _, [], f => f
  | i, pos, d :: ds, f =>
    runWrites wrote (i + 1) (pos + (d.take (wrote i)).length) ds (writeAt f pos (d.take (wrote i)))

/-- The `write` calls of `write_recipe_to_vol`: the low four bytes of
`chunknum`, then hash and address of every chunk. -/
def recipeWrites (rp : Recipe) : List Bytes :=
  leBytes 4 rp.chunknum ::
    rp.chunks.flatMap fun fc => [fc.chunk_hash.toList, fc.chunk_address.toList]

/-- `write_recipe_to_vol`: the offset it stores, or `none` when it returns
`false`. The results of `write` are not looked at, and the volume advances by
`sizeof(int64_t)` for a count of four bytes. -/
def writeRecipeToVol (io : VolIO) (rp : Recipe) (v : Volume) : Option (Option ℕ × Volume) :=
  if v.rv.mutex then none
  else if io.opened then
    let offset := v.rv.volume_length
    some (some offset,
      { file := runWrites io.wrote 0 offset (recipeWrites rp) v.file
        rv := { v.rv with
          volume_length := offset + (8 + rp.chunknum * (20 + 64))
          file_num := v.rv.file_num + 1 } })
  else some (none, { v with rv := { v.rv with mutex := true } })

/-- The chunks at `offset`, as far as the stored count goes. -/
def chunksAt (file : Bytes) (offset : ℕ) : List FingerChunk :=
  if (readAt file offset 4).length = 4 then
    readRecords fingerChunkOf 84 file (intOf (readAt file offset 4)).toNat (offset + 4)
  else []

/-- `read_recipe_from_vol` appends what it reads to the recipe. -/
def readRecipeFromVol (opened : Bool) (offset : ℕ) (rp : Recipe) (v : Volume) :
    Option (Option Recipe × Volume) :=
  if v.rv.mutex then none
  else if opened then
    some (some ((chunksAt v.file offset).foldl recipeAppendFingerchunk rp), v)
  else some (none, { v with rv := { v.rv with mutex := true } })

/-- Count and chunks as they lie in the volume. -/
def recipeBytes (chunks : List FingerChunk) : Bytes :=
  leBytes 4 chunks.length ++ chunks.flatMap FingerChunk.bytes

theorem length_recipeBytes (chunks : List FingerChunk) :
    (recipeBytes chunks).length = 4 + 84 * chunks.length := by
  rw [recipeBytes, List.length_append, length_leBytes,
    length_flatMap_enc FingerChunk.length_bytes]

theorem foldl_recipeAppendFingerchunk (l : List FingerChunk) (rp : Recipe) :
    l.foldl recipeAppendFingerchunk rp = { rp with chunks := rp.chunks ++ l } := by
  induction l generalizing rp with
  | nil => simp
  | cons fc l ih => rw [List.foldl_cons, ih]; simp [recipeAppendFingerchunk]

/-- Complete writes are one write of the concatenation. -/
theorem runWrites_full {wrote : ℕ → ℕ} {ds : List Bytes} {i pos : ℕ} {f : Bytes}
    (h : ∀ j d, ds[j]? = some d → d.length ≤ wrote (i + j)) (hpos : pos ≤ f.length ∨ ds ≠ []) :
    runWrites wrote i pos ds f = if ds = [] then f else writeAt f pos ds.flatten := by
  induction ds generalizing i pos f with
  | nil => rfl
  | cons d ds ih =>
    have hd : d.take (wrote i) = d := List.take_of_length_le (by simpa using h 0 d rfl)
    have htail : ∀ j d', ds[j]? = some d' → d'.length ≤ wrote (i + 1 + j) := by
      intro j d' hj
      have := h (j + 1) d' (by simpa using hj)
      rwa [Nat.add_assoc, Nat.add_comm 1 j]
    rw [runWrites, hd, ih htail (Or.inl (by rw [length_writeAt]; omega)),
      if_neg (List.cons_ne_nil d ds)]
    split
    · next he => simp [he]
    · rw [writeAt_writeAt, List.flatten_cons]

theorem flatten_recipeWrites (rp : Recipe) : (recipeWrites rp).flatten = recipeBytes rp.chunks := by
  have h : ∀ l : List FingerChunk,
      (l.flatMap fun fc => [fc.chunk_hash.toList, fc.chunk_address.toList]).flatten =
        l.flatMap FingerChunk.bytes := by
    intro l
    induction l with
    | nil => rfl
    | cons fc l ih => simp [ih, FingerChunk.bytes]
  rw [recipeWrites, List.flatten_cons, h, recipeBytes, Recipe.chunknum]

/-- Every `write` of the recipe is complete. -/
def VolIO.Full (io : VolIO) (rp : Recipe) : Prop :=
  io.opened = true ∧ ∀ j d, (recipeWrites rp)[j]? = some d → d.length ≤ io.wrote j

theorem VolIO.ok_full (rp : Recipe) : VolIO.ok.Full rp := by
  refine ⟨rfl, fun j d hd => ?_⟩
  have hmem := List.mem_of_getElem? hd
  rw [recipeWrites, List.mem_cons, List.mem_flatMap] at hmem
  rcases hmem with rfl | ⟨fc, _, hfc⟩
  · simp [ VolIO.ok]
  · simp only [List.mem_cons, List.not_mem_nil, or_false] at hfc
    rcases hfc with rfl | rfl <;> simp [ VolIO.ok]

/-- A complete write of a recipe, spelled out. -/
theorem writeRecipeToVol_full {io : VolIO} {rp : Recipe} {v : Volume} (hm : v.rv.mutex = false)
    (hio : io.Full rp) :
    writeRecipeToVol io rp v = some (some v.rv.volume_length,
      { file := writeAt v.file v.rv.volume_length (recipeBytes rp.chunks)
        rv := { v.rv with
          volume_length := v.rv.volume_length + (8 + 84 * rp.chunks.length)
          file_num := v.rv.file_num + 1 } }) := by
  have hw : runWrites io.wrote 0 v.rv.volume_length (recipeWrites rp) v.file =
      writeAt v.file v.rv.volume_length (recipeBytes rp.chunks) := by
    rw [runWrites_full (by simpa using hio.2) (Or.inr (by simp [recipeWrites])),
      if_neg (by simp [recipeWrites]), flatten_recipeWrites]
  rw [writeRecipeToVol, hm, hio.1]
  simp only [Bool.false_eq_true, if_false, if_true, hw]
  rw [Recipe.chunknum, Nat.mul_comm]

/-- A stored recipe is read back in order. -/
theorem chunksAt_of_readAt {file : Bytes} {offset : ℕ} {chunks : List FingerChunk}
    (hn : chunks.length < 2 ^ 31)
    (h : readAt file offset (4 + 84 * chunks.length) = recipeBytes chunks) :
    chunksAt file offset = chunks := by
  rw [readAt_add, recipeBytes] at h
  have hlen := congrArg List.length h
  simp only [List.length_append, length_leBytes, length_readAt,
    length_flatMap_enc FingerChunk.length_bytes] at hlen
  obtain ⟨hcount, hchunks⟩ := List.append_inj h (by rw [length_readAt, length_leBytes]; omega)
  have hint : intOf (leBytes 4 chunks.length) = chunks.length := by
    have hb : leBytes 4 chunks.length = intBytes 4 (chunks.length : ℤ) := by
      rw [intBytes]
      congr 1
      omega
    rw [hb]
    exact intOf_intBytes_natCast (by omega)
  rw [chunksAt, hcount, length_leBytes, if_pos rfl, hint, Int.toNat_natCast]
  exact readRecords_of_readAt FingerChunk.length_bytes fingerChunkOf_bytes hchunks

end TCBackup.Server
