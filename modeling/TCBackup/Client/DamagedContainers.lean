import TCBackup.Client.StoreRuns
import TCBackup.Lib.Memory

/-!
# Damaged containers (`client/src/container.c`)

A container file can have any bytes. Its fields say how much `ReadContainer` loads and where
`ReadChunkFromContainer` looks, so a model with bounds tells which fields lead out of the two
buffers of four mebibytes. A hash without an entry is no better: the message about it reads
arguments that were never passed.

## Main definitions

- `readContainerWithin`, `readChunkWithin` — the two functions on memory
- `ReadSafely` — no access outside, and no chunk that is not in the file
- `SoundFields` — what that takes

## Main results

- `readContainerWithin_eq`, `readChunkWithin_eq` — when there is no access outside
- `reads_safely_iff` — exactly when reading is safe
- `packed_reads_safely` — what `WriteContainer` wrote is read safely
-/

namespace TCBackup.Client

open ByteFile Memory

/-- A container whose fields can have any value. -/
structure Loaded where
  data_size : ℤ
  chunk_num : ℤ
  meta_table : HTable 20 ChunkAddr
  data_buffer : Mem

/-- `InitContainer` -/
def freshLoaded : Loaded := ⟨0, 0, htableInit 512, fun _ => 0⟩

/-- `buffer` after `read`. Behind the bytes of the file is what `malloc` left. -/
def fileBuffer (file : Bytes) (rest : Mem) : Mem :=
  store rest 0 (readAt file 0 defaultContainerSize)

/-- The loop of `ReadContainer`. -/
def readAddrs (buffer : Mem) : ℕ → ℕ → HTable 20 ChunkAddr → Option (HTable 20 ChunkAddr)
  | 0, _, table => some table
  | n + 1, p, table => do
    let offset ← loadWithin defaultContainerSize buffer p 4
    let length ← loadWithin defaultContainerSize buffer (p + 4) 4
    let hash ← loadWithin defaultContainerSize buffer (p + 8) 20
    readAddrs buffer n (p + 28)
      (table.insert (fixed 20 hash) ⟨intOf offset, intOf length, fixed 20 hash⟩)

/-- `ReadContainer`: whether it succeeds, and the container; `none` where an access leaves a
buffer. `memcpy` takes `data_size` as an unsigned number. -/
def readContainerWithin (file : Option Bytes) (rest : Mem) (c : Loaded) : Option (Bool × Loaded) :=
  match file with
  | none => some (false, c)
  | some file => do
    let buffer := fileBuffer file rest
    let valid ← loadWithin defaultContainerSize buffer 0 4
    if valid = containerValid then
      let chunk_num ← loadWithin defaultContainerSize buffer 4 4
      let data_size ← loadWithin defaultContainerSize buffer 8 4
      let table ← readAddrs buffer (intOf chunk_num).toNat 12 c.meta_table
      let data ← loadWithin defaultContainerSize buffer (12 + 28 * (intOf chunk_num).toNat)
        (intOf data_size % 2 ^ 64).toNat
      let data_buffer ← storeWithin defaultContainerSize c.data_buffer 0 data
      some (true, ⟨intOf data_size, intOf chunk_num, table, data_buffer⟩)
    else some (false, c)

/-- `ReadChunkFromContainer`: the chunk with its place, and inside `none` for
`chunk->data == NULL`. Without an entry `err_msg1` reads what `%s` should point to from nowhere. -/
def readChunkWithin (c : Loaded) (chunk : Chunk) : Option (Option (ChunkAddr × Chunk)) :=
  match c.meta_table.lookup chunk.hash with
  | none => none
  | some addr =>
    if addr.length < 0 ∨ c.data_size < addr.offset ∨ addr.offset < 0 then some none
    else do
      let tab ← loadWithin defaultContainerSize c.data_buffer (addr.offset + addr.length).toNat 1
      if tab = [9] then
        let data ← loadWithin defaultContainerSize c.data_buffer addr.offset.toNat
          addr.length.toNat
        some (some (addr, { chunk with length := addr.length.toNat, data := data }))
      else some none

/-- Both, as `restore_chunk` calls them. -/
def readWithin (file : Option Bytes) (rest : Mem) (chunk : Chunk) :
    Option (Option (ChunkAddr × Chunk)) := do
  match ← readContainerWithin file rest freshLoaded with
  | (true, c) => readChunkWithin c chunk
  | (false, _) => some none

-- ════════════════════════════════════════════════════════════════════════
-- The fields of a file
-- ════════════════════════════════════════════════════════════════════════

def chunkNum (buffer : Mem) : ℕ := (intOf (load buffer 4 4)).toNat

def dataSize (buffer : Mem) : ℤ := intOf (load buffer 8 4)

/-- Where the data begins. -/
def dataStart (buffer : Mem) : ℕ := 12 + 28 * chunkNum buffer

/-- The entry at `p`. -/
def addrAt (buffer : Mem) (p : ℕ) : ChunkAddr :=
  ⟨intOf (load buffer p 4), intOf (load buffer (p + 4) 4), fixed 20 (load buffer (p + 8) 20)⟩

/-- The table of `n` entries from `p` on. -/
def tableFrom (buffer : Mem) : ℕ → ℕ → HTable 20 ChunkAddr → HTable 20 ChunkAddr
  | 0, _, table => table
  | n + 1, p, table =>
    tableFrom buffer n (p + 28) (table.insert (addrAt buffer p).hash (addrAt buffer p))

/-- The entry of the file that `lookup` finds. -/
def addrOf (buffer : Mem) (hash : Fingerprint) : Option ChunkAddr :=
  (tableFrom buffer (chunkNum buffer) 12 (htableInit 512)).lookup hash

/-- A chunk that is returned is in the data of the file. -/
def SafeOutcome (file : Bytes) (buffer : Mem) (outcome : Option (ChunkAddr × Chunk)) : Prop :=
  ∀ addr got, outcome = some (addr, got) →
    0 ≤ addr.offset ∧ addr.offset + got.length ≤ dataSize buffer ∧
    dataStart buffer + addr.offset + got.length ≤ file.length ∧
    got.data = readAt file (dataStart buffer + addr.offset.toNat) got.length

/-- No access leaves a buffer, and no chunk is returned that is not in the file. -/
def ReadSafely (file : Bytes) (rest : Mem) (chunk : Chunk) : Prop :=
  ∃ outcome, readWithin (some file) rest chunk = some outcome ∧
    SafeOutcome file (fileBuffer file rest) outcome

/-- What `ReadChunkFromContainer` does not accept. -/
def Refused (buffer : Mem) (addr : ChunkAddr) : Prop :=
  addr.length < 0 ∨ dataSize buffer < addr.offset ∨ addr.offset < 0

/-- The byte behind the chunk is in the buffer. If it is a tab of the data, the chunk is in the
file. -/
structure SoundAddr (file : Bytes) (buffer : Mem) (addr : ChunkAddr) : Prop where
  inside : addr.offset + addr.length < defaultContainerSize
  contained : addr.offset + addr.length < dataSize buffer →
    buffer (dataStart buffer + (addr.offset + addr.length).toNat) = 9 →
    dataStart buffer + addr.offset + addr.length ≤ file.length

/-- Header, entries and data fit into the buffers, and there is an entry, which is refused or
sound. -/
structure SoundFields (file : Bytes) (buffer : Mem) (hash : Fingerprint) : Prop where
  nonneg : 0 ≤ dataSize buffer
  fits : dataStart buffer + dataSize buffer ≤ defaultContainerSize
  addr : ∃ addr, addrOf buffer hash = some addr ∧ (Refused buffer addr ∨ SoundAddr file buffer addr)

variable {file : Bytes} {rest buffer : Mem} {hash : Fingerprint} {c : Loaded} {chunk : Chunk}
  {p n : ℕ} {table : HTable 20 ChunkAddr}

-- ════════════════════════════════════════════════════════════════════════
-- ReadContainer
-- ════════════════════════════════════════════════════════════════════════

/-- All entries are in the buffer. -/
theorem readAddrs_of_le (h : p + 28 * n ≤ defaultContainerSize) :
    readAddrs buffer n p table = some (tableFrom buffer n p table) := by
  induction n generalizing p table with
  | zero => rfl
  | succ n ih =>
    rw [readAddrs, loadWithin_of_le _ (by omega), loadWithin_of_le _ (by omega),
      loadWithin_of_le _ (by omega)]
    exact ih (by omega)

/-- The loop leaves the buffer. -/
theorem readAddrs_of_lt (hn : n ≠ 0) (h : defaultContainerSize < p + 28 * n) :
    readAddrs buffer n p table = none := by
  induction n generalizing p table with
  | zero => exact absurd rfl hn
  | succ n ih =>
    rw [readAddrs]
    by_cases hin : p + 28 ≤ defaultContainerSize
    · rw [loadWithin_of_le _ (by omega), loadWithin_of_le _ (by omega),
        loadWithin_of_le _ (by omega)]
      exact ih (by omega) (by omega)
    · by_cases hoffset : p + 4 ≤ defaultContainerSize
      · rw [loadWithin_of_le _ hoffset]
        by_cases hlength : p + 4 + 4 ≤ defaultContainerSize
        · rw [loadWithin_of_le _ hlength, loadWithin_of_lt (p := p + 8) _ (by omega)]
          rfl
        · rw [loadWithin_of_lt (p := p + 4) _ (by omega)]
          rfl
      · rw [loadWithin_of_lt (p := p) _ (by omega)]
        rfl

/-- The fields that `ReadContainer` takes from the file. -/
def loadedOf (buffer : Mem) : Loaded where
  data_size := dataSize buffer
  chunk_num := intOf (load buffer 4 4)
  meta_table := tableFrom buffer (chunkNum buffer) 12 (htableInit 512)
  data_buffer := store (fun _ => 0) 0 (load buffer (dataStart buffer) (dataSize buffer).toNat)

theorem dataSize_lt (buffer : Mem) : dataSize buffer < 2 ^ 31 := by
  have hne : load buffer 8 4 ≠ [] := by
    intro h
    have hlength := congrArg List.length h
    rw [length_load] at hlength
    cases hlength
  have hlt := intOf_lt hne
  rw [length_load] at hlt
  rw [dataSize]
  omega

theorem dataSize_ge (buffer : Mem) : -2 ^ 31 ≤ dataSize buffer := by
  have hle := Int.le_bmod (x := leNat (load buffer 8 4)) (m := 256 ^ (load buffer 8 4).length)
    (by positivity)
  rw [dataSize, intOf]
  rw [length_load] at hle ⊢
  omega

/-- `memcpy` of a negative number of bytes leaves the buffer. -/
theorem unsigned_dataSize (buffer : Mem) :
    (dataSize buffer % 2 ^ 64).toNat =
      if 0 ≤ dataSize buffer then (dataSize buffer).toNat
      else (dataSize buffer + 2 ^ 64).toNat := by
  have hge := dataSize_ge buffer
  have hlt := dataSize_lt buffer
  split <;> omega

/-- The entries and the data. -/
theorem readContainerWithin_body (buffer : Mem) :
    (readAddrs buffer (chunkNum buffer) 12 (htableInit 512)).bind (fun table =>
      (loadWithin defaultContainerSize buffer (dataStart buffer)
        (dataSize buffer % 2 ^ 64).toNat).bind fun data =>
      (storeWithin defaultContainerSize (fun _ => 0) 0 data).bind fun data_buffer =>
      some (true, (⟨dataSize buffer, intOf (load buffer 4 4), table, data_buffer⟩ : Loaded))) =
    if 0 ≤ dataSize buffer ∧ dataStart buffer + dataSize buffer ≤ defaultContainerSize
      then some (true, loadedOf buffer)
      else none := by
  have hstart : dataStart buffer = 12 + 28 * chunkNum buffer := rfl
  have hsize : defaultContainerSize < 2 ^ 63 := by decide
  split
  · next hfits =>
    have hcount : (dataSize buffer % 2 ^ 64).toNat = (dataSize buffer).toNat := by
      rw [unsigned_dataSize, if_pos hfits.1]
    have hdata : dataStart buffer + (dataSize buffer).toNat ≤ defaultContainerSize := by omega
    rw [readAddrs_of_le (by omega), Option.bind_some, hcount, loadWithin_of_le _ hdata,
      Option.bind_some, storeWithin_of_le _ (by rw [length_load]; omega), Option.bind_some]
    rfl
  · next hnot =>
    by_cases hnone : chunkNum buffer ≠ 0 ∧ defaultContainerSize < dataStart buffer
    · rw [readAddrs_of_lt hnone.1 (by omega)]
      rfl
    · have hsmall : 12 ≤ defaultContainerSize := by decide
      have hge := dataSize_ge buffer
      have hcount := unsigned_dataSize buffer
      rw [readAddrs_of_le (by omega), Option.bind_some, loadWithin_of_lt]
      · rfl
      · split at hcount <;> omega

/-- The end of `ReadContainer` is reached exactly if header, entries and data fit. -/
theorem readContainerWithin_eq (file : Bytes) (rest : Mem) :
    readContainerWithin (some file) rest freshLoaded =
      if load (fileBuffer file rest) 0 4 ≠ containerValid then some (false, freshLoaded)
      else if 0 ≤ dataSize (fileBuffer file rest) ∧
          dataStart (fileBuffer file rest) + dataSize (fileBuffer file rest) ≤ defaultContainerSize
        then some (true, loadedOf (fileBuffer file rest))
        else none := by
  generalize hbuffer : fileBuffer file rest = buffer
  have hhead : ∀ q ≤ 8, loadWithin defaultContainerSize buffer q 4 = some (load buffer q 4) := by
    intro q hq
    exact loadWithin_of_le _ (by rw [defaultContainerSize]; omega)
  rw [readContainerWithin, hbuffer, hhead 0 (by omega), Option.bind_eq_bind, Option.bind_some]
  by_cases hvalid : load buffer 0 4 = containerValid
  · rw [if_pos hvalid, if_neg (not_not.mpr hvalid), hhead 4 (by omega), Option.bind_eq_bind,
      Option.bind_some, hhead 8 le_rfl, Option.bind_eq_bind, Option.bind_some]
    exact readContainerWithin_body buffer
  · rw [if_neg hvalid, if_pos hvalid]

-- ════════════════════════════════════════════════════════════════════════
-- ReadChunkFromContainer
-- ════════════════════════════════════════════════════════════════════════

/-- Behind the data is zero. -/
theorem data_buffer_apply (buffer : Mem) (i : ℕ) :
    (loadedOf buffer).data_buffer i =
      if (i : ℤ) < dataSize buffer then buffer (dataStart buffer + i) else 0 := by
  show store (fun _ => 0) 0 (load buffer (dataStart buffer) (dataSize buffer).toNat) i = _
  rw [store, if_pos (Nat.zero_le i), Nat.sub_zero]
  split
  · rw [getElem?_load buffer (by omega), Option.getD_some]
  · rw [List.getElem?_eq_none (by rw [length_load]; omega), Option.getD_none]

/-- A chunk that is found and not refused. -/
theorem readChunkWithin_eq {addr : ChunkAddr} (hfound : addrOf buffer chunk.hash = some addr)
    (haddr : ¬Refused buffer addr) :
    readChunkWithin (loadedOf buffer) chunk =
      if addr.offset + addr.length < defaultContainerSize then
        if addr.offset + addr.length < dataSize buffer ∧
            buffer (dataStart buffer + (addr.offset + addr.length).toNat) = 9 then
          some (some (addr, { chunk with
            length := addr.length.toNat
            data := load buffer (dataStart buffer + addr.offset.toNat) addr.length.toNat }))
        else some none
      else none := by
  rw [Refused] at haddr
  have htab : load (loadedOf buffer).data_buffer (addr.offset + addr.length).toNat 1 = [9] ↔
      addr.offset + addr.length < dataSize buffer ∧
        buffer (dataStart buffer + (addr.offset + addr.length).toNat) = 9 := by
    have hone : load (loadedOf buffer).data_buffer (addr.offset + addr.length).toNat 1 =
        [(loadedOf buffer).data_buffer (addr.offset + addr.length).toNat] := rfl
    rw [hone, List.cons_eq_cons, and_iff_left rfl, data_buffer_apply]
    split
    · next hlt =>
      rw [and_iff_right (by omega)]
    · next hge =>
      exact iff_of_false (by decide) fun h => hge (by omega)
  have hlookup : (loadedOf buffer).meta_table.lookup chunk.hash = some addr := hfound
  have hfield : (loadedOf buffer).data_size = dataSize buffer := rfl
  rw [readChunkWithin, hlookup]
  dsimp only
  rw [hfield, if_neg haddr]
  split
  · next hinside =>
    rw [loadWithin_of_le _ (by omega), Option.bind_eq_bind, Option.bind_some]
    by_cases hboth : addr.offset + addr.length < dataSize buffer ∧
        buffer (dataStart buffer + (addr.offset + addr.length).toNat) = 9
    · rw [if_pos (htab.mpr hboth), if_pos hboth, loadWithin_of_le _ (by omega),
        Option.bind_some]
      have hdata : load (loadedOf buffer).data_buffer addr.offset.toNat addr.length.toNat =
          load buffer (dataStart buffer + addr.offset.toNat) addr.length.toNat := by
        apply load_congr
        intro i hi
        rw [data_buffer_apply, if_pos (by omega), Nat.add_assoc]
      rw [hdata]
    · rw [if_neg (mt htab.mp hboth), if_neg hboth]
  · next houtside =>
    rw [loadWithin_of_lt _ (by omega)]
    rfl

-- ════════════════════════════════════════════════════════════════════════
-- Safety
-- ════════════════════════════════════════════════════════════════════════

/-- What is read from the file itself. -/
theorem load_fileBuffer (h : p + n ≤ file.length) (hin : p + n ≤ defaultContainerSize) :
    load (fileBuffer file rest) p n = readAt file p n := by
  have hlength : p + n ≤ (readAt file 0 defaultContainerSize).length := by
    rw [length_readAt]
    omega
  have hload := load_store_inside (m := rest) (p := 0) hlength
  rw [Nat.zero_add] at hload
  rw [fileBuffer, hload]
  exact (readAt_readAt hin).trans (by rw [Nat.zero_add])

theorem readChunkWithin_none (h : addrOf buffer chunk.hash = none) :
    readChunkWithin (loadedOf buffer) chunk = none := by
  have hlookup : (loadedOf buffer).meta_table.lookup chunk.hash = addrOf buffer chunk.hash := rfl
  rw [readChunkWithin, hlookup, h]

/-- Nothing is returned for an entry that is refused. -/
theorem readChunkWithin_refused {addr : ChunkAddr} (hfound : addrOf buffer chunk.hash = some addr)
    (haddr : Refused buffer addr) : readChunkWithin (loadedOf buffer) chunk = some none := by
  have hlookup : (loadedOf buffer).meta_table.lookup chunk.hash = addrOf buffer chunk.hash := rfl
  rw [readChunkWithin, hlookup, hfound]
  exact if_pos haddr

/-- The outcome for a chunk is safe exactly if its entry is sound. -/
theorem outcome_safe_iff {addr : ChunkAddr} (hnonneg : 0 ≤ dataSize (fileBuffer file rest))
    (hsize : dataStart (fileBuffer file rest) + dataSize (fileBuffer file rest) ≤
      defaultContainerSize)
    (hfound : addrOf (fileBuffer file rest) chunk.hash = some addr)
    (haddr : ¬Refused (fileBuffer file rest) addr) :
    (∃ outcome, readChunkWithin (loadedOf (fileBuffer file rest)) chunk = some outcome ∧
      SafeOutcome file (fileBuffer file rest) outcome) ↔
      SoundAddr file (fileBuffer file rest) addr := by
  rw [readChunkWithin_eq hfound haddr]
  rw [Refused] at haddr
  by_cases hinside : addr.offset + addr.length < defaultContainerSize
  · rw [if_pos hinside]
    by_cases htab : addr.offset + addr.length < dataSize (fileBuffer file rest) ∧
        fileBuffer file rest
          (dataStart (fileBuffer file rest) + (addr.offset + addr.length).toNat) = 9
    · rw [if_pos htab]
      constructor
      · rintro ⟨outcome, hsome, hsafe⟩
        obtain rfl := Option.some.inj hsome
        obtain ⟨-, -, hfile, -⟩ := hsafe addr _ rfl
        exact ⟨hinside, fun _ _ => by dsimp only at hfile; omega⟩
      · intro hsound
        have hfile := hsound.contained htab.1 htab.2
        refine ⟨_, rfl, ?_⟩
        rintro addr' got hsome
        obtain ⟨rfl, rfl⟩ := Prod.mk.inj (Option.some.inj hsome)
        exact ⟨by omega, by dsimp only; omega, by dsimp only; omega,
          load_fileBuffer (by omega) (by omega)⟩
    · rw [if_neg htab]
      exact iff_of_true ⟨none, rfl, fun _ _ h => nomatch h⟩
        ⟨hinside, fun hlt hnine => absurd ⟨hlt, hnine⟩ htab⟩
  · rw [if_neg hinside]
    exact iff_of_false (fun ⟨_, h, _⟩ => nomatch h) fun h => hinside h.inside

theorem readWithin_eq (file : Option Bytes) (rest : Mem) (chunk : Chunk) :
    readWithin file rest chunk =
      (readContainerWithin file rest freshLoaded).bind fun x =>
        match x with
        | (true, c) => readChunkWithin c chunk
        | (false, _) => some none := rfl

/-- Reading is safe exactly if there is no container in the file or its fields are sound. -/
theorem reads_safely_iff (file : Bytes) (rest : Mem) (chunk : Chunk) :
    ReadSafely file rest chunk ↔
      load (fileBuffer file rest) 0 4 ≠ containerValid ∨
        SoundFields file (fileBuffer file rest) chunk.hash := by
  rw [ReadSafely, readWithin_eq, readContainerWithin_eq]
  by_cases hvalid : load (fileBuffer file rest) 0 4 ≠ containerValid
  · rw [if_pos hvalid, Option.bind_some]
    exact iff_of_true ⟨none, rfl, fun _ _ h => nomatch h⟩ (.inl hvalid)
  rw [if_neg hvalid, or_iff_right hvalid]
  by_cases hfits : 0 ≤ dataSize (fileBuffer file rest) ∧
      dataStart (fileBuffer file rest) + dataSize (fileBuffer file rest) ≤ defaultContainerSize
  · rw [if_pos hfits, Option.bind_some]
    dsimp only
    cases hfound : addrOf (fileBuffer file rest) chunk.hash with
    | none =>
      rw [readChunkWithin_none hfound]
      refine iff_of_false (fun ⟨_, h, _⟩ => nomatch h) fun h => ?_
      obtain ⟨addr, haddr, -⟩ := h.addr
      rw [hfound] at haddr
      cases haddr
    | some addr =>
      by_cases haddr : Refused (fileBuffer file rest) addr
      · rw [readChunkWithin_refused hfound haddr]
        exact iff_of_true ⟨none, rfl, fun _ _ h => nomatch h⟩
          ⟨hfits.1, hfits.2, addr, hfound, .inl haddr⟩
      · rw [outcome_safe_iff hfits.1 hfits.2 hfound haddr]
        constructor
        · exact fun hsound => ⟨hfits.1, hfits.2, addr, hfound, .inr hsound⟩
        · rintro ⟨-, -, addr', hfound', hsound⟩
          obtain rfl := Option.some.inj (hfound'.symm.trans hfound)
          exact hsound.resolve_left haddr
  · rw [if_neg hfits, Option.bind_none]
    exact iff_of_false (fun ⟨_, h, _⟩ => nomatch h) fun h => hfits ⟨h.nonneg, h.fits⟩

-- ════════════════════════════════════════════════════════════════════════
-- Files that hold what their fields say
-- ════════════════════════════════════════════════════════════════════════

/-- Header, entries and data are in the file. -/
structure Complete (file : Bytes) (buffer : Mem) : Prop where
  header : 12 ≤ file.length
  nonneg : 0 ≤ dataSize buffer
  length : dataStart buffer + dataSize buffer ≤ file.length
  fits : dataStart buffer + dataSize buffer ≤ defaultContainerSize

/-- A container with the fields of `loadedOf` and no more data than the file has. -/
def containerOf (name : Chunkaddress) (buffer : Mem) : Container :=
  ⟨(dataSize buffer).toNat, chunkNum buffer, name, (loadedOf buffer).meta_table,
    load buffer (dataStart buffer) (dataSize buffer).toNat⟩

theorem addrAt_fileBuffer (h : p + 28 ≤ file.length) (hin : p + 28 ≤ defaultContainerSize) :
    addrAt (fileBuffer file rest) p = chunkAddrOf (readAt file p 28) := by
  rw [addrAt, chunkAddrOf, readAt_readAt (by omega), readAt_readAt (by omega),
    readAt_readAt (by omega), load_fileBuffer (by omega) (by omega),
    load_fileBuffer (by omega) (by omega), load_fileBuffer (by omega) (by omega)]
  rfl

/-- The entries as records of the file. -/
theorem tableFrom_fileBuffer (h : p + 28 * n ≤ file.length)
    (hin : p + 28 * n ≤ defaultContainerSize) :
    tableFrom (fileBuffer file rest) n p table =
      (readRecords chunkAddrOf 28 file n p).foldl (fun t a => t.insert a.hash a) table := by
  induction n generalizing p table with
  | zero => rfl
  | succ n ih =>
    rw [tableFrom, readRecords, List.foldl_cons, ih (by omega) (by omega),
      addrAt_fileBuffer (by omega) (by omega)]

/-- The container that `readContainer` gives. -/
theorem Complete.readContainer_eq (h : Complete file (fileBuffer file rest)) {d : Disk}
    {name : Chunkaddress} (hfile : d.files.tmp (cstr name) = some file) (old : Chunkaddress) :
    readContainer d name (emptyContainer old) =
      if load (fileBuffer file rest) 0 4 = containerValid then
        (true, containerOf (fixed 64 (cstr name)) (fileBuffer file rest))
      else (false, { emptyContainer old with name := fixed 64 (cstr name) }) := by
  obtain ⟨hheader, hnonneg, hlength, hfits⟩ := h
  have hstart : dataStart (fileBuffer file rest) = 12 + 28 * chunkNum (fileBuffer file rest) := rfl
  have hload : ∀ q n, q + n ≤ file.length → q + n ≤ defaultContainerSize →
      readAt (readAt file 0 defaultContainerSize) q n = load (fileBuffer file rest) q n := by
    intro q n hq hin
    rw [load_fileBuffer hq hin, readAt_readAt hin, Nat.zero_add]
  have hsmall : 12 ≤ defaultContainerSize := by decide
  have hnum : (intOf (load (fileBuffer file rest) 4 4)).toNat = chunkNum (fileBuffer file rest) := rfl
  have hsize : (intOf (load (fileBuffer file rest) 8 4)).toNat =
      (dataSize (fileBuffer file rest)).toNat := rfl
  have htable : (readRecords chunkAddrOf 28 (readAt file 0 defaultContainerSize)
      (chunkNum (fileBuffer file rest)) 12).foldl (fun t a => t.insert a.hash a) (htableInit 512) =
      (loadedOf (fileBuffer file rest)).meta_table := by
    show _ = tableFrom (fileBuffer file rest) _ 12 _
    rw [tableFrom_fileBuffer (by omega) (by omega)]
    congr 1
    apply readRecords_congr
    intro k hk
    rw [readAt_readAt (by omega), Nat.zero_add]
  rw [readContainer, hfile]
  dsimp only
  rw [hload 0 4 (by omega) (by omega), hload 4 4 (by omega) (by omega),
    hload 8 4 (by omega) (by omega), hnum, hsize, ← hstart, hload _ _ (by omega) (by omega)]
  split
  · rw [emptyContainer, writeAt_nil, containerOf, ← htable]
  · rfl

/-- Within the bounds it is `readChunkFromContainer`. -/
theorem readChunkWithin_refines {outcome : Option (ChunkAddr × Chunk)} (name : Chunkaddress)
    (hnonneg : 0 ≤ dataSize buffer)
    (h : readChunkWithin (loadedOf buffer) chunk = some outcome) :
    readChunkFromContainer (containerOf name buffer) chunk = some (outcome.map Prod.snd) := by
  have hlookup : (containerOf name buffer).meta_table.lookup chunk.hash =
      addrOf buffer chunk.hash := rfl
  rw [readChunkFromContainer, hlookup]
  cases hfound : addrOf buffer chunk.hash with
  | none =>
    rw [readChunkWithin_none hfound] at h
    cases h
  | some addr =>
    have hfield : ((containerOf name buffer).data_size : ℤ) = dataSize buffer := by
      show ((dataSize buffer).toNat : ℤ) = _
      omega
    dsimp only
    rw [hfield]
    by_cases hrefused : Refused buffer addr
    · rw [readChunkWithin_refused hfound hrefused] at h
      obtain rfl := Option.some.inj h
      exact if_pos hrefused
    · rw [readChunkWithin_eq hfound hrefused] at h
      rw [Refused] at hrefused
      rw [if_neg hrefused]
      split at h
      · have hbyte : (containerOf name buffer).data_buffer.getD (addr.offset + addr.length).toNat 0 =
            if addr.offset + addr.length < dataSize buffer then
              buffer (dataStart buffer + (addr.offset + addr.length).toNat) else 0 := by
          show (load buffer _ _).getD _ _ = _
          rw [List.getD_eq_getElem?_getD]
          split
          · rw [getElem?_load _ (by omega), Option.getD_some]
          · rw [List.getElem?_eq_none (by rw [length_load]; omega), Option.getD_none]
        rw [hbyte]
        split at h
        · next hboth =>
          obtain rfl := Option.some.inj h
          rw [if_pos hboth.1, if_neg (not_not.mpr hboth.2)]
          have hdata : readAt (containerOf name buffer).data_buffer addr.offset.toNat
              addr.length.toNat = load buffer (dataStart buffer + addr.offset.toNat)
                addr.length.toNat := by
            show ((load buffer _ _).drop _).take _ = _
            rw [load_drop _ (by omega), load_take _ (by omega)]
          rw [hdata]
          rfl
        · next hnot =>
          obtain rfl := Option.some.inj h
          refine if_pos ?_
          split
          · next hlt => exact fun hnine => hnot ⟨hlt, hnine⟩
          · decide
      · cases h

/-- Where reading is safe and the file is complete, both give what they give without bounds. -/
theorem Complete.readWithin_refines (h : Complete file (fileBuffer file rest)) {d : Disk}
    {name : Chunkaddress} (hfile : d.files.tmp (cstr name) = some file) (old : Chunkaddress)
    {outcome : Option (ChunkAddr × Chunk)} (hread : readWithin (some file) rest chunk = some outcome) :
    some (outcome.map Prod.snd) =
      match readContainer d name (emptyContainer old) with
      | (true, c) => readChunkFromContainer c chunk
      | (false, _) => some none := by
  rw [readWithin_eq, readContainerWithin_eq] at hread
  rw [h.readContainer_eq hfile old]
  by_cases hvalid : load (fileBuffer file rest) 0 4 = containerValid
  · rw [if_neg (not_not.mpr hvalid), if_pos ⟨h.nonneg, h.fits⟩, Option.bind_some] at hread
    rw [if_pos hvalid]
    exact (readChunkWithin_refines _ h.nonneg hread).symm
  · rw [if_pos hvalid, Option.bind_some] at hread
    obtain rfl := Option.some.inj hread
    rw [if_neg hvalid]
    rfl

/-- The chunks of a container that was written are read safely, whatever `malloc` left in the
buffer. -/
theorem packed_reads_safely {c : Container} {l : List Chunk} (h : Packed c l) (d : Disk)
    (hfile : (writeContainer d c).files.tmp (cstr c.name) = some file) (rest : Mem)
    (hchunk : chunk ∈ l) : ReadSafely file rest chunk := by
  have hcap := h.capacity
  have hlength := h.length_containerBytes
  have hfile' : writeAt ((d.files.tmp (cstr c.name)).getD []) 0 (containerBytes c) = file := by
    rw [writeContainer_file] at hfile
    exact Option.some.inj hfile
  have hle : (containerBytes c).length ≤ file.length := by
    rw [← hfile', length_writeAt]
    omega
  have hload : ∀ p n, p + n ≤ (containerBytes c).length →
      load (fileBuffer file rest) p n = readAt (containerBytes c) p n := by
    intro p n hin
    rw [load_fileBuffer (by omega) (by omega), ← hfile']
    have hinside : readAt (writeAt ((d.files.tmp (cstr c.name)).getD []) 0 (containerBytes c))
        (0 + p) n = readAt (containerBytes c) p n := readAt_writeAt_inside hin
    rwa [Nat.zero_add] at hinside
  have hnum : chunkNum (fileBuffer file rest) = l.length := by
    rw [chunkNum, hload 4 4 (by omega), h.read_chunk_num, Int.toNat_natCast]
  have hsize : dataSize (fileBuffer file rest) = (packed l).length := by
    rw [dataSize, hload 8 4 (by omega), h.read_data_size]
  have hstart : dataStart (fileBuffer file rest) = 12 + 28 * l.length := by rw [dataStart, hnum]
  have hcomplete : Complete file (fileBuffer file rest) :=
    ⟨by omega, by omega, by omega, by omega⟩
  rw [reads_safely_iff]
  right
  obtain ⟨c', hread, hpacked⟩ := h.of_read d c.name
  have hvalid : load (fileBuffer file rest) 0 4 = containerValid := by
    rw [hload 0 4 (by omega), h.read_valid]
  rw [hcomplete.readContainer_eq hfile, if_pos hvalid] at hread
  obtain ⟨-, rfl⟩ := Prod.mk.inj hread
  obtain ⟨first, -, -, before, -, -, haddr⟩ := hpacked.exists_lookup hchunk
  refine ⟨hcomplete.nonneg, hcomplete.fits, _, haddr, .inr ?_⟩
  -- the entry is one of those that were appended, and these lie in the data
  obtain ⟨hoffset, hlen, hinside⟩ :=
    hpacked.inOrder.inside (chunk.hash, _) (hpacked.chains.mem_of_lookup haddr)
  have hfield : ((containerOf (fixed 64 (cstr c.name)) (fileBuffer file rest)).data_size : ℤ) =
      (packed l).length := by rw [hpacked.data_size]
  rw [hfield] at hinside
  dsimp only at hoffset hlen hinside
  exact ⟨by dsimp only; omega, fun _ _ => by dsimp only; omega⟩

/-- Twelve bytes: a valid header without entries, whose `data_size` is -1. -/
def negativeSize : Bytes := containerValid ++ leBytes 4 0 ++ intBytes 4 (-1)

/-- All of memory would be copied. -/
theorem negative_size_unsafe :
    ¬ ∀ (file : Bytes) (rest : Mem) (chunk : Chunk), file.length ≤ defaultContainerSize →
      ReadSafely file rest chunk := by
  intro h
  have hsafe := h negativeSize (fun _ => 0) ⟨0, fixed 20 [], fixed 64 [], []⟩ (by decide)
  rw [reads_safely_iff] at hsafe
  cases hsafe with
  | inl hinvalid => exact hinvalid (by decide +kernel)
  | inr hfields =>
    have hnonneg := hfields.nonneg
    revert hnonneg
    decide +kernel

end TCBackup.Client
