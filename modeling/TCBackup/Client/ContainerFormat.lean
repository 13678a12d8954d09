import TCBackup.Client.RestoreCache

/-!
# What is in a container (`client/src/container.c`)

A container holds the chunks that were appended to it, one behind the other, each with a tab
behind it. The table knows the place of each, and a container file that is read into a fresh
container gives every chunk back.

## Main definitions

- `addrs`, `packed` — the places of chunks, and their bytes
- `Packed` — the container holds these chunks
- `appendAll` — several calls of `AppendChunkToContainer`
- `ReadsBack` — what a request for a chunk should get

## Main results

- `Packed.append` — one more chunk, within four mebibytes
- `container_round_trip` — what was appended is read back from the file, and nothing else can be
-/

namespace TCBackup.Client

open ByteFile

/-- The largest chunk that is stored. -/
def maxChunkLength : ℕ := 65536

/-- A chunk with as many bytes as it says. -/
structure Chunk.Sized (chunk : Chunk) : Prop where
  data : chunk.data.length = chunk.length
  le : chunk.length ≤ maxChunkLength

/-- The places of consecutive chunks from `offset` on. -/
def addrs : ℕ → List Chunk → List ChunkAddr
  | _, [] => []
  | offset, chunk :: l =>
    ⟨offset, chunk.length, chunk.hash⟩ :: addrs (offset + chunk.length + 1) l

/-- The bytes of consecutive chunks. -/
def packed (l : List Chunk) : Bytes := l.flatMap fun chunk => chunk.data ++ [9]

/-- The key of a place in the table. -/
def ChunkAddr.entry (a : ChunkAddr) : Fingerprint × ChunkAddr := (a.hash, a)

/-- The container holds these chunks, in the order in which they were appended. -/
structure Packed (c : Container) (l : List Chunk) : Prop where
  sized : ∀ chunk ∈ l, chunk.Sized
  chunk_num : c.chunk_num = l.length
  data_size : c.data_size = (packed l).length
  data_buffer : c.data_buffer = packed l
  chains : ChainTable.WF hashIndex c.meta_table
  entries : c.meta_table.walk.Perm ((addrs 0 l).map ChunkAddr.entry)
  capacity : 12 + 28 * l.length + (packed l).length ≤ defaultContainerSize

variable {c c' : Container} {l : List Chunk} {chunk : Chunk}

@[simp] theorem length_addrs (offset : ℕ) (l : List Chunk) : (addrs offset l).length = l.length := by
  induction l generalizing offset with
  | nil => rfl
  | cons chunk l ih => rw [addrs, List.length_cons, List.length_cons, ih]

theorem packed_concat (l : List Chunk) (chunk : Chunk) :
    packed (l ++ [chunk]) = packed l ++ chunk.data ++ [9] := by
  rw [packed, List.flatMap_append, List.append_assoc]
  exact congrArg _ (List.append_nil _)

theorem packed_cons (chunk : Chunk) (l : List Chunk) :
    packed (chunk :: l) = chunk.data ++ [9] ++ packed l := rfl

theorem addrs_concat (offset : ℕ) {l : List Chunk} (h : ∀ chunk ∈ l, chunk.Sized) (chunk : Chunk) :
    addrs offset (l ++ [chunk]) =
      addrs offset l ++ [⟨(offset + (packed l).length : ℕ), chunk.length, chunk.hash⟩] := by
  induction l generalizing offset with
  | nil => rfl
  | cons first l ih =>
    have hfirst := (h first List.mem_cons_self).data
    rw [List.cons_append, addrs, addrs, ih _ fun x hx => h x (List.mem_cons_of_mem _ hx),
      packed_cons, List.length_append, List.length_append, hfirst, List.length_singleton]
    have hnum : offset + first.length + 1 + (packed l).length =
        offset + (first.length + 1 + (packed l).length) := by omega
    rw [hnum, List.cons_append]

/-- Every place is that of a chunk, with its bytes there and a tab behind them. -/
theorem exists_of_mem_addrs (front : Bytes) {l : List Chunk} (h : ∀ chunk ∈ l, chunk.Sized)
    {a : ChunkAddr} (ha : a ∈ addrs front.length l) :
    ∃ chunk ∈ l, ∃ before after, front ++ packed l = before ++ (chunk.data ++ 9 :: after) ∧
      a = ⟨before.length, chunk.length, chunk.hash⟩ := by
  induction l generalizing front with
  | nil => simp [addrs] at ha
  | cons chunk l ih =>
    have hlength := (h chunk List.mem_cons_self).data
    rw [addrs, List.mem_cons] at ha
    cases ha with
    | inl hfirst =>
      refine ⟨chunk, List.mem_cons_self, front, packed l, ?_, hfirst⟩
      rw [packed_cons, List.append_assoc, List.singleton_append]
    | inr hmem =>
      have hfront : (front ++ (chunk.data ++ [9])).length = front.length + chunk.length + 1 := by
        rw [List.length_append, List.length_append, hlength, List.length_singleton, Nat.add_assoc]
      rw [← hfront] at hmem
      obtain ⟨x, hx, before, after, hbytes, hplace⟩ :=
        ih _ (fun x hx => h x (List.mem_cons_of_mem _ hx)) hmem
      refine ⟨x, List.mem_cons_of_mem _ hx, before, after, ?_, hplace⟩
      rw [packed_cons, ← List.append_assoc]
      exact hbytes

theorem exists_addr_of_mem (offset : ℕ) {l : List Chunk} {chunk : Chunk} (h : chunk ∈ l) :
    ∃ a ∈ addrs offset l, a.hash = chunk.hash := by
  induction l generalizing offset with
  | nil => simp at h
  | cons first l ih =>
    rw [addrs]
    cases List.mem_cons.mp h with
    | inl hfirst => exact ⟨_, List.mem_cons_self, by rw [hfirst]⟩
    | inr hmem =>
      obtain ⟨a, ha, hhash⟩ := ih (offset + first.length + 1) hmem
      exact ⟨a, List.mem_cons_of_mem _ ha, hhash⟩

theorem packed_initContainer (clock : ℕ → ℤ) (n : Names) : Packed (initContainer clock n).1 [] where
  sized := by simp
  chunk_num := rfl
  data_size := rfl
  data_buffer := rfl
  chains := (HTable.init_wf 512).chains
  entries := by
    rw [initContainer_name, emptyContainer, HTable.walk_init]
    exact List.Perm.nil
  capacity := by decide

theorem Packed.size_eq (h : Packed c l) : c.meta_table.size = l.length := by
  have hcount : c.meta_table.size = c.meta_table.walk.length := h.chains.count
  rw [hcount, h.entries.length_eq, List.length_map, length_addrs]

/-- The test for a full container, without the wrapping of its operands. -/
theorem Packed.full_iff (h : Packed c l) (hle : chunk.length ≤ maxChunkLength) :
    containerFull c chunk.length = true ↔
      defaultContainerSize < 61 + 28 * l.length + (packed l).length + chunk.length := by
  have hcap := h.capacity
  rw [maxChunkLength] at hle
  rw [containerFull, decide_eq_true_eq, h.size_eq, h.data_size]
  rw [defaultContainerSize] at hcap ⊢
  omega

/-- An empty container has room for every chunk. -/
theorem Packed.room_of_nil (h : Packed c []) (hchunk : chunk.Sized) :
    containerFull c chunk.length = false := by
  have hle := hchunk.le
  rw [Bool.eq_false_iff]
  intro hfull
  have hlarge : defaultContainerSize < 61 + 28 * 0 + 0 + chunk.length :=
    (h.full_iff hchunk.le).mp hfull
  rw [maxChunkLength] at hle
  rw [defaultContainerSize] at hlarge
  omega

theorem writeAt_end (f d : Bytes) : writeAt f f.length d = f ++ d := by
  rw [writeAt, List.take_length, Nat.sub_self, List.replicate_zero, List.append_nil,
    List.drop_of_length_le (Nat.le_add_right _ _), List.append_nil]

/-- One more chunk. -/
theorem Packed.append (h : Packed c l) (hchunk : chunk.Sized)
    (hroom : containerFull c chunk.length = false) : Packed (placeChunk c chunk) (l ++ [chunk]) := by
  have hlen := hchunk.data
  have hroom' : ¬defaultContainerSize < 61 + 28 * l.length + (packed l).length + chunk.length := by
    rw [← h.full_iff hchunk.le, hroom]
    decide
  have hsize : (packed (l ++ [chunk])).length = (packed l).length + chunk.length + 1 := by
    rw [packed_concat, List.length_append, List.length_append, hlen, List.length_singleton]
  refine ⟨?_, ?_, ?_, ?_, ?_, ?_, ?_⟩
  · intro x hx
    cases List.mem_append.mp hx with
    | inl hold => exact h.sized x hold
    | inr hnew => rwa [List.mem_singleton.mp hnew]
  · rw [List.length_append, ← h.chunk_num]
    rfl
  · rw [hsize, ← h.data_size]
    rfl
  · show writeAt (writeAt c.data_buffer c.data_size (chunk.data.take chunk.length))
      (c.data_size + chunk.length) [9] = packed (l ++ [chunk])
    have htake : chunk.data.take chunk.length = chunk.data := List.take_of_length_le hlen.le
    have hend : (packed l).length + chunk.length = (packed l ++ chunk.data).length := by
      rw [List.length_append, hlen]
    rw [htake, h.data_buffer, h.data_size, writeAt_end, hend, writeAt_end, packed_concat]
  · exact ChainTable.WF.insert hashIndex_lt h.chains _ _
  · refine (ChainTable.items_insert_perm hashIndex_lt h.chains _ _).trans ?_
    rw [addrs_concat 0 h.sized, List.map_append, Nat.zero_add, ← h.data_size]
    refine (h.entries.cons _).trans ?_
    exact List.perm_append_singleton _ _ |>.symm
  · rw [hsize, List.length_append, List.length_singleton]
    omega

@[simp] theorem ChunkAddr.length_bytes (a : ChunkAddr) : a.bytes.length = 28 := by
  simp only [ChunkAddr.bytes, List.length_append, length_intBytes, List.Vector.toList_length]

/-- A place that fits the fields of the file. -/
structure ChunkAddr.Fits (a : ChunkAddr) : Prop where
  offset : ∃ n : ℕ, a.offset = n ∧ n ≤ defaultContainerSize
  length : ∃ n : ℕ, a.length = n ∧ n ≤ defaultContainerSize

theorem chunkAddrOf_bytes {a : ChunkAddr} (h : a.Fits) : chunkAddrOf a.bytes = a := by
  obtain ⟨offset, length, hash⟩ := a
  obtain ⟨⟨m, rfl, hm⟩, ⟨n, rfl, hn⟩⟩ := h
  rw [defaultContainerSize] at hm hn
  have hoffset : readAt (ChunkAddr.bytes ⟨m, n, hash⟩) 0 4 = intBytes 4 m := by
    rw [ChunkAddr.bytes, List.append_assoc]
    exact readAt_front (length_intBytes 4 _)
  have hlength : readAt (ChunkAddr.bytes ⟨m, n, hash⟩) 4 4 = intBytes 4 n := by
    rw [ChunkAddr.bytes, List.append_assoc, readAt_skip (k := 0) (by rw [length_intBytes])]
    exact readAt_front (length_intBytes 4 _)
  have hhash : readAt (ChunkAddr.bytes ⟨m, n, hash⟩) 8 20 = hash.toList := by
    rw [ChunkAddr.bytes, readAt_skip (k := 0) (by simp)]
    exact readAt_vector hash
  rw [chunkAddrOf, hoffset, hlength, hhash, intOf_intBytes_natCast (by omega),
    intOf_intBytes_natCast (by omega), fixed_toList]

/-- The places of a container that holds these chunks. -/
theorem Packed.exists_of_mem (h : Packed c l) {a : ChunkAddr} (ha : a ∈ addrs 0 l) :
    ∃ chunk ∈ l, ∃ before after, packed l = before ++ (chunk.data ++ 9 :: after) ∧
      a = ⟨before.length, chunk.length, chunk.hash⟩ :=
  exists_of_mem_addrs [] h.sized ha

theorem Packed.fits (h : Packed c l) {a : ChunkAddr} (ha : a ∈ addrs 0 l) : a.Fits := by
  have hcap := h.capacity
  obtain ⟨chunk, hchunk, before, after, hbytes, rfl⟩ := h.exists_of_mem ha
  have hlen := (h.sized chunk hchunk).data
  have htotal := congrArg List.length hbytes
  rw [List.length_append, List.length_append] at htotal
  exact ⟨⟨before.length, rfl, by omega⟩, ⟨chunk.length, rfl, by omega⟩⟩

/-- What is written for a container, in its parts. -/
theorem Packed.bytes (h : Packed c l) :
    ∃ as : List ChunkAddr, as.Perm (addrs 0 l) ∧
      containerBytes c = containerValid ++ (leBytes 4 l.length ++ (leBytes 4 (packed l).length ++
        (as.flatMap ChunkAddr.bytes ++ packed l))) := by
  refine ⟨c.meta_table.walk.map Prod.snd, ?_, ?_⟩
  · have hperm := h.entries.map Prod.snd
    rw [List.map_map] at hperm
    have hsnd : Prod.snd ∘ ChunkAddr.entry = id := rfl
    rwa [hsnd, List.map_id] at hperm
  · have hmap : c.meta_table.walk.flatMap (fun p => p.2.bytes) =
        (c.meta_table.walk.map Prod.snd).flatMap ChunkAddr.bytes := by
      rw [List.flatMap_map]
    rw [containerBytes, h.chunk_num, h.data_size, h.data_buffer, hmap, readAt_zero_length]
    simp only [List.append_assoc]

theorem writeContainer_file (d : Disk) (c : Container) :
    (writeContainer d c).files.tmp (cstr c.name) =
      some (writeAt ((d.files.tmp (cstr c.name)).getD []) 0 (containerBytes c)) := by
  rw [writeContainer, Disk.write_files]
  exact Function.update_self _ _ _

/-- The file may go on behind the bytes of the container. -/
theorem readAt_containerFile (f : Bytes) {bytes : Bytes} {pos n : ℕ}
    (hle : bytes.length ≤ defaultContainerSize) (h : pos + n ≤ bytes.length) :
    readAt (readAt (writeAt f 0 bytes) 0 defaultContainerSize) pos n = readAt bytes pos n := by
  rw [readAt_readAt (h.trans hle), readAt_writeAt_inside h]

section Fields

variable (h : Packed c l)

include h

theorem Packed.length_containerBytes :
    (containerBytes c).length = 12 + 28 * l.length + (packed l).length := by
  obtain ⟨as, hperm, hbytes⟩ := h.bytes
  have hvalid : containerValid.length = 4 := length_leBytes 4 _
  rw [hbytes]
  simp only [List.length_append, hvalid, length_leBytes, length_flatMap_enc ChunkAddr.length_bytes,
    hperm.length_eq, length_addrs]
  omega

theorem Packed.read_valid : readAt (containerBytes c) 0 4 = containerValid := by
  obtain ⟨as, -, hbytes⟩ := h.bytes
  rw [hbytes]
  exact readAt_front (length_leBytes 4 _)

theorem Packed.read_chunk_num : intOf (readAt (containerBytes c) 4 4) = l.length := by
  obtain ⟨as, -, hbytes⟩ := h.bytes
  have hvalid : containerValid.length = 4 := length_leBytes 4 _
  have hcap := h.capacity
  rw [defaultContainerSize] at hcap
  rw [hbytes, readAt_skip (k := 0) (by rw [hvalid]), readAt_front (length_leBytes 4 _),
    ← intBytes_natCast (by omega), intOf_intBytes_natCast (by omega)]

theorem Packed.read_data_size : intOf (readAt (containerBytes c) 8 4) = (packed l).length := by
  obtain ⟨as, -, hbytes⟩ := h.bytes
  have hvalid : containerValid.length = 4 := length_leBytes 4 _
  have hcap := h.capacity
  rw [defaultContainerSize] at hcap
  rw [hbytes, readAt_skip (k := 4) (by rw [hvalid]), readAt_skip (k := 0) (by rw [length_leBytes]),
    readAt_front (length_leBytes 4 _), ← intBytes_natCast (by omega),
    intOf_intBytes_natCast (by omega)]

end Fields

/-- The container file, read into a fresh container. -/
theorem Packed.read_back (h : Packed c l) (d : Disk) (old : Chunkaddress) :
    ∃ as : List ChunkAddr, as.Perm (addrs 0 l) ∧
      readContainer (writeContainer d c) c.name (emptyContainer old) =
        (true, ⟨(packed l).length, l.length, fixed 64 (cstr c.name),
          as.foldl (fun t a => t.insert a.hash a) (htableInit 512), packed l⟩) := by
  obtain ⟨as, hperm, hbytes⟩ := h.bytes
  refine ⟨as, hperm, ?_⟩
  have hcap := h.capacity
  have hvalid : containerValid.length = 4 := length_leBytes 4 _
  have hcount : as.length = l.length := by rw [hperm.length_eq, length_addrs]
  have hrecords : (as.flatMap ChunkAddr.bytes).length = 28 * l.length := by
    rw [length_flatMap_enc ChunkAddr.length_bytes, hcount]
  have hlength := h.length_containerBytes
  have hfile := fun (pos n : ℕ) (hin : pos + n ≤ (containerBytes c).length) =>
    readAt_containerFile ((d.files.tmp (cstr c.name)).getD []) (by omega) hin
  have htable : readAt (containerBytes c) 12 (28 * l.length) = as.flatMap ChunkAddr.bytes := by
    rw [hbytes, readAt_skip (k := 8) (by rw [hvalid]), readAt_skip (k := 4) (by rw [length_leBytes]),
      readAt_skip (k := 0) (by rw [length_leBytes])]
    exact readAt_front hrecords
  have hdata : readAt (containerBytes c) (12 + 28 * l.length) (packed l).length = packed l := by
    rw [hbytes, readAt_skip (k := 8 + 28 * l.length) (by rw [hvalid]; omega),
      readAt_skip (k := 4 + 28 * l.length) (by rw [length_leBytes]; omega),
      readAt_skip (k := 28 * l.length) (by rw [length_leBytes]),
      readAt_skip (k := 0) (by omega), readAt_zero_length]
  have haddrs : readRecords chunkAddrOf 28
      (readAt (writeAt ((d.files.tmp (cstr c.name)).getD []) 0 (containerBytes c)) 0
        defaultContainerSize) l.length 12 = as := by
    rw [← hcount] at htable ⊢
    refine readRecords_of_readAt' ChunkAddr.length_bytes
      (fun a ha => chunkAddrOf_bytes (h.fits (hperm.subset ha))) ?_
    rw [hfile _ _ (by omega), htable]
  rw [readContainer]
  dsimp only
  rw [writeContainer_file]
  dsimp only
  rw [hfile 0 4 (by omega), h.read_valid, if_pos rfl, hfile 4 4 (by omega), h.read_chunk_num,
    hfile 8 4 (by omega), h.read_data_size, Int.toNat_natCast, Int.toNat_natCast, haddrs,
    hfile _ _ (by omega), hdata, emptyContainer, writeAt_nil]

/-- The container that is read holds the same chunks. -/
theorem Packed.of_read (h : Packed c l) (d : Disk) (old : Chunkaddress) :
    ∃ c', readContainer (writeContainer d c) c.name (emptyContainer old) = (true, c') ∧
      Packed c' l := by
  obtain ⟨as, hperm, hread⟩ := h.read_back d old
  refine ⟨_, hread, h.sized, rfl, rfl, rfl, ?_, ?_, h.capacity⟩
  all_goals
    have hfold : as.foldl (fun t a => t.insert a.hash a) (htableInit 512) =
        HTable.insertAll (htableInit 512) (as.map ChunkAddr.entry) := by
      rw [HTable.insertAll, List.foldl_map]
      rfl
    dsimp only
    rw [hfold]
  · exact (ChainTable.foldl_insert hashIndex_lt (HTable.init_wf 512).chains).1
  · exact (HTable.walk_insertAll_init 512).trans (hperm.map _)

/-- A hash that was appended leads to a chunk with this hash. -/
theorem Packed.exists_lookup (h : Packed c l) (hchunk : chunk ∈ l) :
    ∃ first ∈ l, first.hash = chunk.hash ∧ ∃ before after,
      packed l = before ++ (first.data ++ 9 :: after) ∧
      c.meta_table.lookup chunk.hash = some ⟨before.length, first.length, first.hash⟩ := by
  obtain ⟨a, ha, hhash⟩ := exists_addr_of_mem 0 hchunk
  have hentry : a.entry ∈ c.meta_table.walk := h.entries.mem_iff.mpr (List.mem_map_of_mem ha)
  have hkey : chunk.hash ∈ c.meta_table.keys := List.mem_map.mpr ⟨_, hentry, hhash⟩
  obtain ⟨addr, hlookup⟩ := h.chains.exists_lookup hkey
  have hitem : (chunk.hash, addr) ∈ (addrs 0 l).map ChunkAddr.entry :=
    h.entries.mem_iff.mp (h.chains.mem_of_lookup hlookup)
  obtain ⟨b, hb, hpair⟩ := List.mem_map.mp hitem
  obtain ⟨hfound, rfl⟩ := Prod.mk.inj hpair
  obtain ⟨first, hfirst, before, after, hbytes, rfl⟩ := h.exists_of_mem hb
  exact ⟨first, hfirst, hfound, before, after, hbytes, hlookup⟩

/-- A chunk with the hash is read. -/
theorem Packed.read_some (h : Packed c l) (hchunk : chunk ∈ l) {req : Chunk}
    (hreq : req.hash = chunk.hash) : ∃ first ∈ l, first.hash = chunk.hash ∧
      readChunkFromContainer c req =
        some (some { req with length := first.length, data := first.data }) := by
  obtain ⟨first, hfirst, hhash, before, after, hbytes, hlookup⟩ := h.exists_lookup hchunk
  have hlen : first.data.length = first.length := (h.sized first hfirst).data
  have hsize : before.length ≤ c.data_size := by
    rw [h.data_size, hbytes, List.length_append]
    exact Nat.le_add_right _ _
  have htab : c.data_buffer.getD (before.length + first.length) 0 = 9 := by
    rw [h.data_buffer, hbytes, ← hlen]
    simp [List.getD]
  have hread : readAt c.data_buffer before.length first.length = first.data := by
    rw [h.data_buffer, hbytes, readAt_skip (k := 0) (by omega)]
    exact readAt_front hlen
  refine ⟨first, hfirst, hhash, ?_⟩
  rw [readChunkFromContainer, hreq, hlookup]
  dsimp only
  rw [if_neg (by omega), ← Nat.cast_add, Int.toNat_natCast, htab, if_neg (by decide),
    Int.toNat_natCast, Int.toNat_natCast, hread]

/-- The chunk is read with the bytes that were appended under its hash. -/
theorem Packed.read_of_mem (h : Packed c l)
    (hsame : ∀ a ∈ l, ∀ b ∈ l, a.hash = b.hash → a.data = b.data) (hchunk : chunk ∈ l)
    {req : Chunk} (hreq : req.hash = chunk.hash) :
    readChunkFromContainer c req = some (some { req with length := chunk.length, data := chunk.data }) := by
  obtain ⟨first, hfirst, hhash, hread⟩ := h.read_some hchunk hreq
  have hdata : first.data = chunk.data := hsame _ hfirst _ hchunk hhash
  have hlength : first.length = chunk.length := by
    rw [← (h.sized first hfirst).data, hdata, (h.sized chunk hchunk).data]
  rw [hread, hlength, hdata]

/-- Any other hash has no entry, which ends the process. -/
theorem Packed.read_none (h : Packed c l) {req : Chunk} (hreq : ∀ chunk ∈ l, chunk.hash ≠ req.hash) :
    readChunkFromContainer c req = none := by
  have hnone : c.meta_table.lookup req.hash = none := by
    refine h.chains.lookup_eq_none_iff.mpr fun hkey => ?_
    obtain ⟨p, hp, hhash⟩ := List.mem_map.mp hkey
    obtain ⟨a, ha, rfl⟩ := List.mem_map.mp (h.entries.mem_iff.mp hp)
    obtain ⟨chunk, hchunk, _, _, _, rfl⟩ := h.exists_of_mem ha
    exact hreq chunk hchunk hhash
  rw [readChunkFromContainer, hnone]

/-- Several calls of `AppendChunkToContainer`; `none` when one of them returns `false`. -/
def appendAll : Container → List Chunk → Option Container
  | c, [] => some c
  | c, chunk :: l =>
    match appendChunkToContainer c chunk with
    | (false, _) => none
    | (true, c) => appendAll c l

theorem Packed.of_appendAll {chunks : List Chunk} (h : Packed c l)
    (hsized : ∀ chunk ∈ chunks, chunk.Sized) (happend : appendAll c chunks = some c') :
    Packed c' (l ++ chunks) := by
  induction chunks generalizing c l with
  | nil =>
    obtain rfl := Option.some.inj happend
    rwa [List.append_nil]
  | cons chunk chunks ih =>
    rw [appendAll, appendChunkToContainer] at happend
    cases hfull : containerFull c chunk.length with
    | true =>
      rw [hfull] at happend
      cases happend
    | false =>
      rw [hfull] at happend
      have hnext := ih (h.append (hsized chunk List.mem_cons_self) hfull)
        (fun x hx => hsized x (List.mem_cons_of_mem _ hx)) happend
      rwa [List.append_assoc, List.singleton_append] at hnext

/-- A request gets the chunk that was appended under its hash, or `NULL` if there is none. -/
def ReadsBack (chunks : List Chunk) (c : Container) (req : Chunk) : Prop :=
  (∀ chunk ∈ chunks, req.hash = chunk.hash → readChunkFromContainer c req =
      some (some { req with length := chunk.length, data := chunk.data })) ∧
    ((∀ chunk ∈ chunks, chunk.hash ≠ req.hash) → readChunkFromContainer c req = some none)

/-- What is appended to a fresh container is read back from its file. A request gets what it should
if and only if its hash was appended. -/
theorem container_round_trip (clock : ℕ → ℤ) (n n' : Names) (d : Disk) {chunks : List Chunk}
    (hsized : ∀ chunk ∈ chunks, chunk.Sized)
    (hsame : ∀ a ∈ chunks, ∀ b ∈ chunks, a.hash = b.hash → a.data = b.data)
    (happend : appendAll (initContainer clock n).1 chunks = some c) :
    ∃ c', readContainer (writeContainer d c) c.name (initContainer clock n').1 = (true, c') ∧
      c'.chunk_num = c.chunk_num ∧ c'.data_size = c.data_size ∧
      ∀ req : Chunk, ReadsBack chunks c' req ↔ req.hash ∈ chunks.map Chunk.hash := by
  have hpacked : Packed c chunks := (packed_initContainer clock n).of_appendAll hsized happend
  rw [initContainer_name]
  obtain ⟨c', hread, hc'⟩ := hpacked.of_read d _
  refine ⟨c', hread, ?_, ?_, fun req => ⟨fun hback => ?_, fun happended => ?_⟩⟩
  · rw [hc'.chunk_num, hpacked.chunk_num]
  · rw [hc'.data_size, hpacked.data_size]
  · by_contra hmissing
    have hother : ∀ chunk ∈ chunks, chunk.hash ≠ req.hash := by
      rintro chunk hchunk heq
      exact hmissing (heq ▸ List.mem_map_of_mem hchunk)
    have hnull := hback.2 hother
    rw [hc'.read_none hother] at hnull
    cases hnull
  · obtain ⟨chunk, hchunk, heq⟩ := List.mem_map.mp happended
    exact ⟨fun first hfirst hreq => hc'.read_of_mem hsame hfirst hreq,
      fun hother => absurd heq (hother chunk hchunk)⟩

/-- A chunk of one byte. -/
def letter (b : UInt8) : Chunk := ⟨1, List.Vector.replicate 20 b, fixed 64 [], [b]⟩

theorem letter_sized (b : UInt8) : (letter b).Sized :=
  ⟨rfl, show 1 ≤ 65536 by decide⟩

/-- The chunks `a`, `b` and `a`. -/
def letters : List Chunk := [letter 97, letter 98, letter 97]

theorem letters_sized : ∀ chunk ∈ letters, chunk.Sized := by simp [letters, letter_sized]

theorem letters_same : ∀ a ∈ letters, ∀ b ∈ letters, a.hash = b.hash → a.data = b.data := by decide

theorem letters_appended : ∃ c, appendAll (initContainer (fun _ => 0) ⟨1, []⟩).1 letters = some c ∧
    c.chunk_num = 3 ∧ c.data_size = 6 := ⟨_, rfl, rfl, rfl⟩

theorem container_round_trip_letters :
    ∃ c c', appendAll (initContainer (fun _ => 0) ⟨1, []⟩).1 letters = some c ∧
      readContainer (writeContainer .empty c) c.name (initContainer (fun _ => 0) ⟨2, []⟩).1 =
        (true, c') ∧
      c'.chunk_num = 3 ∧ c'.data_size = 6 ∧
      readChunkFromContainer c' { letter 98 with length := 0, data := [] } = some (some (letter 98)) ∧
      ¬ReadsBack letters c' (letter 99) := by
  obtain ⟨c, hc, hnum, hsize⟩ := letters_appended
  obtain ⟨c', hread, hnum', hsize', hback⟩ :=
    container_round_trip (fun _ => 0) ⟨1, []⟩ ⟨2, []⟩ .empty letters_sized letters_same hc
  refine ⟨c, c', hc, hread, hnum'.trans hnum, hsize'.trans hsize, ?_, fun h => ?_⟩
  · exact ((hback _).mpr (by decide)).1 (letter 98) (by decide) rfl
  · exact absurd ((hback _).mp h) (by decide)

/-- A request for a chunk that is not in the container. -/
theorem missing_chunk_dies :
    ¬ ∀ (chunks : List Chunk) (c c' : Container), (∀ chunk ∈ chunks, chunk.Sized) →
      (∀ a ∈ chunks, ∀ b ∈ chunks, a.hash = b.hash → a.data = b.data) →
      appendAll (initContainer (fun _ => 0) ⟨1, []⟩).1 chunks = some c →
      readContainer (writeContainer .empty c) c.name (initContainer (fun _ => 0) ⟨2, []⟩).1 =
        (true, c') → ∀ req, ReadsBack chunks c' req := by
  intro h
  obtain ⟨c, hc, -, -⟩ := letters_appended
  have hpacked : Packed c letters :=
    (packed_initContainer (fun _ => 0) ⟨1, []⟩).of_appendAll letters_sized hc
  obtain ⟨c', hread, hc'⟩ := hpacked.of_read .empty
    (NameCall.mk 0 ((2 + 1 : ℤ).bmod (2 ^ 32))).name
  have hback := h letters c c' letters_sized letters_same hc hread (letter 99)
  have hother : ∀ chunk ∈ letters, chunk.hash ≠ (letter 99).hash := by decide
  have hnull := hback.2 hother
  rw [hc'.read_none hother] at hnull
  cases hnull

end TCBackup.Client
