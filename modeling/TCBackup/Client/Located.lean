import TCBackup.Client.ContainerFormat
import TCBackup.Client.ContainerNames

/-!
# Where the chunks of a store are

An address that the store has given names a container that holds the chunk: the open one, or
one that was written. As long as all containers have names of their own, it stays so.

## Main definitions

- `OnDisk`, `InOpen`, `Located` — an address leads to a chunk with a fingerprint
- `Distinct` — containers with names of their own
- `StoreOk` — what holds of the store of a backup process

## Main results

- `StoreOk.storeChunk`, `Located.storeChunk`, `located_storeChunk` — one call of `store_chunk`
- `Located.storeDestory` — everything is on disk in the end
-/

namespace TCBackup.Client

open ByteFile ContainerNames

variable (Good : Fingerprint → Bytes → Prop)

/-- The container file of the address holds a good chunk with this fingerprint. -/
def OnDisk (d : Disk) (address : Chunkaddress) (hash : Fingerprint) : Prop :=
  cstr address ≠ [] ∧ ∃ data, fetch d address hash = some data ∧ Good hash data

/-- The address is the name of the container, which has a chunk with this fingerprint. -/
def InOpen (c : Container) (address : Chunkaddress) (hash : Fingerprint) : Prop :=
  cstr address = cstr c.name ∧ hash ∈ ChainTable.keys c.meta_table

/-- The address leads to a chunk with this fingerprint. -/
def Located (s : Store) (address : Chunkaddress) (hash : Fingerprint) : Prop :=
  OnDisk Good s.disk address hash ∨ InOpen s.container address hash

/-- The containers named since `n₀` have names of their own, and none of these was on `d₀`. -/
structure Distinct (d₀ : Disk) (n₀ n : Names) : Prop where
  nodup : ((n.calls.drop n₀.calls.length).map fun call => cstr call.name).Nodup
  unused : ∀ call ∈ n.calls.drop n₀.calls.length, d₀.files.tmp (cstr call.name) = none

/-- All container files with other names are as they were. -/
def Untouched (d₀ d : Disk) (closed : List NameCall) : Prop :=
  ∀ name, (∀ call ∈ closed, cstr call.name ≠ name) → d.files.tmp name = d₀.files.tmp name

/-- A backup process on a store that was `d₀` when `n₀` were the names given. -/
structure StoreOk (d₀ : Disk) (n₀ : Names) (s : Store) : Prop where
  calls : ∃ closed call, s.names.calls = n₀.calls ++ (closed ++ [call]) ∧
    s.container.name = call.name ∧ Untouched d₀ s.disk closed
  packed : ∃ l, Packed s.container l ∧ ∀ chunk ∈ l, Good chunk.hash chunk.data
  named : cstr s.container.name ≠ []

variable {Good} {d d₀ : Disk} {n n₀ : Names} {s : Store} {c : Container} {l : List Chunk}
  {a a' : Chunkaddress} {hash : Fingerprint} {chunk : Chunk}

/-- Only the string of an address matters. -/
theorem fetch_congr {d d' : Disk} (hname : cstr a' = cstr a)
    (hfile : d'.files.tmp (cstr a) = d.files.tmp (cstr a)) : fetch d' a' hash = fetch d a hash := by
  have hload : loadContainer d' a' = loadContainer d a := by
    rw [loadContainer, loadContainer, readContainer, readContainer, hname, hfile]
    rfl
  rw [fetch, fetch, hload]
  cases loadContainer d a with
  | none => rfl
  | some c => exact readChunkFromContainer_eq c ⟨0, hash, a', []⟩

theorem OnDisk.congr {d' : Disk} (h : OnDisk Good d a hash) (hname : cstr a' = cstr a)
    (hfile : d'.files.tmp (cstr a) = d.files.tmp (cstr a)) : OnDisk Good d' a' hash := by
  obtain ⟨hne, data, hfetch, hgood⟩ := h
  refine ⟨hname ▸ hne, data, ?_, hgood⟩
  rw [fetch_congr hname hfile, hfetch]

/-- The file exists. -/
theorem OnDisk.exists_file (h : OnDisk Good d a hash) : d.files.tmp (cstr a) ≠ none := by
  obtain ⟨-, data, hfetch, -⟩ := h
  intro hnone
  rw [fetch, loadContainer, readContainer, hnone] at hfetch
  cases hfetch

/-- A container that is written to a file of its own. -/
theorem OnDisk.write (h : OnDisk Good d a hash) (hfree : d.files.tmp (cstr c.name) = none) :
    OnDisk Good (writeContainer d c) a hash := by
  have hne : cstr a ≠ cstr c.name := by
    intro hname
    rw [← hname] at hfree
    exact h.exists_file hfree
  refine h.congr rfl ?_
  rw [writeContainer, Disk.write_files]
  exact Function.update_of_ne hne _ _

theorem Packed.mem_keys (h : Packed c l) :
    hash ∈ ChainTable.keys c.meta_table ↔ ∃ chunk ∈ l, chunk.hash = hash := by
  constructor
  · intro hkey
    obtain ⟨p, hp, rfl⟩ := List.mem_map.mp hkey
    obtain ⟨place, hplace, rfl⟩ := List.mem_map.mp (h.entries.mem_iff.mp hp)
    obtain ⟨chunk, hchunk, _, _, _, rfl⟩ := h.exists_of_mem hplace
    exact ⟨chunk, hchunk, rfl⟩
  · rintro ⟨chunk, hchunk, rfl⟩
    obtain ⟨place, hplace, hhash⟩ := exists_addr_of_mem 0 hchunk
    exact List.mem_map.mpr ⟨place.entry, h.entries.mem_iff.mpr (List.mem_map_of_mem hplace), hhash⟩

/-- What is in a container can be fetched from its file. -/
theorem Packed.onDisk (h : Packed c l) (hgood : ∀ chunk ∈ l, Good chunk.hash chunk.data)
    (hnamed : cstr c.name ≠ []) (hopen : InOpen c a hash) : OnDisk Good (writeContainer d c) a hash := by
  obtain ⟨hname, hkey⟩ := hopen
  obtain ⟨chunk, hchunk, rfl⟩ := h.mem_keys.mp hkey
  obtain ⟨c', hread, hpacked⟩ := h.of_read d c.name
  obtain ⟨first, hfirst, hhash, hdata⟩ :=
    hpacked.read_some hchunk (rfl : (⟨0, chunk.hash, c.name, []⟩ : Chunk).hash = chunk.hash)
  have hfetch : fetch (writeContainer d c) c.name chunk.hash = some first.data := by
    rw [fetch, loadContainer, hread]
    dsimp only
    rw [Option.bind_some, hdata]
    rfl
  refine OnDisk.congr ⟨hnamed, first.data, hfetch, ?_⟩ hname rfl
  rw [← hhash]
  exact hgood first hfirst

theorem Located.congr (h : Located Good s a hash) (hname : cstr a' = cstr a) :
    Located Good s a' hash := by
  cases h with
  | inl hdisk => exact .inl (hdisk.congr hname rfl)
  | inr hopen => exact .inr ⟨hname.trans hopen.1, hopen.2⟩

theorem cstr_initContainer (clock : ℕ → ℤ) (n : Names) :
    cstr (initContainer clock n).1.name ≠ [] := by
  rw [ContainerNames.initContainer_name, cstr_name (isInt_nextCall clock n)]
  intro hnil
  have hlength := length_second (nextCall clock n)
  rw [NameCall.text, List.append_eq_nil_iff] at hnil
  rw [hnil.1] at hlength
  cases hlength

/-- The name of the open container is no file. -/
theorem StoreOk.free (h : StoreOk Good d₀ n₀ s) (hnames : Distinct d₀ n₀ s.names) :
    s.disk.files.tmp (cstr s.container.name) = none := by
  obtain ⟨closed, call, hcalls, hname, hold⟩ := h.calls
  have hdrop : s.names.calls.drop n₀.calls.length = closed ++ [call] := by
    rw [hcalls, List.drop_left]
  have hnodup := hnames.nodup
  have hunused := hnames.unused
  rw [hdrop] at hnodup hunused
  rw [List.map_append, List.nodup_append] at hnodup
  rw [hname, hold _ fun x hx => ?_]
  · exact hunused call (by simp)
  · exact hnodup.2.2 _ (List.mem_map_of_mem hx) _ (by simp)

/-- Fewer containers. -/
theorem Distinct.mono {n' : Names} (h : Distinct d₀ n₀ n') (hcalls : n.calls <+: n'.calls) :
    Distinct d₀ n₀ n := by
  have hdrop : n.calls.drop n₀.calls.length <+: n'.calls.drop n₀.calls.length := hcalls.drop _
  exact ⟨h.nodup.sublist (hdrop.sublist.map _), fun call hcall => h.unused call (hdrop.subset hcall)⟩

theorem Untouched.write {closed : List NameCall} {call : NameCall} (h : Untouched d₀ d closed)
    (hname : c.name = call.name) : Untouched d₀ (writeContainer d c) (closed ++ [call]) := by
  intro name hname'
  rw [writeContainer, Disk.write_files, ← h name fun x hx => hname' x (List.mem_append_left _ hx)]
  refine Function.update_of_ne ?_ _ _
  rw [hname]
  exact (hname' call (by simp)).symm

/-- `store_init`, when all containers named so far are closed. -/
theorem storeOk_init (clock : ℕ → ℤ) {closed : List NameCall} (hcalls : n.calls = n₀.calls ++ closed)
    (hold : Untouched d₀ d closed) : StoreOk Good d₀ n₀ (storeInit clock d n) where
  calls := by
    refine ⟨closed, nextCall clock n, ?_, rfl, hold⟩
    rw [← List.append_assoc, ← hcalls]
    rfl
  packed := ⟨[], packed_initContainer clock n, by simp⟩
  named := cstr_initContainer clock n

/-- A chunk enters a container with room for it. -/
theorem Packed.placed (h : Packed c l) (hgood : ∀ chunk ∈ l, Good chunk.hash chunk.data)
    (hsized : chunk.Sized) (hchunk : Good chunk.hash chunk.data)
    (hroom : containerFull c chunk.length = false) :
    ∃ l', Packed (placeChunk c chunk) l' ∧ ∀ chunk ∈ l', Good chunk.hash chunk.data := by
  refine ⟨l ++ [chunk], h.append hsized hroom, fun x hx => ?_⟩
  cases List.mem_append.mp hx with
  | inl hold => exact hgood x hold
  | inr hnew => rwa [List.mem_singleton.mp hnew]

theorem keys_placeChunk (h : Packed c l) :
    ∀ x, x ∈ ChainTable.keys (placeChunk c chunk).meta_table ↔
      x = chunk.hash ∨ x ∈ ChainTable.keys c.meta_table := by
  intro x
  have hperm := ChainTable.keys_insert_perm hashIndex_lt h.chains chunk.hash
    (⟨c.data_size, chunk.length, chunk.hash⟩ : ChunkAddr)
  exact hperm.mem_iff.trans List.mem_cons

variable (clock : ℕ → ℤ)

theorem StoreOk.storeChunk (h : StoreOk Good d₀ n₀ s) (hsized : chunk.Sized)
    (hchunk : Good chunk.hash chunk.data) : StoreOk Good d₀ n₀ (storeChunk clock s chunk).2 := by
  obtain ⟨l, hpacked, hgood⟩ := h.packed
  obtain ⟨closed, call, hcalls, hname, hold⟩ := h.calls
  cases hfull : containerFull s.container chunk.length with
  | false =>
    rw [storeChunk_room clock hfull]
    exact ⟨⟨closed, call, hcalls, hname, hold⟩, hpacked.placed hgood hsized hchunk hfull, h.named⟩
  | true =>
    have hfresh := packed_initContainer clock s.names
    have hroom := hfresh.room_of_nil hsized
    rw [storeChunk_full clock hfull, appendChunkToContainer, hroom]
    refine ⟨⟨closed ++ [call], nextCall clock s.names, ?_, rfl, hold.write hname⟩,
      hfresh.placed (by simp) hsized hchunk hroom, cstr_initContainer clock s.names⟩
    rw [← List.append_assoc, ← hcalls]
    rfl

/-- What was found stays where it is. -/
theorem Located.storeChunk (h : StoreOk Good d₀ n₀ s) (hnames : Distinct d₀ n₀ s.names)
    (chunk : Chunk) (hlocated : Located Good s a hash) :
    Located Good (storeChunk clock s chunk).2 a hash := by
  obtain ⟨l, hpacked, hgood⟩ := h.packed
  cases hfull : containerFull s.container chunk.length with
  | false =>
    rw [storeChunk_room clock hfull]
    cases hlocated with
    | inl hdisk => exact .inl hdisk
    | inr hopen => exact .inr ⟨hopen.1, (keys_placeChunk hpacked hash).mpr (.inr hopen.2)⟩
  | true =>
    rw [storeChunk_full clock hfull]
    left
    cases hlocated with
    | inl hdisk => exact hdisk.write (h.free hnames)
    | inr hopen => exact hpacked.onDisk hgood h.named hopen

/-- The chunk is found at the address that it was given. -/
theorem located_storeChunk (h : StoreOk Good d₀ n₀ s) (hsized : chunk.Sized) :
    Located Good (Client.storeChunk clock s chunk).2 (Client.storeChunk clock s chunk).1.address
      chunk.hash := by
  obtain ⟨l, hpacked, -⟩ := h.packed
  right
  cases hfull : containerFull s.container chunk.length with
  | false =>
    rw [storeChunk_room clock hfull]
    exact ⟨rfl, (keys_placeChunk hpacked _).mpr (.inl rfl)⟩
  | true =>
    have hfresh := packed_initContainer clock s.names
    rw [storeChunk_full clock hfull, appendChunkToContainer, hfresh.room_of_nil hsized]
    exact ⟨rfl, (keys_placeChunk hfresh _).mpr (.inl rfl)⟩

theorem calls_storeChunk (s : Store) (chunk : Chunk) :
    s.names.calls <+: (Client.storeChunk clock s chunk).2.names.calls := by
  cases hfull : containerFull s.container chunk.length with
  | false => rw [storeChunk_room clock hfull]
  | true =>
    rw [storeChunk_full clock hfull]
    exact List.prefix_append _ _

/-- After `store_destory` everything is on disk. -/
theorem Located.storeDestory (h : StoreOk Good d₀ n₀ s) (hnames : Distinct d₀ n₀ s.names)
    (hlocated : Located Good s a hash) : OnDisk Good (storeDestory s) a hash := by
  obtain ⟨l, hpacked, hgood⟩ := h.packed
  rw [Client.storeDestory]
  split
  · cases hlocated with
    | inl hdisk => exact hdisk.write (h.free hnames)
    | inr hopen => exact hpacked.onDisk hgood h.named hopen
  · next hempty =>
    cases hlocated with
    | inl hdisk => exact hdisk
    | inr hopen =>
      obtain ⟨chunk, hchunk, -⟩ := hpacked.mem_keys.mp hopen.2
      rw [hpacked.chunk_num] at hempty
      exact absurd (List.length_pos_of_mem hchunk) hempty

theorem StoreOk.storeDestory (h : StoreOk Good d₀ n₀ s) :
    ∃ closed, s.names.calls = n₀.calls ++ closed ∧ Untouched d₀ (Client.storeDestory s) closed := by
  obtain ⟨closed, call, hcalls, hname, hold⟩ := h.calls
  refine ⟨closed ++ [call], hcalls, ?_⟩
  rw [Client.storeDestory]
  split
  · exact hold.write hname
  · exact fun name hname' => hold name fun x hx => hname' x (List.mem_append_left _ hx)

end TCBackup.Client
