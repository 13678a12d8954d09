import TCBackup.Client.ContainerFormat

/-!
# Runs of `store_chunk` (`client/src/store.c`)

Between `store_init` and `store_destory` the chunks fill one container after the other. A run
remembers the containers that were replaced, and every chunk as it was stored.

## Main definitions

- `Run`, `Run.step`, `run` — the store, the replaced containers and the stored chunks
- `InOrder` — the count, the size and the ranges of one container
- `Home` — the chunks of one container, with its name

## Main results

- `Filled.step` — one call of `store_chunk`
- `store_run` — every run, and `store_destory` behind it
-/

namespace TCBackup.Client

open ByteFile

/-- The store of a run, with the containers that `store_chunk` replaced, as they were then, and
the chunks as it returned them. -/
structure Run where
  store : Store
  replaced : List Container
  stored : List Chunk

/-- The containers of a run; the open one is the last. -/
def Run.containers (r : Run) : List Container := r.replaced ++ [r.store.container]

variable (clock : ℕ → ℤ)

/-- After `store_init`. -/
def Run.start (d : Disk) (n : Names) : Run := ⟨storeInit clock d n, [], []⟩

/-- One call of `store_chunk`. The open container is replaced when the chunk does not fit. -/
def Run.step (r : Run) (chunk : Chunk) : Run where
  store := (storeChunk clock r.store chunk).2
  replaced :=
    if containerFull r.store.container chunk.length then r.replaced ++ [r.store.container]
    else r.replaced
  stored := r.stored ++ [(storeChunk clock r.store chunk).1]

/-- `store_init` and a call of `store_chunk` for each of the chunks. -/
def run (d : Disk) (n : Names) (chunks : List Chunk) : Run :=
  chunks.foldl (Run.step clock) (Run.start clock d n)

/-- What `WriteContainer` writes. -/
def containerWrite (c : Container) : DiskWrite := .container (cstr c.name) (containerBytes c)

/-- Ranges that do not meet, with their tabs. -/
def Apart (a b : ChunkAddr) : Prop :=
  a.offset + a.length < b.offset ∨ b.offset + b.length < a.offset

/-- A container whose file fits into four mebibytes, with its ranges side by side in the data. -/
structure InOrder (c : Container) : Prop where
  count : c.chunk_num = c.meta_table.size
  capacity : 12 + 28 * c.chunk_num + c.data_size ≤ defaultContainerSize
  inside : ∀ p ∈ c.meta_table.walk,
    0 ≤ p.2.offset ∧ 0 ≤ p.2.length ∧ p.2.offset + p.2.length < c.data_size
  tab : ∀ p ∈ c.meta_table.walk, c.data_buffer[(p.2.offset + p.2.length).toNat]? = some 9
  disjoint : c.meta_table.walk.Pairwise fun p q => Apart p.2 q.2

/-- A container with its chunks, which were given its name. -/
structure Home (c : Container) (l : List Chunk) : Prop where
  packed : Packed c l
  address : ∀ chunk ∈ l, chunk.address = c.name

theorem Apart.symm {a b : ChunkAddr} (h : Apart a b) : Apart b a := Or.symm h

theorem le_of_mem_addrs {offset : ℕ} {l : List Chunk} {a : ChunkAddr} (h : a ∈ addrs offset l) :
    (offset : ℤ) ≤ a.offset := by
  induction l generalizing offset with
  | nil => simp [addrs] at h
  | cons chunk l ih =>
    rw [addrs, List.mem_cons] at h
    cases h with
    | inl hfirst => rw [hfirst]
    | inr hmem =>
      have hle := ih hmem
      omega

theorem pairwise_addrs (offset : ℕ) (l : List Chunk) : (addrs offset l).Pairwise Apart := by
  induction l generalizing offset with
  | nil => exact List.Pairwise.nil
  | cons chunk l ih =>
    rw [addrs]
    refine List.Pairwise.cons ?_ (ih _)
    intro a ha
    have hle := le_of_mem_addrs ha
    left
    dsimp only
    omega

theorem Packed.inOrder {c : Container} {l : List Chunk} (h : Packed c l) : InOrder c := by
  have hplace : ∀ p ∈ c.meta_table.walk, ∃ chunk ∈ l, ∃ before after,
      packed l = before ++ (chunk.data ++ 9 :: after) ∧
      p.2 = ⟨before.length, chunk.length, chunk.hash⟩ := by
    intro p hp
    obtain ⟨a, ha, rfl⟩ := List.mem_map.mp (h.entries.mem_iff.mp hp)
    exact h.exists_of_mem ha
  refine ⟨?_, ?_, ?_, ?_, ?_⟩
  · rw [h.chunk_num, h.size_eq]
  · rw [h.chunk_num, h.data_size]
    exact h.capacity
  · intro p hp
    obtain ⟨chunk, hchunk, before, after, hbytes, hp⟩ := hplace p hp
    have hlength := congrArg List.length hbytes
    rw [List.length_append, List.length_append, List.length_cons, (h.sized chunk hchunk).data,
      ← h.data_size] at hlength
    rw [hp]
    dsimp only
    omega
  · intro p hp
    obtain ⟨chunk, hchunk, before, after, hbytes, hp⟩ := hplace p hp
    have hlength := (h.sized chunk hchunk).data
    rw [hp, h.data_buffer, hbytes]
    dsimp only
    rw [← Nat.cast_add, Int.toNat_natCast, List.getElem?_append_right (Nat.le_add_right _ _),
      Nat.add_sub_cancel_left, List.getElem?_append_right hlength.le, hlength, Nat.sub_self]
    rfl
  · refine (h.entries.pairwise_iff fun hapart => hapart.symm).mpr ?_
    rw [List.pairwise_map]
    exact pairwise_addrs 0 l

variable {clock}

/-- One more chunk, with the name of the container. -/
theorem Home.append {c : Container} {l : List Chunk} {chunk : Chunk} (h : Home c l)
    (hchunk : chunk.Sized) (hroom : containerFull c chunk.length = false) :
    Home (placeChunk c chunk) (l ++ [{ chunk with address := c.name }]) := by
  refine ⟨?_, ?_⟩
  · have hnamed : Chunk.Sized { chunk with address := c.name } := ⟨hchunk.data, hchunk.le⟩
    exact h.packed.append hnamed hroom
  · intro x hx
    cases List.mem_append.mp hx with
    | inl hold => exact h.address x hold
    | inr hnew => rw [List.mem_singleton.mp hnew]; rfl

/-- The chunks passed so far are those stored, and each container has its own. -/
structure Filled (d : Disk) (chunks : List Chunk) (r : Run) : Prop where
  passed : List.Forall₂ (fun chunk stored => stored = { chunk with address := stored.address })
    chunks r.stored
  homes : ∃ groups : List (List Chunk), ∃ last : List Chunk,
    r.stored = groups.flatten ++ last ∧ List.Forall₂ Home r.replaced groups ∧
    Home r.store.container last
  used : ∀ c ∈ r.replaced, 0 < c.chunk_num
  log : r.store.disk.log = d.log ++ r.replaced.map containerWrite

theorem filled_start (d : Disk) (n : Names) : Filled d [] (Run.start clock d n) where
  passed := List.Forall₂.nil
  homes := ⟨[], [], rfl, List.Forall₂.nil, packed_initContainer clock n, by simp⟩
  used := by simp [Run.start]
  log := (List.append_nil _).symm

/-- A container that is full has a chunk. -/
theorem Home.used {c : Container} {l : List Chunk} {chunk : Chunk} (h : Home c l)
    (hchunk : chunk.Sized) (hfull : containerFull c chunk.length = true) : 0 < c.chunk_num := by
  rw [h.packed.chunk_num]
  cases l with
  | nil =>
    rw [h.packed.room_of_nil hchunk] at hfull
    cases hfull
  | cons first l => exact Nat.succ_pos _

/-- One call of `store_chunk`. -/
theorem Filled.step {d : Disk} {chunks : List Chunk} {r : Run} (h : Filled d chunks r)
    {chunk : Chunk} (hchunk : chunk.Sized) :
    Filled d (chunks ++ [chunk]) (r.step clock chunk) := by
  obtain ⟨groups, last, hstored, hgroups, hlast⟩ := h.homes
  have hpassed : List.Forall₂ (fun chunk stored => stored = { chunk with address := stored.address })
      (chunks ++ [chunk]) (r.step clock chunk).stored := by
    refine List.rel_append h.passed (List.Forall₂.cons ?_ List.Forall₂.nil)
    cases hfull : containerFull r.store.container chunk.length with
    | false => rw [storeChunk_room clock hfull]
    | true => rw [storeChunk_full clock hfull]
  cases hfull : containerFull r.store.container chunk.length with
  | false =>
    have hnext := storeChunk_room clock hfull
    have hreplaced : (r.step clock chunk).replaced = r.replaced := if_neg (by rw [hfull]; decide)
    refine ⟨hpassed, ⟨groups, last ++ [{ chunk with address := r.store.container.name }], ?_, ?_, ?_⟩,
      ?_, ?_⟩
    · rw [Run.step, hnext, hstored, List.append_assoc]
    · rwa [hreplaced]
    · rw [Run.step, hnext]
      exact hlast.append hchunk hfull
    · rw [hreplaced]
      exact h.used
    · rw [hreplaced, Run.step, hnext]
      exact h.log
  | true =>
    have hroom := (packed_initContainer clock r.store.names).room_of_nil hchunk
    have hnext := storeChunk_full clock hfull
    rw [appendChunkToContainer, hroom] at hnext
    have hreplaced : (r.step clock chunk).replaced = r.replaced ++ [r.store.container] := if_pos hfull
    have hfresh : Home (initContainer clock r.store.names).1 [] :=
      ⟨packed_initContainer clock r.store.names, by simp⟩
    refine ⟨hpassed, ⟨groups ++ [last],
      [{ chunk with address := (initContainer clock r.store.names).1.name }], ?_, ?_, ?_⟩, ?_, ?_⟩
    · rw [Run.step, hnext, hstored, List.flatten_append, List.flatten_singleton]
      rfl
    · rw [hreplaced]
      exact List.rel_append hgroups (List.Forall₂.cons hlast List.Forall₂.nil)
    · rw [Run.step, hnext]
      exact hfresh.append hchunk hroom
    · rw [hreplaced]
      intro c hc
      cases List.mem_append.mp hc with
      | inl hold => exact h.used c hold
      | inr hnew =>
        rw [List.mem_singleton.mp hnew]
        exact hlast.used hchunk hfull
    · have hlog : (r.step clock chunk).store.disk = writeContainer r.store.disk r.store.container := by
        rw [Run.step, hnext]
      rw [hreplaced, hlog, writeContainer, Disk.write_log, h.log, List.map_append, List.append_assoc]
      rfl

theorem run_concat (d : Disk) (n : Names) (chunks : List Chunk) (chunk : Chunk) :
    run clock d n (chunks ++ [chunk]) = (run clock d n chunks).step clock chunk := by
  rw [run, List.foldl_append]
  rfl

theorem filled_run (d : Disk) (n : Names) {chunks : List Chunk}
    (h : ∀ chunk ∈ chunks, chunk.Sized) : Filled d chunks (run clock d n chunks) := by
  induction chunks using List.reverseRecOn with
  | nil => exact filled_start d n
  | append_singleton chunks chunk ih =>
    rw [run_concat]
    exact (ih fun x hx => h x (List.mem_append_left _ hx)).step (h chunk (by simp))

/-- A container that was replaced is not touched again. -/
theorem replaced_prefix (d : Disk) (n : Names) (chunks more : List Chunk) :
    (run clock d n chunks).replaced <+: (run clock d n (chunks ++ more)).replaced := by
  induction more using List.reverseRecOn with
  | nil => rw [List.append_nil]
  | append_singleton more chunk ih =>
    rw [← List.append_assoc, run_concat]
    refine ih.trans ?_
    rw [Run.step]
    dsimp only
    split
    · exact List.prefix_append _ _
    · exact List.prefix_rfl

/-- The containers with a chunk are those replaced, and the open one when it has a chunk. -/
theorem Filled.log_storeDestory {d : Disk} {chunks : List Chunk} {r : Run} (h : Filled d chunks r) :
    (storeDestory r.store).log =
      d.log ++ (r.containers.filter fun c => 0 < c.chunk_num).map containerWrite := by
  have hreplaced : (r.replaced.filter fun c => 0 < c.chunk_num) = r.replaced := by
    rw [List.filter_eq_self]
    intro c hc
    exact decide_eq_true (h.used c hc)
  rw [Run.containers, List.filter_append, hreplaced, List.map_append, ← List.append_assoc, ← h.log,
    storeDestory]
  by_cases hopen : 0 < r.store.container.chunk_num
  · rw [if_pos hopen, List.filter_cons_of_pos (by simpa using hopen), List.filter_nil]
    rfl
  · rw [if_neg hopen, List.filter_cons_of_neg (by simpa using hopen), List.filter_nil, List.map_nil,
      List.append_nil]

variable (clock)

/-- Chunks of any sizes go into containers in order. Each chunk is in the one whose name it was
given and in no other, and each container is written once, with all of its chunks. -/
theorem store_run (d : Disk) (n : Names) {chunks : List Chunk} (h : ∀ chunk ∈ chunks, chunk.Sized) :
    (∀ c ∈ (run clock d n chunks).containers, InOrder c) ∧
    List.Forall₂ (fun chunk stored => stored = { chunk with address := stored.address })
      chunks (run clock d n chunks).stored ∧
    (∃ groups : List (List Chunk), (run clock d n chunks).stored = groups.flatten ∧
      List.Forall₂ Home (run clock d n chunks).containers groups) ∧
    (∀ more, (run clock d n chunks).replaced <+: (run clock d n (chunks ++ more)).replaced) ∧
    (run clock d n chunks).store.disk.log =
      d.log ++ (run clock d n chunks).replaced.map containerWrite ∧
    (storeDestory (run clock d n chunks).store).log = d.log ++
      ((run clock d n chunks).containers.filter fun c => 0 < c.chunk_num).map containerWrite := by
  have hrun : Filled d chunks (run clock d n chunks) := filled_run d n h
  obtain ⟨groups, last, hstored, hgroups, hlast⟩ := hrun.homes
  have hhomes : List.Forall₂ Home (run clock d n chunks).containers (groups ++ [last]) :=
    List.rel_append hgroups (List.Forall₂.cons hlast List.Forall₂.nil)
  refine ⟨?_, hrun.passed, ⟨groups ++ [last], ?_, hhomes⟩, replaced_prefix d n chunks, hrun.log,
    hrun.log_storeDestory⟩
  · intro c hc
    obtain ⟨i, hi, rfl⟩ := List.getElem_of_mem hc
    have hlength := hhomes.length_eq
    exact (hhomes.get hi (hlength ▸ hi)).packed.inOrder
  · rw [hstored, List.flatten_append, List.flatten_singleton]

/-- A chunk of the largest size. -/
def largest : Chunk :=
  ⟨maxChunkLength, List.Vector.replicate 20 0, fixed 64 [], List.replicate maxChunkLength 0⟩

theorem largest_sized : largest.Sized := ⟨List.length_replicate, Nat.le_refl _⟩

theorem store_run_largest :
    ∃ groups : List (List Chunk),
      (run (fun _ => 0) .empty ⟨1, []⟩ (List.replicate 64 largest)).stored = groups.flatten ∧
      List.Forall₂ Home
        (run (fun _ => 0) .empty ⟨1, []⟩ (List.replicate 64 largest)).containers groups := by
  have hsized : ∀ chunk ∈ List.replicate 64 largest, chunk.Sized := by
    intro chunk hchunk
    rw [List.eq_of_mem_replicate hchunk]
    exact largest_sized
  exact (store_run (fun _ => 0) .empty ⟨1, []⟩ hsized).2.2.1

end TCBackup.Client
