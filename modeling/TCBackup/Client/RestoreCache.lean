import Mathlib.Data.List.TakeWhile
import TCBackup.Client.Store

/-!
# The container cache of a restore

A restore looks chunks up in a few cached containers. Whatever was restored before, a
chunk comes as the container file of its address has it, unless the address is also the
name of a container that was only made to fill the cache.

## Main definitions

- `loadContainer` — a container file, read into an empty container
- `fetch` — the data of a chunk in its container file
- `Cached` — the cache holds container files and empty containers
- `restoreChunk_fetch` — what `restore_chunk` hands out
-/

namespace TCBackup.Client

open ByteFile

/-- A container that was just made. -/
def emptyContainer (name : Chunkaddress) : Container := ⟨0, 0, name, htableInit 512, []⟩

/-- The container in the file `name`. -/
def loadContainer (d : Disk) (name : Chunkaddress) : Option Container :=
  match readContainer d name (emptyContainer name) with
  | (true, c) => some c
  | (false, _) => none

/-- The data of a chunk in the container file of its address. -/
def fetch (d : Disk) (address : Chunkaddress) (hash : Fingerprint) : Option Bytes :=
  (loadContainer d address).bind fun c =>
    (readChunkFromContainer c ⟨0, hash, address, []⟩).join.map Chunk.data

/-- The container file of the address has no entry for the hash. -/
def Missing (d : Disk) (address : Chunkaddress) (hash : Fingerprint) : Prop :=
  ∃ c, loadContainer d address = some c ∧ c.meta_table.lookup hash = none

/-- The names that `GetContainerName` gives from here on. -/
def Names.later (clock : ℕ → ℤ) (n : Names) (name : Chunkaddress) : Prop :=
  ∃ k, name = (NameCall.mk (clock (n.calls.length + k))
    ((n.randomabc + (k + 1 : ℕ)).bmod (2 ^ 32))).name

/-- Every cached container is a container file or an empty container whose name is no
address that is asked for. -/
structure Cached (d : Disk) (wanted : Chunkaddress → Prop) (cache : List Container) : Prop where
  entries : ∀ c ∈ cache, (∃ address, loadContainer d address = some c ∧ cstr c.name = cstr address) ∨
    ∀ address, wanted address → cstr c.name ≠ cstr address

variable {clock : ℕ → ℤ} {d : Disk} {wanted : Chunkaddress → Prop}

theorem initContainer_name (n : Names) :
    initContainer clock n = (emptyContainer (NameCall.mk (clock n.calls.length)
        ((n.randomabc + 1).bmod (2 ^ 32))).name,
      ⟨(n.randomabc + 1).bmod (2 ^ 32),
        n.calls ++ [⟨clock n.calls.length, (n.randomabc + 1).bmod (2 ^ 32)⟩]⟩) := rfl

theorem initContainer_later (n : Names) :
    n.later clock (initContainer clock n).1.name := ⟨0, rfl⟩

/-- Names given after one more container come later. -/
theorem later_of_initContainer {n : Names} {name : Chunkaddress}
    (h : (initContainer clock n).2.later clock name) : n.later clock name := by
  obtain ⟨k, rfl⟩ := h
  refine ⟨k + 1, ?_⟩
  have hlen : (initContainer clock n).2.calls.length + k = n.calls.length + (k + 1) := by
    rw [initContainer_name, List.length_append, List.length_singleton]
    omega
  have hcount : ((initContainer clock n).2.randomabc + (k + 1 : ℕ)).bmod (2 ^ 32) =
      (n.randomabc + (k + 1 + 1 : ℕ)).bmod (2 ^ 32) := by
    rw [initContainer_name]
    dsimp only
    rw [Int.bmod_add_bmod]
    congr 1
    push_cast
    ring
  rw [hlen, hcount]

/-- Only the string of a name matters, and not the name of the empty container. -/
theorem readContainer_congr {name name' : Chunkaddress} (h : cstr name = cstr name')
    (old old' : Chunkaddress) :
    readContainer d name (emptyContainer old) = readContainer d name' (emptyContainer old') := by
  rw [readContainer, readContainer, h]
  rfl

theorem loadContainer_congr {name name' : Chunkaddress} (h : cstr name = cstr name') :
    loadContainer d name = loadContainer d name' := by
  rw [loadContainer, loadContainer, readContainer_congr h]

theorem readContainer_name (name : Chunkaddress) (c : Container) :
    (readContainer d name c).2.name = fixed 64 (cstr name) := by
  rw [readContainer]
  dsimp only
  split
  · rfl
  · split <;> rfl

theorem loadContainer_name {name : Chunkaddress} {c : Container}
    (h : loadContainer d name = some c) : cstr c.name = cstr name := by
  have hname := readContainer_name (d := d) name (emptyContainer name)
  rw [loadContainer] at h
  split at h
  · next c' hread =>
    obtain rfl := Option.some.inj h
    rw [hread] at hname
    rw [hname, cstr_fixed_cstr]
  · simp at h

variable {address : Chunkaddress} {cache : List Container}

theorem mem_of_unlinkName {c : Container} {rest : List Container}
    (h : unlinkName address cache = some (c, rest)) :
    cstr c.name = cstr address ∧ c ∈ cache ∧ ∀ x ∈ rest, x ∈ cache := by
  induction cache generalizing c rest with
  | nil => simp [unlinkName] at h
  | cons y ys ih =>
    rw [unlinkName] at h
    split at h
    · next hsame =>
      obtain ⟨rfl, rfl⟩ := Prod.mk.inj (Option.some.inj h)
      exact ⟨by simpa [sameName] using hsame, List.mem_cons_self, fun x hx => List.mem_cons_of_mem _ hx⟩
    · obtain ⟨⟨c', rest'⟩, htail, heq⟩ := Option.map_eq_some_iff.mp h
      obtain ⟨rfl, rfl⟩ := Prod.mk.inj heq
      obtain ⟨hname, hmem, hsub⟩ := ih htail
      refine ⟨hname, List.mem_cons_of_mem _ hmem, fun x hx => ?_⟩
      rcases List.mem_cons.mp hx with rfl | hx
      · exact List.mem_cons_self
      · exact List.mem_cons_of_mem _ (hsub x hx)

/-- A hit is the container file of the address. -/
theorem Cached.hit (h : Cached d wanted cache) (hwanted : wanted address) {c : Container}
    {rest : List Container} (hunlink : unlinkName address cache = some (c, rest)) :
    loadContainer d address = some c := by
  obtain ⟨hname, hmem, -⟩ := mem_of_unlinkName hunlink
  rcases h.entries c hmem with ⟨address', hload, hname'⟩ | hother
  · rw [loadContainer_congr (hname.symm.trans hname'), hload]
  · exact absurd hname (hother address hwanted)

theorem Cached.mono (h : Cached d wanted cache) {cache' : List Container}
    (hsub : ∀ c ∈ cache', c ∈ cache) : Cached d wanted cache' :=
  ⟨fun c hc => h.entries c (hsub c hc)⟩

/-- A container file moves to the front. -/
theorem Cached.front (h : Cached d wanted cache) {c : Container}
    (hload : loadContainer d address = some c) : Cached d wanted (c :: cache) := by
  refine ⟨fun x hx => ?_⟩
  rcases List.mem_cons.mp hx with rfl | hx
  · exact .inl ⟨address, hload, loadContainer_name hload⟩
  · exact h.entries x hx

/-- `ReadChunkFromContainer` looks at the hash only. -/
theorem readChunkFromContainer_eq (c : Container) (chunk : Chunk) :
    (readChunkFromContainer c chunk).join.map Chunk.data =
      (readChunkFromContainer c ⟨0, chunk.hash, address, []⟩).join.map Chunk.data := by
  rw [readChunkFromContainer, readChunkFromContainer]
  cases c.meta_table.lookup chunk.hash with
  | none => rfl
  | some addr =>
    dsimp only
    split
    · rfl
    · split <;> rfl

theorem readChunkFromContainer_none_iff {c : Container} {chunk : Chunk} :
    readChunkFromContainer c chunk = none ↔ c.meta_table.lookup chunk.hash = none := by
  rw [readChunkFromContainer]
  cases c.meta_table.lookup chunk.hash with
  | none => simp
  | some addr =>
    dsimp only
    split
    · simp
    · split <;> simp

/-- `restore_chunk` hands out what the container file holds, takes the process with it if that
has no such chunk, and fails if there is no such file. -/
theorem restoreChunk_fetch {r : Restore} (h : Cached d wanted r.restore_cache) (chunk : Chunk)
    (hwanted : wanted chunk.address) :
    ((restoreChunk clock d r chunk).1 = none ↔ Missing d chunk.address chunk.hash) ∧
      (restoreChunk clock d r chunk).1.join.map Chunk.data = fetch d chunk.address chunk.hash ∧
      ((restoreChunk clock d r chunk).1.join ≠ none →
        Cached d wanted (restoreChunk clock d r chunk).2.restore_cache) := by
  have hmissing : ∀ {c}, loadContainer d chunk.address = some c →
      (readChunkFromContainer c chunk = none ↔ Missing d chunk.address chunk.hash) := by
    intro c hload
    rw [readChunkFromContainer_none_iff, Missing, hload]
    simp
  rw [restoreChunk, searchCache]
  cases hunlink : unlinkName chunk.address r.restore_cache with
  | some hit =>
    obtain ⟨c, rest⟩ := hit
    have hload := h.hit hwanted hunlink
    obtain ⟨-, -, hsub⟩ := mem_of_unlinkName hunlink
    dsimp only
    rw [fetch, hload, Option.bind_some, readChunkFromContainer_eq c chunk]
    exact ⟨hmissing hload, rfl, fun _ => (h.mono hsub).front hload⟩
  | none =>
    dsimp only
    rw [initContainer_name]
    dsimp only
    have hread := readContainer_congr (d := d) (rfl : cstr chunk.address = cstr chunk.address)
      (NameCall.mk (clock r.names.calls.length) ((r.names.randomabc + 1).bmod (2 ^ 32))).name
      chunk.address
    rw [hread, fetch]
    cases hfile : readContainer d chunk.address (emptyContainer chunk.address) with
    | mk ok c =>
      cases ok
      · have hnone : loadContainer d chunk.address = none := by rw [loadContainer, hfile]
        rw [Missing, hnone]
        exact ⟨by simp, rfl, fun hne => absurd rfl hne⟩
      · have hload : loadContainer d chunk.address = some c := by rw [loadContainer, hfile]
        have hrest : Cached d wanted r.restore_cache.dropLast :=
          h.mono fun x hx => List.mem_of_mem_dropLast hx
        rw [hload, Option.bind_some, readChunkFromContainer_eq c chunk]
        exact ⟨hmissing hload, rfl, fun _ => hrest.front hload⟩

/-- A fresh cache. -/
theorem restoreInit_cached {n : Names}
    (hother : ∀ name, n.later clock name → ∀ address, wanted address → cstr name ≠ cstr address) :
    Cached d wanted (restoreInit clock n).restore_cache := by
  have hcache : ∀ k n, (∀ name, Names.later clock n name → ∀ address, wanted address →
      cstr name ≠ cstr address) → Cached d wanted (initCache clock k n).1 := by
    intro k
    induction k with
    | zero => exact fun n _ => ⟨fun c hc => by simp [initCache] at hc⟩
    | succ k ih =>
      intro n hn
      refine ⟨fun c hc => ?_⟩
      rw [initCache] at hc
      rcases List.mem_cons.mp hc with rfl | hc
      · exact .inr (hn _ (initContainer_later n))
      · exact (ih _ fun name hname => hn name (later_of_initContainer hname)).entries c hc
  exact hcache restoreCacheSize n hother

end TCBackup.Client
