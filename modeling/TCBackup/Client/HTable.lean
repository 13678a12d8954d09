import TCBackup.Global
import TCBackup.Lib.ChainTable

/-!
# The client's hash table (`client/lib/htable.c`)

`insert` does not look for the key first, and the hash reads the key from its
end until it exceeds the number of buckets.
-/

namespace TCBackup.Client

open ByteFile

/-- A table with keys of `n` bytes. -/
abbrev HTable (n : ℕ) (α : Type*) := ChainTable (List.Vector UInt8 n) α

variable {n : ℕ} {α : Type*}

/-- `key[i]<'9' ? key[i]-'0' : 10+key[i]-'A'` -/
def keyDigit (c : UInt8) : ℤ :=
  if c.toNat < 57 then c.toNat - 48 else 10 + c.toNat - 65

/-- The loop of `hash_index`, in 64-bit arithmetic. -/
def hashLoop (buckets : ℕ) : ℕ → Bytes → ℕ
  | hash, [] => hash
  | hash, c :: cs =>
    if hash < buckets then
      hashLoop buckets ((hash + hash * 16 + keyDigit c) % 2 ^ 64).toNat cs
    else hash

/-- `hash_index`: the first byte of the key is never read. -/
def hashIndex (buckets : ℕ) (key : List.Vector UInt8 n) : ℕ :=
  hashLoop buckets 0 key.toList.tail.reverse &&& (buckets - 1)

theorem hashIndex_lt (b : ℕ) (key : List.Vector UInt8 n) (hb : 0 < b) : hashIndex b key < b := by
  have : hashLoop b 0 key.toList.tail.reverse &&& (b - 1) ≤ b - 1 := Nat.and_le_right
  rw [hashIndex]
  omega

/-- `htable::init` -/
def htableInit (tsize : ℕ) : HTable n α := ChainTable.empty (2 ^ Nat.size (tsize / 4))

namespace HTable

def insert (t : HTable n α) (key : List.Vector UInt8 n) (item : α) : HTable n α :=
  ChainTable.insert hashIndex t key item

def lookup (t : HTable n α) (key : List.Vector UInt8 n) : Option α :=
  ChainTable.lookup hashIndex t key

/-- Write through the pointer that `lookup` returned. -/
def set (t : HTable n α) (key : List.Vector UInt8 n) (item : α) : HTable n α :=
  ChainTable.set hashIndex t key item

def remove (t : HTable n α) (key : List.Vector UInt8 n) : HTable n α :=
  ChainTable.remove hashIndex t key

def size (t : HTable n α) : ℕ := t.numItems

/-- The walk of `first` and `next`. -/
def walk (t : HTable n α) : List (List.Vector UInt8 n × α) := ChainTable.items t

/-- A table in good order that holds no key twice. -/
structure WF (t : HTable n α) : Prop where
  chains : ChainTable.WF hashIndex t
  nodup : (ChainTable.keys t).Nodup

theorem init_wf (tsize : ℕ) : WF (htableInit tsize : HTable n α) :=
  ⟨ChainTable.empty_wf (by positivity) fun k => hashIndex_lt _ k (by positivity),
    by simp [htableInit, ChainTable.keys]⟩

@[simp] theorem walk_init (tsize : ℕ) : walk (htableInit tsize : HTable n α) = [] := by
  simp [walk, htableInit]

@[simp] theorem size_init (tsize : ℕ) : size (htableInit tsize : HTable n α) = 0 := rfl

variable {t : HTable n α} {key : List.Vector UInt8 n}

theorem WF.size_eq (h : WF t) : t.size = t.walk.length := h.chains.count

theorem WF.lookup_eq_some_iff (h : WF t) {x : α} : t.lookup key = some x ↔ (key, x) ∈ t.walk :=
  h.chains.lookup_eq_some_iff h.nodup

theorem WF.lookup_eq_none_iff (h : WF t) : t.lookup key = none ↔ ∀ x, (key, x) ∉ t.walk := by
  rw [lookup, h.chains.lookup_eq_none_iff, ChainTable.keys]
  constructor
  · intro hk x hx
    exact hk (List.mem_map.mpr ⟨_, hx, rfl⟩)
  · rintro hk hmem
    obtain ⟨p, hp, rfl⟩ := List.mem_map.mp hmem
    exact hk p.2 hp

@[simp] theorem lookup_init (tsize : ℕ) (key : List.Vector UInt8 n) :
    lookup (htableInit tsize : HTable n α) key = none :=
  (init_wf tsize).lookup_eq_none_iff.mpr (by simp)

/-- An insert after an unsuccessful lookup. -/
theorem WF.insert (h : WF t) (hk : t.lookup key = none) (x : α) : WF (t.insert key x) :=
  ⟨ChainTable.WF.insert hashIndex_lt h.chains key x,
    ChainTable.nodup_keys_insert hashIndex_lt h.chains h.nodup
      (h.chains.lookup_eq_none_iff.mp hk) x⟩

theorem WF.lookup_insert (h : WF t) (hk : t.lookup key = none) (x : α)
    (key' : List.Vector UInt8 n) :
    (t.insert key x).lookup key' = if key' = key then some x else t.lookup key' :=
  ChainTable.lookup_insert hashIndex_lt h.chains h.nodup (h.chains.lookup_eq_none_iff.mp hk) x key'

theorem WF.walk_insert (h : WF t) (key : List.Vector UInt8 n) (x : α) :
    (t.insert key x).walk.Perm ((key, x) :: t.walk) :=
  ChainTable.items_insert_perm hashIndex_lt h.chains key x

theorem WF.size_insert (h : WF t) (hk : t.lookup key = none) (x : α) :
    (t.insert key x).size = t.size + 1 := by
  rw [(h.insert hk x).size_eq, (h.walk_insert key x).length_eq, List.length_cons, h.size_eq]

theorem WF.set (h : WF t) (key : List.Vector UInt8 n) (x : α) : WF (t.set key x) :=
  ⟨h.chains.set key x, by rw [HTable.set, ChainTable.keys_set]; exact h.nodup⟩

theorem WF.lookup_set (h : WF t) {y : α} (hk : t.lookup key = some y) (x : α)
    (key' : List.Vector UInt8 n) :
    (t.set key x).lookup key' = if key' = key then some x else t.lookup key' := by
  have hmem : key ∈ ChainTable.keys t :=
    List.mem_map.mpr ⟨_, h.lookup_eq_some_iff.mp hk, rfl⟩
  have hset := h.chains.lookup_set key x key'
  simp only [hmem, and_true] at hset
  exact hset

@[simp] theorem size_set (t : HTable n α) (key : List.Vector UInt8 n) (x : α) :
    (t.set key x).size = t.size := rfl

theorem WF.walk_remove (h : WF t) {x : α} (hx : t.lookup key = some x) :
    ((key, x) :: (t.remove key).walk).Perm t.walk :=
  ChainTable.items_remove_perm h.chains hx

theorem WF.remove (h : WF t) {x : α} (hx : t.lookup key = some x) : WF (t.remove key) := by
  refine ⟨h.chains.remove key, ?_⟩
  have hkeys := (h.walk_remove hx).map Prod.fst
  have hnodup : (key :: (t.remove key).walk.map Prod.fst).Nodup := hkeys.nodup_iff.mpr h.nodup
  exact (List.nodup_cons.mp hnodup).2

theorem WF.lookup_remove (h : WF t) {x : α} (hx : t.lookup key = some x)
    (key' : List.Vector UInt8 n) :
    (t.remove key).lookup key' = if key' = key then none else t.lookup key' := by
  have hw := h.remove hx
  have hperm := h.walk_remove hx
  by_cases hk : key' = key
  · subst hk
    rw [if_pos rfl, hw.lookup_eq_none_iff]
    intro y hy
    have hnodup : (key' :: (t.remove key').walk.map Prod.fst).Nodup :=
      (hperm.map Prod.fst).nodup_iff.mpr h.nodup
    exact (List.nodup_cons.mp hnodup).1 (List.mem_map.mpr ⟨_, hy, rfl⟩)
  · rw [if_neg hk]
    apply Option.ext
    intro y
    rw [hw.lookup_eq_some_iff, h.lookup_eq_some_iff, ← hperm.mem_iff, List.mem_cons]
    simp [hk]

/-- Insert a list of entries, first entry first. -/
def insertAll (t : HTable n α) (l : List (List.Vector UInt8 n × α)) : HTable n α :=
  l.foldl (fun t p => t.insert p.1 p.2) t

variable {l : List (List.Vector UInt8 n × α)}

theorem walk_insertAll_init (tsize : ℕ) :
    (insertAll (htableInit tsize) l).walk.Perm l := by
  have hperm := (ChainTable.foldl_insert (l := l) hashIndex_lt (init_wf (n := n) tsize).chains).2
  have hnil : ChainTable.items (htableInit tsize : HTable n α) = [] := walk_init tsize
  rwa [hnil, List.append_nil] at hperm

/-- Distinct entries. -/
theorem insertAll_init_wf (hnodup : (l.map Prod.fst).Nodup) (tsize : ℕ) :
    WF (insertAll (htableInit tsize) l) :=
  ⟨(ChainTable.foldl_insert hashIndex_lt (init_wf tsize).chains).1,
    ((walk_insertAll_init tsize).map Prod.fst).nodup_iff.mpr hnodup⟩

theorem WF.nodup_walk (h : WF t) : (t.walk.map Prod.fst).Nodup := h.nodup

/-- A table that is written out and read back is the same map. -/
theorem WF.lookup_insertAll_walk (h : WF t) (tsize : ℕ) (key : List.Vector UInt8 n) :
    (insertAll (htableInit tsize) t.walk).lookup key = t.lookup key := by
  apply Option.ext
  intro x
  rw [(insertAll_init_wf h.nodup_walk tsize).lookup_eq_some_iff, h.lookup_eq_some_iff,
    (walk_insertAll_init tsize).mem_iff]

end HTable

end TCBackup.Client
