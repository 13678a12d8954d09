import TCBackup.Global
import TCBackup.Lib.ChainTable
import Mathlib.Data.List.Find

/-!
# The server's hash table (`server/lib/htable.c`)

The table caches the hash and the chain of the last key looked up, and
`htable_add` relies on that cache. Each link keeps the hash it was added with.
-/

namespace TCBackup.Server

open ByteFile

/-- A link: the cached hash and the item it belongs to. -/
structure Hlink (α : Type*) where
  hash : ℕ
  item : α
  deriving DecidableEq, Repr

/-- `htable` with its `hash` and `index` temp storage. -/
structure HTable (α : Type*) where
  chains : ChainTable Fingerprint (Hlink α)
  hash : ℕ
  index : ℕ

variable {α : Type*}

/-- `*(uint32_t *)key`. -/
def keyHash (key : Fingerprint) : ℕ := leNat (key.toList.take 4)

/-- `hash & mask`, where `mask` is one less than the number of buckets. -/
def keyIndex (buckets : ℕ) (key : Fingerprint) : ℕ := keyHash key &&& (buckets - 1)

theorem keyIndex_lt (b : ℕ) (key : Fingerprint) (hb : 0 < b) : keyIndex b key < b := by
  have : keyHash key &&& (b - 1) ≤ b - 1 := Nat.and_le_right
  rw [keyIndex]
  omega

/-- `htable_init`: a quarter of the expected size, rounded to a power of two. -/
def htableInit (tsize : ℕ) : HTable α := ⟨ChainTable.empty (2 ^ Nat.size (tsize / 4)), 0, 0⟩

def hashIndex (tbl : HTable α) (key : Fingerprint) : HTable α :=
  { tbl with hash := keyHash key, index := keyIndex tbl.chains.buckets key }

/-- `htable_lookup` compares the cached hash before the key. -/
def htableLookup (tbl : HTable α) (key : Fingerprint) : Option α × HTable α :=
  let tbl := hashIndex tbl key
  (((tbl.chains.table tbl.index).find? fun p => tbl.hash = p.2.hash ∧ key = p.1).map
    fun p => p.2.item, tbl)

/-- Link the item into the cached chain with the cached hash. -/
def linkCached (tbl : HTable α) (key : Fingerprint) (item : α) : HTable α :=
  { tbl with chains := tbl.chains.linkAt tbl.index key ⟨tbl.hash, item⟩ }

/-- One step of the copy loop of `grow_table`: `htable_insert` into the bigger
table. The bigger table cannot fill up while it is being filled, so its own
growth test never fires. -/
def growInsert (big : HTable α) (key : Fingerprint) (item : α) : HTable α :=
  match htableLookup big key with
  | (some _, big) => big
  | (none, big) => linkCached big key item

def growTable (tbl : HTable α) : HTable α :=
  tbl.chains.items.foldl (fun big p => growInsert big p.1 p.2.item)
    ⟨ChainTable.empty (tbl.chains.buckets * 2), 0, 0⟩

/-- `htable_add`: no lookup of its own. -/
def htableAdd (tbl : HTable α) (key : Fingerprint) (item : α) : HTable α :=
  let tbl := linkCached tbl key item
  if tbl.chains.buckets * 4 ≤ tbl.chains.numItems then growTable tbl else tbl

/-- `htable_insert`: an item whose key is present is not added. -/
def htableInsert (tbl : HTable α) (key : Fingerprint) (item : α) : HTable α :=
  match htableLookup tbl key with
  | (some _, tbl) => tbl
  | (none, tbl) => htableAdd tbl key item

/-- The items in the order of `foreach_htable`. -/
def foreachHtable (tbl : HTable α) : List (Fingerprint × α) :=
  tbl.chains.items.map fun p => (p.1, p.2.item)

/-- Chains in order, every link under its own hash, no key twice. -/
structure HTable.WF (tbl : HTable α) : Prop where
  chains : tbl.chains.WF keyIndex
  hashed : ∀ p ∈ tbl.chains.items, p.2.hash = keyHash p.1
  nodup : tbl.chains.keys.Nodup

/-- What a lookup returns. -/
def HTable.find (tbl : HTable α) (key : Fingerprint) : Option α := (htableLookup tbl key).1

@[simp] theorem htableLookup_snd (tbl : HTable α) (key : Fingerprint) :
    (htableLookup tbl key).2 = hashIndex tbl key := rfl

theorem hashIndex_wf {tbl : HTable α} (h : tbl.WF) (key : Fingerprint) : (hashIndex tbl key).WF :=
  ⟨h.chains, h.hashed, h.nodup⟩

/-- Comparing the cached hash as well does not change what is found. -/
theorem HTable.WF.find_eq {tbl : HTable α} (h : tbl.WF) (key : Fingerprint) :
    tbl.find key = (tbl.chains.lookup keyIndex key).map Hlink.item := by
  have hfind : (tbl.chains.table (keyIndex tbl.chains.buckets key)).find?
      (fun p => decide (keyHash key = p.2.hash ∧ key = p.1)) =
      (tbl.chains.table (keyIndex tbl.chains.buckets key)).find? (fun p => decide (p.1 = key)) := by
    apply List.find?_congr
    intro p hp
    have hk := h.chains.placed _ p hp
    have hh := h.hashed p (h.chains.mem_items_iff.mpr (by rwa [hk]))
    rw [decide_eq_decide]
    constructor
    · exact fun hpk => hpk.2.symm
    · rintro rfl
      exact ⟨hh.symm, rfl⟩
  change ((tbl.chains.table (keyIndex tbl.chains.buckets key)).find?
    (fun p => decide (keyHash key = p.2.hash ∧ key = p.1))).map (fun p => p.2.item) = _
  rw [hfind, ChainTable.lookup, Option.map_map]
  rfl

theorem HTable.WF.find_eq_some_iff {tbl : HTable α} (h : tbl.WF) {key : Fingerprint} {x : α} :
    tbl.find key = some x ↔ (key, x) ∈ foreachHtable tbl := by
  rw [h.find_eq, Option.map_eq_some_iff, foreachHtable, List.mem_map]
  constructor
  · rintro ⟨l, hl, rfl⟩
    exact ⟨(key, l), h.chains.mem_of_lookup hl, rfl⟩
  · rintro ⟨⟨k, l⟩, hm, he⟩
    obtain ⟨rfl, rfl⟩ := Prod.mk.inj he
    exact ⟨l, (h.chains.lookup_eq_some_iff h.nodup).mpr hm, rfl⟩

theorem HTable.WF.find_eq_none_iff {tbl : HTable α} (h : tbl.WF) {key : Fingerprint} :
    tbl.find key = none ↔ key ∉ tbl.chains.keys := by
  rw [h.find_eq, Option.map_eq_none_iff, h.chains.lookup_eq_none_iff]

theorem foreachHtable_keys (tbl : HTable α) :
    (foreachHtable tbl).map Prod.fst = tbl.chains.keys := by
  simp [foreachHtable, ChainTable.keys]

theorem htableInit_wf (tsize : ℕ) : (htableInit tsize : HTable α).WF := by
  refine ⟨ChainTable.empty_wf (by positivity) (fun k => keyIndex_lt _ k (by positivity)), ?_, ?_⟩
  · simp [htableInit]
  · simp [htableInit, ChainTable.keys]

theorem htableInit_find (tsize : ℕ) (key : Fingerprint) :
    (htableInit tsize : HTable α).find key = none := by
  rw [(htableInit_wf tsize).find_eq_none_iff]
  simp [htableInit, ChainTable.keys]

/-- After a lookup of the key the cached chain is the key's own. -/
theorem linkCached_hashIndex (tbl : HTable α) (key : Fingerprint) (x : α) :
    (linkCached (hashIndex tbl key) key x).chains =
      tbl.chains.link keyIndex key ⟨keyHash key, x⟩ := rfl

theorem linkCached_wf {tbl : HTable α} (h : tbl.WF) {key : Fingerprint} {x : α}
    (hk : key ∉ tbl.chains.keys) : (linkCached (hashIndex tbl key) key x).WF := by
  have hperm := ChainTable.items_link_perm h.chains.bound key (⟨keyHash key, x⟩ : Hlink α)
  refine ⟨h.chains.link _ _, ?_, ?_⟩
  · intro p hp
    rcases List.mem_cons.mp (hperm.mem_iff.mp hp) with rfl | hp
    · rfl
    · exact h.hashed p hp
  · exact (ChainTable.keys_link_perm h.chains.bound _ _).nodup_iff.mpr
      (List.nodup_cons.mpr ⟨hk, h.nodup⟩)

theorem growInsert_eq {big : HTable α} (h : big.WF) {key : Fingerprint}
    (hk : key ∉ big.chains.keys) (x : α) :
    growInsert big key x = linkCached (hashIndex big key) key x := by
  have hf : (htableLookup big key).1 = none := h.find_eq_none_iff.mpr hk
  unfold growInsert
  split
  · next heq => simp [heq] at hf
  · next heq => rw [← htableLookup_snd, heq]

/-- Refilling a table copies every link with its hash. -/
theorem foldl_growInsert {l : List (Fingerprint × Hlink α)} {big : HTable α} (h : big.WF)
    (hl : ∀ p ∈ l, p.2.hash = keyHash p.1) (hd : (l.map Prod.fst ++ big.chains.keys).Nodup) :
    (l.foldl (fun big p => growInsert big p.1 p.2.item) big).WF ∧
      (l.foldl (fun big p => growInsert big p.1 p.2.item) big).chains =
        l.foldl (fun c p => c.link keyIndex p.1 p.2) big.chains := by
  induction l generalizing big with
  | nil => exact ⟨h, rfl⟩
  | cons p l ih =>
    rw [List.map_cons, List.cons_append, List.nodup_cons, List.mem_append] at hd
    obtain ⟨hp, hd⟩ := hd
    have hk : p.1 ∉ big.chains.keys := fun hk => hp (.inr hk)
    have hstep := growInsert_eq h hk p.2.item
    have hchains : (growInsert big p.1 p.2.item).chains = big.chains.link keyIndex p.1 p.2 := by
      rw [hstep, linkCached_hashIndex, ← hl p (by simp)]
    have hwf : (growInsert big p.1 p.2.item).WF := hstep ▸ linkCached_wf h hk
    have hd' : (l.map Prod.fst ++ (growInsert big p.1 p.2.item).chains.keys).Nodup := by
      have hperm := ChainTable.keys_link_perm h.chains.bound p.1 p.2
      rw [hchains, (hperm.append_left _).nodup_iff]
      exact List.nodup_middle.mpr (List.nodup_cons.mpr ⟨by rwa [List.mem_append], hd⟩)
    obtain ⟨hw, he⟩ := ih hwf (fun q hq => hl q (by simp [hq])) hd'
    refine ⟨hw, ?_⟩
    rw [List.foldl_cons, he, hchains, List.foldl_cons]

theorem growTable_wf {tbl : HTable α} (h : tbl.WF) : (growTable tbl).WF ∧
    (growTable tbl).chains = tbl.chains.grow keyIndex := by
  have hempty : (⟨ChainTable.empty (tbl.chains.buckets * 2), 0, 0⟩ : HTable α).WF := by
    have hpos : 0 < tbl.chains.buckets * 2 := by
      have := h.chains.pos
      omega
    refine ⟨ChainTable.empty_wf hpos (fun k => keyIndex_lt _ k hpos), by simp, ?_⟩
    simp [ChainTable.keys]
  exact foldl_growInsert hempty h.hashed (by simpa [ChainTable.keys] using h.nodup)

/-- The cache that `htable_lookup` leaves is the right one for `htable_add`. -/
theorem htableAdd_hashIndex {tbl : HTable α} (h : tbl.WF) {key : Fingerprint}
    (hk : key ∉ tbl.chains.keys) (x : α) :
    (htableAdd (hashIndex tbl key) key x).WF ∧
      (htableAdd (hashIndex tbl key) key x).chains =
        tbl.chains.insert keyIndex key ⟨keyHash key, x⟩ := by
  have hw := linkCached_wf h hk (x := x)
  have hc := linkCached_hashIndex tbl key x
  rw [htableAdd, ChainTable.insert, ← hc]
  split
  · exact growTable_wf hw
  · exact ⟨hw, rfl⟩

/-- `htable_insert` keeps the item that is there. -/
theorem htableInsert_wf {tbl : HTable α} (h : tbl.WF) (key : Fingerprint) (x : α) :
    (htableInsert tbl key x).WF := by
  unfold htableInsert
  split
  · next heq =>
    rw [← (Prod.mk.inj heq).2]
    exact hashIndex_wf h key
  · next heq =>
    obtain ⟨hf, rfl⟩ := Prod.mk.inj heq
    exact (htableAdd_hashIndex h (h.find_eq_none_iff.mp hf) x).1

theorem htableInsert_of_find {tbl : HTable α} {key : Fingerprint} {y : α}
    (hy : tbl.find key = some y) (x : α) : htableInsert tbl key x = hashIndex tbl key := by
  unfold htableInsert
  split
  · next heq => exact (Prod.mk.inj heq).2.symm
  · next heq => simp [HTable.find, heq] at hy

theorem htableInsert_of_not_find {tbl : HTable α} {key : Fingerprint}
    (hn : tbl.find key = none) (x : α) :
    htableInsert tbl key x = htableAdd (hashIndex tbl key) key x := by
  unfold htableInsert
  split
  · next heq => simp [HTable.find, heq] at hn
  · next heq => rw [← htableLookup_snd, heq]

theorem hashIndex_find (tbl : HTable α) (h : tbl.WF) (key key' : Fingerprint) :
    (hashIndex tbl key).find key' = tbl.find key' := by
  rw [h.find_eq, (hashIndex_wf h key).find_eq]
  rfl

/-- `htable_insert` puts an item only where none is. -/
theorem find_htableInsert {tbl : HTable α} (h : tbl.WF) (key : Fingerprint) (x : α)
    (key' : Fingerprint) :
    (htableInsert tbl key x).find key' =
      if key' = key ∧ tbl.find key = none then some x else tbl.find key' := by
  cases hf : tbl.find key with
  | some y =>
    rw [htableInsert_of_find hf, hashIndex_find tbl h, if_neg (by simp)]
  | none =>
    have hk := h.find_eq_none_iff.mp hf
    obtain ⟨hw, hc⟩ := htableAdd_hashIndex h hk x
    rw [htableInsert_of_not_find hf, hw.find_eq, hc,
      ChainTable.lookup_insert keyIndex_lt h.chains h.nodup hk, h.find_eq key']
    by_cases hkk : key' = key
    · simp [hkk]
    · simp [hkk]

/-- The number of items grows by one for every new key. -/
theorem numItems_htableInsert {tbl : HTable α} (h : tbl.WF) (key : Fingerprint) (x : α) :
    (htableInsert tbl key x).chains.numItems =
      if tbl.find key = none then tbl.chains.numItems + 1 else tbl.chains.numItems := by
  cases hf : tbl.find key with
  | some y =>
    rw [htableInsert_of_find hf, if_neg (by simp)]
    rfl
  | none =>
    obtain ⟨hw, hc⟩ := htableAdd_hashIndex h (h.find_eq_none_iff.mp hf) x
    have hlen := (ChainTable.items_insert_perm keyIndex_lt h.chains key
      (⟨keyHash key, x⟩ : Hlink α)).length_eq
    rw [htableInsert_of_not_find hf, if_pos rfl, hw.chains.count, hc, hlen, List.length_cons,
      h.chains.count]

end TCBackup.Server
