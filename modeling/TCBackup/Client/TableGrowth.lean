import TCBackup.Client.TableRefines

/-!
# What growing does to the items of one key (`client/lib/htable.c`)

`grow_table` links the items of a chain one after the other in front of their new chains, and so
turns their order around. Containers insert without looking up, so there may be several items
under one key.

## Main definitions

- `Reachable` — the tables between two calls, for items under any keys
- `Growable` — the tables on which `grow_table` may be called
- `Invisible` — growing changes no lookup

## Main results

- `invisible_iff` — growing is invisible where no key has two items
-/

namespace TCBackup.Client.TableMemory

open ByteFile

variable {n : ℕ}

/-- A walk meets the item. -/
def Holds (m : ℕ → Link n) (t : Table) (item : ℕ) : Prop :=
  ∃ items t', Returns (fun fuel => walkFrom fuel m (first t)) (items, t') ∧ item ∈ items

/-- The tables that calls lead to. An item that is inserted is not in the table. -/
inductive Reachable : (ℕ → Link n) → Table → Prop
  | init (m : ℕ → Link n) {tsize : ℕ} (h : tsize < 2 ^ 31) : Reachable m (init tsize)
  | insert {m m' : ℕ → Link n} {t t' : Table} (key : List.Vector UInt8 n) (item : ℕ)
      (h : Reachable m t) (hitem : ¬Holds m t item)
      (hreturns : Returns (fun fuel => insert fuel m t key item) (m', t')) : Reachable m' t'
  | remove {m m' : ℕ → Link n} {t t' : Table} {p : Option ℕ} (key : List.Vector UInt8 n)
      (h : Reachable m t) (hreturns : Returns (fun fuel => remove fuel m t key) (p, m', t')) :
      Reachable m' t'
  | first {m : ℕ → Link n} {t : Table} (h : Reachable m t) : Reachable m (first t)
  | next {m : ℕ → Link n} {t : Table} (h : Reachable m t) : Reachable m (next m t)

/-- Between two calls, or in `insert` behind the new link. -/
def Growable (m : ℕ → Link n) (t : Table) : Prop :=
  Reachable m t ∨ ∃ m₀ t₀ key item, Reachable m₀ t₀ ∧ ¬Holds m₀ t₀ item ∧
    link m₀ t₀ key item = (m, t)

/-- `grow_table` returns, and `lookup` finds the same item before and after it. -/
def Invisible (m : ℕ → Link n) (t : Table) : Prop :=
  ∃ m' t', Returns (fun fuel => growTable fuel m t) (m', t') ∧ ∀ key, ∃ p,
    Returns (fun fuel => lookup fuel m t key) p ∧ Returns (fun fuel => lookup fuel m' t' key) p

/-- No two items of the table have the same key. -/
def DistinctKeys (m : ℕ → Link n) (t : Table) : Prop :=
  ∀ items t', Returns (fun fuel => walkFrom fuel m (first t)) (items, t') →
    (items.map fun item => (m item).key).Nodup

variable {m : ℕ → Link n} {t : Table} {c : HTable n ℕ}

theorem Represents.walk (h : Represents m t c) : ∃ t',
    Returns (fun fuel => walkFrom fuel m (TableMemory.first t)) (c.items.map Prod.snd, t') := by
  obtain ⟨i, hwalk⟩ := walkFrom_spec h.first
  exact ⟨_, c.items.length, hwalk⟩

theorem Represents.holds_iff (h : Represents m t c) {item : ℕ} :
    Holds m t item ↔ item ∈ c.items.map Prod.snd := by
  obtain ⟨t', hwalk⟩ := h.walk
  constructor
  · rintro ⟨items, t'', hreturns, hitem⟩
    rwa [(Prod.mk.inj (hreturns.unique hwalk)).1] at hitem
  · exact fun hitem => ⟨_, t', hwalk, hitem⟩

theorem Represents.keys (h : Represents m t c) :
    (c.items.map Prod.snd).map (fun item => (m item).key) = c.keys := by
  rw [List.map_map]
  refine List.map_congr_left fun e he => ?_
  obtain ⟨i, hi, he⟩ := ChainTable.mem_items.mp he
  exact (h.chains i hi).2 e he

theorem Represents.distinctKeys_iff (h : Represents m t c) : DistinctKeys m t ↔ c.keys.Nodup := by
  obtain ⟨t', hwalk⟩ := h.walk
  constructor
  · intro hkeys
    rw [← h.keys]
    exact hkeys _ t' hwalk
  · intro hnodup items t'' hreturns
    rw [(Prod.mk.inj (hreturns.unique hwalk)).1, h.keys]
    exact hnodup

/-- Between two calls the table is one of chains. -/
theorem Reachable.reached (h : Reachable m t) : ∃ c, Reached m t c := by
  induction h with
  | init m h => exact ⟨_, reached_init m h⟩
  | insert key item h hitem hreturns ih =>
    obtain ⟨c, hc⟩ := ih
    have hfresh := mt hc.toRepresents.holds_iff.mpr hitem
    by_cases hnum : c.numItems + 1 < 2 ^ 31
    · obtain ⟨m', t', hrun, hreached, -⟩ := hc.insert hfresh hnum key
      obtain ⟨rfl, rfl⟩ := Prod.mk.inj (hreturns.unique ⟨_, hrun⟩)
      exact ⟨_, hreached⟩
    · have hb := hc.buckets_le
      have hroom := hc.room
      obtain ⟨N, hN⟩ := hreturns
      have hnone := hc.insert_overflow hfresh (by omega) key N
      exact absurd ((hN N (le_refl _)).symm.trans hnone) (by simp)
  | remove key h hreturns ih =>
    obtain ⟨c, hc⟩ := ih
    obtain ⟨m', t', hrun, hreached, -⟩ := hc.remove key
    have hsame := hreturns.unique ⟨_, hrun⟩
    obtain ⟨rfl, rfl⟩ := Prod.mk.inj (Prod.mk.inj hsame).2
    exact ⟨_, hreached⟩
  | first h ih =>
    obtain ⟨c, hc⟩ := ih
    exact ⟨c, hc.congr _ _⟩
  | next h ih =>
    obtain ⟨c, hc⟩ := ih
    exact ⟨c, hc.congr _ _⟩

/-- Where `grow_table` may be called, the table is full at most. -/
theorem Growable.represents (h : Growable m t) : ∃ c, Represents m t c ∧
    (∃ j ≤ 29, c.buckets = 2 ^ j) ∧ c.numItems ≤ c.buckets * 4 := by
  rcases h with h | ⟨m₀, t₀, key, item, h, hitem, hlink⟩
  · obtain ⟨c, hc⟩ := h.reached
    exact ⟨c, hc.toRepresents, hc.pow, hc.room.le⟩
  · obtain ⟨c, hc⟩ := h.reached
    have hb := hc.buckets_le
    have hroom := hc.room
    have hlinked := hc.toRepresents.link (mt hc.toRepresents.holds_iff.mpr hitem) (by omega) key
    rw [hlink] at hlinked
    exact ⟨_, hlinked, hc.pow, hroom⟩

theorem Represents.lookup_returns (h : Represents m t c) (key : List.Vector UInt8 n) :
    Returns (fun fuel => TableMemory.lookup fuel m t key) (c.lookup key) :=
  ⟨c.numItems + 1, fun _ hfuel => h.lookup key hfuel⟩

/-- An empty table grows at any size. -/
theorem Represents.invisible_of_nil (h : Represents m t c) (hb : c.buckets ≤ 2 ^ 29)
    (hitems : c.items = []) : Invisible m t := by
  have hfirst := h.first
  rw [hitems] at hfirst
  have hbig := h.bigger (by omega) m
  refine ⟨m, TableMemory.bigger t, ⟨0, fun fuel _ => ?_⟩, fun key => ⟨none, ?_, ?_⟩⟩
  · change growLoop fuel m (TableMemory.first t) (TableMemory.bigger t)
      (TableMemory.first t).walkptr = _
    rw [hfirst.walkptr_nil]
    cases fuel <;> rfl
  · have hnone : c.lookup key = none := by
      rw [HTable.lookup, h.wf.lookup_eq_none_iff, ChainTable.keys, hitems]
      exact List.not_mem_nil
    exact hnone ▸ h.lookup_returns key
  · exact hbig.lookup_returns key

/-- The result of growing is as good as the table if lookups on the chains agree. -/
theorem invisible_iff_lookups {m' : ℕ → Link n} {t' : Table} {d : HTable n ℕ} (h : Represents m t c)
    (hgrow : Returns (fun fuel => growTable fuel m t) (m', t')) (h' : Represents m' t' d) :
    Invisible m t ↔ ∀ key, d.lookup key = c.lookup key := by
  constructor
  · rintro ⟨m'', t'', hreturns, hsame⟩ key
    obtain ⟨rfl, rfl⟩ := Prod.mk.inj (hreturns.unique hgrow)
    obtain ⟨p, hp, hp'⟩ := hsame key
    rw [← hp.unique (h.lookup_returns key), hp'.unique (h'.lookup_returns key)]
  · intro hsame
    exact ⟨m', t', hgrow, fun key =>
      ⟨_, h.lookup_returns key, hsame key ▸ h'.lookup_returns key⟩⟩

/-- Growing, on the chains. -/
theorem Represents.invisible_iff_keys (h : Represents m t c) (hpow : ∃ j ≤ 29, c.buckets = 2 ^ j)
    (hfull : c.numItems ≤ c.buckets * 4) :
    Invisible m t ↔ (c.items = [] ∨ c.buckets < 2 ^ 29) ∧ c.keys.Nodup := by
  obtain ⟨j, hj, hbuckets⟩ := hpow
  have hb : c.buckets ≤ 2 ^ 29 := hbuckets ▸ Nat.pow_le_pow_right (by decide) hj
  by_cases hitems : c.items = []
  · have hkeys : c.keys = [] := by rw [ChainTable.keys, hitems, List.map_nil]
    rw [hkeys]
    exact iff_of_true (h.invisible_of_nil hb hitems) ⟨.inl hitems, List.nodup_nil⟩
  · by_cases hlt : c.buckets < 2 ^ 29
    · have hj' : j ≤ 28 := by
        by_contra hge
        obtain rfl : j = 29 := by omega
        omega
      obtain ⟨m', t', hgrow, hreached, -⟩ := h.growTable hj' hbuckets hfull
      rw [invisible_iff_lookups h ⟨_, hgrow⟩ hreached.toRepresents]
      have hlookups := ChainTable.lookup_grow_iff hashIndex_lt h.wf h.distinct
      exact hlookups.trans (and_iff_right (.inr hlt)).symm
    · refine iff_of_false ?_ fun hcond => hcond.1.elim hitems hlt
      rintro ⟨m', t', ⟨N, hgrow⟩, -⟩
      have hnone := growTable_overflow h hitems (by omega) N
      exact absurd ((hgrow N (le_refl _)).symm.trans hnone) (by simp)

/-- Growing changes no lookup exactly where no two items have the same key, and the table is
empty or has less than 2^29 buckets. -/
theorem invisible_iff (h : Growable m t) :
    Invisible m t ↔ (t.num_items = 0 ∨ t.buckets < 2 ^ 29) ∧ DistinctKeys m t := by
  obtain ⟨c, hc, hpow, hfull⟩ := h.represents
  rw [hc.invisible_iff_keys hpow hfull, hc.distinctKeys_iff, ← hc.length_items, List.length_eq_zero_iff,
    hc.buckets]

/-- Items in a table that starts with one bucket, under these keys. -/
def filled (key : ℕ → List.Vector UInt8 1) : ℕ → (ℕ → Link 1) × Table
  | 0 => (fun _ => ⟨none, key 0⟩, init 0)
  | i + 1 => link (filled key i).1 (filled key i).2 (key i) i

theorem items_fresh {c : HTable 1 ℕ} {key : ℕ → List.Vector UInt8 1} {i : ℕ}
    (hitems : c.items.Perm ((List.range i).map fun j => (key j, j))) : i ∉ c.items.map Prod.snd := by
  intro hmem
  have hmem' := (hitems.map Prod.snd).mem_iff.mp hmem
  rw [List.map_map] at hmem'
  obtain ⟨j, hj, hji⟩ := List.mem_map.mp hmem'
  exact absurd (List.mem_range.mp hj) (by rw [← hji]; exact lt_irrefl j)

/-- The table grows when the fourth item is inserted. -/
theorem filled_reachable (key : ℕ → List.Vector UInt8 1) {i : ℕ} (hi : i < 4) :
    Reachable (filled key i).1 (filled key i).2 ∧
      ∃ c, Reached (filled key i).1 (filled key i).2 c ∧ c.buckets = 1 ∧ c.numItems = i ∧
        c.items.Perm ((List.range i).map fun j => (key j, j)) := by
  induction i with
  | zero =>
    refine ⟨.init _ (by decide), _, reached_init _ (by decide), rfl, rfl, ?_⟩
    have hnil : (htableInit 0 : HTable 1 ℕ).items = [] := HTable.walk_init 0
    exact .of_eq hnil
  | succ i ih =>
    obtain ⟨hreachable, c, hc, hbuckets, hnum, hitems⟩ := ih (by omega)
    have hfresh := items_fresh hitems
    have hperm := ChainTable.items_link_perm hc.wf.bound (key i) i
    refine ⟨hreachable.insert (key i) i (mt hc.toRepresents.holds_iff.mp hfresh)
      ⟨0, fun fuel _ => ?_⟩, _,
      ⟨hc.toRepresents.link hfresh (by omega) (key i), hc.pow, ?_⟩, hbuckets, ?_, ?_⟩
    · dsimp only
      rw [insert, insertWith_eq hc.toRepresents, hc.max_items_eq, hc.num_items, hnum, hbuckets,
        word_of_lt (by omega), if_neg (by omega)]
      rfl
    · change c.numItems + 1 < c.buckets * 4
      omega
    · change c.numItems + 1 = i + 1
      omega
    · rw [List.range_succ, List.map_append, List.map_singleton]
      exact (hperm.trans (hitems.cons _)).trans (List.perm_append_singleton _ _).symm

/-- With the fourth item it is full. -/
theorem filled_growable (key : ℕ → List.Vector UInt8 1) : Growable (filled key 4).1 (filled key 4).2 ∧
    ∃ c, Represents (filled key 4).1 (filled key 4).2 c ∧ c.buckets = 1 ∧
      c.keys.Perm ((List.range 4).map key) := by
  obtain ⟨hreachable, c, hc, hbuckets, hnum, hitems⟩ := filled_reachable key (show 3 < 4 by decide)
  have hfresh := items_fresh hitems
  refine ⟨.inr ⟨_, _, key 3, 3, hreachable, mt hc.toRepresents.holds_iff.mp hfresh, rfl⟩, _,
    hc.toRepresents.link hfresh (by omega) (key 3), hbuckets, ?_⟩
  have hkeys : c.keys.Perm ((List.range 3).map key) := by
    have hmapped := hitems.map Prod.fst
    rwa [List.map_map] at hmapped
  rw [List.range_succ, List.map_append, List.map_singleton]
  exact ((ChainTable.keys_link_perm hc.wf.bound (key 3) 3).trans (hkeys.cons _)).trans
    (List.perm_append_singleton _ _).symm

/-- Four items under four keys are found in the two buckets as in one. -/
theorem invisible_at_four :
    Invisible (filled (fun i => fixed 1 [i.toUInt8]) 4).1 (filled (fun i => fixed 1 [i.toUInt8]) 4).2 := by
  obtain ⟨hgrowable, c, hc, hbuckets, hkeys⟩ := filled_growable fun i => fixed 1 [i.toUInt8]
  refine (invisible_iff hgrowable).mpr ⟨.inr ?_, hc.distinctKeys_iff.mpr (hkeys.nodup_iff.mpr (by decide))⟩
  rw [hc.buckets, hbuckets]
  decide

def oneKey : List.Vector UInt8 1 := ⟨[65], rfl⟩

/-- Under one key, growing hides the fourth item behind the first one. -/
theorem fourth_item_is_hidden : Growable (filled (fun _ => oneKey) 4).1 (filled (fun _ => oneKey) 4).2 ∧
    ¬Invisible (filled (fun _ => oneKey) 4).1 (filled (fun _ => oneKey) 4).2 := by
  obtain ⟨hgrowable, c, hc, -, hkeys⟩ := filled_growable fun _ => oneKey
  refine ⟨hgrowable, fun hinvisible => ?_⟩
  have hnodup := hc.distinctKeys_iff.mp ((invisible_iff hgrowable).mp hinvisible).2
  exact absurd (hkeys.nodup_iff.mp hnodup) (by decide)

end TCBackup.Client.TableMemory
