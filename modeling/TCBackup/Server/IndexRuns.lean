import TCBackup.Server.IndexTable

/-!
# The global index as a put-if-absent map (`server/src/index.c`)

Workers insert into the index and look up in it, one call at a time, since every call holds
`mem_index->mutex` from its start to its end. The index is compared with the list of all items
that were loaded or handed to `index_insert`, of which the first one with a hash counts.

## Main definitions

- `Event`, `serve` — the calls of the workers, after `index_open`
- `firstItem`, `answers` — what the list of all items says
- `PutIfAbsent`, `Works` — an index that does what the list says

## Main results

- `Reached.htableInsert` — an insert below 2^31 hashes
- `run_spec`, `run_overflow` — the runs below and beyond
- `index_works_iff` — the runs that work
-/

namespace TCBackup.Server.IndexTable

variable {α : Type*}

/-- A call of a worker. -/
inductive Event (α : Type*)
  | insert (worker : ℕ) (hash : Fingerprint) (item : α)
  | lookup (worker : ℕ) (key : Fingerprint)

/-- The calls one after the other: what the lookups return, and the table. -/
def run (fuel : ℕ) : Table α → List (Event α) → Option (List (Option α) × Table α)
  | tbl, [] => some ([], tbl)
  | tbl, .insert _ hash item :: events =>
    match indexInsert fuel tbl hash item with
    | none => none
    | some tbl => run fuel tbl events
  | tbl, .lookup _ key :: events =>
    match indexLookup tbl key with
    | none => none
    | some (p, tbl) => (run fuel tbl events).map fun (ps, tbl) => (p :: ps, tbl)

/-- A server that starts with the stored items. -/
def serve (fuel : ℕ) (stored : List (Fingerprint × α)) (events : List (Event α)) :
    Option (List (Option α) × Table α) :=
  match indexOpen fuel stored with
  | none => none
  | some tbl => run fuel tbl events

/-- The items handed to `index_insert`, in the order of the calls. -/
def inserted (events : List (Event α)) : List (Fingerprint × α) :=
  events.filterMap fun
    | .insert _ hash item => some (hash, item)
    | .lookup _ _ => none

def firstItem (all : List (Fingerprint × α)) (key : Fingerprint) : Option α :=
  (all.find? fun p => p.1 = key).map Prod.snd

def hashes (all : List (Fingerprint × α)) : Finset Fingerprint := (all.map Prod.fst).toFinset

/-- What lookups have to return. -/
def answers : List (Fingerprint × α) → List (Event α) → List (Option α)
  | _, [] => []
  | all, .insert _ hash item :: events => answers (all ++ [(hash, item)]) events
  | all, .lookup _ key :: events => firstItem all key :: answers all events

/-- Every hash has the first item that came with it, every item lies in the chain of its own
hash, and the number of items is that of the hashes. -/
structure PutIfAbsent (tbl : Table α) (all : List (Fingerprint × α)) : Prop where
  lookup : ∀ key, ∃ tbl', indexLookup tbl key = some (firstItem all key, tbl')
  placed : ∀ i, ∀ p ∈ tbl.table i, keyHash p.1 &&& tbl.mask = i ∧ p.2.hash = keyHash p.1
  count : tbl.num_items = (hashes all).card

/-- All calls return, the lookups with the right items, and leave a table that is right. -/
def Works (stored : List (Fingerprint × α)) (events : List (Event α)) : Prop :=
  ∃ ps tbl, (∃ N, ∀ fuel, N ≤ fuel → serve fuel stored events = some (ps, tbl)) ∧
    ps = answers stored events ∧ PutIfAbsent tbl (stored ++ inserted events)

theorem firstItem_concat (all : List (Fingerprint × α)) (hash : Fingerprint) (item : α)
    (key : Fingerprint) : firstItem (all ++ [(hash, item)]) key =
      if key = hash ∧ firstItem all hash = none then some item else firstItem all key := by
  rw [firstItem, firstItem, firstItem, List.find?_append]
  by_cases hk : key = hash
  · subst hk
    cases hfind : all.find? fun p => p.1 = key <;> simp
  · have hne : ¬hash = key := Ne.symm hk
    simp [hk, hne]

theorem firstItem_eq_none_iff {all : List (Fingerprint × α)} {key : Fingerprint} :
    firstItem all key = none ↔ key ∉ hashes all := by
  rw [firstItem, Option.map_eq_none_iff, List.find?_eq_none, hashes, List.mem_toFinset, List.mem_map]
  constructor
  · rintro h ⟨p, hp, rfl⟩
    exact h p hp (by simp)
  · rintro h p hp hk
    exact h ⟨p, hp, of_decide_eq_true hk⟩

theorem card_hashes_concat (all : List (Fingerprint × α)) (hash : Fingerprint) (item : α) :
    (hashes (all ++ [(hash, item)])).card =
      if firstItem all hash = none then (hashes all).card + 1 else (hashes all).card := by
  have hinsert : hashes (all ++ [(hash, item)]) = insert hash (hashes all) := by
    ext key
    simp [hashes]
  rw [hinsert]
  split
  · next hnone => rw [Finset.card_insert_of_notMem (firstItem_eq_none_iff.mp hnone)]
  · next hsome =>
    rw [firstItem_eq_none_iff, not_not] at hsome
    rw [Finset.insert_eq_of_mem hsome]

/-- Less than four items for every bucket, and the items are those of the list. -/
structure Reached (tbl : Table α) (all : List (Fingerprint × α)) : Prop extends Sound tbl where
  pow : ∃ j ≤ 29, tbl.buckets = 2 ^ j
  room : tbl.num_items < tbl.buckets * 4
  find : ∀ key, (toHTable tbl).find key = firstItem all key
  count : tbl.num_items = (hashes all).card

variable {tbl : Table α} {all : List (Fingerprint × α)}

theorem reached_init : Reached (htableInit 16777215 : Table α) [] := by
  have hsize : Nat.size (16777215 / 4) = 22 := by decide
  refine ⟨⟨rfl, rfl, htableInit_wf 16777215⟩, ⟨22, by decide, ?_⟩, ?_,
    fun key => htableInit_find 16777215 key, rfl⟩
  · change 2 ^ Nat.size (16777215 / 4) = 2 ^ 22
    rw [hsize]
  · change 0 < 2 ^ Nat.size (16777215 / 4) * 4
    positivity

theorem Reached.buckets_le (h : Reached tbl all) : tbl.buckets ≤ 2 ^ 29 := by
  obtain ⟨j, hj, hb⟩ := h.pow
  rw [hb]
  exact Nat.pow_le_pow_right (by decide) hj

/-- `htable_lookup` changes the cached hash and chain only. -/
theorem Reached.lookup (h : Reached tbl all) (key : Fingerprint) :
    indexLookup tbl key = some (firstItem all key, hashIndex tbl key) ∧
      Reached (hashIndex tbl key) all := by
  refine ⟨?_, h.toSound.hashIndex key, h.pow, h.room, fun key' => ?_, h.count⟩
  · rw [indexLookup, h.toSound.htableLookup, h.find]
  · rw [toHTable_hashIndex h.toSound, hashIndex_find _ h.wf, h.find]

theorem indexInsert_eq (fuel : ℕ) (tbl : Table α) (hash : Fingerprint) (item : α) :
    indexInsert fuel tbl hash item = htableInsert fuel tbl hash item := rfl

theorem Reached.absent (h : Reached tbl all) {hash : Fingerprint} (hnone : firstItem all hash = none) :
    hash ∉ (toHTable tbl).chains.keys := by
  rw [← h.wf.find_eq_none_iff, h.find, hnone]

theorem Reached.max_items_eq (h : Reached tbl all) : tbl.max_items = tbl.buckets * 4 := by
  have hb := h.buckets_le
  rw [h.max_items, word_of_lt (by omega)]

/-- `htable_add` behind a lookup of an absent hash. -/
theorem Reached.htableAdd (h : Reached tbl all) {hash : Fingerprint}
    (hnone : firstItem all hash = none) (hnum : tbl.num_items + 1 < 2 ^ 31) (item : α) :
    ∃ tbl', (∀ fuel, 0 < fuel → htableAdd fuel (hashIndex tbl hash) hash item = some tbl') ∧
      Sound tbl' ∧ (∃ j ≤ 29, tbl'.buckets = 2 ^ j) ∧ tbl'.num_items < tbl'.buckets * 4 ∧
      toHTable tbl' = Server.htableAdd (Server.hashIndex (toHTable tbl) hash) hash item := by
  have hroom := h.room
  have habsent := h.absent hnone
  have hpush := h.toSound.push (by omega) habsent item
  have hchains := toHTable_push h.toSound (by omega) hash item
  have hcount : (push (hashIndex tbl hash) hash item).num_items = tbl.num_items + 1 :=
    word_of_lt (show tbl.num_items + 1 < 2 ^ 32 by omega)
  have hrun : ∀ fuel, IndexTable.htableAdd fuel (hashIndex tbl hash) hash item =
      if tbl.buckets * 4 ≤ tbl.num_items + 1 then
        growTable fuel (push (hashIndex tbl hash) hash item)
      else some (push (hashIndex tbl hash) hash item) := by
    intro fuel
    rw [IndexTable.htableAdd, addWith_eq h.toSound, h.max_items_eq, word_of_lt (by omega)]
  have hadd : Server.htableAdd (Server.hashIndex (toHTable tbl) hash) hash item =
      if tbl.buckets * 4 ≤ tbl.num_items + 1 then
        Server.growTable (linkCached (Server.hashIndex (toHTable tbl) hash) hash item)
      else linkCached (Server.hashIndex (toHTable tbl) hash) hash item := rfl
  rw [hadd]
  simp only [hrun]
  by_cases hfull : tbl.buckets * 4 ≤ tbl.num_items + 1
  · obtain ⟨j, hj, hpow⟩ := h.pow
    have hj' : j ≤ 28 := by
      by_contra hlt
      obtain rfl : j = 29 := by omega
      omega
    have hb : tbl.buckets ≤ 2 ^ 28 := hpow ▸ Nat.pow_le_pow_right (by decide) hj'
    have hbuckets : (push (hashIndex tbl hash) hash item).buckets = tbl.buckets := rfl
    obtain ⟨tbl', hgrow, hsound, hsame⟩ := hpush.growTable
      (by rw [hcount, hbuckets]; omega) (by rw [hbuckets]; omega)
    have hchains' : (toHTable tbl').chains =
        (toHTable (push (hashIndex tbl hash) hash item)).chains.grow keyIndex := by
      rw [hsame, (growTable_wf hpush.wf).2]
    have hb' : tbl'.buckets = tbl.buckets * 2 := by
      have hgrown := ChainTable.buckets_grow keyIndex_lt hpush.wf.chains
      rw [← hchains'] at hgrown
      exact hgrown
    have hnum' : tbl'.num_items = tbl.num_items + 1 := by
      have hgrown := ChainTable.numItems_grow keyIndex_lt hpush.wf.chains
      rw [← hchains'] at hgrown
      exact hgrown.trans hcount
    simp only [if_pos hfull]
    refine ⟨tbl', fun fuel hfuel => ?_, hsound, ⟨j + 1, by omega, ?_⟩, ?_, ?_⟩
    · obtain ⟨fuel, rfl⟩ : ∃ k, fuel = k + 1 := ⟨fuel - 1, by omega⟩
      exact hgrow fuel
    · rw [hb', hpow, pow_succ]
    · rw [hb', hnum']
      omega
    · rw [hsame, hchains]
  · simp only [if_neg hfull]
    refine ⟨_, fun _ _ => rfl, hpush, h.pow, ?_, hchains⟩
    rw [hcount]
    change tbl.num_items + 1 < tbl.buckets * 4
    omega

/-- `htable_insert` below 2^31 hashes. -/
theorem Reached.htableInsert (h : Reached tbl all) {hash : Fingerprint} {item : α}
    (hsmall : (hashes (all ++ [(hash, item)])).card < 2 ^ 31) :
    ∃ tbl', (∀ fuel, 0 < fuel → htableInsert fuel tbl hash item = some tbl') ∧
      Reached tbl' (all ++ [(hash, item)]) := by
  rw [card_hashes_concat] at hsmall
  cases hfirst : firstItem all hash with
  | some x =>
    obtain ⟨-, hreached⟩ := h.lookup hash
    refine ⟨hashIndex tbl hash, fun fuel _ => ?_, hreached.toSound, hreached.pow, hreached.room,
      fun key => ?_, ?_⟩
    · rw [IndexTable.htableInsert, insertWith, h.toSound.htableLookup, h.find, hfirst]
    · rw [firstItem_concat, hfirst, if_neg (by simp), hreached.find]
    · rw [card_hashes_concat, hfirst, if_neg (by simp), hreached.count]
  | none =>
    rw [hfirst, if_pos rfl, ← h.count] at hsmall
    have hnone : (toHTable tbl).find hash = none := by rw [h.find, hfirst]
    obtain ⟨tbl', hrun, hsound, hpow, hroom, hsame⟩ := h.htableAdd hfirst hsmall item
    rw [← htableInsert_of_not_find hnone] at hsame
    refine ⟨tbl', fun fuel hfuel => ?_, hsound, hpow, hroom, fun key => ?_, ?_⟩
    · rw [IndexTable.htableInsert, insertWith_of_absent h.toSound (h.absent hfirst)]
      exact hrun fuel hfuel
    · rw [hsame, find_htableInsert h.wf, firstItem_concat, h.find, h.find]
    · have hnum := numItems_htableInsert h.wf hash item
      rw [← hsame, if_pos hnone] at hnum
      rw [card_hashes_concat, hfirst, if_pos rfl, ← h.count]
      exact hnum

/-- The item with hash number 2^31 is never inserted. -/
theorem Reached.htableInsert_overflow (h : Reached tbl all) {hash : Fingerprint} {item : α}
    (hbefore : (hashes all).card < 2 ^ 31)
    (hafter : ¬(hashes (all ++ [(hash, item)])).card < 2 ^ 31) (fuel : ℕ) :
    IndexTable.htableInsert fuel tbl hash item = none := by
  rw [card_hashes_concat] at hafter
  cases hfirst : firstItem all hash with
  | some x =>
    rw [hfirst, if_neg (by simp)] at hafter
    exact absurd hbefore hafter
  | none =>
    rw [hfirst, if_pos rfl, ← h.count] at hafter
    rw [← h.count] at hbefore
    have hroom := h.room
    have hle := h.buckets_le
    have hbuckets : tbl.buckets = 2 ^ 29 := by omega
    have habsent := h.absent hfirst
    rw [IndexTable.htableInsert, insertWith_of_absent h.toSound habsent, addWith_eq h.toSound,
      h.max_items_eq, word_of_lt (by omega), if_pos (by omega)]
    refine growTable_overflow (h.toSound.push (by omega) habsent item) (fun hnil => ?_) hbuckets fuel
    have hcount := (h.toSound.push (by omega) habsent item).wf.chains.count
    have hlen : (toHTable (push (hashIndex tbl hash) hash item)).chains.items.length = 0 :=
      congrArg List.length hnil
    have hnum : (toHTable (push (hashIndex tbl hash) hash item)).chains.numItems =
        tbl.num_items + 1 := word_of_lt (show tbl.num_items + 1 < 2 ^ 32 by omega)
    omega

theorem Reached.putIfAbsent (h : Reached tbl all) : PutIfAbsent tbl all := by
  refine ⟨fun key => ⟨_, (h.lookup key).1⟩, fun i p hp => ?_, h.count⟩
  have hplaced : keyIndex tbl.buckets p.1 = i := h.wf.chains.placed i p hp
  have hmem : p ∈ (toHTable tbl).chains.items := by
    rw [h.wf.chains.mem_items_iff]
    change p ∈ tbl.table (keyIndex tbl.buckets p.1)
    rwa [hplaced]
  refine ⟨?_, h.wf.hashed p hmem⟩
  rw [h.mask]
  exact hplaced

theorem card_hashes_le (all rest : List (Fingerprint × α)) :
    (hashes all).card ≤ (hashes (all ++ rest)).card := by
  refine Finset.card_le_card fun key hkey => ?_
  rw [hashes, List.map_append, List.toFinset_append]
  exact Finset.mem_union_left _ hkey

/-- Loading below 2^31 hashes. -/
theorem Reached.load {stored : List (Fingerprint × α)} (h : Reached tbl all)
    (hsmall : (hashes (all ++ stored)).card < 2 ^ 31) :
    ∃ tbl', (∀ fuel, 0 < fuel →
        stored.foldlM (fun tbl item => IndexTable.htableInsert fuel tbl item.1 item.2) tbl =
          some tbl') ∧ Reached tbl' (all ++ stored) := by
  induction stored generalizing tbl all with
  | nil => exact ⟨tbl, fun _ _ => rfl, by rwa [List.append_nil]⟩
  | cons item stored ih =>
    rw [List.append_cons] at hsmall ⊢
    obtain ⟨tbl₁, hinsert, h₁⟩ := h.htableInsert (lt_of_le_of_lt (card_hashes_le _ _) hsmall)
    obtain ⟨tbl₂, hload, h₂⟩ := ih h₁ hsmall
    refine ⟨tbl₂, fun fuel hfuel => ?_, h₂⟩
    rw [List.foldlM_cons, hinsert fuel hfuel]
    exact hload fuel hfuel

theorem Reached.load_overflow {stored : List (Fingerprint × α)} (h : Reached tbl all)
    (hbefore : (hashes all).card < 2 ^ 31) (hafter : ¬(hashes (all ++ stored)).card < 2 ^ 31)
    {fuel : ℕ} (hfuel : 0 < fuel) :
    stored.foldlM (fun tbl item => IndexTable.htableInsert fuel tbl item.1 item.2) tbl = none := by
  induction stored generalizing tbl all with
  | nil =>
    rw [List.append_nil] at hafter
    exact absurd hbefore hafter
  | cons item stored ih =>
    rw [List.append_cons] at hafter
    rw [List.foldlM_cons]
    by_cases hstep : (hashes (all ++ [item])).card < 2 ^ 31
    · obtain ⟨tbl₁, hinsert, h₁⟩ := h.htableInsert hstep
      rw [hinsert fuel hfuel]
      exact ih h₁ hstep hafter
    · rw [h.htableInsert_overflow hbefore hstep fuel]
      rfl

/-- The calls below 2^31 hashes. -/
theorem run_spec {events : List (Event α)} (h : Reached tbl all)
    (hsmall : (hashes (all ++ inserted events)).card < 2 ^ 31) :
    ∃ tbl', (∀ fuel, 0 < fuel → run fuel tbl events = some (answers all events, tbl')) ∧
      Reached tbl' (all ++ inserted events) := by
  induction events generalizing tbl all with
  | nil => exact ⟨tbl, fun _ _ => rfl, by rwa [inserted, List.filterMap_nil, List.append_nil]⟩
  | cons event events ih =>
    cases event with
    | insert worker hash item =>
      have hcons : all ++ inserted (.insert worker hash item :: events) =
          all ++ [(hash, item)] ++ inserted events := List.append_cons _ _ _
      rw [hcons] at hsmall ⊢
      obtain ⟨tbl₁, hinsert, h₁⟩ := h.htableInsert (lt_of_le_of_lt (card_hashes_le _ _) hsmall)
      obtain ⟨tbl₂, hrun, h₂⟩ := ih h₁ hsmall
      refine ⟨tbl₂, fun fuel hfuel => ?_, h₂⟩
      rw [run, indexInsert_eq, hinsert fuel hfuel]
      exact hrun fuel hfuel
    | lookup worker key =>
      obtain ⟨hlookup, h₁⟩ := h.lookup key
      obtain ⟨tbl₂, hrun, h₂⟩ := ih h₁ hsmall
      refine ⟨tbl₂, fun fuel hfuel => ?_, h₂⟩
      simp only [run, hlookup, hrun fuel hfuel, Option.map_some]
      rfl

/-- The calls that go beyond. -/
theorem run_overflow {events : List (Event α)} (h : Reached tbl all)
    (hbefore : (hashes all).card < 2 ^ 31)
    (hafter : ¬(hashes (all ++ inserted events)).card < 2 ^ 31) {fuel : ℕ} (hfuel : 0 < fuel) :
    run fuel tbl events = none := by
  induction events generalizing tbl all with
  | nil =>
    rw [inserted, List.filterMap_nil, List.append_nil] at hafter
    exact absurd hbefore hafter
  | cons event events ih =>
    cases event with
    | insert worker hash item =>
      have hcons : all ++ inserted (.insert worker hash item :: events) =
          all ++ [(hash, item)] ++ inserted events := List.append_cons _ _ _
      rw [hcons] at hafter
      rw [run, indexInsert_eq]
      by_cases hstep : (hashes (all ++ [(hash, item)])).card < 2 ^ 31
      · obtain ⟨tbl₁, hinsert, h₁⟩ := h.htableInsert hstep
        rw [hinsert fuel hfuel]
        exact ih h₁ hstep hafter
      · rw [h.htableInsert_overflow hbefore hstep fuel]
    | lookup worker key =>
      obtain ⟨hlookup, h₁⟩ := h.lookup key
      simp only [run, hlookup, ih h₁ hbefore hafter, Option.map_none]

theorem works_of_card_lt {stored : List (Fingerprint × α)} {events : List (Event α)}
    (h : (hashes (stored ++ inserted events)).card < 2 ^ 31) : Works stored events := by
  have hstored : (hashes ([] ++ stored)).card < 2 ^ 31 := lt_of_le_of_lt (card_hashes_le stored _) h
  obtain ⟨tbl₁, hload, h₁⟩ := reached_init.load hstored
  obtain ⟨tbl₂, hrun, h₂⟩ := run_spec h₁ h
  refine ⟨_, tbl₂, ⟨1, fun fuel hfuel => ?_⟩, rfl, h₂.putIfAbsent⟩
  rw [serve, indexOpen, hload fuel hfuel]
  exact hrun fuel hfuel

theorem serve_overflow {stored : List (Fingerprint × α)} {events : List (Event α)}
    (h : ¬(hashes (stored ++ inserted events)).card < 2 ^ 31) {fuel : ℕ} (hfuel : 0 < fuel) :
    serve fuel stored events = none := by
  have hempty : (hashes ([] : List (Fingerprint × α))).card < 2 ^ 31 := by
    change 0 < 2 ^ 31
    decide
  rw [serve, indexOpen]
  by_cases hstored : (hashes stored).card < 2 ^ 31
  · have hloaded : (hashes ([] ++ stored)).card < 2 ^ 31 := hstored
    obtain ⟨tbl₁, hload, h₁⟩ := reached_init.load hloaded
    rw [hload fuel hfuel]
    exact run_overflow h₁ hstored h hfuel
  · rw [reached_init.load_overflow hempty hstored hfuel]

theorem not_works_of_card_ge {stored : List (Fingerprint × α)} {events : List (Event α)}
    (h : ¬(hashes (stored ++ inserted events)).card < 2 ^ 31) : ¬Works stored events := by
  rintro ⟨ps, tbl, ⟨N, hserve⟩, -⟩
  have hsome := hserve (N + 1) (Nat.le_succ N)
  rw [serve_overflow h (Nat.succ_pos N)] at hsome
  simp at hsome

/-- The index works exactly if less than 2^31 different hashes are loaded and inserted. -/
theorem index_works_iff (stored : List (Fingerprint × α)) (events : List (Event α)) :
    Works stored events ↔ (hashes (stored ++ inserted events)).card < 2 ^ 31 := by
  refine ⟨fun h => ?_, works_of_card_lt⟩
  by_contra hmany
  exact not_works_of_card_ge hmany h

def numberHash (i : ℕ) : Fingerprint := ByteFile.fixed 20 (ByteFile.leBytes 20 i)

/-- One worker inserts `k` files. -/
def inserts (k : ℕ) : List (Event ℕ) := (List.range k).map fun i => .insert 0 (numberHash i) i

theorem card_hashes_inserts {k : ℕ} (hk : k ≤ 256 ^ 20) :
    (hashes ([] ++ inserted (inserts k))).card = k := by
  have hkeys : (inserted (inserts k)).map Prod.fst = (List.range k).map numberHash := by
    rw [inserted, inserts, List.filterMap_map, List.map_filterMap, ← List.filterMap_eq_map]
    rfl
  have hnodup : ((List.range k).map numberHash).Nodup := by
    refine List.Nodup.map_on (fun i hi j hj heq => ?_) List.nodup_range
    rw [List.mem_range] at hi hj
    exact ByteFile.fixed_leBytes_inj (by omega) (by omega) heq
  rw [List.nil_append, hashes, hkeys, List.toFinset_card_of_nodup hnodup, List.length_map,
    List.length_range]

theorem inserts_do_not_work {k : ℕ} (hk : k = 2 ^ 31) : ¬Works [] (inserts k) := by
  refine not_works_of_card_ge ?_
  rw [card_hashes_inserts (by rw [hk]; norm_num)]
  omega

theorem many_files_do_not_work : ¬Works [] (inserts (2 ^ 31)) := inserts_do_not_work rfl

end TCBackup.Server.IndexTable
