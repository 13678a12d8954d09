import TCBackup.Server.Index

/-!
# The table of the global index and its counters (`server/lib/htable.c`, `server/src/index.c`)

`HTable` with counters of 32 bits and growth inside of growth. `htable_insert` looks the key up
and refuses it when it is there, `htable_add` takes the hash and the chain that the last lookup
has left in the table. Where a function leaves the array of the chains, or does not return, it has
no value.

## Main definitions

- `Table` — the fields of `htable`
- `insertWith`, `addWith`, `growTable` — `htable_insert`, `htable_add` and `grow_table`
- `indexInsert`, `indexLookup`, `indexOpen` — the index
- `Sound` — a table whose counters are right

## Main results

- `Sound.growTable`, `Sound.htableAdd` — below 2^31 items the functions are those of `HTable`
- `growTable_overflow` — growing from 2^29 buckets on
-/

namespace TCBackup.Server.IndexTable

open ByteFile

/-- `htable`, without what is the same for all tables and what only the walk reads. -/
structure Table (α : Type*) where
  table : ℕ → List (Fingerprint × Hlink α)
  num_items : ℕ
  max_items : ℕ
  buckets : ℕ
  mask : ℕ
  hash : ℕ
  index : ℕ

variable {α : Type*}

/-- `htable_init` -/
def htableInit (tsize : ℕ) : Table α :=
  let pwr := Nat.size (tsize / 4)
  { table := fun _ => []
    num_items := 0
    max_items := word (2 ^ pwr * 4)
    buckets := 2 ^ pwr
    mask := 2 ^ pwr - 1
    hash := 0
    index := 0 }

/-- `hash_index` -/
def hashIndex (tbl : Table α) (key : Fingerprint) : Table α :=
  { tbl with hash := keyHash key, index := keyHash key &&& tbl.mask }

/-- `htable_lookup` -/
def htableLookup (tbl : Table α) (key : Fingerprint) : Option (Option α × Table α) :=
  let tbl := hashIndex tbl key
  if tbl.index < tbl.buckets then
    some (((tbl.table tbl.index).find? fun p => tbl.hash = p.2.hash ∧ key = p.1).map
      fun p => p.2.item, tbl)
  else none

/-- The item comes to the front of the chain that the last lookup has left. -/
def push (tbl : Table α) (key : Fingerprint) (item : α) : Table α :=
  { tbl with
    table := Function.update tbl.table tbl.index ((key, ⟨tbl.hash, item⟩) :: tbl.table tbl.index)
    num_items := word (tbl.num_items + 1) }

/-- `htable_add`, where `grow` is `grow_table`. -/
def addWith (grow : Table α → Option (Table α)) (tbl : Table α) (key : Fingerprint) (item : α) :
    Option (Table α) :=
  if tbl.index < tbl.buckets then
    let tbl := push tbl key item
    if tbl.max_items ≤ tbl.num_items then grow tbl else some tbl
  else none

/-- `htable_insert` -/
def insertWith (grow : Table α → Option (Table α)) (tbl : Table α) (key : Fingerprint) (item : α) :
    Option (Table α) :=
  match htableLookup tbl key with
  | none => none
  | some (some _, tbl) => some tbl
  | some (none, tbl) => addWith grow tbl key item

/-- The items in the order of `htable_get_first` and `htable_get_next`. -/
def items (tbl : Table α) : List (Fingerprint × Hlink α) :=
  (List.range tbl.buckets).flatMap tbl.table

/-- The new table of `grow_table`. -/
def bigger (tbl : Table α) : Table α :=
  { table := fun _ => []
    num_items := 0
    max_items := word (word (tbl.buckets * 2) * 4)
    buckets := word (tbl.buckets * 2)
    mask := word (tbl.mask * 2) ||| 1
    hash := 0
    index := 0 }

/-- `grow_table`: every item is inserted into the new table, which takes the place of the old
one with all its fields. -/
def growTable : ℕ → Table α → Option (Table α)
  | 0, _ => none
  | fuel + 1, tbl =>
    (items tbl).foldlM (fun big p => insertWith (growTable fuel) big p.1 p.2.item) (bigger tbl)

def htableAdd (fuel : ℕ) (tbl : Table α) (key : Fingerprint) (item : α) : Option (Table α) :=
  addWith (growTable fuel) tbl key item

def htableInsert (fuel : ℕ) (tbl : Table α) (key : Fingerprint) (item : α) : Option (Table α) :=
  insertWith (growTable fuel) tbl key item

/-- `index_insert` -/
def indexInsert (fuel : ℕ) (tbl : Table α) (hash : Fingerprint) (item : α) : Option (Table α) :=
  match htableLookup tbl hash with
  | none => none
  | some (some _, tbl) => some tbl
  | some (none, tbl) => htableAdd fuel tbl hash item

/-- `index_lookup` -/
def indexLookup (tbl : Table α) (key : Fingerprint) : Option (Option α × Table α) :=
  htableLookup tbl key

/-- `index_init` and `index_open`, with the items that are read from the file. -/
def indexOpen (fuel : ℕ) (stored : List (Fingerprint × α)) : Option (Table α) :=
  stored.foldlM (fun tbl item => htableInsert fuel tbl item.1 item.2) (htableInit 16777215)

def toHTable (tbl : Table α) : HTable α := ⟨⟨tbl.buckets, tbl.table, tbl.num_items⟩, tbl.hash, tbl.index⟩

/-- The counters are right, and the chains are in order. -/
structure Sound (tbl : Table α) : Prop where
  mask : tbl.mask = tbl.buckets - 1
  max_items : tbl.max_items = word (tbl.buckets * 4)
  wf : (toHTable tbl).WF

variable {tbl : Table α}

theorem toHTable_hashIndex (h : Sound tbl) (key : Fingerprint) :
    toHTable (hashIndex tbl key) = Server.hashIndex (toHTable tbl) key := by
  rw [hashIndex, h.mask]
  rfl

theorem Sound.hashIndex (h : Sound tbl) (key : Fingerprint) : Sound (hashIndex tbl key) := by
  refine ⟨h.mask, h.max_items, ?_⟩
  rw [toHTable_hashIndex h]
  exact hashIndex_wf h.wf key

theorem Sound.index_lt (h : Sound tbl) (key : Fingerprint) :
    (IndexTable.hashIndex tbl key).index < tbl.buckets := by
  have hindex : (IndexTable.hashIndex tbl key).index = keyIndex tbl.buckets key := by
    rw [IndexTable.hashIndex, h.mask]
    rfl
  rw [hindex]
  exact keyIndex_lt _ key h.wf.chains.pos

/-- `htable_lookup` is that of the chains. -/
theorem Sound.htableLookup (h : Sound tbl) (key : Fingerprint) :
    htableLookup tbl key = some ((toHTable tbl).find key, IndexTable.hashIndex tbl key) := by
  have hlt : (IndexTable.hashIndex tbl key).index < (IndexTable.hashIndex tbl key).buckets :=
    h.index_lt key
  rw [IndexTable.htableLookup, if_pos hlt, HTable.find, Server.htableLookup, ← toHTable_hashIndex h]
  rfl

variable {key : Fingerprint}

theorem toHTable_push (h : Sound tbl) (hnum : tbl.num_items + 1 < 2 ^ 32) (key : Fingerprint)
    (item : α) : toHTable (push (hashIndex tbl key) key item) =
      linkCached (Server.hashIndex (toHTable tbl) key) key item := by
  rw [← toHTable_hashIndex h, push]
  have hword : word ((hashIndex tbl key).num_items + 1) = tbl.num_items + 1 := word_of_lt hnum
  rw [hword]
  rfl

theorem Sound.push (h : Sound tbl) (hnum : tbl.num_items + 1 < 2 ^ 32)
    (hk : key ∉ (toHTable tbl).chains.keys) (item : α) :
    Sound (push (IndexTable.hashIndex tbl key) key item) := by
  refine ⟨h.mask, h.max_items, ?_⟩
  rw [toHTable_push h hnum]
  exact linkCached_wf h.wf hk

theorem addWith_eq (h : Sound tbl) (key : Fingerprint) (item : α)
    (grow : Table α → Option (Table α)) : addWith grow (hashIndex tbl key) key item =
      if tbl.max_items ≤ word (tbl.num_items + 1) then grow (push (hashIndex tbl key) key item)
      else some (push (hashIndex tbl key) key item) := by
  have hlt : (hashIndex tbl key).index < (hashIndex tbl key).buckets := h.index_lt key
  rw [addWith, if_pos hlt]
  rfl

theorem insertWith_of_absent (h : Sound tbl) (hk : key ∉ (toHTable tbl).chains.keys) (item : α)
    (grow : Table α → Option (Table α)) :
    insertWith grow tbl key item = addWith grow (hashIndex tbl key) key item := by
  rw [insertWith, h.htableLookup, h.wf.find_eq_none_iff.mpr hk]

theorem toHTable_bigger (hb : tbl.buckets * 2 < 2 ^ 32) :
    toHTable (bigger tbl) = ⟨ChainTable.empty (tbl.buckets * 2), 0, 0⟩ := by
  rw [bigger, word_of_lt hb]
  rfl

theorem Sound.bigger (h : Sound tbl) (hb : tbl.buckets * 2 < 2 ^ 32) : Sound (bigger tbl) := by
  have hpos : 0 < tbl.buckets := h.wf.chains.pos
  refine ⟨?_, rfl, ?_⟩
  · have hmask : word (tbl.mask * 2) = 2 * (tbl.buckets - 1) := by
      rw [h.mask, word_of_lt (by omega), Nat.mul_comm]
    have hor := Nat.two_pow_add_eq_or_of_lt (i := 1) (b := 1) (by decide) (tbl.buckets - 1)
    rw [pow_one] at hor
    rw [IndexTable.bigger, word_of_lt hb]
    dsimp only
    rw [hmask, ← hor]
    omega
  · rw [toHTable_bigger hb]
    exact ⟨ChainTable.empty_wf (by omega) fun k => keyIndex_lt _ k (by omega), by simp,
      by simp [ChainTable.keys]⟩

/-- The loop of `grow_table`, which does not fill the bigger table. -/
theorem foldlM_insertWith {l : List (Fingerprint × Hlink α)} {big : Table α} (h : Sound big)
    (hroom : big.num_items + l.length < big.buckets * 4) (hb : big.buckets * 4 < 2 ^ 32)
    (hd : (l.map Prod.fst ++ (toHTable big).chains.keys).Nodup) :
    ∃ big', (∀ grow : Table α → Option (Table α),
        l.foldlM (fun big p => insertWith grow big p.1 p.2.item) big = some big') ∧
      Sound big' ∧
      toHTable big' = l.foldl (fun big p => growInsert big p.1 p.2.item) (toHTable big) := by
  induction l generalizing big with
  | nil => exact ⟨big, fun _ => rfl, h, rfl⟩
  | cons p l ih =>
    rw [List.length_cons] at hroom
    rw [List.map_cons, List.cons_append, List.nodup_cons, List.mem_append, not_or] at hd
    obtain ⟨⟨hl, hk⟩, hd⟩ := hd
    have hpush := toHTable_push h (by omega) p.1 p.2.item
    have hstep : ∀ grow, insertWith grow big p.1 p.2.item =
        some (push (hashIndex big p.1) p.1 p.2.item) := by
      intro grow
      rw [insertWith_of_absent h hk, addWith_eq h, h.max_items, word_of_lt hb,
        word_of_lt (by omega), if_neg (by omega)]
    have hnum : (push (hashIndex big p.1) p.1 p.2.item).num_items = big.num_items + 1 :=
      word_of_lt (show big.num_items + 1 < 2 ^ 32 by omega)
    have hd' : (l.map Prod.fst ++
        (toHTable (push (hashIndex big p.1) p.1 p.2.item)).chains.keys).Nodup := by
      have hperm := ChainTable.keys_link_perm h.wf.chains.bound p.1
        (⟨keyHash p.1, p.2.item⟩ : Hlink α)
      rw [hpush, linkCached_hashIndex, (hperm.append_left _).nodup_iff]
      exact List.nodup_middle.mpr (List.nodup_cons.mpr
        ⟨by rw [List.mem_append, not_or]; exact ⟨hl, hk⟩, hd⟩)
    obtain ⟨big', hrun, hsound, hsame⟩ := ih (h.push (by omega) hk p.2.item)
      (by rw [hnum]; change _ < big.buckets * 4; omega) hb hd'
    refine ⟨big', fun grow => ?_, hsound, ?_⟩
    · rw [List.foldlM_cons, hstep]
      exact hrun grow
    · rw [hsame, hpush, List.foldl_cons, growInsert_eq h.wf hk]

/-- `grow_table` is that of the chains. -/
theorem Sound.growTable (h : Sound tbl) (hroom : tbl.num_items < tbl.buckets * 2 * 4)
    (hb : tbl.buckets * 2 * 4 < 2 ^ 32) :
    ∃ tbl', (∀ fuel, growTable (fuel + 1) tbl = some tbl') ∧ Sound tbl' ∧
      toHTable tbl' = Server.growTable (toHTable tbl) := by
  have hbig : tbl.buckets * 2 < 2 ^ 32 := by omega
  have hchains := toHTable_bigger hbig
  have hbuckets : (IndexTable.bigger tbl).buckets = tbl.buckets * 2 := word_of_lt hbig
  have hcount : (items tbl).length = tbl.num_items := h.wf.chains.count.symm
  have hnodup : ((items tbl).map Prod.fst).Nodup := h.wf.nodup
  obtain ⟨tbl', hrun, hsound, hsame⟩ := foldlM_insertWith (l := items tbl) (h.bigger hbig)
    (by rw [hbuckets, hcount]; change 0 + _ < _; omega)
    (by rw [hbuckets]; exact hb)
    (by rw [hchains]; simpa [ChainTable.keys] using hnodup)
  refine ⟨tbl', fun fuel => hrun (IndexTable.growTable fuel), hsound, ?_⟩
  rw [hsame, hchains]
  rfl

/-- `grow_table` does not return if its first call of `htable_insert` does not. -/
theorem growTable_eq_none (hitems : items tbl ≠ [])
    (hinsert : ∀ fuel key item, insertWith (growTable fuel) (bigger tbl) key item = none)
    (fuel : ℕ) : growTable fuel tbl = none := by
  cases fuel with
  | zero => rfl
  | succ fuel =>
    obtain ⟨p, l, hl⟩ := List.exists_cons_of_ne_nil hitems
    rw [growTable, hl, List.foldlM_cons, hinsert]
    rfl

/-- With a maximum of 0 items every `htable_insert` grows the table again. -/
theorem growTable_eq_none_of_double {b : ℕ} (hb : b * 2 < 2 ^ 32) (hwrap : b * 2 * 4 % 2 ^ 32 = 0)
    (hdouble : ∀ tbl : Table α, Sound tbl → items tbl ≠ [] → tbl.buckets = b * 2 →
      ∀ fuel, growTable fuel tbl = none)
    (h : Sound tbl) (hitems : items tbl ≠ []) (hbuckets : tbl.buckets = b) (fuel : ℕ) :
    growTable fuel tbl = none := by
  subst hbuckets
  refine growTable_eq_none hitems (fun fuel key item => ?_) fuel
  have hbig := h.bigger hb
  have hb' : (bigger tbl).buckets = tbl.buckets * 2 := word_of_lt hb
  have hmax : (bigger tbl).max_items = 0 := by
    rw [hbig.max_items, hb']
    exact hwrap
  have habsent : key ∉ (toHTable (bigger tbl)).chains.keys := by
    rw [toHTable_bigger hb]
    simp [ChainTable.keys]
  have hpush := hbig.push (by change 0 + 1 < 2 ^ 32; decide) habsent item
  rw [insertWith_of_absent hbig habsent, addWith_eq hbig, hmax, if_pos (Nat.zero_le _)]
  refine hdouble _ hpush (fun hnil => ?_) hb' fuel
  have hcount := hpush.wf.chains.count
  have hlen : (toHTable (push (hashIndex (bigger tbl) key) key item)).chains.items.length = 0 :=
    congrArg List.length hnil
  rw [hlen] at hcount
  change word (0 + 1) = 0 at hcount
  simp [word] at hcount

/-- From 2^29 buckets on `grow_table` does not return. -/
theorem growTable_overflow (h : Sound tbl) (hitems : items tbl ≠ [])
    (hbuckets : tbl.buckets = 2 ^ 29) (fuel : ℕ) : growTable fuel tbl = none := by
  have h31 : ∀ tbl : Table α, Sound tbl → items tbl ≠ [] → tbl.buckets = 2 ^ 30 * 2 →
      ∀ fuel, growTable fuel tbl = none := by
    intro tbl h hitems hbuckets
    refine growTable_eq_none hitems fun fuel key item => ?_
    have hzero : (bigger tbl).buckets = 0 := by
      rw [bigger]
      dsimp only
      rw [hbuckets]
      rfl
    have hbound : ¬(hashIndex (bigger tbl) key).index < (hashIndex (bigger tbl) key).buckets := by
      change ¬_ < (bigger tbl).buckets
      rw [hzero]
      exact Nat.not_lt_zero _
    rw [insertWith, htableLookup, if_neg hbound]
  have h30 : ∀ tbl : Table α, Sound tbl → items tbl ≠ [] → tbl.buckets = 2 ^ 29 * 2 →
      ∀ fuel, growTable fuel tbl = none := fun tbl h hitems hbuckets =>
    growTable_eq_none_of_double (by decide) (by decide) h31 h hitems hbuckets
  exact growTable_eq_none_of_double (by decide) (by decide) h30 h hitems hbuckets fuel

end TCBackup.Server.IndexTable
