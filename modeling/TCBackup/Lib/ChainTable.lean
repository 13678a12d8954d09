import Mathlib.Data.List.Duplicate
import Mathlib.Data.List.Perm.Basic
import Mathlib.Data.List.Nodup
import Mathlib.Data.List.Range
import Mathlib.Logic.Function.Basic

/-!
# Chained hash tables that double

A table is a family of chains. `index b k` is the chain of key `k` in a table
of `b` buckets. New entries go to the front of their chain, and a table that
holds four entries per bucket is rebuilt with twice the buckets.

## Main definitions

- `ChainTable` — buckets, chains and the entry count
- `ChainTable.items` — all entries, bucket by bucket
- `insert`, `lookup`, `set`, `remove` — the operations
- `ChainTable.WF` — every entry lies in the chain of its key

## Main results

- `WF.lookup_eq_some_iff` — with distinct keys a table is a finite map
- `lookup_grow_iff` — with distinct keys, and only then, growing does not show
-/

/-- Buckets, chains and the number of entries of a chained hash table. -/
structure ChainTable (κ α : Type*) where
  buckets : ℕ
  table : ℕ → List (κ × α)
  numItems : ℕ

namespace ChainTable

variable {κ α : Type*} (index : ℕ → κ → ℕ)

/-- The table of `b` empty chains. -/
def empty (b : ℕ) : ChainTable κ α := ⟨b, fun _ => [], 0⟩

/-- All entries in walking order: bucket by bucket, each chain from its front. -/
def items (t : ChainTable κ α) : List (κ × α) := (List.range t.buckets).flatMap t.table

def keys (t : ChainTable κ α) : List κ := t.items.map Prod.fst

/-- Link an entry at the front of chain `i`. -/
def linkAt (t : ChainTable κ α) (i : ℕ) (k : κ) (x : α) : ChainTable κ α :=
  { t with
    table := Function.update t.table i ((k, x) :: t.table i)
    numItems := t.numItems + 1 }

/-- Link an entry at the front of the chain of its key. -/
def link (t : ChainTable κ α) (k : κ) (x : α) : ChainTable κ α :=
  linkAt t (index t.buckets k) k x

/-- Relink every entry, in walking order, into a table with twice the buckets. -/
def grow (t : ChainTable κ α) : ChainTable κ α :=
  t.items.foldl (fun big p => link index big p.1 p.2) (empty (t.buckets * 2))

def insert (t : ChainTable κ α) (k : κ) (x : α) : ChainTable κ α :=
  let t' := link index t k x
  if t'.buckets * 4 ≤ t'.numItems then grow index t' else t'

/-- Every entry lies in the chain of its key, and the count is exact. -/
structure WF (t : ChainTable κ α) : Prop where
  pos : 0 < t.buckets
  placed : ∀ i, ∀ p ∈ t.table i, index t.buckets p.1 = i
  bound : ∀ k, index t.buckets k < t.buckets
  count : t.numItems = t.items.length

variable {index}

theorem mem_items {t : ChainTable κ α} {p : κ × α} :
    p ∈ t.items ↔ ∃ i < t.buckets, p ∈ t.table i := by
  simp [items, List.mem_flatMap]

theorem WF.mem_items_iff {t : ChainTable κ α} (h : WF index t) {p : κ × α} :
    p ∈ t.items ↔ p ∈ t.table (index t.buckets p.1) := by
  rw [mem_items]
  constructor
  · rintro ⟨i, _, hp⟩
    rwa [h.placed i p hp]
  · intro hp
    exact ⟨_, h.bound _, hp⟩

@[simp] theorem items_empty (b : ℕ) : (empty b : ChainTable κ α).items = [] := by
  simp [items, empty]

theorem empty_wf {b : ℕ} (hb : 0 < b) (hi : ∀ k, index b k < b) :
    WF index (empty b : ChainTable κ α) :=
  ⟨hb, by simp [empty], hi, by simp [empty, items]⟩

/-- Replacing one chain of a family by a chain with one more entry. -/
theorem flatMap_update_perm {f : ℕ → List (κ × α)} {p : κ × α} {i n : ℕ} (hi : i < n) :
    ((List.range n).flatMap (Function.update f i (p :: f i))).Perm
      (p :: (List.range n).flatMap f) := by
  induction n with
  | zero => omega
  | succ n ih =>
    rw [List.range_succ, List.flatMap_append, List.flatMap_append]
    by_cases hn : i = n
    · subst hn
      have hsame : (List.range i).flatMap (Function.update f i (p :: f i)) =
          (List.range i).flatMap f := by
        apply List.flatMap_congr
        intro j hj
        have := List.mem_range.mp hj
        rw [Function.update_of_ne (by omega)]
      rw [hsame]
      simp
    · have hlast : (List.flatMap (Function.update f i (p :: f i)) [n]) = List.flatMap f [n] := by
        simp [Function.update_of_ne (Ne.symm hn)]
      rw [hlast]
      exact (ih (by omega)).append_right _

theorem items_link_perm {t : ChainTable κ α} (hb : ∀ k, index t.buckets k < t.buckets)
    (k : κ) (x : α) : (link index t k x).items.Perm ((k, x) :: t.items) :=
  flatMap_update_perm (hb k)

theorem keys_link_perm {t : ChainTable κ α} (hb : ∀ k, index t.buckets k < t.buckets)
    (k : κ) (x : α) : (link index t k x).keys.Perm (k :: t.keys) :=
  (items_link_perm hb k x).map Prod.fst

theorem WF.link {t : ChainTable κ α} (h : WF index t) (k : κ) (x : α) :
    WF index (link index t k x) := by
  refine ⟨h.pos, ?_, h.bound, ?_⟩
  · intro i p hp
    by_cases hi : i = index t.buckets k
    · subst hi
      simp only [ChainTable.link, linkAt, Function.update_self, List.mem_cons] at hp
      rcases hp with rfl | hp
      · rfl
      · exact h.placed _ p hp
    · simp only [ChainTable.link, linkAt, Function.update_of_ne hi] at hp
      exact h.placed i p hp
  · rw [(items_link_perm h.bound k x).length_eq, List.length_cons, ← h.count]
    rfl

/-- Relinking a list of entries adds exactly these entries. -/
theorem foldl_link {l : List (κ × α)} {t : ChainTable κ α} (h : WF index t) :
    WF index (l.foldl (fun big p => ChainTable.link index big p.1 p.2) t) ∧
      (l.foldl (fun big p => ChainTable.link index big p.1 p.2) t).buckets = t.buckets ∧
      (l.foldl (fun big p => ChainTable.link index big p.1 p.2) t).items.Perm (l ++ t.items) := by
  induction l generalizing t with
  | nil => exact ⟨h, rfl, List.Perm.refl _⟩
  | cons p l ih =>
    obtain ⟨hw, hb, hp⟩ := ih (h.link p.1 p.2)
    refine ⟨hw, hb, hp.trans ?_⟩
    exact ((items_link_perm h.bound p.1 p.2).append_left l).trans List.perm_middle

section Growing

variable (hindex : ∀ b k, 0 < b → index b k < b)
include hindex

theorem WF.grow {t : ChainTable κ α} (h : WF index t) : WF index (grow index t) :=
  (foldl_link (empty_wf (by have := h.pos; omega)
    (fun k => hindex _ k (by have := h.pos; omega)))).1

theorem items_grow_perm {t : ChainTable κ α} (h : WF index t) :
    (grow index t).items.Perm t.items := by
  have hpos : 0 < t.buckets * 2 := by
    have := h.pos
    omega
  have hempty : WF index (empty (t.buckets * 2) : ChainTable κ α) :=
    empty_wf hpos (fun k => hindex _ k hpos)
  have hp := (foldl_link (l := t.items) hempty).2.2
  rwa [items_empty, List.append_nil] at hp

theorem buckets_grow {t : ChainTable κ α} (h : WF index t) :
    (grow index t).buckets = t.buckets * 2 := by
  have hpos : 0 < t.buckets * 2 := by
    have := h.pos
    omega
  exact (foldl_link (empty_wf hpos fun k => hindex _ k hpos)).2.1

theorem numItems_grow {t : ChainTable κ α} (h : WF index t) :
    (grow index t).numItems = t.numItems := by
  rw [(WF.grow hindex h).count, h.count, (items_grow_perm hindex h).length_eq]

theorem WF.insert {t : ChainTable κ α} (h : WF index t) (k : κ) (x : α) :
    WF index (insert index t k x) := by
  rw [ChainTable.insert]
  split
  · exact WF.grow hindex (h.link k x)
  · exact h.link k x

/-- An insert adds its entry and keeps the others. -/
theorem items_insert_perm {t : ChainTable κ α} (h : WF index t) (k : κ) (x : α) :
    (insert index t k x).items.Perm ((k, x) :: t.items) := by
  rw [ChainTable.insert]
  split
  · exact (items_grow_perm hindex (h.link k x)).trans (items_link_perm h.bound k x)
  · exact items_link_perm h.bound k x

theorem mem_items_insert {t : ChainTable κ α} (h : WF index t) {k : κ} {x : α} {p : κ × α} :
    p ∈ (insert index t k x).items ↔ p = (k, x) ∨ p ∈ t.items := by
  rw [(items_insert_perm hindex h k x).mem_iff, List.mem_cons]

theorem keys_insert_perm {t : ChainTable κ α} (h : WF index t) (k : κ) (x : α) :
    (insert index t k x).keys.Perm (k :: t.keys) :=
  (items_insert_perm hindex h k x).map Prod.fst

/-- Inserting a list of entries, first entry first. -/
theorem foldl_insert {l : List (κ × α)} {t : ChainTable κ α} (h : WF index t) :
    WF index (l.foldl (fun t p => ChainTable.insert index t p.1 p.2) t) ∧
      (l.foldl (fun t p => ChainTable.insert index t p.1 p.2) t).items.Perm (l ++ t.items) := by
  induction l generalizing t with
  | nil => exact ⟨h, List.Perm.refl _⟩
  | cons p l ih =>
    obtain ⟨hw, hp⟩ := ih (WF.insert hindex h p.1 p.2)
    refine ⟨hw, hp.trans ?_⟩
    exact ((items_insert_perm hindex h p.1 p.2).append_left l).trans List.perm_middle

end Growing

-- ════════════════════════════════════════════════════════════════════════
-- Lookup
-- ════════════════════════════════════════════════════════════════════════

variable [DecidableEq κ]

variable (index) in
/-- The first entry with the key in the key's chain. -/
def lookup (t : ChainTable κ α) (k : κ) : Option α :=
  ((t.table (index t.buckets k)).find? (fun p => p.1 = k)).map Prod.snd

theorem WF.mem_of_lookup {t : ChainTable κ α} (h : WF index t) {k : κ} {x : α}
    (hl : lookup index t k = some x) : (k, x) ∈ t.items := by
  obtain ⟨p, hp, rfl⟩ := Option.map_eq_some_iff.mp hl
  have hk : p.1 = k := by simpa using List.find?_some hp
  subst hk
  exact h.mem_items_iff.mpr (List.mem_of_find?_eq_some hp)

theorem WF.lookup_eq_none_iff {t : ChainTable κ α} (h : WF index t) {k : κ} :
    lookup index t k = none ↔ k ∉ t.keys := by
  rw [lookup, Option.map_eq_none_iff, List.find?_eq_none]
  constructor
  · rintro hn hk
    obtain ⟨p, hp, rfl⟩ := List.mem_map.mp hk
    exact hn p (h.mem_items_iff.mp hp) (by simp)
  · intro hk p hp hpk
    have hpk : p.1 = k := by simpa using hpk
    subst hpk
    exact hk (List.mem_map.mpr ⟨p, h.mem_items_iff.mpr hp, rfl⟩)

theorem WF.exists_lookup {t : ChainTable κ α} (h : WF index t) {k : κ} (hk : k ∈ t.keys) :
    ∃ x, lookup index t k = some x := by
  cases hl : lookup index t k with
  | none => exact absurd hk (h.lookup_eq_none_iff.mp hl)
  | some x => exact ⟨x, rfl⟩

/-- With distinct keys a table is a finite map. -/
theorem WF.lookup_eq_some_iff {t : ChainTable κ α} (h : WF index t) (hd : t.keys.Nodup)
    {k : κ} {x : α} : lookup index t k = some x ↔ (k, x) ∈ t.items := by
  refine ⟨h.mem_of_lookup, fun hx => ?_⟩
  obtain ⟨y, hy⟩ := h.exists_lookup (List.mem_map.mpr ⟨(k, x), hx, rfl⟩)
  have := List.inj_on_of_nodup_map hd hx (h.mem_of_lookup hy) rfl
  rw [hy, (Prod.mk.inj this).2]

/-- Tables with distinct keys and the same entries look up the same. -/
theorem lookup_eq_of_mem_iff {index' : ℕ → κ → ℕ} {t u : ChainTable κ α} (ht : WF index t)
    (hu : WF index' u) (hdt : t.keys.Nodup) (hdu : u.keys.Nodup)
    (h : ∀ p, p ∈ t.items ↔ p ∈ u.items) (k : κ) : lookup index t k = lookup index' u k := by
  apply Option.ext
  intro x
  rw [ht.lookup_eq_some_iff hdt, hu.lookup_eq_some_iff hdu, h]

section Growing

variable (hindex : ∀ b k, 0 < b → index b k < b)
include hindex

omit [DecidableEq κ] in
theorem nodup_keys_insert {t : ChainTable κ α} (h : WF index t) (hd : t.keys.Nodup) {k : κ}
    (hk : k ∉ t.keys) (x : α) : (insert index t k x).keys.Nodup :=
  (keys_insert_perm hindex h k x).nodup_iff.mpr (List.nodup_cons.mpr ⟨hk, hd⟩)

theorem lookup_insert {t : ChainTable κ α} (h : WF index t) (hd : t.keys.Nodup) {k : κ}
    (hk : k ∉ t.keys) (x : α) (k' : κ) :
    lookup index (insert index t k x) k' = if k' = k then some x else lookup index t k' := by
  have hw := WF.insert hindex h k x
  have hn := nodup_keys_insert hindex h hd hk x
  apply Option.ext
  intro y
  rw [hw.lookup_eq_some_iff hn, mem_items_insert hindex h]
  by_cases hkk : k' = k
  · subst hkk
    have hno : (k', y) ∉ t.items := fun hy => hk (List.mem_map.mpr ⟨_, hy, rfl⟩)
    simp [hno, eq_comm]
  · rw [if_neg hkk, h.lookup_eq_some_iff hd]
    simp [hkk]

end Growing

-- ════════════════════════════════════════════════════════════════════════
-- Overwriting and removing the entry a lookup finds
-- ════════════════════════════════════════════════════════════════════════

/-- Overwrite the value of the first entry with the key. -/
def setFirst (k : κ) (x : α) : List (κ × α) → List (κ × α)
  | [] => []
  | p :: l => if p.1 = k then (p.1, x) :: l else p :: setFirst k x l

/-- Drop the first entry with the key. -/
def dropFirst (k : κ) : List (κ × α) → List (κ × α)
  | [] => []
  | p :: l => if p.1 = k then l else p :: dropFirst k l

@[simp] theorem setFirst_keys (k : κ) (x : α) (l : List (κ × α)) :
    (setFirst k x l).map Prod.fst = l.map Prod.fst := by
  induction l with
  | nil => rfl
  | cons p l ih =>
    rw [setFirst]
    split
    · rfl
    · simp [ih]

variable (index) in
/-- Overwrite through the pointer a lookup returned. -/
def set (t : ChainTable κ α) (k : κ) (x : α) : ChainTable κ α :=
  { t with
    table := Function.update t.table (index t.buckets k)
      (setFirst k x (t.table (index t.buckets k))) }

variable (index) in
/-- Unlink the entry a lookup finds. -/
def remove (t : ChainTable κ α) (k : κ) : ChainTable κ α :=
  { t with
    table := Function.update t.table (index t.buckets k)
      (dropFirst k (t.table (index t.buckets k)))
    numItems := if (lookup index t k).isSome then t.numItems - 1 else t.numItems }

theorem setFirst_chain_keys {t : ChainTable κ α} (k : κ) (x : α) (i : ℕ) :
    ((set index t k x).table i).map Prod.fst = (t.table i).map Prod.fst := by
  by_cases hi : i = index t.buckets k
  · subst hi
    simp [set]
  · simp [set, Function.update_of_ne hi]

@[simp] theorem keys_set (t : ChainTable κ α) (k : κ) (x : α) : (set index t k x).keys = t.keys := by
  simp only [keys, items, List.map_flatMap, setFirst_chain_keys]
  rfl

theorem WF.set {t : ChainTable κ α} (h : WF index t) (k : κ) (x : α) :
    WF index (set index t k x) := by
  refine ⟨h.pos, ?_, h.bound, ?_⟩
  · intro i p hp
    have hk : p.1 ∈ (t.table i).map Prod.fst := by
      rw [← @setFirst_chain_keys _ _ index _ t k x i]
      exact List.mem_map.mpr ⟨p, hp, rfl⟩
    obtain ⟨q, hq, hqp⟩ := List.mem_map.mp hk
    rw [← hqp]
    exact h.placed i q hq
  · have hlen := congrArg List.length (@keys_set _ _ index _ t k x)
    simp only [keys, List.length_map] at hlen
    rw [hlen]
    exact h.count

theorem mem_setFirst {k : κ} {x : α} {l : List (κ × α)} {p : κ × α} (h : p ∈ setFirst k x l) :
    p = (k, x) ∨ p ∈ l := by
  induction l with
  | nil => simp [setFirst] at h
  | cons q l ih =>
    rw [setFirst] at h
    split at h
    · next hq =>
      cases List.mem_cons.mp h with
      | inl hfirst => exact .inl (by rw [hfirst, hq])
      | inr hrest => exact .inr (List.mem_cons_of_mem _ hrest)
    · cases List.mem_cons.mp h with
      | inl hfirst => exact .inr (by rw [hfirst]; exact List.mem_cons_self)
      | inr hrest => exact (ih hrest).imp_right (List.mem_cons_of_mem _)

/-- Overwriting brings in at most one entry. -/
theorem mem_items_set {t : ChainTable κ α} {k : κ} {x : α} {p : κ × α}
    (h : p ∈ (set index t k x).items) : p = (k, x) ∨ p ∈ t.items := by
  obtain ⟨i, hi, hp⟩ := mem_items.mp h
  by_cases hk : i = index t.buckets k
  · subst hk
    simp only [set, Function.update_self] at hp
    exact (mem_setFirst hp).imp_right fun hold => mem_items.mpr ⟨_, hi, hold⟩
  · simp only [set, Function.update_of_ne hk] at hp
    exact .inr (mem_items.mpr ⟨i, hi, hp⟩)

theorem find?_setFirst (k : κ) (x : α) (l : List (κ × α)) (k' : κ) :
    ((setFirst k x l).find? (fun p => p.1 = k')).map Prod.snd =
      if k' = k ∧ k ∈ l.map Prod.fst then some x
      else (l.find? (fun p => p.1 = k')).map Prod.snd := by
  induction l with
  | nil => simp [setFirst]
  | cons p l ih =>
    rw [setFirst]
    by_cases hp : p.1 = k
    · subst hp
      by_cases hk : k' = p.1
      · subst hk
        simp
      · simp [hk, Ne.symm hk]
    · rw [if_neg hp]
      by_cases hk : p.1 = k'
      · subst hk
        simp [hp]
      · rw [List.find?_cons_of_neg (by simpa using hk), List.find?_cons_of_neg (by simpa using hk),
          ih]
        have hmem : k ∈ (p :: l).map Prod.fst ↔ k ∈ l.map Prod.fst := by
          rw [List.map_cons, List.mem_cons]
          exact or_iff_right (Ne.symm hp)
        simp only [hmem]

theorem WF.lookup_set {t : ChainTable κ α} (h : WF index t) (k : κ) (x : α) (k' : κ) :
    lookup index (ChainTable.set index t k x) k' =
      if k' = k ∧ k ∈ t.keys then some x else lookup index t k' := by
  by_cases hi : index t.buckets k' = index t.buckets k
  · have hmem : k ∈ t.keys ↔ k ∈ (t.table (index t.buckets k)).map Prod.fst := by
      simp only [keys, List.mem_map]
      constructor
      · rintro ⟨p, hp, rfl⟩
        exact ⟨p, h.mem_items_iff.mp hp, rfl⟩
      · rintro ⟨p, hp, rfl⟩
        exact ⟨p, h.mem_items_iff.mpr hp, rfl⟩
    simp only [lookup, ChainTable.set, hi, Function.update_self, hmem]
    exact find?_setFirst k x _ k'
  · have hk : k' ≠ k := fun hk => hi (by rw [hk])
    simp [lookup, ChainTable.set, Function.update_of_ne hi, hk]

/-- Removing the first entry with a key from a chain that has one. -/
theorem dropFirst_perm {k : κ} {l : List (κ × α)} {p : κ × α}
    (h : l.find? (fun p => p.1 = k) = some p) : (p :: dropFirst k l).Perm l := by
  induction l with
  | nil => simp at h
  | cons q l ih =>
    rw [List.find?_cons] at h
    rw [dropFirst]
    by_cases hq : q.1 = k
    · simp only [hq, decide_true, Option.some.injEq] at h
      subst h
      simp [hq]
    · simp only [hq, decide_false] at h
      rw [if_neg hq]
      exact (List.Perm.swap q p _).trans ((ih h).cons q)

theorem items_remove_perm {t : ChainTable κ α} (h : WF index t) {k : κ} {x : α}
    (hl : lookup index t k = some x) : ((k, x) :: (remove index t k).items).Perm t.items := by
  obtain ⟨p, hp, rfl⟩ := Option.map_eq_some_iff.mp hl
  have hk : p.1 = k := by simpa using List.find?_some hp
  -- the old table is the new one with the chain of `k` put back
  let t' := remove index t k
  have hback : (p :: t'.table (index t.buckets k)).Perm (t.table (index t.buckets k)) := by
    simpa [t', remove] using dropFirst_perm hp
  have hrest : ∀ i, i ≠ index t.buckets k → t'.table i = t.table i := by
    intro i hi
    simp [t', remove, Function.update_of_ne hi]
  have hupd : ((List.range t.buckets).flatMap
      (Function.update t'.table (index t.buckets k) (p :: t'.table (index t.buckets k)))).Perm
      ((List.range t.buckets).flatMap t.table) := by
    apply List.Perm.flatMap_left
    intro i _
    by_cases hi : i = index t.buckets k
    · subst hi
      rw [Function.update_self]
      exact hback
    · rw [Function.update_of_ne hi, hrest i hi]
  have hpk : (k, p.2) = p := by rw [← hk]
  rw [hpk]
  exact (flatMap_update_perm (h.bound k)).symm.trans hupd

theorem dropFirst_subset (k : κ) (l : List (κ × α)) : dropFirst k l ⊆ l := by
  induction l with
  | nil => exact List.Subset.refl _
  | cons q l ih =>
    rw [dropFirst]
    split
    · exact List.subset_cons_self _ _
    · exact List.cons_subset_cons _ ih

theorem dropFirst_of_find?_eq_none {k : κ} {l : List (κ × α)}
    (h : l.find? (fun p => p.1 = k) = none) : dropFirst k l = l := by
  induction l with
  | nil => rfl
  | cons q l ih =>
    have hn := List.find?_eq_none.mp h
    have hq : ¬q.1 = k := by simpa using hn q (by simp)
    rw [dropFirst, if_neg hq,
      ih (List.find?_eq_none.mpr fun p hp => hn p (List.mem_cons_of_mem _ hp))]

theorem WF.remove {t : ChainTable κ α} (h : WF index t) (k : κ) :
    WF index (remove index t k) := by
  refine ⟨h.pos, ?_, h.bound, ?_⟩
  · intro i p hp
    by_cases hi : i = index t.buckets k
    · subst hi
      simp only [ChainTable.remove, Function.update_self] at hp
      exact h.placed _ p (dropFirst_subset k _ hp)
    · simp only [ChainTable.remove, Function.update_of_ne hi] at hp
      exact h.placed i p hp
  · cases hl : lookup index t k with
    | none =>
      have hchain := dropFirst_of_find?_eq_none (Option.map_eq_none_iff.mp hl)
      simp [ChainTable.remove, hl, hchain, h.count, items]
    | some x =>
      have hlen := (items_remove_perm h hl).length_eq
      rw [List.length_cons, ← h.count] at hlen
      have hnum : (ChainTable.remove index t k).numItems = t.numItems - 1 := by
        simp [ChainTable.remove, hl]
      omega

-- ════════════════════════════════════════════════════════════════════════
-- Growing and the order of the chains
-- ════════════════════════════════════════════════════════════════════════

/-- A new entry hides the older ones with its key. -/
theorem lookup_link (t : ChainTable κ α) (k : κ) (x : α) (k' : κ) :
    lookup index (link index t k x) k' = if k' = k then some x else lookup index t k' := by
  by_cases hi : index t.buckets k' = index t.buckets k
  · have hchain : (link index t k x).table (index (link index t k x).buckets k') =
        (k, x) :: t.table (index t.buckets k') := by
      simp [link, linkAt, hi]
    rw [lookup, hchain]
    by_cases hk : k' = k
    · simp [hk]
    · rw [if_neg hk, List.find?_cons_of_neg (by simpa using Ne.symm hk)]
      rfl
  · have hk : k' ≠ k := fun hk => hi (by rw [hk])
    rw [if_neg hk, lookup, lookup]
    simp [link, linkAt, Function.update_of_ne hi]

theorem lookup_foldl_link (l : List (κ × α)) (t : ChainTable κ α) (k : κ) :
    lookup index (l.foldl (fun big p => link index big p.1 p.2) t) k =
      ((l.reverse.find? fun p => p.1 = k).map Prod.snd).or (lookup index t k) := by
  induction l generalizing t with
  | nil => simp
  | cons p l ih =>
    rw [List.foldl_cons, ih, lookup_link, List.reverse_cons, List.find?_append]
    cases hfind : l.reverse.find? fun p => p.1 = k with
    | some q => simp
    | none =>
      by_cases hk : p.1 = k
      · simp [hk]
      · simp [hk, Ne.symm hk]

theorem flatMap_range_of_forall {β : Type*} {f : ℕ → List β} {i n : ℕ} (hi : i < n)
    (h : ∀ j, j ≠ i → f j = []) : (List.range n).flatMap f = f i := by
  induction n with
  | zero => omega
  | succ n ih =>
    rw [List.range_succ, List.flatMap_append, List.flatMap_singleton]
    by_cases hn : n = i
    · subst hn
      have hnil : (List.range n).flatMap f = [] := by
        rw [List.flatMap_eq_nil_iff]
        intro j hj
        exact h j (by have := List.mem_range.mp hj; omega)
      rw [hnil, List.nil_append]
    · rw [ih (by omega), h n hn, List.append_nil]

/-- The first entry with the key in walking order. -/
theorem WF.lookup_eq_find? {t : ChainTable κ α} (h : WF index t) (k : κ) :
    lookup index t k = (t.items.find? fun p => p.1 = k).map Prod.snd := by
  rw [lookup, ← List.head?_filter, ← List.head?_filter, items, List.filter_flatMap,
    flatMap_range_of_forall (h.bound k)]
  intro i hi
  rw [List.filter_eq_nil_iff]
  intro p hp hk
  refine hi ?_
  rw [← h.placed i p hp, decide_eq_true_eq.mp hk]

/-- After growing, the last entry with the key is found. -/
theorem lookup_grow (t : ChainTable κ α) (k : κ) :
    lookup index (grow index t) k = (t.items.reverse.find? fun p => p.1 = k).map Prod.snd := by
  rw [grow, lookup_foldl_link]
  have hempty : lookup index (empty (t.buckets * 2) : ChainTable κ α) k = none := rfl
  rw [hempty, Option.or_none]

/-- A key that is there twice has two entries. -/
theorem two_le_length_filter {l : List (κ × α)} {k : κ} (h : List.Duplicate k (l.map Prod.fst)) :
    2 ≤ (l.filter fun p => p.1 = k).length := by
  obtain ⟨l', hl', hkeys⟩ := List.sublist_map_iff.mp (List.duplicate_iff_sublist.mp h)
  have hfilter : l'.filter (fun p => p.1 = k) = l' := by
    rw [List.filter_eq_self]
    intro p hp
    have hmem : p.1 ∈ [k, k] := hkeys ▸ List.mem_map_of_mem hp
    simpa using hmem
  have hlen := congrArg List.length hkeys
  rw [List.length_map] at hlen
  have hle := (hl'.filter fun p => p.1 = k).length_le
  rw [hfilter, ← hlen] at hle
  exact hle

theorem length_le_one_of_ends {β : Type*} {l : List β} (h : l.Nodup) (hends : l.getLast? = l.head?) :
    l.length ≤ 1 := by
  rcases l with _ | ⟨a, l⟩
  · exact Nat.zero_le _
  · rcases List.eq_nil_or_concat l with rfl | ⟨l, b, rfl⟩
    · exact le_refl _
    · rw [List.concat_eq_append, List.head?_cons, ← List.cons_append, List.getLast?_concat] at hends
      obtain rfl := Option.some.inj hends
      simp at h

/-- Growing keeps all lookups of a table with distinct values exactly if no key is there twice. -/
theorem lookup_grow_iff (hindex : ∀ b k, 0 < b → index b k < b) {t : ChainTable κ α}
    (h : WF index t) (hvalues : (t.items.map Prod.snd).Nodup) :
    (∀ k, lookup index (grow index t) k = lookup index t k) ↔ t.keys.Nodup := by
  constructor
  · intro hsame
    by_contra hnodup
    obtain ⟨k, hk⟩ := List.exists_duplicate_iff_not_nodup.mpr hnodup
    have hends := hsame k
    rw [lookup_grow, h.lookup_eq_find?, ← List.head?_filter, ← List.head?_filter,
      List.filter_reverse, List.head?_reverse, ← List.getLast?_map, ← List.head?_map] at hends
    have hdistinct := hvalues.sublist (List.filter_sublist (p := fun p => p.1 = k) |>.map Prod.snd)
    have hone := length_le_one_of_ends hdistinct hends
    have htwo := two_le_length_filter hk
    rw [List.length_map] at hone
    omega
  · intro hnodup
    have hperm := items_grow_perm hindex h
    exact lookup_eq_of_mem_iff (WF.grow hindex h) h
      ((hperm.map Prod.fst).nodup_iff.mpr hnodup) hnodup fun p => hperm.mem_iff

end ChainTable
