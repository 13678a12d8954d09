import Mathlib.Data.Finmap
import TCBackup.Client.TableRefines

/-!
# The client's hash table as a finite map

Runs of calls on a table against runs of calls on a finite map from keys to items. The two
agree as long as there are less than 2^31 items at any time; the next item is never inserted,
because `grow_table` does not return.

## Main definitions

- `Call`, `run` — calls of the table's functions, one after the other
- `Entries`, `Call.after` — the finite map, and what a call makes of it
- `IsMap`, `Works` — a table that is such a map, and calls that keep it so

## Main results

- `run_spec` — calls below 2^31 items
- `run_overflow` — calls that go beyond
- `works_iff` — the calls that work
-/

namespace TCBackup.Client.TableMemory

open ByteFile

variable {n : ℕ}

inductive Call (n : ℕ)
  | insert (key : List.Vector UInt8 n) (item : ℕ)
  | lookup (key : List.Vector UInt8 n)
  | search (key : List.Vector UInt8 n)
  | remove (key : List.Vector UInt8 n)
  | walk

/-- What a call returns: an item or `NULL`, or the items of a walk. -/
inductive Answer
  | done
  | item (p : Option ℕ)
  | items (l : List ℕ)

/-- A call. A walk is a call of `first` and calls of `next` until one returns `NULL`. -/
def call (fuel : ℕ) (s : (ℕ → Link n) × Table) :
    Call n → Option (Answer × (ℕ → Link n) × Table)
  | .insert key item => (insert fuel s.1 s.2 key item).map fun s => (.done, s)
  | .lookup key => (lookup fuel s.1 s.2 key).map fun p => (.item p, s)
  | .search key => (search fuel s.1 s.2 key).map fun p => (.item p, s)
  | .remove key => (remove fuel s.1 s.2 key).map fun (p, s) => (.item p, s)
  | .walk => (walkFrom fuel s.1 (first s.2)).map fun (items, t) => (.items items, s.1, t)

def run (fuel : ℕ) : (ℕ → Link n) × Table → List (Call n) →
    Option (List Answer × (ℕ → Link n) × Table)
  | s, [] => some ([], s)
  | s, c :: calls =>
    match call fuel s c with
    | none => none
    | some (a, s) => (run fuel s calls).map fun (as, s) => (a :: as, s)

abbrev Entries (n : ℕ) := Finmap fun _ : List.Vector UInt8 n => ℕ

namespace Call

def after (f : Entries n) : Call n → Entries n
  | insert key item => f.insert key item
  | remove key => f.erase key
  | _ => f

/-- An item is inserted that is not in the table, under a key that is not in the table. -/
def Allowed (f : Entries n) : Call n → Prop
  | insert key item => key ∉ f ∧ item ∉ f.entries.map Sigma.snd
  | _ => True

/-- The answer of the map. A walk returns every item once. -/
def Right (f : Entries n) : Call n → Answer → Prop
  | insert _ _, a => a = .done
  | lookup key, a | search key, a | remove key, a => a = .item (f.lookup key)
  | walk, a => ∃ l, a = .items l ∧ (l : Multiset ℕ) = f.entries.map Sigma.snd

end Call

def after (f : Entries n) (calls : List (Call n)) : Entries n := calls.foldl Call.after f

def Allowed : Entries n → List (Call n) → Prop
  | _, [] => True
  | f, c :: calls => c.Allowed f ∧ Allowed (c.after f) calls

def Right : Entries n → List (Call n) → List Answer → Prop
  | _, [], as => as = []
  | f, c :: calls, as => ∃ a as', as = a :: as' ∧ c.Right f a ∧ Right (c.after f) calls as'

/-- At no time are there 2^31 items. -/
def Small (f : Entries n) (calls : List (Call n)) : Prop :=
  ∀ pre, pre <+: calls → (after f pre).entries.card < 2 ^ 31

/-- The table is the map `f`: its chains can be indexed, lookups find what the map has, `size`
is right, and a walk returns every item once and then `NULL`. -/
structure IsMap (m : ℕ → Link n) (t : Table) (f : Entries n) : Prop where
  index : ∀ key : List.Vector UInt8 n, index t key < t.buckets
  lookup : ∀ key, Returns (fun fuel => lookup fuel m t key) (f.lookup key)
  size : t.num_items = f.entries.card
  walk : ∃ items t', Returns (fun fuel => walkFrom fuel m (first t)) (items, t') ∧
    (items : Multiset ℕ) = f.entries.map Sigma.snd ∧ t'.walkptr = none

/-- The calls return, with the answers of the map, and leave a table that is the map. -/
def Works (m : ℕ → Link n) (tsize : ℕ) (calls : List (Call n)) : Prop :=
  ∃ answers m' t', Returns (fun fuel => run fuel (m, init tsize) calls) (answers, m', t') ∧
    Right ∅ calls answers ∧ IsMap m' t' (after ∅ calls)

variable {m : ℕ → Link n} {t : Table} {c : HTable n ℕ} {f : Entries n}

/-- The chains hold the entries of the map. -/
structure Matches (c : HTable n ℕ) (f : Entries n) : Prop where
  wf : HTable.WF c
  lookup : ∀ key, f.lookup key = c.lookup key

theorem Matches.entries (h : Matches c f) :
    (c.items.map fun e => (⟨e.1, e.2⟩ : Σ _ : List.Vector UInt8 n, ℕ) : Multiset _) = f.entries := by
  refine (Multiset.Nodup.ext ?_ f.nodup_entries).mpr ?_
  · rw [Multiset.coe_nodup]
    refine List.Nodup.map ?_ (List.Nodup.of_map _ h.wf.nodup)
    rintro ⟨k, x⟩ ⟨k', x'⟩ heq
    cases heq
    rfl
  · rintro ⟨key, item⟩
    rw [← Finmap.lookup_eq_some_iff, h.lookup, h.wf.lookup_eq_some_iff, Multiset.mem_coe, List.mem_map]
    constructor
    · rintro ⟨e, he, heq⟩
      cases heq
      exact he
    · intro he
      exact ⟨_, he, rfl⟩

theorem Matches.items (h : Matches c f) :
    (c.items.map Prod.snd : Multiset ℕ) = f.entries.map Sigma.snd := by
  rw [← h.entries, Multiset.map_coe, List.map_map]
  rfl

theorem Matches.card (h : Matches c f) : f.entries.card = c.numItems := by
  rw [← h.entries, Multiset.coe_card, List.length_map, h.wf.chains.count]

theorem Matches.notMem_items (h : Matches c f) {item : ℕ} (hitem : item ∉ f.entries.map Sigma.snd) :
    item ∉ c.items.map Prod.snd := by
  rwa [← Multiset.mem_coe, h.items]

theorem matches_init (tsize : ℕ) : Matches (htableInit tsize : HTable n ℕ) ∅ :=
  ⟨HTable.init_wf tsize, fun key => by rw [HTable.lookup_init, Finmap.lookup_empty]⟩

theorem Matches.insert (h : Matches c f) {key : List.Vector UInt8 n} (hkey : key ∉ f) (item : ℕ) :
    Matches (c.insert key item) (f.insert key item) := by
  have hnone : c.lookup key = none := by rw [← h.lookup, Finmap.lookup_eq_none.mpr hkey]
  refine ⟨h.wf.insert hnone item, fun key' => ?_⟩
  rw [h.wf.lookup_insert hnone]
  split
  · next heq => rw [heq, Finmap.lookup_insert]
  · next hne => rw [Finmap.lookup_insert_of_ne _ hne, h.lookup]

theorem Matches.remove (h : Matches c f) (key : List.Vector UInt8 n) :
    Matches (c.remove key) (f.erase key) := by
  have herase : ∀ key', (f.erase key).lookup key' = if key' = key then none else c.lookup key' := by
    intro key'
    split
    · next heq => rw [heq, Finmap.lookup_erase]
    · next hne => rw [Finmap.lookup_erase_ne hne, h.lookup]
  cases hl : c.lookup key with
  | none =>
    rw [remove_of_lookup_none hl]
    refine ⟨h.wf, fun key' => ?_⟩
    rw [herase]
    split
    · next heq => rw [heq, hl]
    · rfl
  | some item => exact ⟨h.wf.remove hl, fun key' => by rw [herase, h.wf.lookup_remove hl]⟩

theorem Reached.isMap (h : Reached m t c) (hf : Matches c f) : IsMap m t f := by
  obtain ⟨i, hwalk⟩ := walkFrom_spec h.toRepresents.first
  refine ⟨h.index_lt, fun key => ⟨c.numItems + 1, fun fuel hfuel => ?_⟩, ?_,
    _, _, ⟨c.items.length, hwalk⟩, hf.items, rfl⟩
  · rw [hf.lookup]
    exact h.toRepresents.lookup key hfuel
  · rw [h.num_items, hf.card]

/-- A call below 2^31 items is answered as by the map, and keeps the table in step with it. -/
theorem Reached.call {call : Call n} (h : Reached m t c) (hf : Matches c f)
    (hallowed : call.Allowed f) (hsmall : (call.after f).entries.card < 2 ^ 31) :
    ∃ a m' t' c', Returns (fun fuel => TableMemory.call fuel (m, t) call) (a, m', t') ∧
      call.Right f a ∧ Reached m' t' c' ∧ Matches c' (call.after f) := by
  have hlookup : ∀ key, call = .lookup key ∨ call = .search key → ∃ a m' t' c',
      Returns (fun fuel => TableMemory.call fuel (m, t) call) (a, m', t') ∧
        call.Right f a ∧ Reached m' t' c' ∧ Matches c' (call.after f) := by
    intro key hcall
    refine ⟨.item (f.lookup key), m, t, c, ⟨c.numItems + 1, fun fuel hfuel => ?_⟩, ?_, h, ?_⟩
    · have hrun := h.toRepresents.lookup key hfuel
      rcases hcall with rfl | rfl
      · simp only [TableMemory.call, hrun, hf.lookup, Option.map_some]
      · simp only [TableMemory.call, search, hrun, hf.lookup, Option.map_some]
    · rcases hcall with rfl | rfl <;> rfl
    · rcases hcall with rfl | rfl <;> exact hf
  cases call with
  | insert key item =>
    have hmatch := hf.insert hallowed.1 item
    have hnum : c.numItems + 1 < 2 ^ 31 := by
      rwa [Call.after, Finmap.entries_insert_of_notMem hallowed.1, Multiset.card_cons, hf.card] at hsmall
    obtain ⟨m', t', hrun, hreached, -⟩ := h.insert (hf.notMem_items hallowed.2) hnum key
    refine ⟨.done, m', t', _, ⟨c.numItems + 1, fun fuel hfuel => ?_⟩, rfl, hreached, hmatch⟩
    simp only [TableMemory.call, hrun fuel hfuel, Option.map_some]
  | lookup key => exact hlookup key (.inl rfl)
  | search key => exact hlookup key (.inr rfl)
  | remove key =>
    obtain ⟨m', t', hrun, hreached, -⟩ := h.remove key
    refine ⟨.item (f.lookup key), m', t', _, ⟨c.numItems + 1, fun fuel hfuel => ?_⟩, rfl, hreached,
      hf.remove key⟩
    simp only [TableMemory.call, hrun fuel hfuel, hf.lookup, Option.map_some]
  | walk =>
    obtain ⟨i, hwalk⟩ := walkFrom_spec h.toRepresents.first
    refine ⟨.items (c.items.map Prod.snd), m, _, c, ⟨c.items.length, fun fuel hfuel => ?_⟩,
      ⟨_, rfl, hf.items⟩, h.congr none i, hf⟩
    simp only [TableMemory.call, hwalk fuel hfuel, Option.map_some]
    rfl

/-- The insert that would make 2^31 items does not return. -/
theorem Reached.call_overflow {call : Call n} (h : Reached m t c) (hf : Matches c f)
    (hallowed : call.Allowed f) (hbefore : f.entries.card < 2 ^ 31)
    (hafter : ¬(call.after f).entries.card < 2 ^ 31) (fuel : ℕ) :
    TableMemory.call fuel (m, t) call = none := by
  cases call with
  | insert key item =>
    rw [Call.after, Finmap.entries_insert_of_notMem hallowed.1, Multiset.card_cons] at hafter
    rw [hf.card] at hbefore hafter
    rw [TableMemory.call, h.insert_overflow (hf.notMem_items hallowed.2) (by omega), Option.map_none]
  | remove key =>
    refine absurd ?_ hafter
    have hcard := (hf.remove key).card
    obtain ⟨m', t', -, hreached, -⟩ := h.remove key
    have hb := hreached.buckets_le
    have hroom := hreached.room
    change (f.erase key).entries.card < 2 ^ 31
    omega
  | lookup key => exact absurd hbefore hafter
  | search key => exact absurd hbefore hafter
  | walk => exact absurd hbefore hafter

theorem small_cons {call : Call n} {calls : List (Call n)} :
    Small f (call :: calls) ↔ f.entries.card < 2 ^ 31 ∧ Small (call.after f) calls := by
  constructor
  · exact fun h => ⟨h [] (List.nil_prefix), fun pre hpre =>
      h (call :: pre) (List.cons_prefix_cons.mpr ⟨rfl, hpre⟩)⟩
  · rintro ⟨hcard, hsmall⟩ pre hpre
    cases pre with
    | nil => exact hcard
    | cons c' pre =>
      obtain ⟨rfl, hrest⟩ := List.cons_prefix_cons.mp hpre
      exact hsmall pre hrest

theorem Small.head {calls : List (Call n)} (h : Small f calls) : f.entries.card < 2 ^ 31 :=
  h [] List.nil_prefix

/-- A run below 2^31 items. -/
theorem run_spec {calls : List (Call n)} (h : Reached m t c) (hf : Matches c f)
    (hallowed : Allowed f calls) (hsmall : Small f calls) :
    ∃ answers m' t' c', Returns (fun fuel => run fuel (m, t) calls) (answers, m', t') ∧
      Right f calls answers ∧ Reached m' t' c' ∧ Matches c' (after f calls) := by
  induction calls generalizing m t c f with
  | nil => exact ⟨[], m, t, c, ⟨0, fun _ _ => rfl⟩, rfl, h, hf⟩
  | cons call calls ih =>
    obtain ⟨-, hsmall⟩ := small_cons.mp hsmall
    obtain ⟨a, m₁, t₁, c₁, ⟨N₁, hcall⟩, ha, h₁, hf₁⟩ := h.call hf hallowed.1 hsmall.head
    obtain ⟨as, m₂, t₂, c₂, ⟨N₂, hrun⟩, has, h₂, hf₂⟩ := ih h₁ hf₁ hallowed.2 hsmall
    refine ⟨a :: as, m₂, t₂, c₂, ⟨max N₁ N₂, fun fuel hfuel => ?_⟩, ⟨a, as, rfl, ha, has⟩, h₂, hf₂⟩
    simp only [run, hcall fuel (by omega), hrun fuel (by omega), Option.map_some]

/-- A run that goes beyond. -/
theorem run_overflow {calls : List (Call n)} (h : Reached m t c) (hf : Matches c f)
    (hallowed : Allowed f calls) (hcard : f.entries.card < 2 ^ 31) (hsmall : ¬Small f calls) :
    ∃ N, ∀ fuel, N ≤ fuel → run fuel (m, t) calls = none := by
  induction calls generalizing m t c f with
  | nil =>
    refine absurd (fun pre hpre => ?_) hsmall
    rw [List.prefix_nil.mp hpre]
    exact hcard
  | cons call calls ih =>
    rw [small_cons, not_and] at hsmall
    by_cases hafter : (call.after f).entries.card < 2 ^ 31
    · obtain ⟨a, m₁, t₁, c₁, ⟨N₁, hcall⟩, -, h₁, hf₁⟩ := h.call hf hallowed.1 hafter
      obtain ⟨N₂, hrun⟩ := ih h₁ hf₁ hallowed.2 hafter (hsmall hcard)
      refine ⟨max N₁ N₂, fun fuel hfuel => ?_⟩
      simp only [run, hcall fuel (by omega), hrun fuel (by omega), Option.map_none]
    · refine ⟨0, fun fuel _ => ?_⟩
      rw [run, h.call_overflow hf hallowed.1 hcard hafter fuel]

theorem not_works_of_not_small (m : ℕ → Link n) {tsize : ℕ} (htsize : tsize < 2 ^ 31)
    {calls : List (Call n)} (hallowed : Allowed ∅ calls) (hsmall : ¬Small ∅ calls) :
    ¬Works m tsize calls := by
  rintro ⟨answers, m', t', ⟨N, hworks⟩, -⟩
  obtain ⟨N', hnone⟩ := run_overflow (reached_init m htsize) (matches_init tsize) hallowed
    (show 0 < 2 ^ 31 by decide) hsmall
  have hboth := hworks (max N N') (le_max_left _ _)
  dsimp only at hboth
  rw [hnone _ (le_max_right _ _)] at hboth
  simp at hboth

theorem allowed_append {calls calls' : List (Call n)} :
    Allowed f (calls ++ calls') ↔ Allowed f calls ∧ Allowed (after f calls) calls' := by
  induction calls generalizing f with
  | nil => simp [Allowed, after]
  | cons call calls ih =>
    rw [List.cons_append, Allowed, ih, Allowed, and_assoc]
    rfl

/-- The calls work exactly if there are less than 2^31 items at any time. -/
theorem works_iff (m : ℕ → Link n) {tsize : ℕ} (htsize : tsize < 2 ^ 31) {calls : List (Call n)}
    (hallowed : Allowed ∅ calls) : Works m tsize calls ↔ Small ∅ calls := by
  constructor
  · intro h
    by_contra hsmall
    exact not_works_of_not_small m htsize hallowed hsmall h
  · intro hsmall
    obtain ⟨answers, m', t', c', hrun, hright, hreached, hf⟩ :=
      run_spec (reached_init m htsize) (matches_init tsize) hallowed hsmall
    exact ⟨answers, m', t', hrun, hright, hreached.isMap hf⟩

/-- Keys of four bytes. -/
def numberKey (i : ℕ) : List.Vector UInt8 4 := fixed 4 (leBytes 4 i)

def inserts (k : ℕ) : List (Call 4) := (List.range k).map fun i => .insert (numberKey i) i

theorem inserts_succ (k : ℕ) : inserts (k + 1) = inserts k ++ [.insert (numberKey k) k] := by
  rw [inserts, List.range_succ, List.map_append]
  rfl

theorem inserts_spec {k : ℕ} (hk : k ≤ 2 ^ 32) : Allowed ∅ (inserts k) ∧
    (after ∅ (inserts k)).entries =
      (Multiset.range k).map fun i => (⟨numberKey i, i⟩ : Σ _ : List.Vector UInt8 4, ℕ) := by
  induction k with
  | zero => exact ⟨trivial, rfl⟩
  | succ k ih =>
    obtain ⟨hallowed, hentries⟩ := ih (by omega)
    have hkey : numberKey k ∉ after ∅ (inserts k) := by
      rw [Finmap.mem_def, Multiset.keys, hentries, Multiset.map_map]
      intro hmem
      obtain ⟨i, hi, heq⟩ := Multiset.mem_map.mp hmem
      have hlt := Multiset.mem_range.mp hi
      have hik : i = k := fixed_leBytes_inj (n := 4) (by norm_num; omega) (by norm_num; omega) heq
      omega
    have hitem : k ∉ (after ∅ (inserts k)).entries.map Sigma.snd := by
      rw [hentries, Multiset.map_map]
      intro hmem
      obtain ⟨i, hi, heq⟩ := Multiset.mem_map.mp hmem
      exact absurd (Multiset.mem_range.mp hi) (by rw [← heq]; exact lt_irrefl _)
    rw [inserts_succ, allowed_append]
    refine ⟨⟨hallowed, ⟨hkey, hitem⟩, trivial⟩, ?_⟩
    rw [after, List.foldl_concat]
    change (Finmap.insert (numberKey k) k (after ∅ (inserts k))).entries = _
    rw [Finmap.entries_insert_of_notMem hkey, hentries, Multiset.range_succ, Multiset.map_cons]

def blankLinks : ℕ → Link 4 := fun _ => ⟨none, numberKey 0⟩

/-- The table starts with one bucket, and grows with the fourth item. -/
theorem works_for_five_inserts : Works blankLinks 0 (inserts 5) := by
  refine (works_iff blankLinks (by decide) (inserts_spec (by decide)).1).mpr fun pre hpre => ?_
  have htake : pre = inserts (min pre.length 5) := by
    rw [inserts, ← List.take_range, List.map_take]
    exact List.prefix_iff_eq_take.mp hpre
  rw [htake, (inserts_spec (le_trans (min_le_right _ _) (by decide))).2, Multiset.card_map, Multiset.card_range]
  omega

theorem inserts_do_not_work {k : ℕ} (hk : k = 2 ^ 31) :
    Allowed ∅ (inserts k) ∧ ¬Works blankLinks 31 (inserts k) := by
  obtain ⟨hallowed, hentries⟩ := inserts_spec (k := k) (by omega)
  refine ⟨hallowed, not_works_of_not_small blankLinks (by decide) hallowed fun hsmall => ?_⟩
  have hcard := hsmall _ (List.prefix_refl _)
  rw [hentries, Multiset.card_map, Multiset.card_range] at hcard
  omega

theorem many_inserts_do_not_work :
    Allowed ∅ (inserts (2 ^ 31)) ∧ ¬Works blankLinks 31 (inserts (2 ^ 31)) :=
  inserts_do_not_work rfl

end TCBackup.Client.TableMemory
