import TCBackup.Client.TableMemory

/-!
# The hash table in memory is a chained hash table (`client/lib/htable.c`)

The links in memory stand for the chains of an `HTable`, and every function does to them what
its counterpart does to the chains, as long as the counters do not wrap.

## Main definitions

- `Chain`, `Represents` — the chains that the links in memory stand for
- `Cursor` — what a walk through the table still meets
- `Reached` — a table that holds less than four items for every bucket

## Main results

- `Cursor.next`, `walkFrom_spec` — the walk meets every item once
- `Represents.grow`, `growTable_overflow` — growing, and why it ends at 2^29 buckets
- `Reached.insert`, `Reached.lookup`, `Reached.remove` — the operations
-/

namespace TCBackup.Client.TableMemory

open ByteFile Linked

variable {n : ℕ} {m : ℕ → Link n} {t : Table} {p : Option ℕ} {key : List.Vector UInt8 n} {item : ℕ}
  {l rest : List (List.Vector UInt8 n × ℕ)} {e : List.Vector UInt8 n × ℕ}
  {ch : ℕ → List (List.Vector UInt8 n × ℕ)} {c : HTable n ℕ}

-- ════════════════════════════════════════════════════════════════════════
-- Chains in memory
-- ════════════════════════════════════════════════════════════════════════

/-- From the pointer on, the links of these items make up the rest of a chain. -/
def Chain (m : ℕ → Link n) (p : Option ℕ) (l : List (List.Vector UInt8 n × ℕ)) : Prop :=
  Seg (fun q => (m q).next) p (l.map Prod.snd) none ∧ ∀ e ∈ l, (m e.2).key = e.1

@[simp] theorem chain_nil : Chain m p [] ↔ p = none := by simp [Chain]

theorem chain_cons :
    Chain m p (e :: l) ↔ p = some e.2 ∧ (m e.2).key = e.1 ∧ Chain m (m e.2).next l := by
  simp only [Chain, List.map_cons, seg_cons, List.forall_mem_cons]
  tauto

theorem Chain.eq_nil (h : Chain m none l) : l = [] := by
  cases l with
  | nil => rfl
  | cons e l => exact absurd (chain_cons.mp h).1 (by simp)

theorem Chain.congr {m' : ℕ → Link n} (h : Chain m p l) (hsame : ∀ q ∈ l.map Prod.snd, m' q = m q) :
    Chain m' p l := by
  refine ⟨h.1.congr fun q hq => congrArg Link.next (hsame q hq), fun e he => ?_⟩
  rw [hsame e.2 (List.mem_map_of_mem he)]
  exact h.2 e he

/-- Writing another link. -/
theorem Chain.update (h : Chain m p l) (hitem : item ∉ l.map Prod.snd) (x : Link n) :
    Chain (Function.update m item x) p l := by
  refine h.congr fun q hq => Function.update_of_ne ?_ _ _
  rintro rfl
  exact hitem hq

/-- The table in memory stands for these chains. -/
structure Represents (m : ℕ → Link n) (t : Table) (c : HTable n ℕ) : Prop where
  buckets : t.buckets = c.buckets
  mask : t.mask = t.buckets - 1
  num_items : t.num_items = c.numItems
  max_items : t.max_items = word (t.buckets * 4)
  chains : ∀ i < c.buckets, Chain m (t.table i) (c.table i)
  distinct : (c.items.map Prod.snd).Nodup
  wf : ChainTable.WF hashIndex c

theorem Represents.index_eq (h : Represents m t c) (key : List.Vector UInt8 n) :
    index t key = hashIndex c.buckets key := by
  rw [index, hashIndex, h.mask, h.buckets]

theorem Represents.index_lt (h : Represents m t c) (key : List.Vector UInt8 n) :
    index t key < t.buckets := by
  rw [h.index_eq, h.buckets]
  exact h.wf.bound key

theorem Represents.length_items (h : Represents m t c) : c.items.length = t.num_items := by
  rw [h.num_items, h.wf.count]

/-- The position of a walk does not matter. -/
theorem Represents.congr (h : Represents m t c) (walkptr : Option ℕ) (walk_index : ℕ) :
    Represents m { t with walkptr := walkptr, walk_index := walk_index } c :=
  ⟨h.buckets, h.mask, h.num_items, h.max_items, h.chains, h.distinct, h.wf⟩

-- ════════════════════════════════════════════════════════════════════════
-- Walking
-- ════════════════════════════════════════════════════════════════════════

/-- The chains from `i` on, in a table of `b` buckets. -/
def later (ch : ℕ → List (List.Vector UInt8 n × ℕ)) (i b : ℕ) : List (List.Vector UInt8 n × ℕ) :=
  (List.range' i (b - i)).flatMap ch

theorem later_of_le {i b : ℕ} (h : b ≤ i) : later ch i b = [] := by
  rw [later, Nat.sub_eq_zero_of_le h]
  rfl

theorem later_of_lt {i b : ℕ} (h : i < b) : later ch i b = ch i ++ later ch (i + 1) b := by
  have hsub : b - i = (b - (i + 1)) + 1 := by omega
  rw [later, hsub, List.range'_succ, List.flatMap_cons]
  rfl

theorem items_eq_later : c.items = later c.table 0 c.buckets := by
  rw [ChainTable.items, later, List.range_eq_range']
  rfl

/-- The walk stands at `walkptr` and still meets these items. -/
def Cursor (m : ℕ → Link n) (t : Table) (ch : ℕ → List (List.Vector UInt8 n × ℕ))
    (rest : List (List.Vector UInt8 n × ℕ)) : Prop :=
  (∃ l, Chain m t.walkptr l ∧ rest = l ++ later ch t.walk_index t.buckets) ∧
    (∀ j, t.walk_index ≤ j → j < t.buckets → Chain m (t.table j) (ch j)) ∧
    (t.walkptr = none → rest = [])

theorem scan_spec {table : ℕ → Option ℕ} {k i b : ℕ} (hb : b - i = k) (hl : Chain m p l)
    (hch : ∀ j, i ≤ j → j < b → Chain m (table j) (ch j)) :
    (∃ l', Chain m (scan table k p i).1 l' ∧
      l ++ later ch i b = l' ++ later ch (scan table k p i).2 b) ∧ i ≤ (scan table k p i).2 ∧
      ((scan table k p i).1 = none → l ++ later ch i b = []) := by
  induction k generalizing p i l with
  | zero =>
    rw [scan]
    refine ⟨⟨l, hl, rfl⟩, le_refl _, fun hp => ?_⟩
    obtain rfl : p = none := hp
    obtain rfl : l = [] := hl.eq_nil
    exact later_of_le (by omega)
  | succ k ih =>
    cases p with
    | none =>
      obtain rfl : l = [] := hl.eq_nil
      rw [scan, List.nil_append, later_of_lt (by omega)]
      obtain ⟨hfound, hle, hnone⟩ := ih (i := i + 1) (by omega) (hch i (le_refl _) (by omega))
        fun j hj hjb => hch j (by omega) hjb
      exact ⟨hfound, by omega, hnone⟩
    | some q =>
      rw [scan]
      exact ⟨⟨l, hl, rfl⟩, le_refl _, fun hq => absurd hq (by simp)⟩

theorem seek_spec {i : ℕ} (hl : Chain m p l)
    (hch : ∀ j, i ≤ j → j < t.buckets → Chain m (t.table j) (ch j)) :
    Cursor m (t.seek p i) ch (l ++ later ch i t.buckets) := by
  obtain ⟨hfound, hle, hnone⟩ := scan_spec rfl hl hch
  exact ⟨hfound, fun j hj hjb => hch j (hle.trans hj) hjb, hnone⟩

theorem Represents.first (h : Represents m t c) : Cursor m (first t) c.table c.items := by
  have hch : ∀ j, j < t.buckets → Chain m (t.table j) (c.table j) := h.buckets ▸ h.chains
  rw [items_eq_later, later_of_lt h.wf.pos, ← h.buckets]
  exact seek_spec (hch 0 (h.buckets ▸ h.wf.pos)) fun j _ hj => hch j hj

theorem Cursor.walkptr_nil (h : Cursor m t ch []) : t.walkptr = none := by
  obtain ⟨⟨l, hl, hrest⟩, -⟩ := h
  obtain ⟨rfl, -⟩ := List.append_eq_nil_iff.mp hrest.symm
  exact chain_nil.mp hl

/-- The item at hand, and the chain behind it. -/
theorem Cursor.cons (h : Cursor m t ch (e :: rest)) : t.walkptr = some e.2 ∧ (m e.2).key = e.1 ∧
    ∃ l, Chain m (m e.2).next l ∧ rest = l ++ later ch t.walk_index t.buckets := by
  obtain ⟨⟨l, hl, hrest⟩, -, hnone⟩ := h
  cases l with
  | nil => exact absurd (hnone (chain_nil.mp hl)) (by simp)
  | cons e' l =>
    obtain ⟨rfl, rfl⟩ := List.cons.inj hrest
    obtain ⟨hp, hkey, hl⟩ := chain_cons.mp hl
    exact ⟨hp, hkey, l, hl, rfl⟩

theorem Cursor.next (h : Cursor m t ch (e :: rest)) : Cursor m (next m t) ch rest := by
  obtain ⟨hp, -, l, hl, rfl⟩ := h.cons
  have hnext : t.walkptr.bind (fun p => (m p).next) = (m e.2).next := by rw [hp, Option.bind_some]
  rw [TableMemory.next, hnext]
  exact seek_spec hl h.2.1

theorem next_eq (m : ℕ → Link n) (t : Table) : next m t =
    { t with walkptr := (next m t).walkptr, walk_index := (next m t).walk_index } := rfl

/-- The walk meets what is left, item by item, and then `NULL`. -/
theorem walkFrom_spec (h : Cursor m t ch rest) : ∃ walk_index, ∀ fuel, rest.length ≤ fuel →
    walkFrom fuel m t =
      some (rest.map Prod.snd, { t with walkptr := none, walk_index := walk_index }) := by
  induction rest generalizing t with
  | nil =>
    refine ⟨t.walk_index, fun fuel _ => ?_⟩
    have hp := h.walkptr_nil
    cases fuel <;> rw [walkFrom, hp] <;> exact congrArg some (Prod.ext rfl (by rw [← hp]))
  | cons e rest ih =>
    obtain ⟨i, hi⟩ := ih h.next
    refine ⟨i, fun fuel hfuel => ?_⟩
    rw [List.length_cons] at hfuel
    obtain ⟨fuel, rfl⟩ : ∃ k, fuel = k + 1 := ⟨fuel - 1, by omega⟩
    rw [walkFrom, h.cons.1]
    simp only [hi fuel (by omega), Option.map_some]
    rw [next_eq]
    rfl

-- ════════════════════════════════════════════════════════════════════════
-- Linking an item
-- ════════════════════════════════════════════════════════════════════════

theorem notMem_chain (hitem : item ∉ c.items.map Prod.snd) {i : ℕ}
    (hi : i < c.buckets) : item ∉ (c.table i).map Prod.snd := by
  intro hmem
  obtain ⟨e, he, rfl⟩ := List.mem_map.mp hmem
  exact hitem (List.mem_map_of_mem (ChainTable.mem_items.mpr ⟨i, hi, he⟩))

/-- A new item comes to the front of its chain. -/
theorem Represents.link (h : Represents m t c) (hitem : item ∉ c.items.map Prod.snd)
    (hnum : c.numItems + 1 < 2 ^ 32) (key : List.Vector UInt8 n) :
    Represents (link m t key item).1 (link m t key item).2 (c.link hashIndex key item) := by
  have hperm := ChainTable.items_link_perm h.wf.bound key item
  refine ⟨h.buckets, h.mask, ?_, h.max_items, fun i hi => ?_, ?_, h.wf.link key item⟩
  · rw [TableMemory.link]
    dsimp only
    rw [h.num_items, word_of_lt hnum]
    rfl
  · have hchain : Chain (Function.update m item ⟨t.table (index t key), key⟩) (t.table i)
        (c.table i) := (h.chains i hi).update (notMem_chain hitem hi) _
    rw [TableMemory.link, ChainTable.link, ChainTable.linkAt]
    dsimp only
    rw [h.index_eq] at hchain ⊢
    by_cases heq : i = hashIndex c.buckets key
    · subst heq
      rw [Function.update_self, Function.update_self, chain_cons]
      exact ⟨rfl, by rw [Function.update_self], by rwa [Function.update_self]⟩
    · rwa [Function.update_of_ne heq, Function.update_of_ne heq]
  · rw [(hperm.map Prod.snd).nodup_iff, List.map_cons, List.nodup_cons]
    exact ⟨hitem, h.distinct⟩

/-- Other links stay as they are. -/
theorem link_other {q : ℕ} (hq : q ≠ item) : (link m t key item).1 q = m q :=
  Function.update_of_ne hq _ m

theorem insertWith_eq (h : Represents m t c) (key : List.Vector UInt8 n) (item : ℕ)
    (grow : (ℕ → Link n) → Table → Option ((ℕ → Link n) × Table)) :
    insertWith grow m t key item =
      if t.max_items ≤ word (t.num_items + 1) then
        grow (link m t key item).1 (link m t key item).2
      else some (link m t key item) := by
  rw [insertWith, if_pos (h.index_lt key)]
  rfl

-- ════════════════════════════════════════════════════════════════════════
-- Growing
-- ════════════════════════════════════════════════════════════════════════

theorem Represents.bigger (h : Represents m t c) (hb : c.buckets * 2 < 2 ^ 32) (m' : ℕ → Link n) :
    Represents m' (bigger t) (ChainTable.empty (c.buckets * 2)) := by
  have hpos : 0 < c.buckets * 2 := by
    have := h.wf.pos
    omega
  have hbuckets : (TableMemory.bigger t).buckets = c.buckets * 2 := by
    rw [TableMemory.bigger]
    dsimp only
    rw [h.buckets, word_of_lt hb]
  refine ⟨hbuckets, ?_, rfl, rfl, fun i _ => chain_nil.mpr rfl, by simp,
    ChainTable.empty_wf hpos fun k => hashIndex_lt _ k hpos⟩
  rw [hbuckets, TableMemory.bigger]
  dsimp only
  have hmask : word (t.mask * 2) = 2 * (c.buckets - 1) := by
    rw [h.mask, h.buckets, word_of_lt (by omega), Nat.mul_comm]
  have hor := Nat.two_pow_add_eq_or_of_lt (i := 1) (b := 1) (by decide) (c.buckets - 1)
  rw [pow_one] at hor
  rw [hmask, ← hor]
  omega

theorem later_update {i b : ℕ} (h : ∀ j, i ≤ j → j < b → Chain m (t.table j) (ch j))
    (hitem : item ∉ (later ch i b).map Prod.snd) (x : Link n) :
    ∀ j, i ≤ j → j < b → Chain (Function.update m item x) (t.table j) (ch j) := by
  intro j hj hjb
  refine (h j hj hjb).update (fun hmem => ?_) x
  obtain ⟨e, he, rfl⟩ := List.mem_map.mp hmem
  refine hitem (List.mem_map_of_mem (List.mem_flatMap.mpr ⟨j, ?_, he⟩))
  exact List.mem_range'_1.mpr ⟨hj, by omega⟩

/-- The link of the item at hand may be overwritten: the walk goes on where the link pointed
to before. -/
theorem Cursor.advance (h : Cursor m t ch (e :: rest)) (he : e.2 ∉ rest.map Prod.snd) (x : Link n) :
    (∀ q, (m e.2).next = some q →
        Cursor (Function.update m e.2 x) { t with walkptr := some q } ch rest) ∧
      ((m e.2).next = none →
        Cursor (Function.update m e.2 x)
          (TableMemory.next (Function.update m e.2 x) { t with walkptr := none }) ch rest) := by
  obtain ⟨-, -, l, hl, rfl⟩ := h.cons
  rw [List.map_append, List.mem_append, not_or] at he
  have hchain := hl.update he.1 x
  have hch := later_update h.2.1 he.2 x
  constructor
  · intro q hq
    rw [hq] at hchain
    exact ⟨⟨l, hchain, rfl⟩, hch, fun hnone => absurd hnone (by simp)⟩
  · intro hq
    rw [hq] at hchain
    exact seek_spec (t := { t with walkptr := none }) hchain hch

/-- The loop links the items that are left into the bigger table, which never fills up. -/
theorem growLoop_spec {big : Table} {d : HTable n ℕ}
    (hcursor : Cursor m { t with walkptr := p } ch rest) (hbig : Represents m big d)
    (hdistinct : ((d.items ++ rest).map Prod.snd).Nodup)
    (hroom : d.numItems + rest.length < d.buckets * 4) (hb : d.buckets * 4 < 2 ^ 32) :
    ∃ m' big', (∀ fuel, rest.length ≤ fuel → growLoop fuel m t big p = some (m', big')) ∧
      Represents m' big' (rest.foldl (fun d e => d.link hashIndex e.1 e.2) d) ∧
      ∀ q, q ∉ rest.map Prod.snd → m' q = m q := by
  induction rest generalizing m t p big d with
  | nil =>
    obtain rfl : p = none := hcursor.walkptr_nil
    refine ⟨m, big, fun fuel _ => ?_, hbig, fun _ _ => rfl⟩
    cases fuel <;> rfl
  | cons e rest ih =>
    obtain ⟨hp, hkey, -⟩ := hcursor.cons
    obtain rfl : p = some e.2 := hp
    rw [List.length_cons] at hroom
    have hnodup : e.2 ∉ d.items.map Prod.snd ∧ e.2 ∉ rest.map Prod.snd := by
      rw [List.map_append, List.map_cons, List.nodup_middle, List.nodup_cons, List.mem_append,
        not_or] at hdistinct
      exact hdistinct.1
    have hlink := hbig.link hnodup.1 (by omega) e.1
    have hnumItems : (d.link hashIndex e.1 e.2).numItems = d.numItems + 1 := rfl
    have hinsert : ∀ grow, insertWith grow m big (m e.2).key e.2 =
        some (link m big e.1 e.2) := by
      intro grow
      rw [hkey, insertWith_eq hbig, hbig.max_items, hbig.buckets, hbig.num_items,
        word_of_lt hb, word_of_lt (by omega), if_neg (by omega)]
    have hperm := ChainTable.items_link_perm hbig.wf.bound e.1 e.2
    have hdistinct' : (((d.link hashIndex e.1 e.2).items ++ rest).map Prod.snd).Nodup := by
      refine (((hperm.append_right rest).trans ?_).map Prod.snd).nodup_iff.mpr hdistinct
      exact List.perm_middle.symm
    obtain ⟨hsome, hnone⟩ := hcursor.advance hnodup.2 ⟨big.table (index big e.1), e.1⟩
    have hlength : (d.link hashIndex e.1 e.2).numItems + rest.length <
        (d.link hashIndex e.1 e.2).buckets * 4 := by
      change d.numItems + 1 + rest.length < d.buckets * 4
      omega
    have hframe : ∀ m' : ℕ → Link n, (∀ q, q ∉ rest.map Prod.snd → m' q = (link m big e.1 e.2).1 q) →
        ∀ q, q ∉ (e :: rest).map Prod.snd → m' q = m q := by
      intro m' hm' q hq
      rw [List.map_cons, List.mem_cons, not_or] at hq
      rw [hm' q hq.2, link_other hq.1]
    cases hni : (m e.2).next with
    | some q =>
      obtain ⟨m', big', hrun, hrep, hother⟩ := ih (t := t) (hsome q hni) hlink hdistinct'
        hlength hb
      refine ⟨m', big', fun fuel hfuel => ?_, hrep, hframe m' hother⟩
      obtain ⟨fuel, rfl⟩ : ∃ k, fuel = k + 1 := ⟨fuel - 1, by rw [List.length_cons] at hfuel; omega⟩
      rw [growLoop]
      simp only [hinsert, hni]
      exact hrun fuel (by rw [List.length_cons] at hfuel; omega)
    | none =>
      let t' := next (link m big e.1 e.2).1 { t with walkptr := none }
      obtain ⟨m', big', hrun, hrep, hother⟩ := ih (t := t') (p := t'.walkptr) (hnone hni) hlink
        hdistinct' hlength hb
      refine ⟨m', big', fun fuel hfuel => ?_, hrep, hframe m' hother⟩
      obtain ⟨fuel, rfl⟩ : ∃ k, fuel = k + 1 := ⟨fuel - 1, by rw [List.length_cons] at hfuel; omega⟩
      rw [growLoop]
      simp only [hinsert, hni]
      exact hrun fuel (by rw [List.length_cons] at hfuel; omega)

/-- Growing relinks every item, in the order of the walk. -/
theorem Represents.grow (h : Represents m t c) (hroom : c.numItems < c.buckets * 2 * 4)
    (hb : c.buckets * 2 * 4 < 2 ^ 32) : ∃ m' t',
    (∀ fuel, c.numItems ≤ fuel → growTable fuel m t = some (m', t')) ∧
      Represents m' t' (c.grow hashIndex) ∧ ∀ q, q ∉ c.items.map Prod.snd → m' q = m q := by
  have hempty : (ChainTable.empty (c.buckets * 2) : HTable n ℕ).items = [] :=
    ChainTable.items_empty _
  have hcount := h.wf.count
  obtain ⟨m', t', hrun, hrep, hother⟩ := growLoop_spec (t := TableMemory.first t) h.first
    (h.bigger (by omega) m) (by rw [hempty]; exact h.distinct)
    (by change 0 + c.items.length < c.buckets * 2 * 4; omega) hb
  exact ⟨m', t', fun fuel hfuel => hrun fuel (by omega), hrep, hother⟩

-- ════════════════════════════════════════════════════════════════════════
-- Counters that wrap
-- ════════════════════════════════════════════════════════════════════════

/-- `grow_table` does not return if its first call of `insert` does not. -/
theorem Represents.grow_eq_none (h : Represents m t c) (hitems : c.items ≠ [])
    (hinsert : ∀ fuel key item, insertWith (growTable fuel) m (TableMemory.bigger t) key item = none)
    (fuel : ℕ) : growTable fuel m t = none := by
  obtain ⟨e, rest, hrest⟩ := List.exists_cons_of_ne_nil hitems
  have hfirst := h.first
  rw [hrest] at hfirst
  rw [growTable, hfirst.cons.1]
  cases fuel with
  | zero => rfl
  | succ fuel =>
    rw [growLoop]
    have hnone : insertWith (fun m t => growLoop fuel m (TableMemory.first t)
        (TableMemory.bigger t) (TableMemory.first t).walkptr) m (TableMemory.bigger t)
        (m e.2).key e.2 = none := hinsert fuel (m e.2).key e.2
    rw [hnone]

/-- With a maximum of 0 items every `insert` grows the table again. -/
theorem grow_eq_none_of_double {b : ℕ} (hb : b * 2 < 2 ^ 32) (hwrap : b * 2 * 4 % 2 ^ 32 = 0)
    (hdouble : ∀ (m : ℕ → Link n) t c, Represents m t c → c.items ≠ [] → c.buckets = b * 2 →
      ∀ fuel, growTable fuel m t = none)
    (h : Represents m t c) (hitems : c.items ≠ []) (hbuckets : c.buckets = b) (fuel : ℕ) :
    growTable fuel m t = none := by
  subst hbuckets
  refine h.grow_eq_none hitems (fun fuel key item => ?_) fuel
  have hbig := h.bigger hb m
  have hmax : (TableMemory.bigger t).max_items = 0 := by
    rw [hbig.max_items, hbig.buckets]
    exact hwrap
  have hempty : item ∉ ((ChainTable.empty (c.buckets * 2) : HTable n ℕ).items).map Prod.snd := by
    simp
  have hlink := hbig.link hempty (by change 0 + 1 < 2 ^ 32; decide) key
  rw [insertWith_eq hbig, hmax, if_pos (Nat.zero_le _)]
  refine hdouble _ _ _ hlink (fun hnil => ?_) rfl fuel
  have hcount := hlink.wf.count
  rw [hnil] at hcount
  change 0 + 1 = 0 at hcount
  omega

/-- From 2^29 buckets on `grow_table` does not return: the maximum of the bigger table wraps
to 0, and so does, two tables later, the number of its buckets. -/
theorem growTable_overflow (h : Represents m t c) (hitems : c.items ≠ [])
    (hbuckets : c.buckets = 2 ^ 29) (fuel : ℕ) : growTable fuel m t = none := by
  have h31 : ∀ (m : ℕ → Link n) t c, Represents m t c → c.items ≠ [] → c.buckets = 2 ^ 30 * 2 →
      ∀ fuel, growTable fuel m t = none := by
    intro m t c h hitems hbuckets
    refine h.grow_eq_none hitems fun fuel key item => ?_
    have hzero : (bigger t).buckets = 0 := by
      rw [bigger]
      dsimp only
      rw [h.buckets, hbuckets]
      rfl
    rw [insertWith, if_neg (by rw [hzero]; exact Nat.not_lt_zero _)]
  have h30 : ∀ (m : ℕ → Link n) t c, Represents m t c → c.items ≠ [] → c.buckets = 2 ^ 29 * 2 →
      ∀ fuel, growTable fuel m t = none := fun m t c h hitems hbuckets =>
    grow_eq_none_of_double (by decide) (by decide) h31 h hitems hbuckets
  exact grow_eq_none_of_double (by decide) (by decide) h30 h hitems hbuckets fuel

-- ════════════════════════════════════════════════════════════════════════
-- The operations
-- ════════════════════════════════════════════════════════════════════════

/-- Less than four items for every bucket. -/
structure Reached (m : ℕ → Link n) (t : Table) (c : HTable n ℕ) : Prop extends Represents m t c where
  pow : ∃ j ≤ 29, c.buckets = 2 ^ j
  room : c.numItems < c.buckets * 4

theorem reached_init (m : ℕ → Link n) {tsize : ℕ} (h : tsize < 2 ^ 31) :
    Reached m (init tsize) (htableInit tsize) := by
  have hsize : Nat.size (tsize / 4) ≤ 29 := Nat.size_le.mpr (by omega)
  have hpos : 0 < 2 ^ Nat.size (tsize / 4) := by positivity
  refine ⟨⟨rfl, rfl, rfl, rfl, fun i _ => chain_nil.mpr rfl, ?_, (HTable.init_wf tsize).chains⟩,
    ⟨_, hsize, rfl⟩, by change 0 < 2 ^ Nat.size (tsize / 4) * 4; omega⟩
  have hnil : (htableInit tsize : HTable n ℕ).items = [] := HTable.walk_init tsize
  rw [hnil]
  exact List.nodup_nil

/-- The same table, wherever its walk stands. -/
theorem Reached.congr (h : Reached m t c) (walkptr : Option ℕ) (walk_index : ℕ) :
    Reached m { t with walkptr := walkptr, walk_index := walk_index } c :=
  ⟨h.toRepresents.congr walkptr walk_index, h.pow, h.room⟩

theorem Reached.buckets_le (h : Reached m t c) : c.buckets ≤ 2 ^ 29 := by
  obtain ⟨j, hj, hb⟩ := h.pow
  rw [hb]
  exact Nat.pow_le_pow_right (by decide) hj

/-- `grow_table` below 2^29 buckets, on a table that is full. -/
theorem Represents.growTable (h : Represents m t c) {j : ℕ} (hj : j ≤ 28)
    (hbuckets : c.buckets = 2 ^ j) (hfull : c.numItems ≤ c.buckets * 4) : ∃ m' t',
    (∀ fuel, c.numItems ≤ fuel → growTable fuel m t = some (m', t')) ∧
      Reached m' t' (c.grow hashIndex) ∧ ∀ q, q ∉ c.items.map Prod.snd → m' q = m q := by
  have hpow : 2 ^ j ≤ 2 ^ 28 := Nat.pow_le_pow_right (by decide) hj
  have hpos := h.wf.pos
  obtain ⟨m', t', hrun, hrep, hother⟩ := h.grow (by omega) (by omega)
  refine ⟨m', t', hrun, ⟨hrep, ⟨j + 1, by omega, ?_⟩, ?_⟩, hother⟩
  · rw [ChainTable.buckets_grow hashIndex_lt h.wf, hbuckets, pow_succ]
  · rw [ChainTable.buckets_grow hashIndex_lt h.wf, ChainTable.numItems_grow hashIndex_lt h.wf]
    omega

theorem Reached.max_items_eq (h : Reached m t c) : t.max_items = c.buckets * 4 := by
  have hb := h.buckets_le
  rw [h.max_items, h.buckets, word_of_lt (by omega)]

/-- An `insert` below 2^31 items. -/
theorem Reached.insert (h : Reached m t c) (hitem : item ∉ c.items.map Prod.snd)
    (hnum : c.numItems + 1 < 2 ^ 31) (key : List.Vector UInt8 n) : ∃ m' t',
    (∀ fuel, c.numItems + 1 ≤ fuel → insert fuel m t key item = some (m', t')) ∧
      Reached m' t' (c.insert key item) ∧
      ∀ q, q ∉ c.items.map Prod.snd → q ≠ item → m' q = m q := by
  have hroom := h.room
  have hlink := h.toRepresents.link hitem (by omega) key
  have hinsert : c.insert key item =
      if c.buckets * 4 ≤ c.numItems + 1 then (c.link hashIndex key item).grow hashIndex
      else c.link hashIndex key item := rfl
  have hrun : ∀ fuel, TableMemory.insert fuel m t key item =
      if c.buckets * 4 ≤ c.numItems + 1 then
        TableMemory.growTable fuel (TableMemory.link m t key item).1
          (TableMemory.link m t key item).2
      else some (TableMemory.link m t key item) := by
    intro fuel
    rw [TableMemory.insert, insertWith_eq h.toRepresents, h.max_items_eq, h.num_items,
      word_of_lt (by omega)]
  rw [hinsert]
  simp only [hrun]
  by_cases hfull : c.buckets * 4 ≤ c.numItems + 1
  · obtain ⟨j, hj, hpow⟩ := h.pow
    have hj' : j ≤ 28 := by
      by_contra hlt
      obtain rfl : j = 29 := by omega
      omega
    obtain ⟨m', t', hgrow, hreached, hother⟩ := hlink.growTable hj' hpow
      (by change c.numItems + 1 ≤ c.buckets * 4; omega)
    simp only [if_pos hfull]
    refine ⟨m', t', hgrow, hreached, fun q hq hne => ?_⟩
    have hperm := ChainTable.items_link_perm h.wf.bound key item
    rw [hother q ?_, link_other hne]
    rw [(hperm.map Prod.snd).mem_iff, List.map_cons, List.mem_cons, not_or]
    exact ⟨hne, hq⟩
  · simp only [if_neg hfull]
    refine ⟨(TableMemory.link m t key item).1, (TableMemory.link m t key item).2, fun _ _ => rfl,
      ⟨hlink, h.pow, ?_⟩, fun q _ hne => link_other hne⟩
    change c.numItems + 1 < c.buckets * 4
    omega

/-- The `insert` of the item number 2^31 does not return. -/
theorem Reached.insert_overflow (h : Reached m t c) (hitem : item ∉ c.items.map Prod.snd)
    (hnum : c.numItems + 1 = 2 ^ 31) (key : List.Vector UInt8 n) (fuel : ℕ) :
    TableMemory.insert fuel m t key item = none := by
  have hb := h.buckets_le
  have hroom := h.room
  have hbuckets : c.buckets = 2 ^ 29 := by omega
  have hlink := h.toRepresents.link hitem (by omega) key
  have hmax : t.max_items = 2 ^ 31 := by rw [h.max_items_eq, hbuckets]; rfl
  have hcount : word (t.num_items + 1) = 2 ^ 31 := by
    rw [h.num_items, hnum]
    rfl
  rw [TableMemory.insert, insertWith_eq h.toRepresents, hmax, hcount, if_pos (le_refl _)]
  refine growTable_overflow hlink (fun hnil => ?_) hbuckets fuel
  have hlen := hlink.wf.count
  rw [hnil] at hlen
  change c.numItems + 1 = 0 at hlen
  omega

-- ════════════════════════════════════════════════════════════════════════
-- Looking up and removing
-- ════════════════════════════════════════════════════════════════════════

theorem findLink_none (hl : Chain m p l) (hkey : ∀ e ∈ l, e.1 ≠ key) (pre : Option ℕ) :
    ∃ pre', ∀ fuel, l.length ≤ fuel → findLink fuel m key pre p = some (pre', none) := by
  induction l generalizing p pre with
  | nil =>
    obtain rfl : p = none := chain_nil.mp hl
    exact ⟨pre, fun fuel _ => by cases fuel <;> rfl⟩
  | cons e l ih =>
    obtain ⟨rfl, he, hl⟩ := chain_cons.mp hl
    obtain ⟨hne, hkey⟩ := List.forall_mem_cons.mp hkey
    obtain ⟨pre', hrun⟩ := ih hl hkey (some e.2)
    refine ⟨pre', fun fuel hfuel => ?_⟩
    rw [List.length_cons] at hfuel
    obtain ⟨fuel, rfl⟩ : ∃ k, fuel = k + 1 := ⟨fuel - 1, by omega⟩
    rw [findLink, if_neg (by rw [he]; exact Ne.symm hne), hrun fuel (by omega)]

/-- The first link with the key, and the one in front of it. -/
theorem findLink_some {l₂ : List (List.Vector UInt8 n × ℕ)} (hl : Chain m p (l ++ e :: l₂))
    (hkey : ∀ e' ∈ l, e'.1 ≠ key) (he : e.1 = key) (pre : Option ℕ) (fuel : ℕ)
    (hfuel : l.length < fuel) : findLink fuel m key pre p =
      some ((l.getLast?.map Prod.snd).or pre, some e.2) := by
  obtain ⟨fuel, rfl⟩ : ∃ k, fuel = k + 1 := ⟨fuel - 1, by omega⟩
  induction l generalizing p pre fuel with
  | nil =>
    obtain ⟨rfl, hkey', -⟩ := chain_cons.mp hl
    rw [findLink, if_pos (by rw [hkey', he])]
    rfl
  | cons e' l ih =>
    obtain ⟨rfl, he', hl⟩ := chain_cons.mp hl
    obtain ⟨hne, hkey⟩ := List.forall_mem_cons.mp hkey
    rw [List.length_cons] at hfuel
    obtain ⟨fuel, rfl⟩ : ∃ k, fuel = k + 1 := ⟨fuel - 1, by omega⟩
    rw [findLink, if_neg (by rw [he']; exact Ne.symm hne), ih hl hkey (some e'.2) fuel (by omega)]
    cases l with
    | nil => rfl
    | cons a l =>
      rw [List.getLast?_cons_cons, List.getLast?_cons]
      rfl

/-- The first entry with the key splits its chain. -/
theorem exists_split_of_find? {l : List (List.Vector UInt8 n × ℕ)}
    (h : l.find? (fun e => e.1 = key) = some e) :
    ∃ l₁ l₂, l = l₁ ++ e :: l₂ ∧ (∀ e' ∈ l₁, e'.1 ≠ key) ∧ e.1 = key := by
  obtain ⟨hkey, l₁, l₂, hl, hnot⟩ := List.find?_eq_some_iff_append.mp h
  exact ⟨l₁, l₂, hl, by simpa using hnot, by simpa using hkey⟩

theorem dropFirst_append {l₂ : List (List.Vector UInt8 n × ℕ)} (hkey : ∀ e' ∈ l, e'.1 ≠ key)
    (he : e.1 = key) : ChainTable.dropFirst key (l ++ e :: l₂) = l ++ l₂ := by
  induction l with
  | nil => rw [List.nil_append, ChainTable.dropFirst, if_pos he, List.nil_append]
  | cons e' l ih =>
    obtain ⟨hne, hkey⟩ := List.forall_mem_cons.mp hkey
    rw [List.cons_append, ChainTable.dropFirst, if_neg hne, ih hkey, List.cons_append]

theorem length_chain_le (h : ChainTable.WF hashIndex c) (key : List.Vector UInt8 n) :
    (c.table (hashIndex c.buckets key)).length ≤ c.numItems := by
  rw [h.count]
  refine List.Sublist.length_le ?_
  exact List.sublist_flatten_of_mem
    (List.mem_map_of_mem (List.mem_range.mpr (h.bound key)))

theorem lookup_eq (c : HTable n ℕ) (key : List.Vector UInt8 n) : c.lookup key =
    ((c.table (hashIndex c.buckets key)).find? fun e => e.1 = key).map Prod.snd := rfl

theorem Represents.chain (h : Represents m t c) (key : List.Vector UInt8 n) :
    Chain m (t.table (index t key)) (c.table (hashIndex c.buckets key)) := by
  rw [h.index_eq]
  exact h.chains _ (h.wf.bound key)

/-- `lookup` -/
theorem Represents.lookup (h : Represents m t c) (key : List.Vector UInt8 n) {fuel : ℕ}
    (hfuel : c.numItems < fuel) : lookup fuel m t key = some (c.lookup key) := by
  have hlen := length_chain_le h.wf key
  rw [TableMemory.lookup, if_pos (h.index_lt key), lookup_eq]
  cases hfind : (c.table (hashIndex c.buckets key)).find? fun e => e.1 = key with
  | none =>
    obtain ⟨pre', hrun⟩ := findLink_none (h.chain key)
      (fun e he => by simpa using List.find?_eq_none.mp hfind e he) none
    rw [hrun fuel (by omega)]
    rfl
  | some e =>
    obtain ⟨l₁, l₂, hsplit, hkey, he⟩ := exists_split_of_find? hfind
    have hchain := h.chain key
    rw [hsplit] at hchain hlen
    rw [List.length_append, List.length_cons] at hlen
    rw [findLink_some hchain hkey he none fuel (by omega)]
    rfl

/-- A link leaves its chain. -/
theorem Chain.unlink {l₂ : List (List.Vector UInt8 n × ℕ)} {a : List.Vector UInt8 n × ℕ}
    (h : Chain m p (l ++ a :: e :: l₂)) (hnodup : ((l ++ a :: e :: l₂).map Prod.snd).Nodup) :
    Chain (Function.update m a.2 { m a.2 with next := (m e.2).next }) p (l ++ a :: l₂) := by
  obtain ⟨hseg, hkeys⟩ := h
  have hnext : (fun q => (Function.update m a.2 { m a.2 with next := (m e.2).next } q).next) =
      Function.update (fun q => (m q).next) a.2 (m e.2).next := by
    funext q
    by_cases hq : q = a.2
    · subst hq
      rw [Function.update_self, Function.update_self]
    · rw [Function.update_of_ne hq, Function.update_of_ne hq]
  refine ⟨?_, fun e' he' => ?_⟩
  · rw [hnext]
    rw [List.map_append, List.map_cons, List.map_cons] at hseg hnodup
    rw [List.map_append, List.map_cons]
    exact hseg.unlink hnodup
  · have hmem : e' ∈ l ++ a :: e :: l₂ := by
      simp only [List.mem_append, List.mem_cons] at he' ⊢
      tauto
    by_cases hq : e'.2 = a.2
    · rw [hq, Function.update_self, ← hkeys e' hmem, hq]
    · rw [Function.update_of_ne hq, hkeys e' hmem]

theorem remove_of_lookup_none (hl : c.lookup key = none) : HTable.remove c key = c := by
  have hchain := ChainTable.dropFirst_of_find?_eq_none (Option.map_eq_none_iff.mp hl)
  have hnone : ChainTable.lookup hashIndex c key = none := hl
  rw [HTable.remove, ChainTable.remove, hchain, Function.update_eq_self, hnone]
  rfl

/-- An item is in one chain only. -/
theorem Represents.chain_eq (h : Represents m t c) {i j q : ℕ} (hi : i < c.buckets)
    (hj : j < c.buckets) (hqi : q ∈ (c.table i).map Prod.snd)
    (hqj : q ∈ (c.table j).map Prod.snd) : i = j := by
  obtain ⟨e, he, rfl⟩ := List.mem_map.mp hqi
  obtain ⟨e', he', heq⟩ := List.mem_map.mp hqj
  have hsame : e' = e := List.inj_on_of_nodup_map h.distinct
    (ChainTable.mem_items.mpr ⟨j, hj, he'⟩) (ChainTable.mem_items.mpr ⟨i, hi, he⟩) heq
  rw [← h.wf.placed i e he, ← h.wf.placed j e' he', hsame]

/-- The chains after a `remove`, once the chain of the key is right. -/
theorem Represents.removed {m' : ℕ → Link n} {table : ℕ → Option ℕ} (h : Represents m t c)
    (hnum : c.numItems < 2 ^ 32) (hfound : c.lookup key = some item)
    (hsame : ∀ q, q ∉ (c.table (hashIndex c.buckets key)).map Prod.snd → m' q = m q)
    (htable : ∀ i, i ≠ hashIndex c.buckets key → table i = t.table i)
    (hchain : Chain m' (table (hashIndex c.buckets key))
      (ChainTable.dropFirst key (c.table (hashIndex c.buckets key)))) :
    Represents m' { t with table := table, num_items := word (t.num_items + 2 ^ 32 - 1) }
      (HTable.remove c key) := by
  have hperm := ChainTable.items_remove_perm h.wf hfound
  have hlen := hperm.length_eq
  rw [List.length_cons, ← h.wf.count] at hlen
  have hremoved : (HTable.remove c key).numItems = c.numItems - 1 := by
    have hsome : ChainTable.lookup hashIndex c key = some item := hfound
    rw [HTable.remove, ChainTable.remove, hsome]
    rfl
  refine ⟨h.buckets, h.mask, ?_, h.max_items, fun i hi => ?_, ?_, h.wf.remove key⟩
  · dsimp only
    rw [hremoved, h.num_items, word]
    omega
  · change Chain m' (table i) (Function.update c.table _ _ i)
    by_cases heq : i = hashIndex c.buckets key
    · subst heq
      rwa [Function.update_self]
    · rw [Function.update_of_ne heq, htable i heq]
      refine (h.chains i hi).congr fun q hq => hsame q fun hq' => heq ?_
      exact h.chain_eq hi (h.wf.bound key) hq hq'
  · have hdistinct := (hperm.map Prod.snd).nodup_iff.mpr h.distinct
    exact (List.nodup_cons.mp hdistinct).2

/-- `remove` takes the item that `lookup` finds out of the table. -/
def Removes (m : ℕ → Link n) (t : Table) (c : HTable n ℕ) (key : List.Vector UInt8 n) : Prop :=
  ∃ m' t', (∀ fuel, c.numItems < fuel → remove fuel m t key = some (c.lookup key, m', t')) ∧
    Represents m' t' (HTable.remove c key) ∧
    (t'.walkptr = t.walkptr ∧ t'.walk_index = t.walk_index) ∧
    ∀ q, q ∉ c.items.map Prod.snd → m' q = m q

theorem Represents.removes_none (h : Represents m t c) (hl : c.lookup key = none) :
    Removes m t c key := by
  have hlen := length_chain_le h.wf key
  have hfind := Option.map_eq_none_iff.mp hl
  obtain ⟨pre', hrun⟩ := findLink_none (h.chain key)
    (fun e he => by simpa using List.find?_eq_none.mp hfind e he) (t.table (index t key))
  refine ⟨m, t, fun fuel hfuel => ?_, ?_, ⟨rfl, rfl⟩, fun _ _ => rfl⟩
  · rw [TableMemory.remove, if_pos (h.index_lt key), hrun fuel (by omega), hl]
    cases pre' <;> rfl
  · rw [remove_of_lookup_none hl]
    exact h

/-- `t` without the item at the front of the chain of the key. -/
def dropFront (m : ℕ → Link n) (t : Table) (key : List.Vector UInt8 n) (item : ℕ) : Table :=
  { t with
    table := Function.update t.table (index t key) (m item).next
    num_items := word (t.num_items + 2 ^ 32 - 1) }

/-- The item is the first of its chain, and no link is written. -/
theorem Represents.remove_front {l₂ : List (List.Vector UInt8 n × ℕ)} (h : Represents m t c)
    (hnum : c.numItems < 2 ^ 32) (hsplit : c.table (hashIndex c.buckets key) = e :: l₂)
    (he : e.1 = key) : c.lookup key = some e.2 ∧
      (∀ fuel, 0 < fuel → remove fuel m t key = some (some e.2, m, dropFront m t key e.2)) ∧
      Represents m (dropFront m t key e.2) (HTable.remove c key) := by
  have hchain := h.chain key
  have hl : c.lookup key = some e.2 := by
    rw [lookup_eq, hsplit, List.find?_cons_of_pos (by simpa using he), Option.map_some]
  rw [hsplit] at hchain
  obtain ⟨hp, -, hrest⟩ := chain_cons.mp hchain
  refine ⟨hl, fun fuel hfuel => ?_, h.removed hnum hl (fun _ _ => rfl) (fun i hi => ?_) ?_⟩
  · have hfound := findLink_some (l := []) hchain (by simp) he (t.table (index t key)) fuel hfuel
    rw [TableMemory.remove, if_pos (h.index_lt key), hfound, List.getLast?_nil, Option.map_none,
      Option.none_or, hp]
    dsimp only
    rw [if_pos rfl]
    rfl
  · rw [h.index_eq, Function.update_of_ne hi]
  · rw [h.index_eq, Function.update_self, hsplit, ChainTable.dropFirst, if_pos he]
    exact hrest

theorem Represents.removes_first {l₂ : List (List.Vector UInt8 n × ℕ)} (h : Represents m t c)
    (hnum : c.numItems < 2 ^ 32) (hsplit : c.table (hashIndex c.buckets key) = e :: l₂)
    (he : e.1 = key) : Removes m t c key := by
  obtain ⟨hl, hrun, hrep⟩ := h.remove_front hnum hsplit he
  refine ⟨m, _, fun fuel hfuel => ?_, hrep, ⟨rfl, rfl⟩, fun _ _ => rfl⟩
  rw [hrun fuel (by omega), hl]

/-- The item stands behind another one. -/
theorem Represents.removes_later {l₂ : List (List.Vector UInt8 n × ℕ)}
    {a : List.Vector UInt8 n × ℕ} (h : Represents m t c) (hnum : c.numItems < 2 ^ 32)
    (hsplit : c.table (hashIndex c.buckets key) = l ++ a :: e :: l₂)
    (hkey : ∀ e' ∈ l ++ [a], e'.1 ≠ key) (he : e.1 = key) : Removes m t c key := by
  have hlen := length_chain_le h.wf key
  have hchain := h.chain key
  have hassoc : l ++ a :: e :: l₂ = (l ++ [a]) ++ e :: l₂ := by simp
  have hl : c.lookup key = some e.2 := by
    rw [lookup_eq, hsplit, hassoc, List.find?_append,
      List.find?_eq_none.mpr (by simpa using hkey), Option.none_or,
      List.find?_cons_of_pos (by simpa using he), Option.map_some]
  have hnodup : ((l ++ a :: e :: l₂).map Prod.snd).Nodup := by
    rw [← hsplit]
    exact h.distinct.sublist ((List.sublist_flatten_of_mem
      (List.mem_map_of_mem (List.mem_range.mpr (h.wf.bound key)))).map Prod.snd)
  have ha : a.2 ∈ (c.table (hashIndex c.buckets key)).map Prod.snd := by
    rw [hsplit]
    simp
  have hne : a.2 ≠ e.2 := by
    intro heq
    simp [List.nodup_append, heq] at hnodup
  rw [hsplit] at hchain hlen
  have hdrop : ChainTable.dropFirst key (c.table (hashIndex c.buckets key)) = l ++ a :: l₂ := by
    rw [hsplit, hassoc, dropFirst_append hkey he]
    simp
  have hremoved : Represents (Function.update m a.2 { m a.2 with next := (m e.2).next })
      { t with table := t.table, num_items := word (t.num_items + 2 ^ 32 - 1) }
      (HTable.remove c key) := by
    refine h.removed hnum hl (fun q hq => ?_) (fun _ _ => rfl) ?_
    · refine Function.update_of_ne ?_ _ _
      rintro rfl
      exact hq ha
    · rw [hdrop, ← h.index_eq]
      exact hchain.unlink hnodup
  refine ⟨_, _, fun fuel hfuel => ?_, hremoved, ⟨rfl, rfl⟩, fun q hq => ?_⟩
  · rw [hassoc] at hchain
    have hfound := findLink_some hchain hkey he (t.table (index t key)) fuel (by
      simp only [List.length_append, List.length_cons, List.length_nil] at hlen ⊢
      omega)
    rw [TableMemory.remove, if_pos (h.index_lt key), hfound, List.getLast?_concat,
      Option.map_some, Option.some_or, hl]
    dsimp only
    rw [if_neg hne]
  · refine Function.update_of_ne ?_ _ _
    rintro rfl
    exact notMem_chain hq (h.wf.bound key) ha

/-- `remove` -/
theorem Represents.removes (h : Represents m t c) (key : List.Vector UInt8 n)
    (hnum : c.numItems < 2 ^ 32) : Removes m t c key := by
  cases hfind : (c.table (hashIndex c.buckets key)).find? fun e => e.1 = key with
  | none => exact h.removes_none (by rw [lookup_eq, hfind, Option.map_none])
  | some e =>
    obtain ⟨l₁, l₂, hsplit, hkey, he⟩ := exists_split_of_find? hfind
    rcases List.eq_nil_or_concat l₁ with rfl | ⟨l₀, a, rfl⟩
    · exact h.removes_first hnum hsplit he
    · rw [List.concat_eq_append] at hsplit hkey
      have hsplit' : c.table (hashIndex c.buckets key) = l₀ ++ a :: e :: l₂ := by
        rw [hsplit, List.append_assoc]
        rfl
      exact h.removes_later hnum hsplit' hkey he

theorem Reached.remove (h : Reached m t c) (key : List.Vector UInt8 n) : ∃ m' t',
    (∀ fuel, c.numItems < fuel → remove fuel m t key = some (c.lookup key, m', t')) ∧
      Reached m' t' (HTable.remove c key) ∧
      (t'.walkptr = t.walkptr ∧ t'.walk_index = t.walk_index) ∧
      ∀ q, q ∉ c.items.map Prod.snd → m' q = m q := by
  have hb := h.buckets_le
  have hroom := h.room
  obtain ⟨m', t', hrun, hrep, hwalk, hother⟩ := h.toRepresents.removes key (by omega)
  refine ⟨m', t', hrun, ⟨hrep, h.pow, ?_⟩, hwalk, hother⟩
  have hle : (HTable.remove c key).numItems ≤ c.numItems := by
    rw [HTable.remove, ChainTable.remove]
    dsimp only
    split <;> omega
  exact hle.trans_lt hroom

end TCBackup.Client.TableMemory
