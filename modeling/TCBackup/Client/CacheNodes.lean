import TCBackup.Client.RestoreCache
import TCBackup.Lib.Linked

/-!
# The nodes of the restore cache (`client/src/container.c`)

The cache is a list of nodes that are allocated once. `search_cache` walks it with a pointer
to the node behind and puts the node that it finds, or else the last one, to the front.

## Main definitions

- `NodeCache` — the nodes with their `next` fields
- `initCacheNodes`, `searchCacheNodes` — `init_cache` and `search_cache` pointer by pointer

## Main results

- `initCacheNodes_spec`, `searchCacheNodes_spec` — the nodes stay the same, and their containers
  are those of `initCache` and `searchCache`
-/

namespace TCBackup.Client

open ByteFile Linked

/-- The `CacheNode`s, numbered in the order of allocation. -/
structure NodeCache where
  restore_cache : ℕ
  next : ℕ → Option ℕ
  container : ℕ → Container

variable (clock : ℕ → ℤ)

/-- A round of `init_cache`. The node behind was allocated in the round before. -/
def addNode (p : NodeCache × Names) (i : ℕ) : NodeCache × Names :=
  let (container, n) := initContainer clock p.2
  let next := Function.update p.1.next i none
  (⟨0, if i = 0 then next else Function.update next (i - 1) (some i),
    Function.update p.1.container i container⟩, n)

/-- `init_cache` with a `restore_cache_size` of `k`, in memory `m`. -/
def initCacheNodes (m : NodeCache) (k : ℕ) (n : Names) : NodeCache × Names :=
  (List.range k).foldl (addNode clock) (m, n)

/-- The loop of `search_cache`: the pointer to the node behind, and the node that was found, or
`NULL`. It is `none` if the loop does not end within so many rounds. -/
def searchLoop (same : ℕ → Bool) (next : ℕ → Option ℕ) : ℕ → ℕ → Option ℕ → Option (ℕ × Option ℕ)
  | 0, _, _ => none
  | _ + 1, prep, none => some (prep, none)
  | fuel + 1, prep, some p =>
    if same p then some (prep, some p)
    else searchLoop same next fuel (if next p ≠ none then p else prep) (next p)

/-- The node `p` behind `prep` comes to the front, and `prep` points to `q` instead. -/
def NodeCache.toFront (cache : NodeCache) (prep p : ℕ) (q : Option ℕ) : NodeCache :=
  { cache with
    restore_cache := p
    next := Function.update (Function.update cache.next prep q) p (some cache.restore_cache) }

/-- `search_cache`: whether it is a hit. -/
def searchCacheNodes (fuel : ℕ) (name : Chunkaddress) (cache : NodeCache) (n : Names) :
    Option (Bool × NodeCache × Names) :=
  match searchLoop (fun p => sameName (cache.container p).name name) cache.next fuel
      cache.restore_cache (some cache.restore_cache) with
  | none => none
  | some (prep, some p) =>
    if p = cache.restore_cache then some (true, cache, n)
    else some (true, cache.toFront prep p (cache.next p), n)
  | some (prep, none) =>
    let cache := match cache.next prep with
      | some p => cache.toFront prep p none
      | none => cache
    let (container, n) := initContainer clock n
    some (false,
      { cache with container := Function.update cache.container cache.restore_cache container }, n)

/-- The nodes of the cache from its front. -/
structure Nodes (cache : NodeCache) (nodes : List ℕ) : Prop where
  seg : Seg cache.next (some cache.restore_cache) nodes none
  nodup : nodes.Nodup

variable {clock} {cache : NodeCache} {nodes : List ℕ} {n : Names} {name : Chunkaddress}

theorem Nodes.cons (h : Nodes cache nodes) : ∃ l, nodes = cache.restore_cache :: l := by
  cases nodes with
  | nil => exact absurd h.seg (by simp)
  | cons a l => exact ⟨l, by rw [Option.some.inj h.seg.1]⟩

theorem initCache_succ (k : ℕ) (n : Names) :
    initCache clock (k + 1) n =
      ((initCache clock k n).1 ++ [(initContainer clock (initCache clock k n).2).1],
        (initContainer clock (initCache clock k n).2).2) := by
  induction k generalizing n with
  | zero => rfl
  | succ k ih =>
    have hrest := ih (initContainer clock n).2
    show (_ :: (initCache clock (k + 1) (initContainer clock n).2).1,
      (initCache clock (k + 1) (initContainer clock n).2).2) = _
    rw [hrest]
    rfl

theorem initCacheNodes_succ (m : NodeCache) (k : ℕ) (n : Names) :
    initCacheNodes clock m (k + 1) n = addNode clock (initCacheNodes clock m k n) k := by
  rw [initCacheNodes, List.range_succ]
  exact List.foldl_concat _ _ _ _

theorem initCacheNodes_spec (clock : ℕ → ℤ) (m : NodeCache) (k : ℕ) (n : Names) :
    Nodes (initCacheNodes clock m (k + 1) n).1 (List.range (k + 1)) ∧
      (List.range (k + 1)).map (initCacheNodes clock m (k + 1) n).1.container =
        (initCache clock (k + 1) n).1 ∧
      (initCacheNodes clock m (k + 1) n).2 = (initCache clock (k + 1) n).2 := by
  induction k with
  | zero =>
    refine ⟨⟨⟨rfl, ?_⟩, List.nodup_range⟩, ?_, rfl⟩
    · exact Function.update_self (0 : ℕ) none m.next
    · show [Function.update m.container 0 (initContainer clock n).1 0] = _
      rw [Function.update_self]
      rfl
  | succ k ih =>
    obtain ⟨hnodes, hcontainer, hnames⟩ := ih
    have hfront : (initCacheNodes clock m (k + 1) n).1.restore_cache = 0 := by
      rw [initCacheNodes_succ]
      rfl
    have hnot : k + 1 ∉ List.range (k + 1) := List.not_mem_range_self
    rw [initCacheNodes_succ, initCache_succ, ← hnames]
    refine ⟨⟨?_, List.nodup_range⟩, ?_, rfl⟩
    · have hseg := hnodes.seg
      rw [hfront, List.range_succ] at hseg
      have hlink := Seg.link (b := k + 1) hseg (by rw [← List.range_succ]; exact List.nodup_range)
        (by rw [← List.range_succ]; exact hnot)
      have hlast : (initCacheNodes clock m (k + 1) n).1.next k = none := by
        obtain ⟨q, -, -, hlast⟩ := seg_append.mp hseg
        exact hlast
      rw [hlast] at hlink
      rw [List.range_succ, List.range_succ, List.append_assoc]
      exact hlink
    · rw [List.range_succ, List.map_append, ← hcontainer]
      congr 1
      · refine List.map_congr_left fun i hi => Function.update_of_ne ?_ _ _
        rintro rfl
        exact hnot hi
      · exact congrArg (fun c => [c]) (Function.update_self _ _ _)

section Search

variable {same : ℕ → Bool} {next : ℕ → Option ℕ} {fuel prep a : ℕ} {l rest : List ℕ}

/-- A node that is found behind nodes of other names. -/
theorem searchLoop_found {p : Option ℕ} (hseg : Seg next p (l ++ a :: rest) none)
    (hother : ∀ b ∈ l, same b = false) (hsame : same a = true) (hfuel : l.length < fuel) :
    searchLoop same next fuel prep p = some (l.getLast?.getD prep, some a) := by
  induction l generalizing fuel prep p with
  | nil =>
    obtain ⟨fuel, rfl⟩ := Nat.exists_eq_add_one_of_ne_zero hfuel.ne'
    obtain ⟨rfl, -⟩ := hseg
    rw [searchLoop, if_pos hsame]
    rfl
  | cons b l ih =>
    obtain ⟨fuel, rfl⟩ := Nat.exists_eq_add_one_of_ne_zero (Nat.ne_zero_of_lt hfuel)
    obtain ⟨rfl, hrest⟩ := hseg
    have hne : next b ≠ none := by
      intro hnone
      cases l <;> simp [hnone] at hrest
    rw [searchLoop, if_neg (by simp [hother b List.mem_cons_self]), if_pos hne,
      ih hrest (fun b hb => hother b (List.mem_cons_of_mem _ hb)) (by simpa using hfuel),
      List.getLast?_cons]
    rfl

/-- There is no node of the name: the pointer stays in front of the last node. -/
theorem searchLoop_missing {p : Option ℕ} (hseg : Seg next p l none)
    (hother : ∀ b ∈ l, same b = false) (hfuel : l.length < fuel) :
    searchLoop same next fuel prep p = some (l.dropLast.getLast?.getD prep, none) := by
  induction l generalizing fuel prep p with
  | nil =>
    obtain ⟨fuel, rfl⟩ := Nat.exists_eq_add_one_of_ne_zero hfuel.ne'
    obtain rfl : p = none := hseg
    rfl
  | cons b l ih =>
    obtain ⟨fuel, rfl⟩ := Nat.exists_eq_add_one_of_ne_zero (Nat.ne_zero_of_lt hfuel)
    obtain ⟨rfl, hrest⟩ := hseg
    rw [searchLoop, if_neg (by simp [hother b List.mem_cons_self]),
      ih hrest (fun b hb => hother b (List.mem_cons_of_mem _ hb)) (by simpa using hfuel)]
    cases l with
    | nil =>
      have hnone : next b = none := hrest
      rw [hnone]
      rfl
    | cons c l =>
      rw [if_pos (by simp [hrest.1]), List.dropLast_cons_cons, List.getLast?_cons]
      rfl

end Search

theorem unlinkName_append {l : List Container} (h : ∀ c ∈ l, sameName c.name name = false)
    (l' : List Container) :
    unlinkName name (l ++ l') = (unlinkName name l').map fun p => (p.1, l ++ p.2) := by
  induction l with
  | nil =>
    show unlinkName name l' = _
    cases unlinkName name l' <;> rfl
  | cons c l ih =>
    rw [List.cons_append, unlinkName, if_neg (by simp [h c List.mem_cons_self]),
      ih fun d hd => h d (List.mem_cons_of_mem _ hd), Option.map_map]
    rfl

/-- The nodes stay the same, and their containers are those that `searchCache` has. -/
theorem searchCacheNodes_spec (clock : ℕ → ℤ) (h : Nodes cache nodes) (name : Chunkaddress)
    (n : Names) {fuel : ℕ} (hfuel : nodes.length < fuel) :
    ∃ hit cache' nodes' n', searchCacheNodes clock fuel name cache n = some (hit, cache', n') ∧
      Nodes cache' nodes' ∧ nodes'.Perm nodes ∧ ∃ front rest,
        searchCache clock (nodes.map cache.container) name n = (hit, front, rest, n') ∧
        nodes'.map cache'.container = front :: rest := by
  obtain ⟨same, hdef⟩ : ∃ same : ℕ → Bool, same = fun p => sameName (cache.container p).name name :=
    ⟨_, rfl⟩
  rw [searchCacheNodes, searchCache, ← hdef]
  have hname : ∀ {p : ℕ}, same p = false → sameName (cache.container p).name name = false := by
    intro p hp
    rwa [hdef] at hp
  cases hfind : nodes.find? same with
  | some a =>
    obtain ⟨hsame, l, rest, rfl, hother⟩ := List.find?_eq_some_iff_append.mp hfind
    simp only [Bool.not_eq_eq_eq_not, Bool.not_true] at hother
    have hunlink : unlinkName name ((l ++ a :: rest).map cache.container) =
        some (cache.container a, (l ++ rest).map cache.container) := by
      have htrue : sameName (cache.container a).name name = true := by rwa [hdef] at hsame
      rw [List.map_append, unlinkName_append, List.map_cons, unlinkName, if_pos htrue, Option.map_some,
        List.map_append]
      intro c hc
      obtain ⟨b, hb, rfl⟩ := List.mem_map.mp hc
      exact hname (hother b hb)
    have hlength : l.length < fuel := by
      rw [List.length_append] at hfuel
      omega
    rw [searchLoop_found h.seg hother hsame hlength, hunlink]
    dsimp only
    rcases List.eq_nil_or_concat' l with rfl | ⟨l, prep, rfl⟩
    · have hfront : a = cache.restore_cache := (Option.some.inj h.seg.1).symm
      rw [if_pos hfront]
      exact ⟨true, cache, _, n, rfl, h, .refl _, _, _, rfl, rfl⟩
    · have hmem : a ∉ l ++ [prep] ++ rest := (List.nodup_middle.mp h.nodup).notMem
      have hfront : a ≠ cache.restore_cache := by
        rintro rfl
        obtain ⟨l', hcons⟩ := h.cons
        apply hmem
        cases l with
        | nil => exact List.mem_append_left _ (by simp [(List.cons.inj hcons).1])
        | cons b l => exact List.mem_append_left _ (by simp [(List.cons.inj hcons).1])
      have hseg := h.seg
      have hnodup := h.nodup
      rw [List.append_assoc, List.singleton_append] at hseg hnodup
      rw [if_neg hfront, List.getLast?_concat, Option.getD_some]
      refine ⟨true, _, a :: (l ++ [prep] ++ rest), n, rfl, ⟨?_, ?_⟩, ?_, _, _, rfl, rfl⟩
      · rw [List.append_assoc, List.singleton_append] at hmem ⊢
        exact (hseg.unlink hnodup).push hmem
      · exact List.nodup_middle.mp h.nodup
      · exact List.perm_middle.symm
  | none =>
    have hother : ∀ b ∈ nodes, same b = false := by simpa using hfind
    have hunlink : unlinkName name (nodes.map cache.container) = none := by
      have hcontainers : ∀ c ∈ nodes.map cache.container, sameName c.name name = false := by
        intro c hc
        obtain ⟨b, hb, rfl⟩ := List.mem_map.mp hc
        exact hname (hother b hb)
      have happend := unlinkName_append hcontainers []
      rwa [List.append_nil] at happend
    rw [searchLoop_missing h.seg hother hfuel, hunlink]
    dsimp only
    rcases List.eq_nil_or_concat' nodes with rfl | ⟨l, last, rfl⟩
    · exact absurd h.seg (by simp)
    · rcases List.eq_nil_or_concat' l with rfl | ⟨l, prep, rfl⟩
      · obtain ⟨hfront, hnone⟩ : last = cache.restore_cache ∧ cache.next last = none :=
          ⟨(Option.some.inj h.seg.1).symm, h.seg.2⟩
        subst hfront
        have hprep : ([] ++ [cache.restore_cache]).dropLast.getLast?.getD cache.restore_cache =
            cache.restore_cache := rfl
        rw [hprep, hnone]
        refine ⟨false, _, _, _, rfl, ⟨h.seg, h.nodup⟩, .refl _, _, _, rfl, ?_⟩
        show [Function.update cache.container cache.restore_cache (initContainer clock n).1
          cache.restore_cache] = [(initContainer clock n).1]
        rw [Function.update_self]
      · have hnext : cache.next prep = some last := by
          obtain ⟨q, hfront, rfl, -⟩ := seg_append.mp h.seg
          obtain ⟨q', -, rfl, hq⟩ := seg_append.mp hfront
          exact hq
        have hnodup := h.nodup
        have hseg := h.seg
        rw [List.append_assoc, List.singleton_append] at hseg
        have hmem : last ∉ l ++ [prep] := by
          have hcomm := List.nodup_append_comm.mp hnodup
          exact (List.nodup_cons.mp hcomm).1
        rw [List.dropLast_concat, List.getLast?_concat, Option.getD_some, hnext]
        refine ⟨false, _, last :: (l ++ [prep]), _, rfl, ⟨?_, ?_⟩, ?_, _, _, rfl, ?_⟩
        · exact (hseg.cut (List.nodup_append.mp hnodup).1).push hmem
        · exact List.nodup_append_comm.mp hnodup
        · exact (List.perm_append_singleton last _).symm
        · show (last :: (l ++ [prep])).map (Function.update cache.container last _) = _
          rw [List.map_cons, Function.update_self, ← List.map_dropLast, List.dropLast_concat]
          refine congrArg _ (List.map_congr_left fun b hb => Function.update_of_ne ?_ _ _)
          rintro rfl
          exact hmem hb

end TCBackup.Client
