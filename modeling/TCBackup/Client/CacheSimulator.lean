import TCBackup.Client.CacheNodes
import TCBackup.Lib.Lru

/-!
# The cache and its simulator (`client/src/container_cache.c`, `client/lib/lru_cache.c`)

A backup counts with a list of names how often a restore will have to read a container. The
restore itself has a list of nodes that are filled before the first request. Both give up the
container that was used longest ago, so the count is right.

## Main definitions

- `useContainer` — the cache in `restore_chunk`
- `LRUCache`, `simulateUse` — the simulator

## Main results

- `useContainer_spec`, `simulateUse_spec` — a request, in the cache and in the simulator
- `restore_cache_is_lru` — hits, misses and the count over any sequence of requests
-/

namespace TCBackup.Client

open ByteFile Linked Lru

section Restore

variable (clock : ℕ → ℤ) (d : Disk) (fuel : ℕ)

/-- `search_cache` and `ReadContainer` in `restore_chunk`: whether it is a hit, and whether the
container could be read. -/
def useContainer (address : Chunkaddress) (p : NodeCache × Names) :
    Option (Bool × Bool × NodeCache × Names) :=
  (searchCacheNodes clock fuel address p.1 p.2).map fun q =>
    if q.1 then (true, true, q.2)
    else
      let front := q.2.1.restore_cache
      let read := readContainer d address (q.2.1.container front)
      (false, read.1,
        { q.2.1 with container := Function.update q.2.1.container front read.2 }, q.2.2)

/-- A sequence of requests, with the number of misses. -/
def useContainers (addresses : List Chunkaddress) (p : ℕ × NodeCache × Names) :
    Option (ℕ × NodeCache × Names) :=
  addresses.foldlM
    (fun p address => (useContainer clock d fuel address p.2).map fun q =>
      (if q.1 then p.1 else p.1 + 1, q.2.2))
    p

end Restore

/-- The elements of `lru_queue` are copies of addresses. -/
structure LRUCache where
  lru_queue : List Chunkaddress
  cache_max_size : ℤ
  cache_size : ℤ
  hit_count : ℕ
  miss_count : ℕ

/-- `lru_cache_new` -/
def lruCacheNew (size : ℤ) : LRUCache := ⟨[], size, 0, 0, 0⟩

/-- `lru_cache_lookup`: `g_list_find_custom` returns the first element that compares equal, and
`g_list_concat` puts it in front of the others. -/
def lruCacheLookup (cache : LRUCache) (data : Chunkaddress) : Option Chunkaddress × LRUCache :=
  match cache.lru_queue.find? (· = data) with
  | some item =>
    (some item, { cache with
      lru_queue := [item] ++ cache.lru_queue.erase item
      hit_count := cache.hit_count + 1 })
  | none => (none, { cache with miss_count := cache.miss_count + 1 })

/-- `lru_cache_insert`: what is given up, and the cache. -/
def lruCacheInsert (cache : LRUCache) (data : Chunkaddress) : Option Chunkaddress × LRUCache :=
  let (evictor, cache) :=
    if 0 < cache.cache_max_size ∧ cache.cache_size = cache.cache_max_size then
      (cache.lru_queue.getLast?, { cache with
        lru_queue := cache.lru_queue.dropLast
        cache_size := cache.cache_size - 1 })
    else (none, cache)
  (evictor, { cache with
    lru_queue := data :: cache.lru_queue
    cache_size := cache.cache_size + 1 })

/-- `container_cache_simulator_look` -/
def containerCacheSimulatorLook (cache : LRUCache) (address : Chunkaddress) : Bool × LRUCache :=
  let (data, cache) := lruCacheLookup cache address
  (data.isSome, cache)

/-- `container_cache_simulator_insert` -/
def containerCacheSimulatorInsert (cache : LRUCache) (address : Chunkaddress) : LRUCache :=
  (lruCacheInsert cache address).2

/-- The callers insert what is not found. -/
def simulateUse (cache : LRUCache) (address : Chunkaddress) : LRUCache :=
  let (found, cache) := containerCacheSimulatorLook cache address
  if found then cache else containerCacheSimulatorInsert cache address

variable {clock : ℕ → ℤ} {d : Disk} {fuel k : ℕ} {lru : List Chunkaddress} {a : Chunkaddress}

/-- The container in the file of the name. -/
def fileContainer (d : Disk) (name : Chunkaddress) : Container :=
  (loadContainer d name).getD (emptyContainer name)

/-- The cache holds the containers of `lru`, and behind them those that nobody asks for. -/
structure HoldsFiles (d : Disk) (wanted : Chunkaddress → Prop) (k : ℕ) (lru : List Chunkaddress)
    (cache : NodeCache) : Prop where
  nodes : ∃ nodes spare, Nodes cache nodes ∧ nodes.length = k ∧
    nodes.map cache.container = lru.map (fileContainer d) ++ spare ∧
    ∀ c ∈ spare, ∀ a, wanted a → sameName c.name a = false

/-- A name that can be asked for. -/
structure Wanted (d : Disk) (a : Chunkaddress) : Prop where
  padded : Padded a
  readable : loadContainer d a ≠ none

theorem Wanted.load (h : Wanted d a) : loadContainer d a = some (fileContainer d a) := by
  obtain ⟨c, hc⟩ := Option.ne_none_iff_exists'.mp h.readable
  rw [fileContainer, hc, Option.getD_some]

theorem Wanted.sameName {b : Chunkaddress} (hb : Wanted d b) (ha : Wanted d a) :
    sameName (fileContainer d b).name a = decide (b = a) := by
  rw [Client.sameName, loadContainer_name hb.load]
  by_cases heq : b = a
  · simp [heq]
  · have hne : cstr b ≠ cstr a := fun h => heq (hb.padded.eq_of_cstr ha.padded h)
    simp [heq, hne]

theorem unlinkName_files {spare : List Container} (hlru : ∀ b ∈ lru, Wanted d b) (ha : Wanted d a)
    (hspare : ∀ c ∈ spare, sameName c.name a = false) :
    unlinkName a (lru.map (fileContainer d) ++ spare) =
      if a ∈ lru then some (fileContainer d a, (lru.erase a).map (fileContainer d) ++ spare)
      else none := by
  induction lru with
  | nil =>
    have happend := unlinkName_append hspare []
    rw [List.append_nil] at happend
    exact happend
  | cons b lru ih =>
    have hb := (hlru b List.mem_cons_self).sameName ha
    rw [List.map_cons, List.cons_append, unlinkName, hb]
    by_cases heq : b = a
    · rw [heq, if_pos (by simp), if_pos List.mem_cons_self, List.erase_cons_head]
    · rw [if_neg (by simpa using heq), ih fun c hc => hlru c (List.mem_cons_of_mem _ hc),
        List.erase_cons_tail (by simpa using heq)]
      by_cases hmem : a ∈ lru
      · rw [if_pos hmem, if_pos (List.mem_cons_of_mem _ hmem)]
        rfl
      · rw [if_neg hmem, if_neg (by simp [hmem, Ne.symm heq])]
        rfl

theorem Wanted.read (h : Wanted d a) (name : Chunkaddress) :
    readContainer d a (emptyContainer name) = (true, fileContainer d a) := by
  have hload := h.load
  rw [readContainer_congr rfl name a]
  rw [loadContainer] at hload
  split at hload
  · next c hread => rw [hread, Option.some.inj hload]
  · exact absurd hload (by simp)

/-- A request is a hit if the container is in the cache, and it comes to the front. -/
theorem useContainer_spec {wanted : Chunkaddress → Prop} (clock : ℕ → ℤ)
    (h : HoldsFiles d wanted k lru cache) (hlru : ∀ b ∈ lru, Wanted d b) (ha : Wanted d a)
    (hwanted : wanted a) (hfuel : k < fuel) (n : Names) :
    ∃ cache' n', useContainer clock d fuel a (cache, n) =
        some (decide (a ∈ lru), true, cache', n') ∧
      HoldsFiles d wanted k ((touch lru a).take k) cache' ∧
      cache'.container cache'.restore_cache = fileContainer d a := by
  obtain ⟨nodes, spare, hnodes, hlength, hmap, hspare⟩ := h.nodes
  have hcount : lru.length + spare.length = k := by
    have := congrArg List.length hmap
    simp only [List.length_map, List.length_append] at this
    omega
  obtain ⟨hit, cache', nodes', n', hsearch, hnodes', hperm, front, rest, hlist, hmap'⟩ :=
    searchCacheNodes_spec clock hnodes a n (hlength ▸ hfuel)
  have hlength' : nodes'.length = k := hperm.length_eq.trans hlength
  obtain ⟨tail, htail⟩ := hnodes'.cons
  have hfront : cache'.container cache'.restore_cache = front := by
    rw [htail, List.map_cons] at hmap'
    exact (List.cons.inj hmap').1
  rw [searchCache, hmap, unlinkName_files hlru ha fun c hc => hspare c hc a hwanted] at hlist
  rw [useContainer, hsearch, Option.map_some]
  by_cases hmem : a ∈ lru
  · rw [if_pos hmem] at hlist
    obtain ⟨rfl, rfl, rfl, rfl⟩ : true = hit ∧ fileContainer d a = front ∧
        (lru.erase a).map (fileContainer d) ++ spare = rest ∧ n = n' := by simpa using hlist
    refine ⟨cache', n, by simp [hmem], ⟨nodes', spare, hnodes', hlength', ?_, hspare⟩, hfront⟩
    rw [hmap', touch_take_of_mem hmem (by omega)]
    rfl
  · rw [if_neg hmem] at hlist
    obtain ⟨rfl, hname, rfl, -⟩ : false = hit ∧ (initContainer clock n).1 = front ∧
        (lru.map (fileContainer d) ++ spare).dropLast = rest ∧ (initContainer clock n).2 = n' := by
      simpa using hlist
    obtain ⟨name, hempty⟩ : ∃ name, front = emptyContainer name :=
      ⟨_, hname.symm.trans (congrArg Prod.fst (initContainer_name n))⟩
    have hread := ha.read name
    rw [← hempty, ← hfront] at hread
    refine ⟨{ cache' with
        container := Function.update cache'.container cache'.restore_cache (fileContainer d a) },
      n', ?_,
      ⟨nodes', spare.dropLast, ⟨hnodes'.seg, hnodes'.nodup⟩, hlength', ?_, fun c hc =>
        hspare c (List.mem_of_mem_dropLast hc)⟩, Function.update_self _ _ _⟩
    · simp [hmem, hread]
    · have hrest : nodes'.map (Function.update cache'.container cache'.restore_cache
          (fileContainer d a)) = fileContainer d a :: (lru.map (fileContainer d) ++ spare).dropLast := by
        have hnodup := hnodes'.nodup
        rw [htail] at hnodup hmap' ⊢
        rw [List.map_cons] at hmap' ⊢
        rw [Function.update_self, ← (List.cons.inj hmap').2]
        refine congrArg _ (List.map_congr_left fun b hb => Function.update_of_ne ?_ _ _)
        rintro rfl
        exact (List.nodup_cons.mp hnodup).1 hb
      show nodes'.map (Function.update cache'.container cache'.restore_cache _) = _
      rw [hrest]
      cases spare with
      | nil =>
        rw [touch_take_of_full hmem ?_ (by simpa using hcount), List.dropLast_nil, List.append_nil,
          List.append_nil, List.map_cons, List.map_dropLast]
        rw [← hlength', htail]
        exact Nat.succ_pos _
      | cons c spare =>
        rw [touch_take_of_room hmem (by rw [List.length_cons] at hcount; omega),
          List.dropLast_append_of_ne_nil (List.cons_ne_nil c spare), List.map_cons, List.cons_append]

/-- The simulator has the names, and has counted so many misses. -/
structure Simulates (k : ℕ) (lru : List Chunkaddress) (misses : ℕ) (cache : LRUCache) : Prop where
  queue : cache.lru_queue = lru
  max : cache.cache_max_size = k
  size : cache.cache_size = lru.length
  missed : cache.miss_count = misses

theorem find?_eq_self (l : List Chunkaddress) (a : Chunkaddress) :
    l.find? (fun b => decide (b = a)) = if a ∈ l then some a else none := by
  split
  · next hmem =>
    cases hfind : l.find? (fun b => decide (b = a)) with
    | none => simpa using List.find?_eq_none.mp hfind a hmem
    | some b =>
      have hsame := List.find?_some hfind
      rw [of_decide_eq_true hsame]
  · next hmem =>
    apply List.find?_eq_none.mpr
    rintro b hb hsame
    exact hmem (of_decide_eq_true hsame ▸ hb)

theorem simulateUse_spec {misses : ℕ} {cache : LRUCache} (h : Simulates k lru misses cache)
    (hk : 0 < k) (hlru : lru.length ≤ k) (a : Chunkaddress) :
    Simulates k ((touch lru a).take k) (if a ∈ lru then misses else misses + 1)
      (simulateUse cache a) := by
  have hfind := find?_eq_self lru a
  rw [simulateUse, containerCacheSimulatorLook, lruCacheLookup, h.queue, hfind]
  by_cases hmem : a ∈ lru
  · rw [if_pos hmem, if_pos hmem, touch_take_of_mem hmem hlru]
    refine ⟨rfl, h.max, ?_, h.missed⟩
    show cache.cache_size = ((touch lru a).length : ℤ)
    have := List.length_pos_of_mem hmem
    rw [h.size, touch, List.length_cons, List.length_erase_of_mem hmem]
    omega
  · rw [if_neg hmem, if_neg hmem]
    show Simulates k _ _ (lruCacheInsert { cache with
      lru_queue := lru, miss_count := cache.miss_count + 1 } a).2
    rw [lruCacheInsert]
    dsimp only
    rw [h.max, h.size]
    by_cases hfull : lru.length = k
    · rw [if_pos ⟨by omega, by omega⟩, touch_take_of_full hmem hk hfull]
      refine ⟨rfl, rfl, ?_, congrArg (· + 1) h.missed⟩
      show (lru.length : ℤ) - 1 + 1 = _
      rw [List.length_cons, List.length_dropLast]
      omega
    · rw [if_neg (by omega), touch_take_of_room hmem (by omega)]
      exact ⟨rfl, rfl, by simp, congrArg (· + 1) h.missed⟩

variable {wanted : Chunkaddress → Prop} {pre : List Chunkaddress}

theorem holdsFiles_init (clock : ℕ → ℤ) (d : Disk) (m : NodeCache) (hk : 0 < k) (n : Names)
    (hother : ∀ a, wanted a → ∀ c ∈ (initCache clock k n).1, sameName c.name a = false) :
    HoldsFiles d wanted k [] (initCacheNodes clock m k n).1 := by
  obtain ⟨k, rfl⟩ := Nat.exists_eq_add_one_of_ne_zero hk.ne'
  obtain ⟨hnodes, hcontainer, -⟩ := initCacheNodes_spec clock m k n
  exact ⟨_, _, hnodes, List.length_range, hcontainer, fun c hc a ha => hother a ha c hc⟩

/-- The cache and the simulator after a sequence of requests. -/
theorem useContainers_spec (clock : ℕ → ℤ) (d : Disk) (m : NodeCache) (hk : 0 < k) (n : Names)
    (hwanted : ∀ a, wanted a → Wanted d a)
    (hother : ∀ a, wanted a → ∀ c ∈ (initCache clock k n).1, sameName c.name a = false)
    (hpre : ∀ a ∈ pre, wanted a) (hfuel : k < fuel) :
    ∃ misses cache n', useContainers clock d fuel pre (0, initCacheNodes clock m k n) =
        some (misses, cache, n') ∧
      HoldsFiles d wanted k ((recents pre).take k) cache ∧
      Simulates k ((recents pre).take k) misses (pre.foldl simulateUse (lruCacheNew k)) := by
  induction pre using List.reverseRecOn with
  | nil =>
    have hnil : (recents ([] : List Chunkaddress)).take k = [] := List.take_nil
    rw [hnil]
    exact ⟨0, _, _, rfl, holdsFiles_init clock d m hk n hother, rfl, rfl, rfl, rfl⟩
  | append_singleton pre a ih =>
    obtain ⟨misses, cache, n', hrun, hholds, hsim⟩ :=
      ih fun b hb => hpre b (List.mem_append_left _ hb)
    have ha := hpre a (by simp)
    have hlru : ∀ b ∈ (recents pre).take k, Wanted d b := fun b hb =>
      hwanted b (hpre b (List.mem_append_left _ ((mem_recents pre).mp (List.mem_of_mem_take hb))))
    obtain ⟨cache', n'', huse, hholds', -⟩ :=
      useContainer_spec clock hholds hlru (hwanted a ha) ha hfuel n'
    have hsim' := simulateUse_spec hsim hk (List.length_take_le k _) a
    rw [← take_touch, ← recents_append_singleton] at hholds' hsim'
    refine ⟨if a ∈ (recents pre).take k then misses else misses + 1, cache', n'', ?_, hholds', ?_⟩
    · rw [useContainers, List.foldlM_append]
      show (useContainers clock d fuel pre _).bind _ = _
      rw [hrun]
      show ((useContainer clock d fuel a (cache, n')).map _).bind _ = _
      rw [huse]
      by_cases hmem : a ∈ (recents pre).take k <;> simp [hmem]
    · rw [List.foldl_append]
      exact hsim'

/-- Over every sequence of requests the cache of a restore has its `k` nodes, the container
that was asked for is in front, a request is a hit if its name is among the `k` names used last,
and the simulator counts the misses. -/
theorem restore_cache_is_lru (clock : ℕ → ℤ) (d : Disk) (m : NodeCache) (n : Names)
    (k : ℕ) (hk : 1 ≤ k) (fuel : ℕ) (hfuel : k < fuel) (pre : List Chunkaddress) (a : Chunkaddress)
    (hwanted : ∀ b ∈ pre ++ [a], Wanted d b)
    (hother : ∀ b ∈ pre ++ [a], ∀ c ∈ (initCache clock k n).1, sameName c.name b = false) :
    ∃ misses cache n₁ hit cache' n₂ nodes,
      useContainers clock d fuel pre (0, initCacheNodes clock m k n) = some (misses, cache, n₁) ∧
      useContainer clock d fuel a (cache, n₁) = some (hit, true, cache', n₂) ∧
      (Seg cache'.next (some cache'.restore_cache) nodes none ∧ nodes.Nodup ∧ nodes.length = k) ∧
      loadContainer d a = some (cache'.container cache'.restore_cache) ∧
      (hit = true ↔ a ∈ (recents pre).take k) ∧
      misses = (pre.foldl simulateUse (lruCacheNew k)).miss_count ∧
      (if hit then misses else misses + 1) =
        ((pre ++ [a]).foldl simulateUse (lruCacheNew k)).miss_count := by
  obtain ⟨misses, cache, n₁, hrun, hholds, hsim⟩ :=
    useContainers_spec clock d m hk n hwanted hother
      (fun b hb => List.mem_append_left _ hb) hfuel
  have hlru : ∀ b ∈ (recents pre).take k, Wanted d b := fun b hb =>
    hwanted b (List.mem_append_left _ ((mem_recents pre).mp (List.mem_of_mem_take hb)))
  have ha := hwanted a (by simp)
  obtain ⟨cache', n₂, huse, hholds', hfront⟩ :=
    useContainer_spec clock hholds hlru ha (by simp) hfuel n₁
  obtain ⟨nodes, -, hnodes, hlength, -⟩ := hholds'.nodes
  have hcount := (simulateUse_spec hsim hk (List.length_take_le k _) a).missed
  refine ⟨misses, cache, n₁, _, cache', n₂, nodes, hrun, huse, ⟨hnodes.seg, hnodes.nodup, hlength⟩,
    ?_, decide_eq_true_iff, hsim.missed.symm, ?_⟩
  · rw [hfront]
    exact ha.load
  · rw [List.foldl_append]
    simp only [decide_eq_true_eq]
    exact hcount.symm

/-- Three containers without chunks. -/
def threeContainers : Disk :=
  [97, 98, 99].foldl (fun d b => writeContainer d (emptyContainer (fixed 64 [b]))) .empty

/-- In a cache of two nodes the third container takes the place of the second one, since the first
one was used again. -/
theorem restore_cache_is_lru_evicts :
    ∃ cache n₁ cache' n₂,
      useContainers (fun _ => 0) threeContainers 3
        [fixed 64 [97], fixed 64 [98], fixed 64 [97], fixed 64 [99]]
        (0, initCacheNodes (fun _ => 0) ⟨0, fun _ => none, emptyContainer ∘ fun _ => fixed 64 []⟩ 2
          ⟨1, []⟩) = some (3, cache, n₁) ∧
      useContainer (fun _ => 0) threeContainers 3 (fixed 64 [98]) (cache, n₁) =
        some (false, true, cache', n₂) := by
  have hnames : ∀ b ∈ [fixed 64 [97], fixed 64 [98], fixed 64 [97], fixed 64 [99]] ++ [fixed 64 [98]],
      b = fixed 64 [97] ∨ b = fixed 64 [98] ∨ b = fixed 64 [99] := by
    simp
  obtain ⟨misses, cache, n₁, hit, cache', n₂, -, hrun, huse, -, -, hhit, hmisses, -⟩ :=
    restore_cache_is_lru (fun _ => 0) threeContainers
      ⟨0, fun _ => none, emptyContainer ∘ fun _ => fixed 64 []⟩ ⟨1, []⟩ 2 (by decide) 3 (by decide)
      [fixed 64 [97], fixed 64 [98], fixed 64 [97], fixed 64 [99]] (fixed 64 [98])
      (fun b hb => by
        refine ⟨?_, Option.isSome_iff_ne_none.mp ?_⟩
        · rcases hnames b hb with rfl | rfl | rfl <;> decide
        · rcases hnames b hb with rfl | rfl | rfl <;> decide +kernel)
      (fun b hb c hc => by
        have hfree : ∀ a : Chunkaddress, a = fixed 64 [97] ∨ a = fixed 64 [98] ∨ a = fixed 64 [99] →
            sameName (initContainer (fun _ => 0) ⟨1, []⟩).1.name a = false ∧
            sameName (initContainer (fun _ => 0) ⟨2, [⟨0, 2⟩]⟩).1.name a = false := by
          rintro a (rfl | rfl | rfl) <;> decide +kernel
        rcases List.mem_pair.mp hc with rfl | rfl
        · exact (hfree b (hnames b hb)).1
        · exact (hfree b (hnames b hb)).2)
  have hthree : ([fixed 64 [97], fixed 64 [98], fixed 64 [97], fixed 64 [99]].foldl simulateUse
      (lruCacheNew (2 : ℕ))).miss_count = 3 := by decide +kernel
  rw [hthree] at hmisses
  have hmiss : hit = false := Bool.eq_false_iff.mpr (hhit.not.mpr (by decide))
  rw [hmisses] at hrun
  rw [hmiss] at huse
  exact ⟨cache, n₁, cache', n₂, hrun, huse⟩

end TCBackup.Client
