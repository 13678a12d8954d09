import TCBackup.Client.ExtremeBinning
import TCBackup.Client.TableRefines

/-!
# Flushing the cache of bins (`client/src/extreme_binning.c`)

`free_cache_bin` walks through `bin_cache` with the cursor of the table, and `FreeBin` takes
the bin at the cursor out of the table and gives its memory back. The link of the table lies
inside of the bin, so the next step of the walk reads a link that is no longer there. What it
finds in that memory is a parameter.

## Main definitions

- `State`, `freeBin`, `freeCacheBin` — the cache in memory, and the functions
- `Cached` — a cache that holds these bins, all of them in the main table
- `Flushes` — what a flush should do

## Main results

- `not_flushes_of_cons` — the second step of a walk reads the link of a bin that is gone
- `flushes_iff` — so only an empty cache is flushed as it should be
- `freeCacheBin_intact` — what happens as long as that memory stays as it was
-/

namespace TCBackup.Client.CacheFlush

open Linked
open TableMemory (Link Table first Returns Represents Chain Cursor later)

/-- `bin_cache` in memory, where a bin is known by the address of its link, and what else
`FreeBin` reads and writes. -/
structure State where
  links : ℕ → Link 20
  bin_cache : Table
  bins : ℕ → Bin
  main_table : HTable 20 MainIndex
  bin_volume_array : ℕ → BinVolume
  disk : Disk
  freed : List ℕ

/-- `remove` and `free`, at the end of `FreeBin`. -/
def removeBin (fuel : ℕ) (s : State) (bin : ℕ) : Option State :=
  (TableMemory.remove fuel s.links s.bin_cache (s.bins bin).rep_finger).map
    fun (removed, links, bin_cache) =>
      { s with links := links, bin_cache := bin_cache, freed := removed.toList ++ s.freed }

/-- `FreeBin` -/
def freeBin (fuel : ℕ) (s : State) (bin : ℕ) : Option State :=
  let (new_addr, vols, d) := writeBinToVolume s.bin_volume_array s.disk (s.bins bin)
  let s := { s with bin_volume_array := vols, disk := d }
  if new_addr = 0 then removeBin fuel s bin
  else
    match s.main_table.lookup (s.bins bin).rep_finger with
    | none => some s
    | some mainindex =>
      let main_table :=
        s.main_table.set (s.bins bin).rep_finger { mainindex with binaddr := new_addr }
      removeBin fuel { s with main_table := main_table } bin

/-- What `next` reads: the links, and `junk` in memory that was given back. -/
def seen (junk : State → ℕ → Option ℕ) (s : State) (p : ℕ) : Link 20 :=
  if p ∈ s.freed then { s.links p with next := junk s p } else s.links p

/-- The loop of `free_cache_bin`. For every bin that is written, the state at the call of `next`
behind it is kept. -/
def flushLoop (junk : State → ℕ → Option ℕ) : ℕ → State → Option (State × List (ℕ × State))
  | fuel, s =>
    match s.bin_cache.walkptr with
    | none => some (s, [])
    | some bin =>
      match fuel with
      | 0 => none
      | fuel + 1 =>
        match freeBin fuel s bin with
        | none => none
        | some s =>
          (flushLoop junk fuel
            { s with bin_cache := TableMemory.next (seen junk s) s.bin_cache }).map
              fun (last, calls) => (last, (bin, s) :: calls)

/-- `free_cache_bin` -/
def freeCacheBin (junk : State → ℕ → Option ℕ) (fuel : ℕ) (s : State) :
    Option (State × List (ℕ × State)) :=
  flushLoop junk fuel { s with bin_cache := first s.bin_cache }

/-- A link that can be reached from the table. -/
def Linkage (s : State) (p : ℕ) : Prop :=
  ∃ i < s.bin_cache.buckets, ∃ l,
    Seg (fun q => (s.links q).next) (s.bin_cache.table i) l none ∧ p ∈ l

/-- The cache holds these bins under their own fingerprints, and the main table has an entry
for each of them. -/
structure Cached (s : State) (c : HTable 20 ℕ) : Prop where
  represents : Represents s.links s.bin_cache c
  num_items : s.bin_cache.num_items < 2 ^ 32
  rep_finger : ∀ e ∈ c.items, (s.bins e.2).rep_finger = e.1
  main : ∀ e ∈ c.items, s.main_table.lookup e.1 ≠ none

/-- A flush returns, writes every bin once, leaves no bin, and its walk never stands on a link
that is no longer in the table. -/
def Flushes (junk : State → ℕ → Option ℕ) (s : State) (c : HTable 20 ℕ) : Prop :=
  ∃ last calls, Returns (fun fuel => freeCacheBin junk fuel s) (last, calls) ∧
    (calls.map Prod.fst).Perm (c.items.map Prod.snd) ∧
    (∀ p, ¬Linkage last p) ∧
    ∀ call ∈ calls, ∀ p, call.2.bin_cache.walkptr = some p → Linkage call.2 p

variable {ch : ℕ → List (Fingerprint × ℕ)} {c : HTable 20 ℕ} {e : Fingerprint × ℕ}
  {rest : List (Fingerprint × ℕ)}

theorem later_congr {ch' : ℕ → List (Fingerprint × ℕ)} {i b : ℕ}
    (h : ∀ j, i ≤ j → j < b → ch' j = ch j) : later ch' i b = later ch i b := by
  rw [later, later]
  refine List.flatMap_congr fun j hj => ?_
  obtain ⟨hij, hjb⟩ := List.mem_range'_1.mp hj
  exact h j hij (by omega)

/-- The chain of the first item, and what comes behind it. -/
theorem later_eq_cons {i b : ℕ} (h : later ch i b = e :: rest) :
    ∃ j l, i ≤ j ∧ j < b ∧ ch j = e :: l ∧ rest = l ++ later ch (j + 1) b ∧
      ∀ l', later (Function.update ch j l') i b = l' ++ later ch (j + 1) b := by
  obtain ⟨k, hk⟩ : ∃ k, b - i = k := ⟨_, rfl⟩
  induction k generalizing i with
  | zero =>
    rw [TableMemory.later_of_le (by omega)] at h
    exact absurd h (by simp)
  | succ k ih =>
    have hlt : i < b := by omega
    rw [TableMemory.later_of_lt hlt] at h
    cases hi : ch i with
    | nil =>
      rw [hi, List.nil_append] at h
      obtain ⟨j, l, hij, hjb, hj, hrest, hupdate⟩ := ih h (by omega)
      refine ⟨j, l, by omega, hjb, hj, hrest, fun l' => ?_⟩
      rw [TableMemory.later_of_lt hlt, Function.update_of_ne (by omega), hi, List.nil_append, hupdate]
    | cons e' l =>
      rw [hi] at h
      obtain ⟨rfl, hrest⟩ := List.cons.inj h
      refine ⟨i, l, le_refl i, hlt, hi, hrest.symm, fun l' => ?_⟩
      rw [TableMemory.later_of_lt hlt, Function.update_self]
      congr 1
      exact later_congr fun j hij _ => Function.update_of_ne (by omega) _ _

/-- The first item is at the front of its chain; without it the items are the others. -/
theorem items_eq_cons (hwf : ChainTable.WF hashIndex c) (h : c.items = e :: rest) :
    ∃ l, c.table (hashIndex c.buckets e.1) = e :: l ∧
      rest = l ++ later c.table (hashIndex c.buckets e.1 + 1) c.buckets ∧
      (HTable.remove c e.1).items = rest := by
  rw [TableMemory.items_eq_later] at h
  obtain ⟨j, l, -, -, hj, hrest, hupdate⟩ := later_eq_cons h
  obtain rfl : hashIndex c.buckets e.1 = j := hwf.placed j e (by rw [hj]; exact List.mem_cons_self)
  refine ⟨l, hj, hrest, ?_⟩
  have hdrop : ChainTable.dropFirst e.1 (c.table (hashIndex c.buckets e.1)) = l := by
    rw [hj, ChainTable.dropFirst, if_pos rfl]
  rw [TableMemory.items_eq_later]
  change later (Function.update c.table (hashIndex c.buckets e.1)
    (ChainTable.dropFirst e.1 (c.table (hashIndex c.buckets e.1)))) 0 c.buckets = rest
  rw [hdrop, hupdate, hrest]

variable {s : State} {junk : State → ℕ → Option ℕ}

/-- Overwriting an entry takes no entry away. -/
theorem lookup_set_ne_none {t : HTable 20 MainIndex} {key' : Fingerprint} (h : t.lookup key' ≠ none)
    (key : Fingerprint) (x : MainIndex) : (t.set key x).lookup key' ≠ none := by
  have hset : (t.set key x).lookup key' =
      if hashIndex t.buckets key' = hashIndex t.buckets key ∧ key' = key ∧
        key ∈ (t.table (hashIndex t.buckets key)).map Prod.fst then some x else t.lookup key' := by
    by_cases hi : hashIndex t.buckets key' = hashIndex t.buckets key
    · simp only [HTable.lookup, HTable.set, ChainTable.lookup, ChainTable.set, hi,
        Function.update_self, true_and]
      exact ChainTable.find?_setFirst key x _ key'
    · simp only [HTable.lookup, HTable.set, ChainTable.lookup, ChainTable.set, hi,
        Function.update_of_ne hi, false_and, if_false]
  rw [hset]
  split
  · simp
  · exact h

/-- The state behind `FreeBin` for the first bin. -/
structure Freed (s s' : State) (c : HTable 20 ℕ) (e : Fingerprint × ℕ) : Prop where
  links : s'.links = s.links
  bins : s'.bins = s.bins
  bin_cache : s'.bin_cache = TableMemory.dropFront s.links s.bin_cache e.1 e.2
  freed : s'.freed = e.2 :: s.freed
  cached : Cached s' (HTable.remove c e.1)
  same : ∀ bin_cache : HTable 20 Bin,
    Client.freeBin ⟨s.main_table, bin_cache, s.bin_volume_array⟩ s.disk (s.bins e.2) =
      (⟨s'.main_table, bin_cache.remove e.1, s'.bin_volume_array⟩, s'.disk)

theorem Cached.removeBin (h : Cached s c) (hitems : c.items = e :: rest) (main_table : HTable 20 MainIndex)
    (hmain : ∀ e ∈ c.items, main_table.lookup e.1 ≠ none) (vols : ℕ → BinVolume) (d : Disk) :
    ∃ s', (∀ fuel, 0 < fuel → removeBin fuel
        { s with main_table := main_table, bin_volume_array := vols, disk := d } e.2 = some s') ∧
      s'.links = s.links ∧ s'.bins = s.bins ∧
      s'.bin_cache = TableMemory.dropFront s.links s.bin_cache e.1 e.2 ∧
      s'.freed = e.2 :: s.freed ∧ Cached s' (HTable.remove c e.1) ∧
      s'.main_table = main_table ∧ s'.bin_volume_array = vols ∧ s'.disk = d := by
  obtain ⟨l, hsplit, -, hrest⟩ := items_eq_cons h.represents.wf hitems
  have hnum : c.numItems < 2 ^ 32 := h.represents.num_items ▸ h.num_items
  have hkey : (s.bins e.2).rep_finger = e.1 :=
    h.rep_finger e (by rw [hitems]; exact List.mem_cons_self)
  have hsub : ∀ e' ∈ (HTable.remove c e.1).items, e' ∈ c.items := fun e' he' => by
    rw [hitems]
    exact List.mem_cons_of_mem _ (hrest ▸ he')
  obtain ⟨-, hrun, hrep⟩ := h.represents.remove_front hnum hsplit rfl
  refine ⟨{ s with
    bin_cache := TableMemory.dropFront s.links s.bin_cache e.1 e.2
    main_table := main_table
    bin_volume_array := vols
    disk := d
    freed := e.2 :: s.freed }, fun fuel hfuel => ?_, rfl, rfl, rfl, rfl, ⟨hrep, ?_, ?_, ?_⟩,
    rfl, rfl, rfl⟩
  · rw [CacheFlush.removeBin, hkey, hrun fuel hfuel]
    rfl
  · exact Nat.mod_lt _ (by decide)
  · exact fun e' he' => h.rep_finger e' (hsub e' he')
  · exact fun e' he' => hmain e' (hsub e' he')

/-- `FreeBin` takes the first bin out of the table and frees it. -/
theorem Cached.freeBin (h : Cached s c) (hitems : c.items = e :: rest) :
    ∃ s', (∀ fuel, 0 < fuel → freeBin fuel s e.2 = some s') ∧ Freed s s' c e := by
  have hmem : e ∈ c.items := by
    rw [hitems]
    exact List.mem_cons_self
  have hkey := h.rep_finger e hmem
  obtain ⟨mainindex, hmain⟩ := Option.ne_none_iff_exists'.mp (h.main e hmem)
  obtain ⟨⟨new_addr, vols, d⟩, hwrite⟩ :
    ∃ r, writeBinToVolume s.bin_volume_array s.disk (s.bins e.2) = r := ⟨_, rfl⟩
  by_cases hzero : new_addr = 0
  · obtain ⟨s', hrun, hlinks, hbins, hcache, hfreed, hcached, hmain', hvols, hdisk⟩ :=
      h.removeBin hitems s.main_table h.main vols d
    refine ⟨s', fun fuel hfuel => ?_, hlinks, hbins, hcache, hfreed, hcached, fun cache => ?_⟩
    · simp only [CacheFlush.freeBin, hwrite, if_pos hzero]
      exact hrun fuel hfuel
    · rw [Client.freeBin, hwrite, hmain', hvols, hdisk]
      dsimp only
      rw [if_pos hzero, hkey]
  · obtain ⟨s', hrun, hlinks, hbins, hcache, hfreed, hcached, hmain', hvols, hdisk⟩ :=
      h.removeBin hitems (s.main_table.set e.1 { mainindex with binaddr := new_addr })
        (fun e' he' => lookup_set_ne_none (h.main e' he') _ _) vols d
    refine ⟨s', fun fuel hfuel => ?_, hlinks, hbins, hcache, hfreed, hcached, fun cache => ?_⟩
    · simp only [CacheFlush.freeBin, hwrite, if_neg hzero, hkey, hmain]
      exact hrun fuel hfuel
    · rw [Client.freeBin, hwrite, hmain', hvols, hdisk]
      dsimp only
      rw [if_neg hzero, hkey, hmain]

theorem Cached.linkage_iff (h : Cached s c) {p : ℕ} : Linkage s p ↔ p ∈ c.items.map Prod.snd := by
  have hbuckets := h.represents.buckets
  constructor
  · rintro ⟨i, hi, l, hl, hp⟩
    obtain rfl := hl.unique (h.represents.chains i (hbuckets ▸ hi)).1
    obtain ⟨e, he, rfl⟩ := List.mem_map.mp hp
    exact List.mem_map_of_mem (ChainTable.mem_items.mpr ⟨i, hbuckets ▸ hi, he⟩)
  · intro hp
    obtain ⟨e, he, rfl⟩ := List.mem_map.mp hp
    obtain ⟨i, hi, hchain⟩ := ChainTable.mem_items.mp he
    exact ⟨i, hbuckets ▸ hi, _, (h.represents.chains i hi).1, List.mem_map_of_mem hchain⟩

/-- The same cache, wherever its walk stands. -/
theorem Cached.congr (h : Cached s c) (walkptr : Option ℕ) (walk_index : ℕ) :
    Cached { s with bin_cache :=
      { s.bin_cache with walkptr := walkptr, walk_index := walk_index } } c :=
  ⟨h.represents.congr walkptr walk_index, h.num_items, h.rep_finger, h.main⟩

theorem Cached.first (h : Cached s c) : Cached { s with bin_cache := first s.bin_cache } c :=
  h.congr _ _

/-- The bin that was freed is not in the table any more, and the walk stands on it. -/
theorem Freed.dangling {s' : State} (h : Freed s s' c e) (hs : Cached s c) (hitems : c.items = e :: rest)
    (hcursor : Cursor s.links s.bin_cache c.table c.items) :
    s'.bin_cache.walkptr = some e.2 ∧ ¬Linkage s' e.2 := by
  rw [hitems] at hcursor
  refine ⟨?_, ?_⟩
  · rw [h.bin_cache]
    exact hcursor.cons.1
  · obtain ⟨-, -, -, hrest⟩ := items_eq_cons hs.represents.wf hitems
    have hdistinct := hs.represents.distinct
    rw [hitems, List.map_cons, List.nodup_cons] at hdistinct
    rw [h.cached.linkage_iff, hrest]
    exact hdistinct.1

theorem flushLoop_cons {s' : State} {bin fuel : ℕ} (hwalk : s.bin_cache.walkptr = some bin)
    (hfree : freeBin fuel s bin = some s') : flushLoop junk (fuel + 1) s =
      (flushLoop junk fuel
        { s' with bin_cache := TableMemory.next (seen junk s') s'.bin_cache }).map
          fun (last, calls) => (last, (bin, s') :: calls) := by
  rw [flushLoop]
  simp only [hwalk, hfree]

/-- The step behind the first bin reads its link, which has been freed. -/
theorem not_flushes_of_cons (h : Cached s c) (hitems : c.items = e :: rest)
    (junk : State → ℕ → Option ℕ) : ¬Flushes junk s c := by
  rintro ⟨last, calls, ⟨N, hrun⟩, -, -, hcalls⟩
  have hcursor := h.represents.first
  obtain ⟨s', hfree, hfreed⟩ := h.first.freeBin hitems
  obtain ⟨hwalk, hgone⟩ := hfreed.dangling h.first hitems hcursor
  rw [hitems] at hcursor
  have hstep := hrun (N + 2) (by omega)
  dsimp only at hstep
  rw [freeCacheBin, flushLoop_cons hcursor.cons.1 (hfree (N + 1) (by omega)),
    Option.map_eq_some_iff] at hstep
  obtain ⟨⟨last', calls'⟩, -, heq⟩ := hstep
  obtain ⟨rfl, rfl⟩ := Prod.mk.inj heq
  exact hgone (hcalls _ List.mem_cons_self _ hwalk)

/-- Only an empty cache is flushed as it should be, whatever lies in the memory that was given
back. -/
theorem flushes_iff (h : Cached s c) (junk : State → ℕ → Option ℕ) :
    Flushes junk s c ↔ c.items = [] := by
  constructor
  · intro hflushes
    cases hitems : c.items with
    | nil => rfl
    | cons e rest => exact absurd hflushes (not_flushes_of_cons h hitems junk)
  · intro hitems
    have hcursor := h.represents.first
    rw [hitems] at hcursor
    refine ⟨{ s with bin_cache := first s.bin_cache }, [], ⟨0, fun fuel _ => ?_⟩, ?_, fun p => ?_, ?_⟩
    · change freeCacheBin junk fuel s = _
      cases fuel <;> rw [freeCacheBin, flushLoop, hcursor.walkptr_nil]
    · rw [hitems]
      exact List.Perm.refl _
    · rw [h.first.linkage_iff, hitems]
      exact List.not_mem_nil
    · exact fun call hcall => absurd hcall List.not_mem_nil

/-- The links of freed bins are still there. -/
def intact (s : State) (p : ℕ) : Option ℕ := (s.links p).next

theorem seen_intact (s : State) : seen intact s = s.links := by
  funext p
  rw [seen, intact]
  split <;> rfl

/-- Behind `FreeBin` the walk goes on to the next bin. -/
theorem Freed.next {s' : State} (h : Freed s s' c e) (hs : Cached s c) (hitems : c.items = e :: rest)
    (hcursor : Cursor s.links s.bin_cache c.table c.items) :
    Cursor s'.links (TableMemory.next (seen intact s') s'.bin_cache) (HTable.remove c e.1).table
      (HTable.remove c e.1).items := by
  obtain ⟨l₂, hsplit, -, hrest⟩ := items_eq_cons hs.represents.wf hitems
  rw [hitems] at hcursor
  obtain ⟨hwalk, -, l, hl, hlater⟩ := hcursor.cons
  have hbuckets := hs.represents.buckets
  -- the chain of the bin lies behind the cursor, or the walk would meet the bin once more
  have hpassed : hashIndex c.buckets e.1 < s.bin_cache.walk_index := by
    by_contra hge
    have hdistinct := hs.represents.distinct
    rw [hitems, List.map_cons, List.nodup_cons, hlater] at hdistinct
    refine hdistinct.1 (List.mem_map_of_mem (List.mem_append_right _ ?_))
    rw [later, List.mem_flatMap]
    refine ⟨hashIndex c.buckets e.1, ?_, by rw [hsplit]; exact List.mem_cons_self⟩
    have hlt := hs.represents.wf.bound e.1
    rw [List.mem_range'_1, hbuckets]
    omega
  have hsame : later (HTable.remove c e.1).table s.bin_cache.walk_index s.bin_cache.buckets =
      later c.table s.bin_cache.walk_index s.bin_cache.buckets :=
    later_congr fun j hj _ => Function.update_of_ne (by omega) _ _
  have hnext : TableMemory.next (seen intact s') s'.bin_cache =
      s'.bin_cache.seek (s.links e.2).next s.bin_cache.walk_index := by
    have hptr : s'.bin_cache.walkptr = some e.2 := by
      rw [h.bin_cache]
      exact hwalk
    rw [TableMemory.next, hptr, seen_intact, h.links, Option.bind_some, h.bin_cache]
    rfl
  have hcursor' := TableMemory.seek_spec (t := s'.bin_cache) (i := s.bin_cache.walk_index)
    (h.links ▸ hl : Chain s'.links (s.links e.2).next l)
    fun j _ hj => h.cached.represents.chains j (h.cached.represents.buckets ▸ hj)
  have hb : s'.bin_cache.buckets = s.bin_cache.buckets := by
    rw [h.bin_cache]
    rfl
  rw [hb, hsame, ← hlater, ← hrest] at hcursor'
  rw [hnext]
  exact hcursor'

/-- The walk from the first bin on: every bin is written once, in order, and all are freed. What
`FreeBin` does to the main table and the disk is what it does for the bins one after the other. -/
theorem flushLoop_intact (h : Cached s c) (hcursor : Cursor s.links s.bin_cache c.table c.items) :
    ∃ last calls c', (∀ fuel, c.items.length < fuel → flushLoop intact fuel s = some (last, calls)) ∧
      calls.map Prod.fst = c.items.map Prod.snd ∧ (Cached last c' ∧ c'.items = []) ∧
      last.freed = (c.items.map Prod.snd).reverse ++ s.freed ∧
      ∀ bin_cache, ∃ bin_cache', freeAll (c.items.map fun e => (e.1, s.bins e.2))
        ⟨s.main_table, bin_cache, s.bin_volume_array⟩ s.disk =
          (⟨last.main_table, bin_cache', last.bin_volume_array⟩, last.disk) := by
  obtain ⟨l, hl⟩ : ∃ l, c.items = l := ⟨_, rfl⟩
  induction l generalizing s c with
  | nil =>
    rw [hl] at hcursor ⊢
    refine ⟨s, [], c, fun fuel _ => ?_, rfl, ⟨h, hl⟩, rfl, fun bin_cache => ⟨bin_cache, rfl⟩⟩
    cases fuel <;> rw [flushLoop, hcursor.walkptr_nil]
  | cons e rest ih =>
    obtain ⟨s', hfree, hfreed⟩ := h.freeBin hl
    obtain ⟨-, -, -, hrest⟩ := items_eq_cons h.represents.wf hl
    have hcached : Cached
        { s' with bin_cache := TableMemory.next (seen intact s') s'.bin_cache } (HTable.remove c e.1) :=
      hfreed.cached.congr _ _
    obtain ⟨last, calls, c', hrun, hcalls, hlast, hgone, hsame⟩ :=
      ih hcached (hfreed.next h hl hcursor) hrest
    rw [hrest] at hrun hcalls hgone hsame
    rw [hl] at hcursor ⊢
    refine ⟨last, (e.2, s') :: calls, c', fun fuel hfuel => ?_, ?_, hlast, ?_, fun bin_cache => ?_⟩
    · rw [List.length_cons] at hfuel
      obtain ⟨fuel, rfl⟩ : ∃ k, fuel = k + 1 := ⟨fuel - 1, by omega⟩
      have hrest_run := hrun fuel (by omega)
      rw [flushLoop_cons hcursor.cons.1 (hfree fuel (by omega))]
      exact (congrArg (Option.map _) hrest_run).trans rfl
    · rw [List.map_cons, List.map_cons, hcalls]
    · rw [hgone, List.map_cons, List.reverse_cons, List.append_assoc]
      exact congrArg _ hfreed.freed
    · obtain ⟨bin_cache', hall⟩ := hsame (bin_cache.remove e.1)
      refine ⟨bin_cache', ?_⟩
      rw [List.map_cons, freeAll, List.foldl_cons, hfreed.same bin_cache]
      dsimp only at hall
      rw [hfreed.bins] at hall
      exact hall

/-- With intact memory every bin is written once, and the cache is empty afterwards. -/
theorem freeCacheBin_intact (h : Cached s c) :
    ∃ last calls c', Returns (fun fuel => freeCacheBin intact fuel s) (last, calls) ∧
      calls.map Prod.fst = c.items.map Prod.snd ∧ (Cached last c' ∧ c'.items = []) ∧
      ∀ bin_cache, ∃ bin_cache', freeAll (c.items.map fun e => (e.1, s.bins e.2))
        ⟨s.main_table, bin_cache, s.bin_volume_array⟩ s.disk =
          (⟨last.main_table, bin_cache', last.bin_volume_array⟩, last.disk) := by
  obtain ⟨last, calls, c', hrun, hcalls, hlast, -, hsame⟩ :=
    flushLoop_intact h.first h.represents.first
  exact ⟨last, calls, c', ⟨c.items.length + 1, hrun⟩, hcalls, hlast, hsame⟩

def onlyFinger : Fingerprint := List.Vector.replicate 20 1

/-- The chains of a cache with one bin, whose address is 0. -/
def onlyChains : HTable 20 ℕ := (htableInit 100 : HTable 20 ℕ).link hashIndex onlyFinger 0

/-- A new store after `LoadBin` for one file. -/
def onlyBin : State :=
  let (links, bin_cache) := TableMemory.link (fun _ => ⟨none, onlyFinger⟩) (TableMemory.init 100)
    onlyFinger 0
  { links := links
    bin_cache := bin_cache
    bins := fun _ => emptyBin 0 onlyFinger 1
    main_table := (htableInit 3200 : HTable 20 MainIndex).insert onlyFinger ⟨onlyFinger, 0⟩
    bin_volume_array := (extremeBinningInit Disk.empty).1.bin_volume_array
    disk := (extremeBinningInit Disk.empty).2
    freed := [] }

theorem items_onlyChains : onlyChains.items = [(onlyFinger, 0)] := by
  have hperm := ChainTable.items_link_perm (HTable.init_wf 100 : (htableInit 100 : HTable 20 ℕ).WF).chains.bound
    onlyFinger 0
  have hnil : (htableInit 100 : HTable 20 ℕ).items = [] := HTable.walk_init 100
  rw [hnil] at hperm
  exact List.perm_singleton.mp hperm

theorem cached_onlyBin : Cached onlyBin onlyChains := by
  have hinit := TableMemory.reached_init (fun _ => ⟨none, onlyFinger⟩ : ℕ → Link 20)
    (show 100 < 2 ^ 31 by decide)
  have hnil : (htableInit 100 : HTable 20 ℕ).items = [] := HTable.walk_init 100
  have hitem : 0 ∉ (htableInit 100 : HTable 20 ℕ).items.map Prod.snd := by
    rw [hnil]
    exact List.not_mem_nil
  have hrep := hinit.toRepresents.link hitem (show 0 + 1 < 2 ^ 32 by decide) onlyFinger
  refine ⟨hrep, show word 1 < 2 ^ 32 by decide, fun e he => ?_, fun e he => ?_⟩
  · rw [items_onlyChains, List.mem_singleton] at he
    rw [he]
    rfl
  · rw [items_onlyChains, List.mem_singleton] at he
    have hlookup := (HTable.init_wf 3200 : (htableInit 3200 : HTable 20 MainIndex).WF).lookup_insert
      (HTable.lookup_init 3200 onlyFinger) ⟨onlyFinger, 0⟩ onlyFinger
    rw [if_pos rfl] at hlookup
    rw [he]
    exact fun hnone => absurd (hlookup.symm.trans hnone) (by simp)

theorem flushes_iff_onlyBin : Flushes intact onlyBin onlyChains ↔ onlyChains.items = [] :=
  flushes_iff cached_onlyBin intact

/-- The walk reads the link of the only bin after it was freed. -/
theorem onlyBin_not_flushed : Cached onlyBin onlyChains ∧
    ∀ junk : State → ℕ → Option ℕ, ¬Flushes junk onlyBin onlyChains :=
  ⟨cached_onlyBin, fun junk => not_flushes_of_cons cached_onlyBin items_onlyChains junk⟩

end TCBackup.Client.CacheFlush
