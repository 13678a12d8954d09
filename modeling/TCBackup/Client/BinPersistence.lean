import TCBackup.Client.Bins
import TCBackup.Client.Recipe
import TCBackup.Lib.Labelled

/-!
# Bins over many processes

Processes run one after the other on one store. Each of them loads bins, changes
them and frees them, and saves the main table when it ends; a process that has freed
nothing may also end without saving.

## Main definitions

- `Machine`, `Event`, `step` — the processes of a store
- `Within` — what is assumed of the bins and volumes
- `Persistent` — bins come back as they were freed, from regions that do not overlap
-/

namespace TCBackup.Client.BinPersistence

open ByteFile Labelled

/-- The disk and the process that runs. `freed` tells whether it has freed a bin, and
`last` holds the entries that every bin had when it was freed last. -/
structure Machine where
  disk : Disk
  exbin : Option ExtremeBinning
  freed : Bool
  last : Fingerprint → BinMap

inductive Event
  | start
  | loadBin (rep_finger file_hash : Fingerprint) (chunknum : ℤ)
  | insertMeta (rep_finger finger : Fingerprint) (address : Chunkaddress)
  | setMeta (rep_finger finger : Fingerprint) (address : Chunkaddress)
  | freeBin (rep_finger : Fingerprint)
  | destroy
  | exit

/-- An empty store. -/
def init : Machine := ⟨.empty, none, false, fun _ => noEntries⟩

/-- The steps of a process with tables `ex`. `none` where the client does not take the
step: it looks a fingerprint up before it inserts it, and it frees all bins before it
saves the main table. -/
def stepProcess (s : Machine) (ex : ExtremeBinning) : Event → Option Machine
  | .start => none
  | .loadBin rep_finger file_hash chunknum =>
    match loadBin ex s.disk rep_finger file_hash chunknum with
    | none => none
    | some (_, ex) => some { s with exbin := some ex }
  | .insertMeta rep_finger finger address =>
    match ex.bin_cache.lookup rep_finger with
    | none => none
    | some bin =>
      match bin.fingers.lookup finger with
      | some _ => none
      | none =>
        some { s with
          exbin := some (ex.setBin { bin with fingers := bin.fingers.insert finger address }) }
  | .setMeta rep_finger finger address =>
    match ex.bin_cache.lookup rep_finger with
    | none => none
    | some bin =>
      some { s with exbin := some (ex.setBin { bin with fingers := bin.fingers.set finger address }) }
  | .freeBin rep_finger =>
    match ex.bin_cache.lookup rep_finger with
    | none => none
    | some bin =>
      let (ex, disk) := freeBin ex s.disk bin
      some {
        disk := disk
        exbin := some ex
        freed := true
        last := Function.update s.last rep_finger bin.fingers.lookup }
  | .destroy =>
    if ex.bin_cache.walk = [] then
      some { s with disk := extremeBinningFlush ex s.disk, exbin := none }
    else none
  | .exit => if s.freed then none else some { s with exbin := none }

def step (s : Machine) (e : Event) : Option Machine :=
  match s.exbin, e with
  | none, .start =>
    let (ex, disk) := extremeBinningInit s.disk
    some { s with disk := disk, exbin := some ex, freed := false }
  | none, _ => none
  | some ex, e => stepProcess s ex e

/-- Representative fingerprints come from `R`; a bin that is freed takes less than
`2 ^ 31` bytes, and no volume has reached `2 ^ 56` bytes. -/
def Within (R : Finset Fingerprint) (s : Machine) : Event → Prop
  | .loadBin rep_finger _ _ => rep_finger ∈ R
  | .freeBin rep_finger => ∀ ex bin, s.exbin = some ex → ex.bin_cache.lookup rep_finger = some bin →
      binLength bin.fingers < 2 ^ 31 ∧
        ∀ v, (ex.bin_volume_array v).current_volume_length < 2 ^ 56
  | _ => True

/-- The tables of the process, or those that the next one starts with. -/
def Machine.tables (s : Machine) : ExtremeBinning :=
  s.exbin.getD (extremeBinningInit s.disk).1

/-- What is recorded for the bins. -/
structure Recorded (ex : ExtremeBinning) : Prop where
  inside : ∀ k mi, ex.main_table.lookup k = some mi → mi.binaddr ≠ 0 →
    20 ≤ offsetOf mi.binaddr ∧ offsetOf mi.binaddr + levelToMaxAmount (levelOf mi.binaddr) ≤
      (ex.bin_volume_array (levelOf mi.binaddr)).current_volume_length
  apart : ∀ k k' mi mi', k ≠ k' → ex.main_table.lookup k = some mi →
    ex.main_table.lookup k' = some mi' → mi.binaddr ≠ 0 → mi'.binaddr ≠ 0 →
    levelOf mi.binaddr = levelOf mi'.binaddr →
    offsetOf mi.binaddr + levelToMaxAmount (levelOf mi.binaddr) ≤ offsetOf mi'.binaddr ∨
      offsetOf mi'.binaddr + levelToMaxAmount (levelOf mi.binaddr) ≤ offsetOf mi.binaddr
  nonzero : ∀ k mi, ex.main_table.lookup k = some mi → ex.bin_cache.lookup k = none →
    mi.binaddr ≠ 0

/-- Every bin that is not cached is loaded with the entries it was freed with last,
and the recorded regions are good. -/
structure Persistent (R : Finset Fingerprint) (s : Machine) : Prop where
  loaded : ∀ ex, s.exbin = some ex → ∀ k ∈ R, ex.bin_cache.lookup k = none →
    ∀ file_hash (n : ℕ), ∃ bin ex', loadBin ex s.disk k file_hash n = some (bin, ex') ∧
      bin.fingers.lookup = s.last k
  recorded : Recorded s.tables
  saved : ∀ r ∈ savedRecords (s.disk.files.repfinger.getD []), r.2.binaddr ≠ 0

-- ════════════════════════════════════════════════════════════════════════
-- Invariant
-- ════════════════════════════════════════════════════════════════════════

/-- The next process starts with these bins. -/
def Idle (R : Finset Fingerprint) (last : Fingerprint → BinMap) (d : Disk) : Prop :=
  ∃ data, Bins R last data (extremeBinningInit d).1 (extremeBinningInit d).2.files

structure Inv (R : Finset Fingerprint) (s : Machine) : Prop where
  running : ∀ ex, s.exbin = some ex → ∃ data, Bins R s.last data ex s.disk.files
  idle : s.exbin = none ∨ s.freed = false → Idle R s.last s.disk
  saved : ∀ r ∈ savedRecords (s.disk.files.repfinger.getD []), r.2.binaddr ≠ 0

variable {R : Finset Fingerprint}

/-- New volumes hold their headers. -/
theorem length_empty (v : ℕ) : ((extremeBinningInit .empty).1.bin_volume_array v).current_volume_length =
    bvolumeHeadSize := by
  have hnew : volumeInit v none = (⟨0, bvolumeHeadSize⟩,
      some (writeAt [] 0 (headerBytes v ⟨0, bvolumeHeadSize⟩))) := by
    rw [volumeInit]
    rfl
  rw [(extremeBinningInit_eq .empty).2.2.1]
  split
  · exact congrArg (fun p => p.1.current_volume_length) hnew
  · rfl

theorem idle_empty : Idle R (fun _ => noEntries) .empty := by
  obtain ⟨hmain, hcache, -, -⟩ := extremeBinningInit_eq .empty
  have hmain' : (extremeBinningInit .empty).1.main_table = htableInit 3200 := hmain
  have hnone : ∀ k, (extremeBinningInit .empty).1.main_table.lookup k = none := by
    intro k
    rw [hmain', HTable.lookup_init]
  have hplace : ∀ k, (extremeBinningInit .empty).1.layout.place k = none := by
    intro k
    rw [ExtremeBinning.place_eq_none_iff, ExtremeBinning.binaddr, hnone]
    rfl
  have hlen : ∀ v, (extremeBinningInit .empty).1.layout.length v = bvolumeHeadSize := length_empty
  refine ⟨fun _ => [], ?_, ?_, ?_, ?_, ?_, ?_, ?_, ?_, ?_, ?_, fun _ _ => rfl⟩
  · rw [hmain']
    exact HTable.init_wf _
  · intro k mi hmi
    simp [hnone] at hmi
  · rw [hcache]
    exact HTable.init_wf _
  · intro k bin hbin
    simp [hcache] at hbin
  · intro k mi hmi
    simp [hnone] at hmi
  · refine ⟨fun v => (hlen v).ge, ?_, ?_⟩
    · intro k v off hk
      simp [hplace] at hk
    · intro k k' v off off' _ hk
      simp [hplace] at hk
  · intro v
    rw [hlen]
    exact Nat.le_add_right _ _
  · intro v
    rw [hlen, bvolumeHeadSize]
    omega
  · constructor <;> intro k v off hk <;> simp [hplace] at hk
  · intro k v off hk
    simp [hplace] at hk

theorem init_inv : Inv R init := by
  refine ⟨by simp [init], fun _ => idle_empty, ?_⟩
  intro r hr
  simp [init, Disk.empty, Files.empty, savedRecords, readAt, magicKey, leBytes] at hr

-- ════════════════════════════════════════════════════════════════════════
-- Steps
-- ════════════════════════════════════════════════════════════════════════

variable {s t : Machine} {ex : ExtremeBinning}

/-- A process that starts finds its tables and leaves the store as it was. -/
theorem Inv.start (h : Inv R s) (hnone : s.exbin = none) :
    Inv R ⟨(extremeBinningInit s.disk).2, some (extremeBinningInit s.disk).1, false, s.last⟩ := by
  obtain ⟨data, hbins⟩ := h.idle (.inl hnone)
  obtain ⟨htables, hfiles⟩ := extremeBinningInit_idem s.disk
  have hsaved : ∀ r ∈ savedRecords ((extremeBinningInit s.disk).2.files.repfinger.getD []),
      r.2.binaddr ≠ 0 := by
    rw [(extremeBinningInit_eq s.disk).2.2.2]
    exact h.saved
  have hidle : Idle R s.last (extremeBinningInit s.disk).2 := by
    refine ⟨data, ?_⟩
    rw [htables, hfiles]
    exact hbins
  clear htables hfiles
  generalize extremeBinningInit s.disk = p at hbins hsaved hidle ⊢
  refine ⟨?_, fun _ => hidle, hsaved⟩
  intro ex hex
  obtain rfl := Option.some.inj hex
  exact ⟨data, hbins⟩

/-- A change of the tables alone. -/
theorem Inv.change (h : Inv R s) (hex : s.exbin = some ex) {ex' : ExtremeBinning}
    (hbins : ∀ data, Bins R s.last data ex s.disk.files → Bins R s.last data ex' s.disk.files) :
    Inv R { s with exbin := some ex' } := by
  obtain ⟨data, hrun⟩ := h.running ex hex
  refine ⟨?_, ?_, h.saved⟩
  · intro ex'' hex''
    obtain rfl := Option.some.inj hex''
    exact ⟨data, hbins data hrun⟩
  · rintro (hnone | hfreed)
    · simp at hnone
    · exact h.idle (.inr hfreed)

theorem Inv.freeBin (h : Inv R s) (hex : s.exbin = some ex) {k : Fingerprint} {bin : Bin}
    (hbin : ex.bin_cache.lookup k = some bin) (hw : Within R s (.freeBin k)) :
    Inv R ⟨(freeBin ex s.disk bin).2, some (freeBin ex s.disk bin).1, true,
      Function.update s.last k bin.fingers.lookup⟩ := by
  obtain ⟨data, hrun⟩ := h.running ex hex
  obtain ⟨hlen, hvols⟩ := hw ex bin hex hbin
  obtain ⟨⟨data', hfree⟩, -, w, hdisk⟩ := hrun.freeBin (fun v _ => hvols v) hbin hlen
  refine ⟨?_, ?_, ?_⟩
  · intro ex' hex'
    obtain rfl := Option.some.inj hex'
    exact ⟨data', hfree⟩
  · rintro (hnone | hfreed)
    · simp at hnone
    · simp at hfreed
  · rw [hdisk]
    exact h.saved

/-- No address in the main table is 0 once all bins are freed. -/
theorem nonzero_of_empty {F : Fingerprint → BinMap} {data : Fingerprint → Bytes} {fs : Files}
    (h : Bins R F data ex fs) (hempty : ∀ k, ex.bin_cache.lookup k = none) :
    ∀ r ∈ ex.main_table.walk, r.2.binaddr ≠ 0 := by
  intro r hr hzero
  exact h.pending r.1 r.2 (h.main.lookup_eq_some_iff.mpr hr) hzero (hempty r.1)

theorem Inv.destroy (h : Inv R s) (hR : R.card < 2 ^ 31) (hex : s.exbin = some ex)
    (hwalk : ex.bin_cache.walk = []) :
    Inv R { s with disk := extremeBinningFlush ex s.disk, exbin := none } := by
  obtain ⟨data, hrun⟩ := h.running ex hex
  have hempty : ∀ k, ex.bin_cache.lookup k = none := by
    intro k
    rw [hrun.cache.lookup_eq_none_iff, hwalk]
    simp
  have hsize := lt_of_le_of_lt hrun.size_le hR
  have haddr : ∀ r ∈ ex.main_table.walk, r.2.binaddr < 2 ^ 64 := fun r hr =>
    (hrun.keys r.1 r.2 (hrun.main.lookup_eq_some_iff.mpr hr)).2
  have hsaved : savedRecords ((extremeBinningFlush ex s.disk).files.repfinger.getD []) =
      ex.main_table.walk := by
    rw [extremeBinningFlush_files, Option.getD_some, savedRecords_writeAt _ hrun.main hsize haddr]
  have hidle : Idle R s.last (extremeBinningFlush ex s.disk) := ⟨data, hrun.reload hR hempty⟩
  have hnonzero := nonzero_of_empty hrun hempty
  rw [← hsaved] at hnonzero
  clear hsaved
  generalize extremeBinningFlush ex s.disk = d at hidle hnonzero ⊢
  exact ⟨fun ex' hex' => by simp at hex', fun _ => hidle, hnonzero⟩

theorem step_start (hnone : s.exbin = none) : step s .start =
    some ⟨(extremeBinningInit s.disk).2, some (extremeBinningInit s.disk).1, false, s.last⟩ := by
  simp only [step, hnone]

theorem stepProcess_freeBin {k : Fingerprint} {bin : Bin} (hbin : ex.bin_cache.lookup k = some bin) :
    stepProcess s ex (.freeBin k) = some ⟨(freeBin ex s.disk bin).2,
      some (freeBin ex s.disk bin).1, true, Function.update s.last k bin.fingers.lookup⟩ := by
  rw [stepProcess, hbin]

/-- Every step of a process keeps the invariant. -/
theorem Inv.process (h : Inv R s) (hR : R.card < 2 ^ 31) (hex : s.exbin = some ex) {e : Event}
    (hw : Within R s e) (hs : stepProcess s ex e = some t) : Inv R t := by
  cases e with
  | start => simp [stepProcess] at hs
  | loadBin k file_hash n =>
    rw [stepProcess] at hs
    split at hs
    · simp at hs
    · next hload =>
      obtain rfl := Option.some.inj hs
      refine h.change hex fun data hbins => ?_
      obtain ⟨bin, ex', hload', hbins', -⟩ := hbins.loadBin hw file_hash (nonneg_of_loadBin hload)
      obtain ⟨-, rfl⟩ := Prod.mk.inj (Option.some.inj (hload.symm.trans hload'))
      exact hbins'
  | insertMeta k finger address =>
    rw [stepProcess] at hs
    split at hs
    · simp at hs
    · next bin hbin =>
      split at hs
      · simp at hs
      · next hnew =>
        obtain rfl := Option.some.inj hs
        refine h.change hex fun data hbins => ?_
        have hwf := (hbins.cached k bin hbin).2.1
        exact And.left (hbins.setBin hbin rfl rfl (hwf.insert hnew address))
  | setMeta k finger address =>
    rw [stepProcess] at hs
    split at hs
    · simp at hs
    · next bin hbin =>
      obtain rfl := Option.some.inj hs
      refine h.change hex fun data hbins => ?_
      have hwf := (hbins.cached k bin hbin).2.1
      exact And.left (hbins.setBin hbin rfl rfl (hwf.set finger address))
  | freeBin k =>
    cases hbin : ex.bin_cache.lookup k with
    | none => simp [stepProcess, hbin] at hs
    | some bin =>
      rw [stepProcess_freeBin hbin] at hs
      obtain rfl := Option.some.inj hs
      exact h.freeBin hex hbin hw
  | destroy =>
    rw [stepProcess] at hs
    split at hs
    · next hwalk =>
      obtain rfl := Option.some.inj hs
      exact h.destroy hR hex hwalk
    · simp at hs
  | exit =>
    rw [stepProcess] at hs
    split at hs
    · simp at hs
    · next hfreed =>
      obtain rfl := Option.some.inj hs
      exact ⟨fun ex' hex' => by simp at hex', fun _ => h.idle (.inr (by simpa using hfreed)), h.saved⟩

theorem Inv.step (h : Inv R s) (hR : R.card < 2 ^ 31) {e : Event} (hw : Within R s e)
    (hs : step s e = some t) : Inv R t := by
  cases hex : s.exbin with
  | none =>
    cases e with
    | start =>
      rw [step_start hex] at hs
      obtain rfl := Option.some.inj hs
      exact h.start hex
    | _ => simp [BinPersistence.step, hex] at hs
  | some ex =>
    simp only [BinPersistence.step, hex] at hs
    exact h.process hR hex hw hs

-- ════════════════════════════════════════════════════════════════════════
-- Runs
-- ════════════════════════════════════════════════════════════════════════

theorem recorded_of_bins {F : Fingerprint → BinMap} {data : Fingerprint → Bytes} {fs : Files}
    (h : Bins R F data ex fs) : Recorded ex := by
  have hplace : ∀ k mi, ex.main_table.lookup k = some mi → mi.binaddr ≠ 0 →
      ex.layout.place k = some (levelOf mi.binaddr, offsetOf mi.binaddr) := by
    intro k mi hmi hne
    rw [ExtremeBinning.place_eq_some_iff, ExtremeBinning.binaddr_of_lookup hmi]
    exact ⟨hne, rfl, rfl⟩
  refine ⟨?_, ?_, ?_⟩
  · intro k mi hmi hne
    exact h.sound.inside k _ _ (hplace k mi hmi hne)
  · intro k k' mi mi' hkk hmi hmi' hne hne' hlevel
    refine h.sound.apart k k' _ _ _ hkk (hplace k mi hmi hne) ?_
    rw [hlevel]
    exact hplace k' mi' hmi' hne'
  · intro k mi hmi hnone hzero
    exact h.pending k mi hmi hzero hnone

theorem Inv.persistent (h : Inv R s) : Persistent R s := by
  refine ⟨?_, ?_, h.saved⟩
  · intro ex hex k hk hnone file_hash n
    obtain ⟨data, hbins⟩ := h.running ex hex
    obtain ⟨bin, ex', hload, -, -, hcases⟩ := hbins.loadBin hk file_hash fun _ => Int.natCast_nonneg n
    refine ⟨bin, ex', hload, ?_⟩
    rcases hcases with hcached | ⟨-, hlast⟩
    · rw [hnone] at hcached
      simp at hcached
    · exact hlast
  · rw [Machine.tables]
    cases hex : s.exbin with
    | none =>
      obtain ⟨data, hbins⟩ := h.idle (.inl hex)
      exact recorded_of_bins hbins
    | some ex =>
      obtain ⟨data, hbins⟩ := h.running ex hex
      exact recorded_of_bins hbins

/-- `free_cache_bin` frees one bin after the other. -/
theorem freeAll_exec {l : List (Fingerprint × Bin)} (hnodup : (l.map Prod.fst).Nodup)
    (hcache : ex.bin_cache.WF) (hex : s.exbin = some ex)
    (hl : ∀ p ∈ l, ex.bin_cache.lookup p.1 = some p.2 ∧ p.2.rep_finger = p.1) :
    ∃ t, exec step s (l.map fun p => .freeBin p.1) = some t ∧
      t.exbin = some (freeAll l ex s.disk).1 ∧ t.disk = (freeAll l ex s.disk).2 := by
  induction l generalizing s ex with
  | nil => exact ⟨s, rfl, hex, rfl⟩
  | cons p l ih =>
    obtain ⟨hbin, hrep⟩ := hl p (by simp)
    obtain ⟨hnot, hnodup'⟩ := List.nodup_cons.mp hnodup
    have hfree : (freeBin ex s.disk p.2).1.bin_cache = ex.bin_cache ∨
        (freeBin ex s.disk p.2).1.bin_cache = ex.bin_cache.remove p.1 := by
      rw [Client.freeBin, hrep]
      dsimp only
      split
      · exact .inr rfl
      · split
        · exact .inl rfl
        · exact .inr rfl
    have hwf : (freeBin ex s.disk p.2).1.bin_cache.WF := by
      rcases hfree with heq | heq
      · rw [heq]
        exact hcache
      · rw [heq]
        exact hcache.remove hbin
    have hrest : ∀ q ∈ l, (freeBin ex s.disk p.2).1.bin_cache.lookup q.1 = some q.2 ∧
        q.2.rep_finger = q.1 := by
      intro q hq
      obtain ⟨hqbin, hqrep⟩ := hl q (List.mem_cons_of_mem _ hq)
      have hne : q.1 ≠ p.1 := fun heq => hnot (List.mem_map.mpr ⟨q, hq, heq⟩)
      refine ⟨?_, hqrep⟩
      rcases hfree with heq | heq
      · rw [heq, hqbin]
      · rw [heq, hcache.lookup_remove hbin, if_neg hne, hqbin]
    have hstep : step s (.freeBin p.1) = some ⟨(freeBin ex s.disk p.2).2,
        some (freeBin ex s.disk p.2).1, true, Function.update s.last p.1 p.2.fingers.lookup⟩ := by
      simp only [step, hex]
      exact stepProcess_freeBin hbin
    obtain ⟨u, hu⟩ : ∃ u : Machine, u = ⟨(freeBin ex s.disk p.2).2, some (freeBin ex s.disk p.2).1,
      true, Function.update s.last p.1 p.2.fingers.lookup⟩ := ⟨_, rfl⟩
    have hexu : u.exbin = some (freeBin ex s.disk p.2).1 := by rw [hu]
    have hdisku : u.disk = (freeBin ex s.disk p.2).2 := by rw [hu]
    rw [← hu] at hstep
    obtain ⟨t, hexec, htables, hdisk⟩ := ih hnodup' hwf hexu hrest
    rw [hdisku] at htables hdisk
    refine ⟨t, ?_, htables, hdisk⟩
    rw [List.map_cons, exec, hstep]
    exact hexec

/-- What `free_cache_bin` does is a sequence of steps. -/
theorem freeCacheBin_exec {F : Fingerprint → BinMap} {data : Fingerprint → Bytes} {fs : Files}
    (h : Bins R F data ex fs) (hex : s.exbin = some ex) :
    ∃ t, exec step s (ex.bin_cache.walk.map fun p => .freeBin p.1) = some t ∧
      t.exbin = some (freeCacheBin ex s.disk).1 ∧ t.disk = (freeCacheBin ex s.disk).2 := by
  refine freeAll_exec h.cache.nodup_walk h.cache hex fun p hp => ?_
  have hbin := h.cache.lookup_eq_some_iff.mpr hp
  exact ⟨hbin, (h.cached p.1 p.2 hbin).1⟩

/-- Bins persist over all processes, in regions of their own. -/
theorem bins_persist {es : List Event} (hR : R.card < 2 ^ 31)
    (h : Run step (Within R) init es s) : Persistent R s := by
  have hstep : ∀ s e t, Inv R s → Within R s e → step s e = some t → Inv R t :=
    fun _ _ _ hi hw hs => hi.step hR hw hs
  exact (h.invariant hstep init_inv).persistent

-- ════════════════════════════════════════════════════════════════════════
-- Many bins
-- ════════════════════════════════════════════════════════════════════════

/-- The `i`-th of many distinct fingerprints. -/
def nth (i : ℕ) : Fingerprint := fixed 20 (leBytes 20 i)

theorem nth_inj {i j : ℕ} (hi : i < 2 ^ 32) (hj : j < 2 ^ 32) (h : nth i = nth j) : i = j :=
  fixed_leBytes_inj (by omega) (by omega) h

/-- The first `n` fingerprints. -/
def firstFingers (n : ℕ) : Finset Fingerprint := (Finset.range n).image nth

/-- A bin is loaded, gets `m` entries and is freed. -/
def fillBin (m : ℕ) (k : Fingerprint) : List Event :=
  .loadBin k zeroFinger 0 :: ((List.range m).map fun j => .insertMeta k (nth j) noAddress) ++
    [.freeBin k]

/-- The process has loaded one new bin and put `j` entries into it. -/
structure Holding (k : Fingerprint) (j : ℕ) (ex₀ ex : ExtremeBinning) (bin : Bin) : Prop where
  main : ex.main_table = ex₀.main_table.insert k ⟨zeroFinger, 0⟩
  vols : ex.bin_volume_array = ex₀.bin_volume_array
  cache : ex.bin_cache.WF
  only : ∀ k', ex.bin_cache.lookup k' = if k' = k then some bin else none
  finger : bin.rep_finger = k
  address : bin.address = 0
  wf : bin.fingers.WF
  size : bin.fingers.size = j
  entries : ∀ i < 2 ^ 32, bin.fingers.lookup (nth i) = if i < j then some noAddress else none

theorem loadBin_new {ex₀ : ExtremeBinning} {k : Fingerprint} (hcache : ex₀.bin_cache.WF)
    (hempty : ∀ k', ex₀.bin_cache.lookup k' = none) (hmain : ex₀.main_table.lookup k = none)
    (d : Disk) : ∃ ex bin, loadBin ex₀ d k zeroFinger 0 = some (bin, ex) ∧ Holding k 0 ex₀ ex bin := by
  refine ⟨{ ex₀ with
      main_table := ex₀.main_table.insert k ⟨zeroFinger, 0⟩
      bin_cache := ex₀.bin_cache.insert k (emptyBin 0 k 0) }, emptyBin 0 k 0, ?_, rfl, rfl,
    hcache.insert (hempty k) _, fun k' => ?_, rfl, rfl, HTable.init_wf 0, rfl, fun i _ => ?_⟩
  · rw [loadBin, hempty, locationBin, hmain]
    rfl
  · rw [hcache.lookup_insert (hempty k), hempty]
  · rw [if_neg (Nat.not_lt_zero i)]
    exact HTable.lookup_init 0 _

theorem Holding.insert {k : Fingerprint} {j : ℕ} {ex₀ ex : ExtremeBinning} {bin : Bin}
    (h : Holding k j ex₀ ex bin) (hj : j < 2 ^ 32) :
    Holding k (j + 1) ex₀
      (ex.setBin { bin with fingers := bin.fingers.insert (nth j) noAddress })
      { bin with fingers := bin.fingers.insert (nth j) noAddress } := by
  have hbin : ex.bin_cache.lookup k = some bin := by rw [h.only, if_pos rfl]
  have hnew : bin.fingers.lookup (nth j) = none := by rw [h.entries j hj, if_neg (lt_irrefl j)]
  refine ⟨h.main, h.vols, h.cache.set _ _, fun k' => ?_, h.finger, h.address,
    h.wf.insert hnew _, ?_, fun i hi => ?_⟩
  · rw [ExtremeBinning.setBin, h.finger, h.cache.lookup_set hbin]
    split
    · rfl
    · next hk => rw [h.only, if_neg hk]
  · rw [h.wf.size_insert hnew, h.size]
  · rw [h.wf.lookup_insert hnew, h.entries i hi]
    by_cases heq : i = j
    · rw [if_pos (congrArg nth heq), if_pos (by omega)]
    · rw [if_neg fun hn => heq (nth_inj hi hj hn)]
      by_cases hlt : i < j
      · rw [if_pos hlt, if_pos (by omega)]
      · rw [if_neg hlt, if_neg (by omega)]

/-- Inserts, one after the other. -/
theorem insert_run {cond : Machine → Event → Prop} {k : Fingerprint} {m : ℕ} (hm : m < 2 ^ 32)
    (hcond : ∀ s f a, cond s (.insertMeta k f a)) {ex₀ ex : ExtremeBinning} {bin : Bin}
    {s : Machine} (hs : s.exbin = some ex) (h : Holding k 0 ex₀ ex bin) :
    ∃ ex' bin', Holding k m ex₀ ex' bin' ∧
      Run step cond s ((List.range m).map fun j => .insertMeta k (nth j) noAddress)
        { s with exbin := some ex' } := by
  induction m with
  | zero =>
    refine ⟨ex, bin, h, ?_⟩
    rw [← hs]
    exact .nil s
  | succ m ih =>
    obtain ⟨ex', bin', hhold, hrun⟩ := ih (by omega)
    have hbin : ex'.bin_cache.lookup k = some bin' := by rw [hhold.only, if_pos rfl]
    have hnew : bin'.fingers.lookup (nth m) = none := by
      rw [hhold.entries m (by omega), if_neg (lt_irrefl m)]
    refine ⟨_, _, hhold.insert (by omega), ?_⟩
    rw [List.range_succ, List.map_append, List.map_singleton]
    refine hrun.snoc (hcond _ _ _) ?_
    simp only [step, stepProcess, hbin, hnew]

/-- `n` bins with `m` entries each lie one after the other in the volume of level `v`. -/
structure Filled (v m n : ℕ) (s : Machine) (ex : ExtremeBinning) : Prop where
  running : s.exbin = some ex
  main : ex.main_table.WF
  size : ex.main_table.size = n
  keys : ∀ i < 2 ^ 32, n ≤ i → ex.main_table.lookup (nth i) = none
  placed : ∀ i < n, ∃ hash, ex.main_table.lookup (nth i) =
    some ⟨hash, addressOf v (20 + levelToMaxAmount v * i)⟩
  cache : ex.bin_cache.WF
  empty : ∀ k, ex.bin_cache.lookup k = none
  vols : ∀ w, (ex.bin_volume_array w).current_volume_length =
    if w = v then 20 + levelToMaxAmount v * n else 20
  last : ∀ i < n, ∀ j < m, s.last (nth i) (nth j) = some noAddress

/-- A bin without a region goes to the end of its volume. -/
theorem writeBinToVolume_new {bin : Bin} (haddr : bin.address = 0) {v : ℕ}
    (hlevel : raiseLevel (binLength bin.fingers) maxBinLevel 0 = v) (vols : ℕ → BinVolume)
    (d : Disk) : ∃ d', writeBinToVolume vols d bin =
      (addressOf v (vols v).current_volume_length,
        Function.update vols v ⟨(vols v).current_bin_num + 1,
          (vols v).current_volume_length + levelToMaxAmount v⟩, d') := by
  have hzero : levelOf 0 = 0 := rfl
  have hoffset : (if v = 0 then offsetOf 0 else 0) = 0 := by
    split <;> rfl
  refine ⟨d.write (.bvol v (vols v).current_volume_length
    (binBytes bin.rep_finger bin.fingers (levelToMaxAmount v))), ?_⟩
  rw [writeBinToVolume, haddr, hzero, hlevel]
  dsimp only
  rw [if_pos hoffset]

theorem addressOf_ne_zero {v off : ℕ} (hv : v < 23) (hoff : 20 ≤ off) (hlt : off ≤ 2 ^ 56 + 20) :
    addressOf v off ≠ 0 := by
  rw [addressOf]
  omega

/-- One more bin. -/
theorem Filled.step {v m n : ℕ} {s : Machine} {ex : ExtremeBinning} (h : Filled v m n s ex)
    {cond : Machine → Event → Prop} (hv : v < 23) (hm : m < 2 ^ 32) (hn : n < 2 ^ 32)
    (hlevel : raiseLevel (24 + m * 84) maxBinLevel 0 = v) (hroom : levelToMaxAmount v * n ≤ 2 ^ 56)
    (hload : ∀ s, cond s (.loadBin (nth n) zeroFinger 0))
    (hinsert : ∀ s f a, cond s (.insertMeta (nth n) f a))
    (hfree : ∀ s ex bin, s.exbin = some ex → (∀ k b, ex.bin_cache.lookup k = some b → b = bin) →
      bin.fingers.size = m → (∀ w, (ex.bin_volume_array w).current_volume_length =
        if w = v then 20 + levelToMaxAmount v * n else 20) → cond s (.freeBin (nth n))) :
    ∃ s' ex', Run step cond s (fillBin m (nth n)) s' ∧ Filled v m (n + 1) s' ex' := by
  have hnone : ex.main_table.lookup (nth n) = none := h.keys n hn (le_refl n)
  obtain ⟨ex₁, bin₁, hloaded, hhold₁⟩ := loadBin_new h.cache h.empty hnone s.disk
  have hrun₁ : Run BinPersistence.step cond s [.loadBin (nth n) zeroFinger 0]
      { s with exbin := some ex₁ } := by
    refine Run.single (hload s) ?_
    simp only [BinPersistence.step, h.running, stepProcess, hloaded]
  obtain ⟨ex₂, bin₂, hhold₂, hrun₂⟩ := insert_run hm hinsert
    (rfl : ({ s with exbin := some ex₁ } : Machine).exbin = some ex₁) hhold₁
  have hbin : ex₂.bin_cache.lookup (nth n) = some bin₂ := by rw [hhold₂.only, if_pos rfl]
  have hvols₂ : ∀ w, (ex₂.bin_volume_array w).current_volume_length =
      if w = v then 20 + levelToMaxAmount v * n else 20 := by
    rw [hhold₂.vols]
    exact h.vols
  have hlen : binLength bin₂.fingers = 24 + m * 84 := by rw [binLength, hhold₂.size]
  obtain ⟨d', hwrite⟩ := writeBinToVolume_new hhold₂.address (hlen ▸ hlevel) ex₂.bin_volume_array
    s.disk
  have hend : (ex₂.bin_volume_array v).current_volume_length = 20 + levelToMaxAmount v * n := by
    rw [hvols₂, if_pos rfl]
  have hmain₂ := h.main.insert hnone ⟨zeroFinger, 0⟩
  have hmi : ex₂.main_table.lookup (nth n) = some ⟨zeroFinger, 0⟩ := by
    rw [hhold₂.main, h.main.lookup_insert hnone, if_pos rfl]
  have hfreed : freeBin ex₂ s.disk bin₂ =
      (⟨ex₂.main_table.set (nth n) ⟨zeroFinger, addressOf v (20 + levelToMaxAmount v * n)⟩,
        ex₂.bin_cache.remove (nth n), Function.update ex₂.bin_volume_array v
          ⟨(ex₂.bin_volume_array v).current_bin_num + 1,
            20 + levelToMaxAmount v * n + levelToMaxAmount v⟩⟩, d') := by
    rw [freeBin, hwrite, hend]
    dsimp only
    rw [if_neg (addressOf_ne_zero hv (by omega) (by omega)), hhold₂.finger, hmi]
  have hcond : cond { s with exbin := some ex₂ } (.freeBin (nth n)) := by
    refine hfree _ ex₂ bin₂ rfl (fun k b hb => ?_) hhold₂.size hvols₂
    rw [hhold₂.only] at hb
    split at hb
    · exact (Option.some.inj hb).symm
    · simp at hb
  have hstep₃ : BinPersistence.step { s with exbin := some ex₂ } (.freeBin (nth n)) = _ :=
    stepProcess_freeBin hbin
  rw [hfreed] at hstep₃
  refine ⟨_, _, ((hrun₁.append hrun₂).snoc hcond hstep₃), rfl, ?_, ?_, ?_, ?_, ?_, ?_, ?_, ?_⟩
  · exact (hhold₂.main ▸ hmain₂).set _ _
  · rw [HTable.size_set, hhold₂.main, h.main.size_insert hnone, h.size]
  · intro i hi hle
    have hne : nth i ≠ nth n := fun heq => by have := nth_inj hi hn heq; omega
    rw [(hhold₂.main ▸ hmain₂ : ex₂.main_table.WF).lookup_set hmi, if_neg hne, hhold₂.main,
      h.main.lookup_insert hnone, if_neg hne, h.keys i hi (by omega)]
  · intro i hi
    rw [(hhold₂.main ▸ hmain₂ : ex₂.main_table.WF).lookup_set hmi]
    by_cases heq : i = n
    · rw [heq, if_pos rfl]
      exact ⟨_, rfl⟩
    · have hne : nth i ≠ nth n := fun hn' => heq (nth_inj (by omega) hn hn')
      rw [if_neg hne, hhold₂.main, h.main.lookup_insert hnone, if_neg hne]
      exact h.placed i (by omega)
  · exact hhold₂.cache.remove hbin
  · intro k
    rw [hhold₂.cache.lookup_remove hbin, hhold₂.only]
    split <;> simp [*]
  · intro w
    dsimp only
    by_cases hw : w = v
    · rw [hw, Function.update_self, if_pos rfl]
      ring
    · rw [Function.update_of_ne hw, if_neg hw, hvols₂, if_neg hw]
  · intro i hi j hj
    dsimp only
    by_cases heq : i = n
    · rw [heq, Function.update_self, hhold₂.entries j (by omega), if_pos hj]
    · have hne : nth i ≠ nth n := fun hn' => heq (nth_inj (by omega) hn hn')
      rw [Function.update_of_ne hne]
      exact h.last i (by omega) j hj

/-- A new store has no bins. -/
theorem filled_start (v m : ℕ) : ∃ s ex, step init .start = some s ∧ Filled v m 0 s ex := by
  obtain ⟨hrecords, hcache, -, -⟩ := extremeBinningInit_eq .empty
  have hmain : (extremeBinningInit init.disk).1.main_table = htableInit 3200 := hrecords
  refine ⟨_, _, step_start rfl, rfl, ?_, ?_, ?_, ?_, ?_, ?_, ?_, ?_⟩
  · rw [hmain]
    exact HTable.init_wf _
  · rw [hmain]
    rfl
  · intro i _ _
    rw [hmain]
    exact HTable.lookup_init _ _
  · intro i hi
    omega
  · rw [show (extremeBinningInit init.disk).1.bin_cache = htableInit 100 from hcache]
    exact HTable.init_wf _
  · intro k
    rw [show (extremeBinningInit init.disk).1.bin_cache = htableInit 100 from hcache]
    exact HTable.lookup_init _ _
  · intro w
    rw [Nat.mul_zero, ite_self]
    exact length_empty w
  · intro i hi
    omega

/-- A process that has freed its bins can save the main table. -/
theorem Filled.destroy {v m n : ℕ} {s : Machine} {ex : ExtremeBinning} (h : Filled v m n s ex) :
    BinPersistence.step s .destroy =
      some { s with disk := extremeBinningFlush ex s.disk, exbin := none } := by
  have hwalk : ex.bin_cache.walk = [] := by
    rw [List.eq_nil_iff_forall_not_mem]
    intro p hp
    exact h.cache.lookup_eq_none_iff.mp (h.empty p.1) p.2 hp
  simp only [BinPersistence.step, h.running, stepProcess, hwalk, if_true]

theorem bins_persist_one : ∃ s, Run step (Within (firstFingers 1)) init
    (.start :: fillBin 1 (nth 0) ++ [.destroy, .start]) s ∧ Persistent (firstFingers 1) s := by
  obtain ⟨s₁, ex₁, hstep, hfilled⟩ := filled_start 0 1
  have hstart : Run step (Within (firstFingers 1)) init [.start] s₁ := Run.single trivial hstep
  have hload : ∀ s, Within (firstFingers 1) s (.loadBin (nth 0) zeroFinger 0) := fun _ =>
    Finset.mem_image_of_mem nth (Finset.mem_range.mpr (by omega))
  obtain ⟨s₂, ex₂, hrun, hfilled₂⟩ := hfilled.step (by omega) (by omega) (by omega) (by decide)
    (by omega) hload (fun _ _ _ => trivial) (fun s ex bin hex honly hsize hvols ex' bin' hex' hbin' => by
      obtain rfl := Option.some.inj (hex.symm.trans hex')
      rw [honly _ _ hbin', binLength, hsize]
      refine ⟨by decide, fun w => ?_⟩
      rw [hvols w]
      split <;> omega)
  have hany : ∀ s, Within (firstFingers 1) s .destroy ∧ Within (firstFingers 1) s .start :=
    fun _ => ⟨trivial, trivial⟩
  have hend := ((hstart.append hrun).snoc (hany _).1 hfilled₂.destroy).snoc (hany _).2
    (step_start rfl)
  have hcard : (firstFingers 1).card < 2 ^ 31 := by
    refine lt_of_le_of_lt Finset.card_image_le ?_
    rw [Finset.card_range]
    decide
  exact ⟨_, hend, bins_persist hcard hend⟩

/-- What is asked of the bins alone. -/
def Sized (R : Finset Fingerprint) (s : Machine) : Event → Prop
  | .loadBin rep_finger _ _ => rep_finger ∈ R
  | .freeBin rep_finger => ∀ ex bin, s.exbin = some ex → ex.bin_cache.lookup rep_finger = some bin →
      binLength bin.fingers < 2 ^ 31
  | _ => True

/-- Volumes can be filled with bins of one size. -/
theorem fill_volume {v m : ℕ} (hv : v < 23) (hm : 24 + m * 84 < 2 ^ 31)
    (hlevel : raiseLevel (24 + m * 84) maxBinLevel 0 = v) {N : ℕ} (hN : N < 2 ^ 32) (n : ℕ)
    (hn : n ≤ N) (hroom : levelToMaxAmount v * (n - 1) ≤ 2 ^ 56) :
    ∃ es s ex, Run step (Sized (firstFingers N)) init es s ∧ Filled v m n s ex := by
  induction n with
  | zero =>
    obtain ⟨s, ex, hstep, hfilled⟩ := filled_start v m
    exact ⟨[.start], s, ex, Run.single trivial hstep, hfilled⟩
  | succ n ih =>
    have hle : levelToMaxAmount v * (n - 1) ≤ levelToMaxAmount v * (n + 1 - 1) :=
      Nat.mul_le_mul_left _ (by omega)
    obtain ⟨es, s, ex, hrun, hfilled⟩ := ih (by omega) (hle.trans hroom)
    have hmem : nth n ∈ firstFingers N :=
      Finset.mem_image_of_mem nth (Finset.mem_range.mpr (by omega))
    have hload : ∀ s, Sized (firstFingers N) s (.loadBin (nth n) zeroFinger 0) := fun _ => hmem
    have hinsert : ∀ s f a, Sized (firstFingers N) s (.insertMeta (nth n) f a) := fun _ _ _ => trivial
    obtain ⟨s', ex', hrun', hfilled'⟩ := hfilled.step hv (by omega) (by omega) hlevel hroom hload
      hinsert (fun s ex bin hex honly hsize _ ex₁ bin₁ hex₁ hbin₁ => by
        obtain rfl := Option.some.inj (hex.symm.trans hex₁)
        rw [honly _ _ hbin₁, binLength, hsize]
        exact hm)
    exact ⟨_, s', ex', hrun.append hrun', hfilled'⟩

/-- A main table with `2 ^ 31` entries is lost when the next process starts. -/
theorem table_full : ∃ es s, Run step (Sized (firstFingers (2 ^ 31))) init es s ∧
    ¬Persistent (firstFingers (2 ^ 31)) s := by
  obtain ⟨N, hN⟩ : ∃ N, N = 2 ^ 31 := ⟨_, rfl⟩
  rw [← hN]
  have hroom : levelToMaxAmount 0 * (N - 1) ≤ 2 ^ 56 := by
    rw [levelToMaxAmount]
    omega
  obtain ⟨es, s, ex, hrun, hfilled⟩ := fill_volume (v := 0) (m := 1) (by omega) (by omega) (by decide)
    (by omega) N (le_refl N) hroom
  have hany : ∀ s, Sized (firstFingers N) s .destroy ∧ Sized (firstFingers N) s .start :=
    fun _ => ⟨trivial, trivial⟩
  have hrun' := (hrun.snoc (hany s).1 hfilled.destroy).snoc (hany _).2 (step_start rfl)
  refine ⟨_, _, hrun', fun hpersistent => ?_⟩
  have hrecords : savedRecords ((extremeBinningFlush ex s.disk).files.repfinger.getD []) = [] := by
    rw [extremeBinningFlush_files, Option.getD_some,
      savedRecords_full _ (hfilled.size.trans hN)]
  obtain ⟨hmain, hcache, -, -⟩ := extremeBinningInit_eq (extremeBinningFlush ex s.disk)
  rw [hrecords] at hmain
  have hmem : nth 0 ∈ firstFingers N :=
    Finset.mem_image_of_mem nth (Finset.mem_range.mpr (by omega))
  have hnone : (extremeBinningInit (extremeBinningFlush ex s.disk)).1.bin_cache.lookup (nth 0) = none := by
    rw [hcache]
    exact HTable.lookup_init _ _
  have hentry := hfilled.last 0 (by omega) 0 (by omega)
  have hloaded := hpersistent.loaded
  dsimp only at hloaded
  have hnew : (extremeBinningInit (extremeBinningFlush ex s.disk)).1.main_table.lookup (nth 0) = none := by
    rw [hmain]
    exact HTable.lookup_init _ _
  generalize extremeBinningInit (extremeBinningFlush ex s.disk) = p at hloaded hnone hnew
  obtain ⟨bin, ex', hload, hlast⟩ := hloaded p.1 rfl (nth 0) hmem hnone zeroFinger 0
  rw [loadBin, hnone, locationBin, hnew] at hload
  dsimp only at hload
  rw [newBin_of_nonneg 0 (nth 0) (Int.natCast_nonneg 0), Option.bind_some, if_pos rfl] at hload
  obtain ⟨rfl, -⟩ := Prod.mk.inj (Option.some.inj hload)
  rw [← hlast, emptyBin, HTable.lookup_init] at hentry
  simp at hentry

/-- An offset of `2 ^ 56` spills over into the level. -/
theorem volume_full : ∃ es s, Run step (Sized (firstFingers (2 ^ 25 + 1))) init es s ∧
    ¬Persistent (firstFingers (2 ^ 25 + 1)) s := by
  obtain ⟨N, hN⟩ : ∃ N, N = 2 ^ 25 + 1 := ⟨_, rfl⟩
  obtain ⟨m, hm⟩ : ∃ m, m = 2 ^ 24 := ⟨_, rfl⟩
  rw [← hN]
  have hamount : levelToMaxAmount 22 = 2 ^ 31 := rfl
  have hlevel : raiseLevel (24 + m * 84) maxBinLevel 0 = 22 := by
    rw [hm]
    decide
  have hroom : levelToMaxAmount 22 * (N - 1) ≤ 2 ^ 56 := by
    rw [hamount, hN]
    decide
  obtain ⟨es, s, ex, hrun, hfilled⟩ := fill_volume (by omega) (by omega) hlevel (by omega) N
    (le_refl N) hroom
  refine ⟨es, s, hrun, fun hpersistent => ?_⟩
  obtain ⟨hash, hmi⟩ := hfilled.placed (N - 1) (by omega)
  have haddr : addressOf 22 (20 + levelToMaxAmount 22 * (N - 1)) = 23 * 2 ^ 56 + 20 := by
    rw [hamount, hN]
    decide
  rw [haddr] at hmi
  have hinside := hpersistent.recorded.inside (nth (N - 1)) ⟨hash, 23 * 2 ^ 56 + 20⟩
  rw [Machine.tables, hfilled.running, Option.getD_some] at hinside
  have hne : 23 * 2 ^ 56 + 20 ≠ 0 := by decide
  have hend := (hinside hmi hne).2
  have hlevel23 : levelOf (23 * 2 ^ 56 + 20) = 23 := by decide
  have hvols := hfilled.vols 23
  rw [if_neg (by decide)] at hvols
  dsimp only at hend
  rw [hlevel23, hvols] at hend
  have hpos := levelToMaxAmount_pos 23
  have hoffset : offsetOf (23 * 2 ^ 56 + 20) = 20 := by decide
  omega

/-- Bins are lost when there are too many of them: after a restart with `2 ^ 31` of them, and
in a volume that holds `2 ^ 25` bins of 2 GB each. -/
theorem full_tables_lose_bins :
    (∃ es s, Run step (Sized (firstFingers (2 ^ 31))) init es s ∧
      ¬Persistent (firstFingers (2 ^ 31)) s) ∧
    ∃ es s, Run step (Sized (firstFingers (2 ^ 25 + 1))) init es s ∧
      ¬Persistent (firstFingers (2 ^ 25 + 1)) s :=
  ⟨table_full, volume_full⟩

end TCBackup.Client.BinPersistence
