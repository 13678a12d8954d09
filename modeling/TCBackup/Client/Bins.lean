import TCBackup.Client.BinVolumes
import TCBackup.Lib.Layout

/-!
# What a process knows about its bins

The bins of the main table are laid out in the volumes, every region holds the bin
that `FreeBin` wrote last, and `LoadBin` returns it. The invariant is kept by every
operation and by saving and loading the main table.

## Main definitions

- `ExtremeBinning.layout` — which regions the main table assigns
- `Bins` — the invariant, for representative fingerprints from a finite set
- `Bins.loadBin`, `Bins.freeBin`, `Bins.reload` — the operations keep it
-/

namespace TCBackup.Client

open ByteFile

/-- What a bin maps the fingerprints to. -/
abbrev BinMap := Fingerprint → Option Chunkaddress

/-- The bin of a representative fingerprint that has never been freed. -/
def noEntries : BinMap := fun _ => none

/-- The address in the main table, 0 without one. -/
def ExtremeBinning.binaddr (ex : ExtremeBinning) (k : Fingerprint) : ℕ :=
  ((ex.main_table.lookup k).map MainIndex.binaddr).getD 0

/-- The regions that the main table assigns. -/
def ExtremeBinning.layout (ex : ExtremeBinning) : Layout Fingerprint where
  place k :=
    if ex.binaddr k = 0 then none else some (levelOf (ex.binaddr k), offsetOf (ex.binaddr k))
  length v := (ex.bin_volume_array v).current_volume_length

/-- Tables, volumes and files fit together, and `F` is what the bins were freed with. -/
structure Bins (R : Finset Fingerprint) (F : Fingerprint → BinMap) (data : Fingerprint → Bytes)
    (ex : ExtremeBinning) (fs : Files) : Prop where
  main : ex.main_table.WF
  keys : ∀ k mi, ex.main_table.lookup k = some mi → k ∈ R ∧ mi.binaddr < 2 ^ 64
  cache : ex.bin_cache.WF
  cached : ∀ k bin, ex.bin_cache.lookup k = some bin → bin.rep_finger = k ∧ bin.fingers.WF ∧
    ∃ mi, ex.main_table.lookup k = some mi ∧ mi.binaddr = bin.address
  pending : ∀ k mi, ex.main_table.lookup k = some mi → mi.binaddr = 0 →
    ex.bin_cache.lookup k ≠ none
  sound : ex.layout.Sound bvolumeHeadSize levelToMaxAmount
  tight : Layout.Tight bvolumeHeadSize levelToMaxAmount R ex.layout
  short : ∀ v, ex.layout.length v < 2 ^ 63
  holds : Layout.Holds levelToMaxAmount (volumeFile fs) ex.layout data
  saved : ∀ k v off, ex.layout.place k = some (v, off) → v < 23 ∧
    ∃ t : HTable 20 Chunkaddress, t.WF ∧ binLength t ≤ levelToMaxAmount v ∧ binLength t < 2 ^ 31 ∧
      data k = binBytes k t (levelToMaxAmount v) ∧ t.lookup = F k
  unsaved : ∀ k, ex.layout.place k = none → F k = noEntries

theorem levelToMaxAmount_pos (level : ℕ) : 0 < levelToMaxAmount level := by
  rw [levelToMaxAmount]
  positivity

-- ════════════════════════════════════════════════════════════════════════
-- Addresses and levels
-- ════════════════════════════════════════════════════════════════════════

theorem addressOf_eq {level offset : ℕ} (hl : level < 23) (ho : offset < 2 ^ 56) :
    addressOf level offset = level * 2 ^ 56 + offset := by
  rw [addressOf, Nat.mod_eq_of_lt]
  omega

theorem levelOf_addressOf {level offset : ℕ} (hl : level < 23) (ho : offset < 2 ^ 56) :
    levelOf (addressOf level offset) = level := by
  rw [addressOf_eq hl ho, levelOf]
  omega

theorem offsetOf_addressOf {level offset : ℕ} (hl : level < 23) (ho : offset < 2 ^ 56) :
    offsetOf (addressOf level offset) = offset := by
  rw [addressOf_eq hl ho, offsetOf]
  omega

theorem levelToMaxAmount_le {level : ℕ} (h : level < 23) : levelToMaxAmount level ≤ 2 ^ 31 := by
  have hpow : 2 ^ level ≤ 2 ^ 22 := Nat.pow_le_pow_right (by decide) (by omega)
  rw [levelToMaxAmount]
  omega

/-- The loop ends at a level that is large enough, and it only goes up. -/
theorem raiseLevel_spec {nlen n level : ℕ} (hlen : nlen < 2 ^ 31) (hl : level < 23)
    (hn : 22 ≤ level + n) :
    level ≤ raiseLevel nlen n level ∧ raiseLevel nlen n level < 23 ∧
      nlen ≤ levelToMaxAmount (raiseLevel nlen n level) := by
  induction n generalizing level with
  | zero =>
    obtain rfl : level = 22 := by omega
    have : levelToMaxAmount 22 = 2 ^ 31 := rfl
    simp only [raiseLevel]
    omega
  | succ n ih =>
    rw [raiseLevel]
    split
    · next hsmall =>
      have hlast : level ≠ 22 := by
        rintro rfl
        have : levelToMaxAmount 22 = 2 ^ 31 := rfl
        omega
      obtain ⟨h1, h2, h3⟩ := @ih (level + 1) (by omega) (by omega)
      exact ⟨by omega, h2, h3⟩
    · next hfit => exact ⟨le_refl _, hl, by omega⟩

/-- With fewer than `2 ^ 25` bins the offsets fit into 56 bits. -/
theorem Bins.length_lt {R : Finset Fingerprint} {F : Fingerprint → BinMap}
    {data : Fingerprint → Bytes} {ex : ExtremeBinning} {fs : Files} (h : Bins R F data ex fs)
    (hR : R.card < 2 ^ 25) {v : ℕ} (hv : v < 23) : ex.layout.length v < 2 ^ 56 := by
  have hlen := h.tight.length_le v
  have hsize := levelToMaxAmount_le hv
  have hmul : levelToMaxAmount v * R.card ≤ 2 ^ 31 * (2 ^ 25 - 1) :=
    Nat.mul_le_mul hsize (by omega)
  have hhead : bvolumeHeadSize = 20 := rfl
  omega

-- ════════════════════════════════════════════════════════════════════════
-- A bin as bytes
-- ════════════════════════════════════════════════════════════════════════

@[simp] theorem length_chunkMetaBytes (p : Fingerprint × Chunkaddress) :
    (chunkMetaBytes p).length = 84 := by
  simp [chunkMetaBytes]

@[simp] theorem chunkMetaOf_chunkMetaBytes (p : Fingerprint × Chunkaddress) :
    chunkMetaOf (chunkMetaBytes p) = p := by
  have h1 : readAt (chunkMetaBytes p) 0 20 = p.1.toList := readAt_front p.1.toList_length
  have h2 : readAt (chunkMetaBytes p) 20 64 = p.2.toList := by
    rw [chunkMetaBytes, readAt_skip (k := 0) (by simp), readAt_vector]
  rw [chunkMetaOf, h1, h2, fixed_toList, fixed_toList]

section BinBytes

variable {k : Fingerprint} {t : HTable 20 Chunkaddress} {size : ℕ}

theorem length_binBytes (ht : t.WF) (hle : binLength t ≤ size) :
    (binBytes k t size).length = size := by
  rw [binLength] at hle
  simp only [binBytes, List.length_append, List.Vector.toList_length, length_leBytes,
    length_flatMap_enc length_chunkMetaBytes, List.length_replicate, ← ht.size_eq, binLength]
  omega

theorem readAt_binBytes_finger : readAt (binBytes k t size) 0 20 = k.toList := by
  rw [binBytes, List.append_assoc, List.append_assoc]
  exact readAt_front k.toList_length

theorem intOf_binBytes_count (hlt : binLength t < 2 ^ 31) :
    (intOf (readAt (binBytes k t size) 20 4)).toNat = t.size := by
  have hsize : t.size < 2 ^ 31 := by
    rw [binLength] at hlt
    omega
  have hcount : readAt (binBytes k t size) 20 4 = intBytes 4 t.size := by
    rw [binBytes, List.append_assoc, List.append_assoc, readAt_skip (k := 0) (by simp),
      intBytes_natCast (by omega)]
    exact readAt_front (length_leBytes ..)
  rw [hcount, intOf_intBytes_natCast (by omega), Int.toNat_natCast]

theorem readRecords_binBytes (ht : t.WF) :
    readRecords chunkMetaOf 84 (binBytes k t size) t.size 24 = t.walk := by
  rw [ht.size_eq]
  apply readRecords_of_readAt length_chunkMetaBytes chunkMetaOf_chunkMetaBytes
  rw [binBytes, List.append_assoc, readAt_skip (k := 0) (by simp)]
  exact readAt_front (length_flatMap_enc length_chunkMetaBytes _)

end BinBytes

-- ════════════════════════════════════════════════════════════════════════
-- Loading
-- ════════════════════════════════════════════════════════════════════════

variable {R : Finset Fingerprint} {F : Fingerprint → BinMap} {data : Fingerprint → Bytes}
  {ex : ExtremeBinning} {fs : Files} {d : Disk}

theorem ExtremeBinning.place_eq_some_iff {k : Fingerprint} {v off : ℕ} :
    ex.layout.place k = some (v, off) ↔
      ex.binaddr k ≠ 0 ∧ levelOf (ex.binaddr k) = v ∧ offsetOf (ex.binaddr k) = off := by
  simp [layout]

theorem ExtremeBinning.place_eq_none_iff {k : Fingerprint} :
    ex.layout.place k = none ↔ ex.binaddr k = 0 := by
  simp [layout]

theorem ExtremeBinning.binaddr_of_lookup {k : Fingerprint} {mi : MainIndex}
    (h : ex.main_table.lookup k = some mi) : ex.binaddr k = mi.binaddr := by
  rw [binaddr, h]
  rfl

/-- A bin is read back from a region that holds its bytes. -/
theorem readBin_region {k : Fingerprint} {addr : ℕ} {t : HTable 20 Chunkaddress} (ht : t.WF)
    (hle : binLength t ≤ levelToMaxAmount (levelOf addr)) (hlt : binLength t < 2 ^ 31)
    (hread : readAt (volumeFile d.files (levelOf addr)) (offsetOf addr) (levelToMaxAmount (levelOf addr)) =
      binBytes k t (levelToMaxAmount (levelOf addr))) (n : ℕ) :
    ∃ bin, readBinFromVolume d (emptyBin addr k n) = some (true, bin) ∧
      bin.rep_finger = k ∧ bin.address = addr ∧ bin.fingers.WF ∧ bin.fingers.lookup = t.lookup := by
  have haddr : (emptyBin addr k n).address = addr := rfl
  have hrep : (emptyBin addr k n).rep_finger = k := rfl
  have hfingers : (emptyBin addr k n).fingers = htableInit n := rfl
  cases hfile : d.files.bvol (levelOf addr) with
  | none =>
    have hlength := congrArg List.length hread
    have := levelToMaxAmount_pos (levelOf addr)
    rw [volumeFile, hfile, Option.getD_none, length_readAt, length_binBytes ht hle,
      List.length_nil] at hlength
    omega
  | some file =>
    rw [volumeFile, hfile, Option.getD_some] at hread
    refine ⟨{ emptyBin addr k n with
      fingers := (htableInit n : HTable 20 Chunkaddress).insertAll t.walk }, ?_, rfl, rfl,
      HTable.insertAll_init_wf ht.nodup_walk n, ?_⟩
    · rw [readBinFromVolume, haddr, hfile]
      dsimp only
      rw [hread, length_binBytes ht hle, if_neg (by simp), hrep, readAt_binBytes_finger,
        fixed_toList, if_neg (by simp), intOf_binBytes_count hlt, readRecords_binBytes ht, hfingers]
      rfl
    · funext f
      exact ht.lookup_insertAll_walk n f

/-- A bin with an address is read back as it was freed. -/
theorem Bins.readBin (h : Bins R F data ex d.files) {k : Fingerprint} (hk : ex.binaddr k ≠ 0)
    (n : ℕ) : ∃ bin, readBinFromVolume d (emptyBin (ex.binaddr k) k n) = some (true, bin) ∧
      bin.rep_finger = k ∧ bin.address = ex.binaddr k ∧ bin.fingers.WF ∧
      bin.fingers.lookup = F k := by
  have hplace : ex.layout.place k = some (levelOf (ex.binaddr k), offsetOf (ex.binaddr k)) :=
    ExtremeBinning.place_eq_some_iff.mpr ⟨hk, rfl, rfl⟩
  obtain ⟨-, t, ht, hle, hlt, hdata, hF⟩ := h.saved k _ _ hplace
  have hread := h.holds.reads k _ _ hplace
  rw [hdata] at hread
  obtain ⟨bin, hbin, hrep, haddr, hwf, hlookup⟩ := readBin_region (d := d) ht hle hlt hread n
  exact ⟨bin, hbin, hrep, haddr, hwf, hlookup.trans hF⟩

/-- The layout depends on the addresses and the lengths only. -/
theorem ExtremeBinning.layout_congr {ex' : ExtremeBinning}
    (haddr : ∀ k, ex'.binaddr k = ex.binaddr k)
    (hvols : ex'.bin_volume_array = ex.bin_volume_array) : ex'.layout = ex.layout := by
  rw [layout, layout, hvols]
  congr 1
  funext k
  rw [haddr]

/-- A change of the tables that leaves addresses, volumes and files alone. -/
theorem Bins.of_tables (h : Bins R F data ex fs) {ex' : ExtremeBinning}
    (hmain : ex'.main_table.WF)
    (hkeys : ∀ k mi, ex'.main_table.lookup k = some mi → k ∈ R ∧ mi.binaddr < 2 ^ 64)
    (hcache : ex'.bin_cache.WF)
    (hcached : ∀ k bin, ex'.bin_cache.lookup k = some bin → bin.rep_finger = k ∧ bin.fingers.WF ∧
      ∃ mi, ex'.main_table.lookup k = some mi ∧ mi.binaddr = bin.address)
    (hpending : ∀ k mi, ex'.main_table.lookup k = some mi → mi.binaddr = 0 →
      ex'.bin_cache.lookup k ≠ none)
    (haddr : ∀ k, ex'.binaddr k = ex.binaddr k)
    (hvols : ex'.bin_volume_array = ex.bin_volume_array) : Bins R F data ex' fs := by
  have hlayout := ExtremeBinning.layout_congr haddr hvols
  refine ⟨hmain, hkeys, hcache, hcached, hpending, ?_, ?_, ?_, ?_, ?_, ?_⟩
  · rw [hlayout]
    exact h.sound
  · rw [hlayout]
    exact h.tight
  · rw [hlayout]
    exact h.short
  · rw [hlayout]
    exact h.holds
  · rw [hlayout]
    exact h.saved
  · rw [hlayout]
    exact h.unsaved

/-- A loaded bin enters the cache. -/
theorem Bins.insertBin (h : Bins R F data ex fs) {bin : Bin} {mi : MainIndex}
    (hnone : ex.bin_cache.lookup bin.rep_finger = none) (hwf : bin.fingers.WF)
    (hmi : ex.main_table.lookup bin.rep_finger = some mi) (haddr : mi.binaddr = bin.address) :
    Bins R F data { ex with bin_cache := ex.bin_cache.insert bin.rep_finger bin } fs := by
  have hlookup := fun k => h.cache.lookup_insert hnone bin k
  refine h.of_tables h.main h.keys (h.cache.insert hnone bin) ?_ ?_ (fun k => rfl) rfl
  · intro k b hb
    dsimp only at hb
    rw [hlookup] at hb
    split at hb
    · next hk =>
      obtain rfl := Option.some.inj hb
      exact ⟨hk.symm, hwf, mi, hk ▸ hmi, haddr⟩
    · exact h.cached k b hb
  · intro k mi' hmi' hzero
    dsimp only
    rw [hlookup]
    split
    · simp
    · exact h.pending k mi' hmi' hzero

/-- `LoadBin` returns the cached bin, or else the bin that was freed last. -/
theorem Bins.loadBin (h : Bins R F data ex d.files) {k : Fingerprint} (hk : k ∈ R)
    (file_hash : Fingerprint) {n : ℤ} (hn : ex.bin_cache.lookup k = none → 0 ≤ n) :
    ∃ bin ex', loadBin ex d k file_hash n = some (bin, ex') ∧ Bins R F data ex' d.files ∧
      (∀ k', ex'.bin_cache.lookup k' =
        if k' = k then some bin else ex.bin_cache.lookup k') ∧
      (ex.bin_cache.lookup k = some bin ∨
        ex.bin_cache.lookup k = none ∧ bin.fingers.lookup = F k) := by
  cases hc : ex.bin_cache.lookup k with
  | some bin =>
    refine ⟨bin, ex, by rw [Client.loadBin, hc], h, ?_, .inl rfl⟩
    intro k'
    split
    · next hk' => rw [hk', hc]
    · rfl
  | none =>
    have hnew := fun address => newBin_of_nonneg address k (hn hc)
    cases hm : ex.main_table.lookup k with
    | some mi =>
      have haddr := ExtremeBinning.binaddr_of_lookup hm
      have hne : mi.binaddr ≠ 0 := fun hzero => h.pending k mi hm hzero hc
      obtain ⟨bin, hread, hrep, hbin, hwf, hF⟩ := h.readBin (haddr ▸ hne) n.toNat
      rw [haddr] at hread hbin
      refine ⟨bin, { ex with bin_cache := ex.bin_cache.insert k bin }, ?_, ?_,
        h.cache.lookup_insert hc bin, .inr ⟨rfl, hF⟩⟩
      · rw [Client.loadBin, hc]
        dsimp only
        rw [locationBin, hm]
        dsimp only
        rw [hnew, Option.bind_some, if_neg hne, hread]
        rfl
      · have := @Bins.insertBin _ _ _ _ _ h bin _ (by rw [hrep]; exact hc) hwf (by rw [hrep]; exact hm)
          hbin.symm
        rwa [hrep] at this
    | none =>
      have hzero : ex.binaddr k = 0 := by simp [ExtremeBinning.binaddr, hm]
      have hlookup := fun k' => h.main.lookup_insert hm ⟨file_hash, 0⟩ k'
      let bin := emptyBin 0 k n.toNat
      let main_table := ex.main_table.insert k ⟨file_hash, 0⟩
      let cache := ex.bin_cache.insert k bin
      have hcache := h.cache.lookup_insert hc bin
      refine ⟨bin, { ex with main_table := main_table, bin_cache := cache }, ?_, ?_, hcache,
        .inr ⟨rfl, ?_⟩⟩
      · rw [Client.loadBin, hc]
        dsimp only
        rw [locationBin, hm]
        dsimp only
        rw [hnew]
        rfl
      · refine h.of_tables (h.main.insert hm _) ?_ (h.cache.insert hc bin) ?_ ?_ ?_ rfl
        · intro k' mi hmi
          rw [hlookup] at hmi
          split at hmi
          · next hk' =>
            obtain rfl := Option.some.inj hmi
            exact ⟨hk' ▸ hk, by simp⟩
          · exact h.keys k' mi hmi
        · intro k' b hb
          rw [hcache] at hb
          rw [hlookup]
          split at hb
          · next hk' =>
            obtain rfl := Option.some.inj hb
            rw [if_pos hk']
            exact ⟨hk'.symm, HTable.init_wf _, _, rfl, rfl⟩
          · next hk' =>
            rw [if_neg hk']
            exact h.cached k' b hb
        · intro k' mi hmi hmi0
          rw [hlookup] at hmi
          rw [hcache]
          split at hmi
          · next hk' =>
            rw [if_pos hk']
            simp
          · next hk' =>
            rw [if_neg hk']
            exact h.pending k' mi hmi hmi0
        · intro k'
          rw [ExtremeBinning.binaddr, hlookup]
          split
          · next hk' =>
            rw [hk', hzero]
            rfl
          · rfl
      · rw [h.unsaved k (ExtremeBinning.place_eq_none_iff.mpr hzero)]
        funext f
        exact HTable.lookup_init _ f

/-- The client changes the entries of a cached bin. -/
theorem Bins.setBin (h : Bins R F data ex fs) {k : Fingerprint} {bin bin' : Bin}
    (hbin : ex.bin_cache.lookup k = some bin) (hrep : bin'.rep_finger = bin.rep_finger)
    (haddr : bin'.address = bin.address) (hwf : bin'.fingers.WF) :
    Bins R F data (ex.setBin bin') fs ∧ ∀ k', (ex.setBin bin').bin_cache.lookup k' =
      if k' = k then some bin' else ex.bin_cache.lookup k' := by
  obtain ⟨hk, -, mi, hmi, hmiaddr⟩ := h.cached k bin hbin
  have hk' : bin'.rep_finger = k := hrep.trans hk
  have hlookup : ∀ k', (ex.setBin bin').bin_cache.lookup k' =
      if k' = k then some bin' else ex.bin_cache.lookup k' := by
    intro k'
    rw [ExtremeBinning.setBin, hk']
    exact h.cache.lookup_set hbin bin' k'
  refine ⟨h.of_tables h.main h.keys (h.cache.set _ _) ?_ ?_ (fun k => rfl) rfl, hlookup⟩
  · intro k' b hb
    rw [hlookup] at hb
    split at hb
    · next hkk =>
      obtain rfl := Option.some.inj hb
      rw [hkk]
      exact ⟨hk', hwf, mi, hmi, hmiaddr.trans haddr.symm⟩
    · exact h.cached k' b hb
  · intro k' mi' hmi' hzero
    rw [hlookup]
    split
    · simp
    · exact h.pending k' mi' hmi' hzero

-- ════════════════════════════════════════════════════════════════════════
-- Freeing
-- ════════════════════════════════════════════════════════════════════════

/-- `WriteBinToVolume` overwrites the region of the bin, or takes a new one at the end
of a volume of a higher level. -/
theorem Bins.writeBin (h : Bins R F data ex d.files) {k : Fingerprint} {bin : Bin}
    (hbin : ex.bin_cache.lookup k = some bin) (hlen : binLength bin.fingers < 2 ^ 31) :
    ∃ level offset vols, writeBinToVolume ex.bin_volume_array d bin =
        (addressOf level offset, vols,
          d.write (.bvol level offset (binBytes k bin.fingers (levelToMaxAmount level)))) ∧
      level < 23 ∧ binLength bin.fingers ≤ levelToMaxAmount level ∧ bvolumeHeadSize ≤ offset ∧
      (ex.layout.place k = some (level, offset) ∧ vols = ex.bin_volume_array ∨
        offset = ex.layout.length level ∧ (∀ p, ex.layout.place k = some p →
          p.1 < level ∧ levelToMaxAmount p.1 < binLength bin.fingers) ∧
          vols = Function.update ex.bin_volume_array level
            ⟨(ex.bin_volume_array level).current_bin_num + 1,
              ex.layout.length level + levelToMaxAmount level⟩) := by
  obtain ⟨hrep, -, mi, hmi, hmiaddr⟩ := h.cached k bin hbin
  have haddr : ex.binaddr k = bin.address :=
    (ExtremeBinning.binaddr_of_lookup hmi).trans hmiaddr
  have hhead : bvolumeHeadSize = 20 := rfl
  have hlevel : levelOf bin.address < 23 := by
    by_cases hzero : bin.address = 0
    · rw [hzero]
      decide
    · exact (h.saved k _ _ (ExtremeBinning.place_eq_some_iff.mpr
        ⟨haddr ▸ hzero, congrArg levelOf haddr, rfl⟩)).1
  obtain ⟨hup, hlt, hfit⟩ := raiseLevel_spec (n := maxBinLevel) hlen hlevel
    (by rw [maxBinLevel]; omega)
  have hlast := h.sound.head_le
  have hstay : ¬levelToMaxAmount (levelOf bin.address) < binLength bin.fingers →
      raiseLevel (binLength bin.fingers) maxBinLevel (levelOf bin.address) = levelOf bin.address := by
    intro hroom
    rw [maxBinLevel, raiseLevel, if_neg hroom]
  rw [writeBinToVolume]
  generalize raiseLevel (binLength bin.fingers) maxBinLevel (levelOf bin.address) = level at *
  dsimp only
  rw [hrep]
  by_cases hsame : level = levelOf bin.address ∧ offsetOf bin.address ≠ 0
  · -- the bin stays where it is
    obtain ⟨rfl, hoff⟩ := hsame
    have hne : ex.binaddr k ≠ 0 := by
      rw [haddr]
      intro hzero
      rw [hzero] at hoff
      exact hoff rfl
    have hplace : ex.layout.place k = some (levelOf bin.address, offsetOf bin.address) :=
      ExtremeBinning.place_eq_some_iff.mpr ⟨hne, by rw [haddr], by rw [haddr]⟩
    refine ⟨levelOf bin.address, offsetOf bin.address, ex.bin_volume_array, ?_, hlt, hfit,
      (h.sound.inside k _ _ hplace).1, .inl ⟨hplace, rfl⟩⟩
    rw [if_pos rfl, if_neg hoff]
  · -- the level was raised, or the bin has no region yet
    have hoff : (if level = levelOf bin.address then offsetOf bin.address else 0) = 0 := by
      split
      · next heq =>
        by_contra hne
        exact hsame ⟨heq, hne⟩
      · rfl
    refine ⟨level, ex.layout.length level, _, ?_, hlt, hfit, hlast level, .inr ⟨rfl, ?_, rfl⟩⟩
    · rw [if_pos hoff]
      rfl
    · intro p hp
      obtain ⟨v, off⟩ := p
      obtain ⟨hne, hv, ho⟩ := ExtremeBinning.place_eq_some_iff.mp hp
      rw [haddr] at hv ho
      have hpos := (h.sound.inside k v off hp).1
      have hdiff : level ≠ levelOf bin.address := fun heq => hsame ⟨heq, by rw [ho]; omega⟩
      have hfull := Decidable.of_not_not (mt hstay hdiff)
      dsimp only
      rw [← hv]
      exact ⟨by omega, hfull⟩

/-- Tables and volumes after `FreeBin` has put a bin at an address. -/
def ExtremeBinning.relocate (ex : ExtremeBinning) (k : Fingerprint) (mi : MainIndex) (addr : ℕ)
    (vols : ℕ → BinVolume) : ExtremeBinning :=
  ⟨ex.main_table.set k { mi with binaddr := addr }, ex.bin_cache.remove k, vols⟩

theorem Bins.place_relocate (h : Bins R F data ex fs) {k : Fingerprint} {mi : MainIndex}
    (hmi : ex.main_table.lookup k = some mi) {level offset : ℕ} (hlevel : level < 23)
    (hoffset : offset < 2 ^ 56) (hne : addressOf level offset ≠ 0) (vols : ℕ → BinVolume)
    (k' : Fingerprint) :
    (ex.relocate k mi (addressOf level offset) vols).layout.place k' =
      Function.update ex.layout.place k (some (level, offset)) k' := by
  have hmain := h.main.lookup_set hmi { mi with binaddr := addressOf level offset }
  have hbinaddr : (ex.relocate k mi (addressOf level offset) vols).binaddr k' =
      if k' = k then addressOf level offset else ex.binaddr k' := by
    rw [ExtremeBinning.binaddr, ExtremeBinning.relocate, hmain]
    split
    · rw [Option.map_some, Option.getD_some]
    · rfl
  rw [ExtremeBinning.layout, ExtremeBinning.layout]
  dsimp only
  rw [hbinaddr]
  rcases eq_or_ne k' k with rfl | hk'
  · rw [if_pos rfl, if_neg hne, Function.update_self, levelOf_addressOf hlevel hoffset,
      offsetOf_addressOf hlevel hoffset]
  · rw [if_neg hk', Function.update_of_ne hk']

/-- The invariant with the bin of `k` in a new place, where layout and files are right. -/
theorem Bins.relocate (h : Bins R F data ex fs) {k : Fingerprint} {bin : Bin} {mi : MainIndex}
    (hbin : ex.bin_cache.lookup k = some bin) (hmi : ex.main_table.lookup k = some mi)
    {level offset : ℕ} (hlevel : level < 23) (hoffset : offset < 2 ^ 56)
    (hne : addressOf level offset ≠ 0) (hfit : binLength bin.fingers ≤ levelToMaxAmount level)
    (hlen : binLength bin.fingers < 2 ^ 31) {vols : ℕ → BinVolume} {fs' : Files}
    (hsound : (ex.relocate k mi (addressOf level offset) vols).layout.Sound bvolumeHeadSize
      levelToMaxAmount)
    (htight : Layout.Tight bvolumeHeadSize levelToMaxAmount R
      (ex.relocate k mi (addressOf level offset) vols).layout)
    (hshort : ∀ v, (ex.relocate k mi (addressOf level offset) vols).layout.length v < 2 ^ 63)
    (hholds : Layout.Holds levelToMaxAmount (volumeFile fs')
      (ex.relocate k mi (addressOf level offset) vols).layout
      (Function.update data k (binBytes k bin.fingers (levelToMaxAmount level)))) :
    Bins R (Function.update F k bin.fingers.lookup)
      (Function.update data k (binBytes k bin.fingers (levelToMaxAmount level)))
      (ex.relocate k mi (addressOf level offset) vols) fs' := by
  have hwf := (h.cached k bin hbin).2.1
  have hcache := h.cache.lookup_remove hbin
  have hmain := h.main.lookup_set hmi { mi with binaddr := addressOf level offset }
  have hplace := h.place_relocate hmi hlevel hoffset hne vols
  refine ⟨h.main.set _ _, ?_, h.cache.remove hbin, ?_, ?_, hsound, htight, hshort, hholds, ?_, ?_⟩
  · intro k' mi' hmi'
    rw [ExtremeBinning.relocate, hmain] at hmi'
    split at hmi'
    · next hk' =>
      obtain rfl := Option.some.inj hmi'
      have := addressOf_eq hlevel hoffset
      exact ⟨hk' ▸ (h.keys k mi hmi).1, by dsimp only; omega⟩
    · exact h.keys k' mi' hmi'
  · intro k' b hb
    rw [ExtremeBinning.relocate, hcache] at hb
    split at hb
    · simp at hb
    · next hk' =>
      rw [ExtremeBinning.relocate, hmain, if_neg hk']
      exact h.cached k' b hb
  · intro k' mi' hmi' hzero
    rw [ExtremeBinning.relocate, hmain] at hmi'
    split at hmi'
    · obtain rfl := Option.some.inj hmi'
      exact absurd hzero hne
    · next hk' =>
      rw [ExtremeBinning.relocate, hcache, if_neg hk']
      exact h.pending k' mi' hmi' hzero
  · intro k' v off hk'
    rw [hplace] at hk'
    rcases eq_or_ne k' k with rfl | hkk
    · rw [Function.update_self] at hk'
      obtain ⟨rfl, rfl⟩ := Prod.mk.inj (Option.some.inj hk')
      rw [Function.update_self, Function.update_self]
      exact ⟨hlevel, bin.fingers, hwf, hfit, hlen, rfl, rfl⟩
    · rw [Function.update_of_ne hkk] at hk'
      rw [Function.update_of_ne hkk, Function.update_of_ne hkk]
      exact h.saved k' v off hk'
  · intro k' hk'
    rw [hplace] at hk'
    rcases eq_or_ne k' k with rfl | hkk
    · rw [Function.update_self] at hk'
      simp at hk'
    · rw [Function.update_of_ne hkk] at hk' ⊢
      exact h.unsaved k' hk'

/-- `FreeBin` saves the bin and forgets it. -/
theorem Bins.freeBin (h : Bins R F data ex d.files)
    (hvols : ∀ v, v < 23 → ex.layout.length v < 2 ^ 56) {k : Fingerprint} {bin : Bin}
    (hbin : ex.bin_cache.lookup k = some bin) (hlen : binLength bin.fingers < 2 ^ 31) :
    (∃ data', Bins R (Function.update F k bin.fingers.lookup) data'
      (freeBin ex d bin).1 (freeBin ex d bin).2.files) ∧
    (freeBin ex d bin).1.bin_cache = ex.bin_cache.remove k ∧
    ∃ w : ℕ × ℕ × Bytes, (freeBin ex d bin).2 = d.write (.bvol w.1 w.2.1 w.2.2) := by
  obtain ⟨hrep, hwf, mi, hmi, -⟩ := h.cached k bin hbin
  obtain ⟨level, offset, vols, hwrite, hlevel, hfit, hhead, hcases⟩ := h.writeBin hbin hlen
  have hhead20 : bvolumeHeadSize = 20 := rfl
  have hoffset : offset < 2 ^ 56 := by
    have hlt := hvols level hlevel
    rcases hcases with ⟨hplace, -⟩ | ⟨rfl, -⟩
    · have := (h.sound.inside k level offset hplace).2
      have := levelToMaxAmount_pos level
      omega
    · exact hlt
  have hne : addressOf level offset ≠ 0 := by
    have := addressOf_eq hlevel hoffset
    omega
  have hfree : Client.freeBin ex d bin = (ex.relocate k mi (addressOf level offset) vols,
      d.write (.bvol level offset (binBytes k bin.fingers (levelToMaxAmount level)))) := by
    rw [Client.freeBin, hwrite]
    dsimp only
    rw [if_neg hne, hrep, hmi]
    rfl
  have hbytes := length_binBytes (k := k) hwf hfit
  have hplace := h.place_relocate hmi hlevel hoffset hne vols
  rw [hfree]
  refine ⟨?_, rfl, ⟨_, _, _⟩, rfl⟩
  rcases hcases with ⟨hstay, rfl⟩ | ⟨rfl, hup, rfl⟩
  · have hlayout : (ex.relocate k mi (addressOf level offset) ex.bin_volume_array).layout =
        ex.layout := by
      refine congrArg₂ Layout.mk (funext fun k' => ?_) rfl
      refine (hplace k').trans (?_ : _ = ex.layout.place k')
      rw [← hstay, Function.update_eq_self]
    refine ⟨_, h.relocate hbin hmi hlevel hoffset hne hfit hlen ?_ ?_ ?_ ?_⟩
    · rw [hlayout]
      exact h.sound
    · rw [hlayout]
      exact h.tight
    · rw [hlayout]
      exact h.short
    · rw [hlayout, Disk.write_files, volumeFile_apply_bvol]
      exact h.holds.rewrite h.sound levelToMaxAmount_pos hstay hbytes
  · have hlayout : (ex.relocate k mi (addressOf level (ex.layout.length level))
        (Function.update ex.bin_volume_array level
          ⟨(ex.bin_volume_array level).current_bin_num + 1,
            ex.layout.length level + levelToMaxAmount level⟩)).layout =
        ex.layout.move levelToMaxAmount k level := by
      refine congrArg₂ Layout.mk (funext hplace) (funext fun v => ?_)
      rcases eq_or_ne v level with rfl | hv
      · change (Function.update ex.bin_volume_array v _ v).current_volume_length = _
        rw [Function.update_self, Function.update_self]
      · change (Function.update ex.bin_volume_array level _ v).current_volume_length = _
        rw [Function.update_of_ne hv, Function.update_of_ne hv]
        rfl
    refine ⟨_, h.relocate hbin hmi hlevel hoffset hne hfit hlen ?_ ?_ ?_ ?_⟩
    · rw [hlayout]
      exact h.sound.move k level
    · rw [hlayout]
      exact h.tight.move (h.keys k mi hmi).1 fun p hp => (hup p hp).1
    · intro v
      rw [hlayout]
      rcases eq_or_ne v level with rfl | hv
      · have hsize := levelToMaxAmount_le hlevel
        rw [Layout.length_move_self]
        omega
      · rw [Layout.length_move_of_ne k hv]
        exact h.short v
    · rw [hlayout, Disk.write_files, volumeFile_apply_bvol]
      exact h.holds.move h.sound levelToMaxAmount_pos k hbytes

theorem freeAll_cons (p : Fingerprint × Bin) (l : List (Fingerprint × Bin)) (ex : ExtremeBinning)
    (d : Disk) : freeAll (p :: l) ex d = freeAll l (freeBin ex d p.2).1 (freeBin ex d p.2).2 := rfl

/-- Freeing a list of cached bins, one after the other. -/
theorem Bins.freeAll (h : Bins R F data ex d.files) (hR : R.card < 2 ^ 25)
    {l : List (Fingerprint × Bin)} (hnodup : (l.map Prod.fst).Nodup)
    (hl : ∀ p ∈ l, ex.bin_cache.lookup p.1 = some p.2 ∧ binLength p.2.fingers < 2 ^ 31) :
    ∃ F' data', ∃ ws : List (ℕ × ℕ × Bytes), Bins R F' data' (Client.freeAll l ex d).1
        (Client.freeAll l ex d).2.files ∧
      (∀ p ∈ l, F' p.1 = p.2.fingers.lookup) ∧ (∀ k ∉ l.map Prod.fst, F' k = F k) ∧
      (∀ k, (Client.freeAll l ex d).1.bin_cache.lookup k =
        if k ∈ l.map Prod.fst then none else ex.bin_cache.lookup k) ∧
      (Client.freeAll l ex d).2 =
        d.writes (ws.map fun w : ℕ × ℕ × Bytes => .bvol w.1 w.2.1 w.2.2) := by
  induction l generalizing F data ex d with
  | nil => exact ⟨F, data, [], h, by simp, by simp, fun k => by simp [Client.freeAll], rfl⟩
  | cons p l ih =>
    obtain ⟨k, bin⟩ := p
    obtain ⟨hbin, hlen⟩ := hl (k, bin) (by simp)
    obtain ⟨⟨data₁, hfree⟩, hcache, w, hw⟩ :=
      h.freeBin (fun v hv => h.length_lt hR hv) hbin hlen
    obtain ⟨hnot, hnodup'⟩ := List.nodup_cons.mp hnodup
    have hlookup : ∀ k', (Client.freeBin ex d bin).1.bin_cache.lookup k' =
        if k' = k then none else ex.bin_cache.lookup k' := by
      intro k'
      rw [hcache]
      exact h.cache.lookup_remove hbin k'
    have hl' : ∀ p ∈ l, (Client.freeBin ex d bin).1.bin_cache.lookup p.1 = some p.2 ∧
        binLength p.2.fingers < 2 ^ 31 := by
      intro p hp
      have hne : p.1 ≠ k := fun heq => hnot (List.mem_map.mpr ⟨p, hp, heq⟩)
      rw [hlookup, if_neg hne]
      exact hl p (List.mem_cons_of_mem _ hp)
    obtain ⟨F', data', ws, hbins, hin, hout, hrest, hwrites⟩ := ih hfree hnodup' hl'
    refine ⟨F', data', w :: ws, hbins, ?_, ?_, ?_, ?_⟩
    · intro p hp
      rcases List.mem_cons.mp hp with rfl | hp
      · rw [hout k hnot, Function.update_self]
      · exact hin p hp
    · intro k' hk'
      rw [List.map_cons, List.mem_cons, not_or] at hk'
      rw [hout k' hk'.2, Function.update_of_ne hk'.1]
    · intro k'
      rw [freeAll_cons, hrest]
      dsimp only
      rw [hlookup, List.map_cons]
      by_cases hk : k' = k
      · subst hk
        simp
      · simp only [List.mem_cons, hk, if_false, false_or]
    · rw [freeAll_cons, hwrites, hw]
      rfl

/-- `free_cache_bin` saves every cached bin and leaves the cache empty. -/
theorem Bins.freeCacheBin (h : Bins R F data ex d.files) (hR : R.card < 2 ^ 25)
    (hlen : ∀ k bin, ex.bin_cache.lookup k = some bin → binLength bin.fingers < 2 ^ 31) :
    ∃ F' data', ∃ ws : List (ℕ × ℕ × Bytes), Bins R F' data' (Client.freeCacheBin ex d).1 (Client.freeCacheBin ex d).2.files ∧
      (∀ k bin, ex.bin_cache.lookup k = some bin → F' k = bin.fingers.lookup) ∧
      (∀ k, ex.bin_cache.lookup k = none → F' k = F k) ∧
      (∀ k, (Client.freeCacheBin ex d).1.bin_cache.lookup k = none) ∧
      (Client.freeCacheBin ex d).2 =
        d.writes (ws.map fun w : ℕ × ℕ × Bytes => .bvol w.1 w.2.1 w.2.2) := by
  have hwalk : ∀ p ∈ ex.bin_cache.walk, ex.bin_cache.lookup p.1 = some p.2 ∧
      binLength p.2.fingers < 2 ^ 31 := by
    intro p hp
    have hp' := h.cache.lookup_eq_some_iff.mpr hp
    exact ⟨hp', hlen p.1 p.2 hp'⟩
  have hkeys : ∀ k, k ∈ ex.bin_cache.walk.map Prod.fst ↔ ex.bin_cache.lookup k ≠ none := by
    intro k
    constructor
    · intro hk
      obtain ⟨p, hp, rfl⟩ := List.mem_map.mp hk
      rw [(hwalk p hp).1]
      simp
    · intro hk
      obtain ⟨bin, hbin⟩ := Option.ne_none_iff_exists'.mp hk
      exact List.mem_map.mpr ⟨_, h.cache.lookup_eq_some_iff.mp hbin, rfl⟩
  obtain ⟨F', data', ws, hbins, hin, hout, hrest, hwrites⟩ :=
    h.freeAll hR h.cache.nodup_walk hwalk
  refine ⟨F', data', ws, hbins, ?_, ?_, ?_, hwrites⟩
  · intro k bin hbin
    exact hin (k, bin) (h.cache.lookup_eq_some_iff.mp hbin)
  · intro k hk
    exact hout k fun hmem => (hkeys k).mp hmem hk
  · intro k
    rw [Client.freeCacheBin, hrest]
    split
    · rfl
    · next hk =>
      by_contra hne
      exact hk ((hkeys k).mpr hne)

-- ════════════════════════════════════════════════════════════════════════
-- From process to process
-- ════════════════════════════════════════════════════════════════════════

theorem Bins.size_le (h : Bins R F data ex fs) : ex.main_table.size ≤ R.card := by
  have hsub : (ex.main_table.walk.map Prod.fst).toFinset ⊆ R := by
    intro k hk
    obtain ⟨p, hp, rfl⟩ := List.mem_map.mp (List.mem_toFinset.mp hk)
    exact (h.keys p.1 p.2 (h.main.lookup_eq_some_iff.mpr hp)).1
  have hcard := Finset.card_le_card hsub
  rw [List.toFinset_card_of_nodup h.main.nodup_walk, List.length_map] at hcard
  rwa [h.main.size_eq]

/-- Tables and volumes that agree with those of `ex` where it matters, over files that
differ in the headers only. -/
theorem Bins.restart (h : Bins R F data ex fs) (hempty : ∀ k, ex.bin_cache.lookup k = none)
    {ex' : ExtremeBinning} {fs' : Files} (hmain : ex'.main_table.WF)
    (hlookup : ∀ k, ex'.main_table.lookup k = ex.main_table.lookup k)
    (hcache : ex'.bin_cache = htableInit 100)
    (hlen : ∀ v < maxBinLevel, ex'.layout.length v = ex.layout.length v)
    (hhead : ∀ v, bvolumeHeadSize ≤ ex'.layout.length v)
    (hrest : ∀ v, maxBinLevel ≤ v → ex'.layout.length v = bvolumeHeadSize)
    (hreads : ∀ v off n, v < maxBinLevel → bvolumeHeadSize ≤ off →
      off + n ≤ (volumeFile fs v).length →
      readAt (volumeFile fs' v) off n = readAt (volumeFile fs v) off n) :
    Bins R F data ex' fs' := by
  have hplace : ∀ k, ex'.layout.place k = ex.layout.place k := by
    intro k
    have haddr : ex'.binaddr k = ex.binaddr k := by
      rw [ExtremeBinning.binaddr, ExtremeBinning.binaddr, hlookup]
    simp only [ExtremeBinning.layout, haddr]
  have hlevel : ∀ k v off, ex.layout.place k = some (v, off) → v < maxBinLevel := by
    intro k v off hk
    have := (h.saved k v off hk).1
    rw [maxBinLevel]
    omega
  refine ⟨hmain, ?_, ?_, ?_, ?_, ?_, ?_, ?_, ?_, ?_, ?_⟩
  · intro k mi hmi
    rw [hlookup] at hmi
    exact h.keys k mi hmi
  · rw [hcache]
    exact HTable.init_wf _
  · intro k bin hbin
    simp [hcache] at hbin
  · intro k mi hmi hzero
    rw [hlookup] at hmi
    exact absurd (hempty k) (h.pending k mi hmi hzero)
  · exact h.sound.congr hplace hhead fun k v off hk => hlen v (hlevel k v off hk)
  · intro v
    have hreached : Layout.reached R ex'.layout v = Layout.reached R ex.layout v := by
      simp only [Layout.reached, hplace]
    rw [hreached]
    by_cases hv : v < maxBinLevel
    · rw [hlen v hv]
      exact h.tight v
    · rw [hrest v (by omega)]
      exact Nat.le_add_right _ _
  · intro v
    by_cases hv : v < maxBinLevel
    · rw [hlen v hv]
      exact h.short v
    · rw [hrest v (by omega), bvolumeHeadSize]
      omega
  · refine ⟨fun k v off hk => h.holds.full k v off (hplace k ▸ hk), fun k v off hk => ?_⟩
    rw [hplace] at hk
    rw [hreads v off _ (hlevel k v off hk) (h.sound.inside k v off hk).1
      (h.holds.end_le hk (levelToMaxAmount_pos v))]
    exact h.holds.reads k v off hk
  · intro k v off hk
    rw [hplace] at hk
    exact h.saved k v off hk
  · intro k hk
    rw [hplace] at hk
    exact h.unsaved k hk

/-- A process that starts after a flush finds the bins of the one before. -/
theorem Bins.reload (h : Bins R F data ex d.files) (hR : R.card < 2 ^ 31)
    (hempty : ∀ k, ex.bin_cache.lookup k = none) :
    Bins R F data (extremeBinningInit (extremeBinningFlush ex d)).1
      (extremeBinningInit (extremeBinningFlush ex d)).2.files := by
  obtain ⟨hmain, hcache, hvols, hfiles⟩ := extremeBinningInit_eq (extremeBinningFlush ex d)
  rw [extremeBinningFlush_files] at hmain hvols hfiles
  have haddr : ∀ r ∈ ex.main_table.walk, r.2.binaddr < 2 ^ 64 := fun r hr =>
    (h.keys r.1 r.2 (h.main.lookup_eq_some_iff.mpr hr)).2
  have hsize := h.size_le
  rw [Option.getD_some, savedRecords_writeAt _ h.main (by omega) haddr] at hmain
  -- every header is found as it was written
  have hinit : ∀ v < maxBinLevel, volumeInit v (some (writeAt (volumeFile d.files v) 0
      (headerBytes v (ex.bin_volume_array v)))) =
      (⟨(ex.bin_volume_array v).current_bin_num.bmod (256 ^ 4), ex.layout.length v⟩,
        some (writeAt (volumeFile d.files v) 0 (headerBytes v (ex.bin_volume_array v)))) := by
    intro v hv
    rw [volumeInit, Option.getD_some, readHeader_writeAt _ _ (h.short v)]
    rfl
  have hlength : ∀ v, (extremeBinningInit (extremeBinningFlush ex d)).1.layout.length v =
      if v < maxBinLevel then ex.layout.length v else bvolumeHeadSize := by
    intro v
    rw [ExtremeBinning.layout]
    dsimp only
    rw [hvols]
    split
    · next hv =>
      dsimp only
      rw [if_pos hv, hinit v hv]
    · rfl
  refine h.restart hempty ?_ ?_ hcache ?_ ?_ ?_ ?_
  · rw [hmain]
    exact HTable.insertAll_init_wf h.main.nodup_walk _
  · intro k
    rw [hmain]
    exact h.main.lookup_insertAll_walk _ k
  · intro v hv
    rw [hlength, if_pos hv]
  · intro v
    rw [hlength]
    split
    · exact h.sound.head_le v
    · exact le_refl _
  · intro v hv
    rw [hlength, if_neg (by omega)]
  · intro v off n hv hoff hle
    have hvol : volumeFile (extremeBinningInit (extremeBinningFlush ex d)).2.files v =
        writeAt (volumeFile d.files v) 0 (headerBytes v (ex.bin_volume_array v)) := by
      rw [hfiles, volumeFile]
      dsimp only
      rw [if_pos hv, if_pos hv, hinit v hv, Option.getD_some]
    rw [hvol]
    exact readAt_writeAt_of_disjoint (.inr (by rw [length_headerBytes]; exact hoff)) hle

end TCBackup.Client
