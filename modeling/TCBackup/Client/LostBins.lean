import Mathlib.Data.Finset.Dedup
import TCBackup.Client.Bins
import TCBackup.Client.Recipe

/-!
# Bins that cannot be read (`client/src/extreme_binning.c`, `client/src/chunkdedup.c`)

`LoadBin` does not look at what `ReadBinFromVolume` returns. A bin that could not be read is empty
and still has its address, so `FreeBin` writes it over the bin that is stored there.

## Main definitions

- `tryReadBin`, `tryLoadBin` — `ReadBinFromVolume` and `LoadBin`, with failures
- `enterAll` — the insertions of dedup
- `processBin` — a bin is loaded, gets new entries and is freed
- `StoredBin` — the main table has the address of a bin
- `EntriesKept` — the entries of the bin are still stored after the run

## Main results

- `entries_kept_iff` — exactly when they are
-/

namespace TCBackup.Client

open ByteFile

/-- What happens to `open` and `read` in `ReadBinFromVolume`. -/
inductive BinRead
  | openFails
  | readFails
  | succeeds
  deriving DecidableEq

/-- `ReadBinFromVolume` -/
def tryReadBin (r : BinRead) (d : Disk) (bin : Bin) : Option (Bool × Bin) :=
  match r with
  | .openFails | .readFails => some (false, bin)
  | .succeeds => readBinFromVolume d bin

/-- `LoadBin` -/
def tryLoadBin (r : BinRead) (ex : ExtremeBinning) (d : Disk) (rep_finger file_hash : Fingerprint)
    (chunknum : ℤ) : Option (Bin × ExtremeBinning) :=
  match ex.bin_cache.lookup rep_finger with
  | some bin => some (bin, ex)
  | none =>
    let (addr, main_table) := locationBin ex.main_table rep_finger file_hash
    (newBin addr rep_finger chunknum).bind fun bin =>
      if addr = 0 then
        some (bin, { ex with
          main_table := main_table, bin_cache := ex.bin_cache.insert rep_finger bin })
      else
        (tryReadBin r d bin).map fun res =>
          (res.2, { ex with
            main_table := main_table, bin_cache := ex.bin_cache.insert rep_finger res.2 })

/-- Dedup looks a fingerprint up before it inserts it. -/
def enter (fingers : HTable 20 Chunkaddress) (p : Fingerprint × Chunkaddress) :
    HTable 20 Chunkaddress :=
  if (fingers.lookup p.1).isSome then fingers else fingers.insert p.1 p.2

def enterAll (fingers : HTable 20 Chunkaddress) (l : List (Fingerprint × Chunkaddress)) :
    HTable 20 Chunkaddress :=
  l.foldl enter fingers

/-- `FreeBin`; `none` when the entries go beyond the buffer that is allocated for them. -/
def tryFreeBin (ex : ExtremeBinning) (d : Disk) (bin : Bin) : Option (ExtremeBinning × Disk) :=
  if binLength bin.fingers < 2 ^ 31 then some (freeBin ex d bin) else none

/-- A bin is loaded, gets the entries that dedup inserts, and is freed. -/
def processBin (r : BinRead) (ex : ExtremeBinning) (d : Disk) (rep_finger file_hash : Fingerprint)
    (chunknum : ℤ) (inserts : List (Fingerprint × Chunkaddress)) :
    Option (ExtremeBinning × Disk) := do
  let (bin, ex) ← tryLoadBin r ex d rep_finger file_hash chunknum
  let bin := { bin with fingers := enterAll bin.fingers inserts }
  tryFreeBin (ex.setBin bin) d bin

/-- The bytes that the volumes have at an address. -/
def regionAt (d : Disk) (addr : ℕ) : Bytes :=
  readAt (volumeFile d.files (levelOf addr)) (offsetOf addr) (levelToMaxAmount (levelOf addr))

/-- The entries of a region. -/
def entriesAt (d : Disk) (addr : ℕ) : List (Fingerprint × Chunkaddress) :=
  readRecords chunkMetaOf 84 (regionAt d addr) (intOf (readAt (regionAt d addr) 20 4)).toNat 24

/-- The main table sends `k` to a region that holds a bin, which is not in the cache. The bin has
the representative fingerprint `rep_finger`, and the entries of `fingers`. -/
structure StoredBin (ex : ExtremeBinning) (d : Disk) (k rep_finger : Fingerprint)
    (fingers : HTable 20 Chunkaddress) : Prop where
  main : ex.main_table.WF
  cache : ex.bin_cache.WF
  uncached : ex.bin_cache.lookup k = none
  offset : bvolumeHeadSize ≤ offsetOf (ex.binaddr k)
  level : levelOf (ex.binaddr k) < 23
  volumes : ∀ v, bvolumeHeadSize ≤ (ex.bin_volume_array v).current_volume_length ∧
    (ex.bin_volume_array v).current_volume_length < 2 ^ 56
  table : fingers.WF
  fits : binLength fingers ≤ levelToMaxAmount (levelOf (ex.binaddr k))
  short : binLength fingers < 2 ^ 31
  region : regionAt d (ex.binaddr k) =
    binBytes rep_finger fingers (levelToMaxAmount (levelOf (ex.binaddr k)))

/-- The region that the main table has for `k` after the run holds every entry that the region
before the run had. A run that does not come to its end leaves the disk alone. -/
def EntriesKept (r : BinRead) (ex : ExtremeBinning) (d : Disk) (k file_hash : Fingerprint)
    (chunknum : ℤ) (inserts : List (Fingerprint × Chunkaddress)) : Prop :=
  ∀ ex' d', processBin r ex d k file_hash chunknum inserts = some (ex', d') →
    ∀ p ∈ entriesAt d (ex.binaddr k), p ∈ entriesAt d' (ex'.binaddr k)

variable {r : BinRead} {ex : ExtremeBinning} {d : Disk} {k rep_finger file_hash f : Fingerprint}
  {fingers : HTable 20 Chunkaddress} {chunknum : ℕ} {n : ℤ} {l inserts : List (Fingerprint × Chunkaddress)}

/-- The bins of every reachable state are stored. -/
theorem Bins.storedBin {R : Finset Fingerprint} {F : Fingerprint → BinMap}
    {data : Fingerprint → Bytes} (h : Bins R F data ex d.files) (hk : ex.binaddr k ≠ 0)
    (hcache : ex.bin_cache.lookup k = none) (hvols : ∀ v, ex.layout.length v < 2 ^ 56) :
    ∃ fingers, StoredBin ex d k k fingers ∧ fingers.lookup = F k := by
  have hplace : ex.layout.place k = some (levelOf (ex.binaddr k), offsetOf (ex.binaddr k)) :=
    ExtremeBinning.place_eq_some_iff.mpr ⟨hk, rfl, rfl⟩
  obtain ⟨hlevel, t, ht, hle, hlt, hdata, hF⟩ := h.saved k _ _ hplace
  exact ⟨t, ⟨h.main, h.cache, hcache, (h.sound.inside k _ _ hplace).1, hlevel,
    fun v => ⟨h.sound.head_le v, hvols v⟩, ht, hle, hlt,
    (h.holds.reads k _ _ hplace).trans hdata⟩, hF⟩

/-- A bin that was written to its region is there. -/
theorem entriesAt_of_region {addr : ℕ} (ht : fingers.WF) (hlt : binLength fingers < 2 ^ 31)
    (h : regionAt d addr = binBytes rep_finger fingers (levelToMaxAmount (levelOf addr))) :
    entriesAt d addr = fingers.walk := by
  rw [entriesAt, h, intOf_binBytes_count hlt, readRecords_binBytes ht]

theorem enterAll_wf (h : fingers.WF) : (enterAll fingers l).WF := by
  induction l generalizing fingers with
  | nil => exact h
  | cons p l ih =>
    refine ih ?_
    rw [enter]
    split
    · exact h
    · next hnew => exact h.insert (Option.not_isSome_iff_eq_none.mp hnew) _

/-- What was in the table stays, and of the new entries for a fingerprint the first one counts. -/
theorem lookup_enterAll (h : fingers.WF) :
    (enterAll fingers l).lookup f = (fingers.lookup f).or (l.lookup f) := by
  induction l generalizing fingers with
  | nil => exact Option.or_none.symm
  | cons p l ih =>
    show (enterAll (enter fingers p) l).lookup f = _
    have hwf : (enter fingers p).WF := enterAll_wf (l := [p]) h
    rw [ih hwf, enter, List.lookup_cons]
    split
    · next hold =>
      obtain ⟨x, hx⟩ := Option.isSome_iff_exists.mp hold
      cases hf : f == p.1 with
      | true =>
        obtain rfl := eq_of_beq hf
        rw [hx, Option.some_or, Option.some_or]
      | false => rfl
    · next hnew =>
      have hnone := Option.not_isSome_iff_eq_none.mp hnew
      rw [h.lookup_insert hnone]
      cases hf : f == p.1 with
      | true =>
        obtain rfl := eq_of_beq hf
        rw [if_pos rfl, hnone, Option.some_or, Option.none_or]
      | false => rw [if_neg (by simpa using hf)]

theorem isSome_lookup_iff : (l.lookup f).isSome ↔ f ∈ l.map Prod.fst := by
  induction l with
  | nil => simp
  | cons p l ih =>
    rw [List.lookup_cons, List.map_cons, List.mem_cons]
    cases hf : f == p.1 with
    | true => simpa using .inl (eq_of_beq hf)
    | false =>
      rw [ih]
      have hne : f ≠ p.1 := by simpa using hf
      simp [hne]

/-- A table that was empty has one entry for every fingerprint. -/
theorem size_enterAll_init :
    (enterAll (htableInit chunknum) l).size = (l.map Prod.fst).toFinset.card := by
  have hwf : (enterAll (htableInit chunknum) l).WF := enterAll_wf (HTable.init_wf chunknum)
  rw [hwf.size_eq, ← List.length_map Prod.fst, ← List.toFinset_card_of_nodup hwf.nodup_walk]
  congr 1
  ext f
  rw [List.mem_toFinset, List.mem_toFinset, ← isSome_lookup_iff (l := l)]
  have hlookup := lookup_enterAll (l := l) (f := f) (HTable.init_wf (n := 20) chunknum)
  rw [HTable.lookup_init, Option.none_or] at hlookup
  rw [← hlookup]
  constructor
  · intro hmem
    obtain ⟨p, hp, rfl⟩ := List.mem_map.mp hmem
    rw [hwf.lookup_eq_some_iff.mpr hp]
    rfl
  · intro hsome
    obtain ⟨x, hx⟩ := Option.isSome_iff_exists.mp hsome
    exact List.mem_map.mpr ⟨_, hwf.lookup_eq_some_iff.mp hx, rfl⟩

theorem StoredBin.binaddr_ne_zero (h : StoredBin ex d k rep_finger fingers) :
    ex.binaddr k ≠ 0 := by
  intro hzero
  have hoff := h.offset
  rw [hzero] at hoff
  exact absurd hoff (by decide)

theorem StoredBin.lookup (h : StoredBin ex d k rep_finger fingers) :
    ∃ mi, ex.main_table.lookup k = some mi ∧ mi.binaddr = ex.binaddr k := by
  cases hm : ex.main_table.lookup k with
  | some mi => exact ⟨mi, rfl, (ExtremeBinning.binaddr_of_lookup hm).symm⟩
  | none => exact absurd (by simp [ExtremeBinning.binaddr, hm]) h.binaddr_ne_zero

/-- The bin is read, or it is left as it was. -/
theorem StoredBin.tryReadBin (h : StoredBin ex d k rep_finger fingers) (r : BinRead)
    (chunknum : ℕ) :
    tryReadBin r d (emptyBin (ex.binaddr k) k chunknum) =
      if r = .succeeds ∧ rep_finger = k then
        some (true, { emptyBin (ex.binaddr k) k chunknum with
          fingers := HTable.insertAll (htableInit chunknum) fingers.walk })
      else some (false, emptyBin (ex.binaddr k) k chunknum) := by
  cases r with
  | openFails => rfl
  | readFails => rfl
  | succeeds =>
    have hlen : (regionAt d (ex.binaddr k)).length = levelToMaxAmount (levelOf (ex.binaddr k)) := by
      rw [h.region, length_binBytes h.table h.fits]
    have haddr : (emptyBin (ex.binaddr k) k chunknum).address = ex.binaddr k := rfl
    have hrep : (emptyBin (ex.binaddr k) k chunknum).rep_finger = k := rfl
    show readBinFromVolume d _ = _
    rw [readBinFromVolume, haddr]
    cases hfile : d.files.bvol (levelOf (ex.binaddr k)) with
    | none =>
      have hpos := levelToMaxAmount_pos (levelOf (ex.binaddr k))
      simp only [regionAt, volumeFile, hfile, Option.getD_none, readAt, List.drop_nil,
        List.take_nil, List.length_nil] at hlen
      omega
    | some file =>
      have hregion : readAt file (offsetOf (ex.binaddr k))
          (levelToMaxAmount (levelOf (ex.binaddr k))) = regionAt d (ex.binaddr k) := by
        rw [regionAt, volumeFile, hfile, Option.getD_some]
      dsimp only
      rw [hregion, hlen, if_neg (by simp), h.region, readAt_binBytes_finger, fixed_toList, hrep,
        intOf_binBytes_count h.short, readRecords_binBytes h.table]
      simp only [true_and]
      by_cases hsame : rep_finger = k
      · rw [if_neg (by simpa using hsame), if_pos hsame]
        rfl
      · rw [if_pos hsame, if_neg hsame]

/-- The entries that the bin has when it is loaded. -/
def loadedFingers (r : BinRead) (k rep_finger : Fingerprint) (fingers : HTable 20 Chunkaddress)
    (chunknum : ℕ) : HTable 20 Chunkaddress :=
  if r = .succeeds ∧ rep_finger = k then HTable.insertAll (htableInit chunknum) fingers.walk
  else htableInit chunknum

theorem loadedFingers_wf (h : fingers.WF) :
    (loadedFingers r k rep_finger fingers chunknum).WF := by
  rw [loadedFingers]
  split
  · exact HTable.insertAll_init_wf h.nodup_walk chunknum
  · exact HTable.init_wf chunknum

theorem StoredBin.tryLoadBin (h : StoredBin ex d k rep_finger fingers) (r : BinRead)
    (file_hash : Fingerprint) (chunknum : ℕ) :
    ∃ bin, tryLoadBin r ex d k file_hash chunknum =
        some (bin, { ex with bin_cache := ex.bin_cache.insert k bin }) ∧
      bin.rep_finger = k ∧ bin.address = ex.binaddr k ∧
      bin.fingers = loadedFingers r k rep_finger fingers chunknum := by
  obtain ⟨mi, hmi, haddr⟩ := h.lookup
  have hne := h.binaddr_ne_zero
  rw [Client.tryLoadBin, h.uncached]
  dsimp only
  rw [locationBin, hmi]
  dsimp only
  rw [newBin_of_nonneg _ _ (Int.natCast_nonneg chunknum), Int.toNat_natCast, Option.bind_some,
    if_neg (haddr ▸ hne)]
  rw [haddr, h.tryReadBin, loadedFingers]
  split
  · exact ⟨_, rfl, rfl, rfl, rfl⟩
  · exact ⟨_, rfl, rfl, rfl, rfl⟩

/-- `WriteBinToVolume` puts the bin where it was, or at the end of the volume of a higher level. -/
theorem StoredBin.writeBin (h : StoredBin ex d k rep_finger fingers) {bin : Bin}
    (haddr : bin.address = ex.binaddr k) (hlen : binLength bin.fingers < 2 ^ 31) :
    ∃ level offset vols, writeBinToVolume ex.bin_volume_array d bin =
        (addressOf level offset, vols, d.write
          (.bvol level offset (binBytes bin.rep_finger bin.fingers (levelToMaxAmount level)))) ∧
      level < 23 ∧ offset < 2 ^ 56 ∧ bvolumeHeadSize ≤ offset ∧
      binLength bin.fingers ≤ levelToMaxAmount level := by
  obtain ⟨-, hlt, hfit⟩ := raiseLevel_spec (n := maxBinLevel) hlen (haddr ▸ h.level)
    (by rw [maxBinLevel]; omega)
  have hoff := h.offset
  have hhead : bvolumeHeadSize = 20 := rfl
  rw [writeBinToVolume]
  generalize raiseLevel (binLength bin.fingers) maxBinLevel (levelOf bin.address) = level at *
  dsimp only
  by_cases hsame : level = levelOf bin.address
  · have hne : ¬ offsetOf bin.address = 0 := by
      rw [haddr]
      omega
    rw [if_pos hsame, if_neg hne]
    refine ⟨level, offsetOf bin.address, _, rfl, hlt, Nat.mod_lt _ (by positivity), ?_, hfit⟩
    rw [haddr]
    exact hoff
  · rw [if_neg hsame, if_pos rfl]
    obtain ⟨hpos, hshort⟩ := h.volumes level
    exact ⟨level, _, _, rfl, hlt, hshort, hpos, hfit⟩

theorem regionAt_write {level offset : ℕ} {bytes : Bytes} (hl : level < 23) (ho : offset < 2 ^ 56)
    (hlen : bytes.length = levelToMaxAmount level) :
    regionAt (d.write (.bvol level offset bytes)) (addressOf level offset) = bytes := by
  rw [regionAt, levelOf_addressOf hl ho, offsetOf_addressOf hl ho, Disk.write_files,
    volumeFile_apply_bvol, Function.update_self, ← hlen, readAt_writeAt_self]

/-- `FreeBin` records the address that `WriteBinToVolume` returned. -/
theorem freeBin_of_write {bin : Bin} {mi : MainIndex} {addr : ℕ} {vols : ℕ → BinVolume} {d' : Disk}
    (hwrite : writeBinToVolume ex.bin_volume_array d bin = (addr, vols, d')) (hne : addr ≠ 0)
    (hmi : ex.main_table.lookup bin.rep_finger = some mi) (hmain : ex.main_table.WF) :
    (freeBin ex d bin).1.binaddr bin.rep_finger = addr ∧ (freeBin ex d bin).2 = d' := by
  have hfree : freeBin ex d bin = ({ ex with
      bin_volume_array := vols
      main_table := ex.main_table.set bin.rep_finger { mi with binaddr := addr }
      bin_cache := ex.bin_cache.remove bin.rep_finger }, d') := by
    rw [freeBin, hwrite]
    dsimp only
    rw [if_neg hne, hmi]
  rw [hfree]
  have hlookup : (ex.main_table.set bin.rep_finger { mi with binaddr := addr }).lookup
      bin.rep_finger = some { mi with binaddr := addr } := by
    rw [hmain.lookup_set hmi, if_pos rfl]
  refine ⟨?_, rfl⟩
  show ExtremeBinning.binaddr { main_table := _, bin_cache := _, bin_volume_array := vols } _ = addr
  rw [ExtremeBinning.binaddr_of_lookup hlookup]

/-- A bin that is freed replaces the stored one, with whatever entries it has. -/
theorem StoredBin.tryFreeBin (h : StoredBin ex d k rep_finger fingers) {ex₁ : ExtremeBinning}
    {bin : Bin} (hmain : ex₁.main_table = ex.main_table)
    (hvols : ex₁.bin_volume_array = ex.bin_volume_array) (hrep : bin.rep_finger = k)
    (haddr : bin.address = ex.binaddr k) (hwf : bin.fingers.WF)
    (hshort : binLength bin.fingers < 2 ^ 31) :
    ∃ ex' d', tryFreeBin ex₁ d bin = some (ex', d') ∧
      entriesAt d' (ex'.binaddr k) = bin.fingers.walk := by
  obtain ⟨mi, hmi, -⟩ := h.lookup
  obtain ⟨level, offset, vols, hwrite, hl, ho, hpos, hfit⟩ := h.writeBin haddr hshort
  have hne : addressOf level offset ≠ 0 := by
    have hhead : bvolumeHeadSize = 20 := rfl
    have := addressOf_eq hl ho
    omega
  rw [← hvols] at hwrite
  obtain ⟨hrecorded, hdisk⟩ := freeBin_of_write hwrite hne (by rw [hmain, hrep, hmi])
    (hmain ▸ h.main)
  rw [hrep] at hrecorded
  refine ⟨(freeBin ex₁ d bin).1, (freeBin ex₁ d bin).2, if_pos hshort, ?_⟩
  rw [hrecorded, hdisk]
  have hregion := regionAt_write (d := d) hl ho (length_binBytes (k := bin.rep_finger) hwf hfit)
  exact entriesAt_of_region hwf hshort (hregion.trans (by rw [levelOf_addressOf hl ho]))

/-- The region after the run holds what was loaded and what was inserted. -/
theorem StoredBin.processBin (h : StoredBin ex d k rep_finger fingers) (r : BinRead)
    (file_hash : Fingerprint) (chunknum : ℕ) (inserts : List (Fingerprint × Chunkaddress))
    {t : HTable 20 Chunkaddress}
    (ht : t = enterAll (loadedFingers r k rep_finger fingers chunknum) inserts) :
    (2 ^ 31 ≤ binLength t → processBin r ex d k file_hash chunknum inserts = none) ∧
      (binLength t < 2 ^ 31 → ∃ ex' d',
        processBin r ex d k file_hash chunknum inserts = some (ex', d') ∧
        entriesAt d' (ex'.binaddr k) = t.walk) := by
  obtain ⟨bin, hload, hrep, haddr, hfingers⟩ := h.tryLoadBin r file_hash chunknum
  have hwf : t.WF := by
    rw [ht]
    exact enterAll_wf (loadedFingers_wf h.table)
  rw [← hfingers] at ht
  subst ht
  rw [Client.processBin, hload, Option.bind_eq_bind, Option.bind_some]
  refine ⟨fun hlong => if_neg (Nat.not_lt.mpr hlong), fun hshort => ?_⟩
  let entered : Bin := { bin with fingers := enterAll bin.fingers inserts }
  have hrep' : entered.rep_finger = k := hrep
  have haddr' : entered.address = ex.binaddr k := haddr
  exact h.tryFreeBin rfl rfl hrep' haddr' hwf hshort

/-- `LoadBin` does not come back for a negative number of chunks. -/
theorem StoredBin.processBin_neg (h : StoredBin ex d k rep_finger fingers) (r : BinRead)
    (file_hash : Fingerprint) (hneg : n < 0) (inserts : List (Fingerprint × Chunkaddress)) :
    Client.processBin r ex d k file_hash n inserts = none := by
  rw [Client.processBin, Client.tryLoadBin, h.uncached]
  dsimp only
  rw [newBin_of_neg _ _ hneg]
  rfl

/-- The stored entries are kept if the bin is read, if every one of them is inserted again with its
address, or if the new entries are too many to be written. -/
theorem entries_kept_iff (h : StoredBin ex d k rep_finger fingers) (r : BinRead)
    (file_hash : Fingerprint) (n : ℤ) (inserts : List (Fingerprint × Chunkaddress)) :
    EntriesKept r ex d k file_hash n inserts ↔ n < 0 ∨
      (r = .succeeds ∧ rep_finger = k) ∨
        (∀ p ∈ entriesAt d (ex.binaddr k), inserts.lookup p.1 = some p.2) ∨
        2 ^ 31 ≤ 24 + (inserts.map Prod.fst).toFinset.card * 84 := by
  rcases lt_or_ge n 0 with hneg | hnonneg
  · refine iff_of_true (fun ex' d' hrun => ?_) (.inl hneg)
    rw [h.processBin_neg r file_hash hneg] at hrun
    cases hrun
  obtain ⟨chunknum, rfl⟩ := Int.eq_ofNat_of_zero_le hnonneg
  rw [or_iff_right (not_lt.mpr hnonneg)]
  have hbefore : entriesAt d (ex.binaddr k) = fingers.walk :=
    entriesAt_of_region h.table h.short h.region
  have hwf : (enterAll (loadedFingers r k rep_finger fingers chunknum) inserts).WF :=
    enterAll_wf (loadedFingers_wf h.table)
  have hlookup : ∀ f, (enterAll (loadedFingers r k rep_finger fingers chunknum) inserts).lookup f =
      ((loadedFingers r k rep_finger fingers chunknum).lookup f).or (inserts.lookup f) :=
    fun f => lookup_enterAll (loadedFingers_wf h.table)
  obtain ⟨hlost, hdone⟩ := h.processBin r file_hash chunknum inserts rfl
  rw [EntriesKept, hbefore]
  by_cases hread : r = .succeeds ∧ rep_finger = k
  · refine iff_of_true ?_ (.inl hread)
    intro ex' d' hrun p hp
    rcases Nat.lt_or_ge (binLength (enterAll (loadedFingers r k rep_finger fingers chunknum)
      inserts)) (2 ^ 31) with hshort | hlong
    · obtain ⟨ex₁, d₁, hrun₁, hentries⟩ := hdone hshort
      rw [hrun₁] at hrun
      obtain ⟨rfl, rfl⟩ := Prod.mk.inj (Option.some.inj hrun)
      rw [hentries]
      refine hwf.lookup_eq_some_iff.mp ?_
      rw [hlookup, loadedFingers, if_pos hread, h.table.lookup_insertAll_walk,
        h.table.lookup_eq_some_iff.mpr hp]
      rfl
    · rw [hlost hlong] at hrun
      cases hrun
  · have hempty : loadedFingers r k rep_finger fingers chunknum = htableInit chunknum :=
      if_neg hread
    have hlen : binLength (enterAll (loadedFingers r k rep_finger fingers chunknum) inserts) =
        24 + (inserts.map Prod.fst).toFinset.card * 84 := by
      rw [binLength, hempty, size_enterAll_init]
    rw [hlen] at hlost hdone
    rw [or_iff_right hread]
    rcases Nat.lt_or_ge (24 + (inserts.map Prod.fst).toFinset.card * 84) (2 ^ 31) with hshort | hlong
    · rw [or_iff_left (Nat.not_le.mpr hshort)]
      obtain ⟨ex₁, d₁, hrun₁, hentries⟩ := hdone hshort
      have hmem : ∀ p : Fingerprint × Chunkaddress, p ∈ entriesAt d₁ (ex₁.binaddr k) ↔
          inserts.lookup p.1 = some p.2 := by
        intro p
        rw [hentries, ← hwf.lookup_eq_some_iff, hlookup, hempty, HTable.lookup_init,
          Option.none_or]
      constructor
      · exact fun hkept p hp => (hmem p).mp (hkept ex₁ d₁ hrun₁ p hp)
      · intro hall ex' d' hrun p hp
        rw [hrun₁] at hrun
        obtain ⟨rfl, rfl⟩ := Prod.mk.inj (Option.some.inj hrun)
        exact (hmem p).mpr (hall p hp)
    · refine iff_of_true ?_ (.inr hlong)
      intro ex' d' hrun
      rw [hlost hlong] at hrun
      cases hrun

def oneEntry : HTable 20 Chunkaddress :=
  HTable.insert (htableInit 1) zeroFinger noAddress

/-- The first region of the smallest volume. -/
def oneBinTables : ExtremeBinning :=
  ⟨HTable.insert (htableInit 1) zeroFinger ⟨zeroFinger, addressOf 0 20⟩, htableInit 100,
    fun _ => ⟨1, 532⟩⟩

def oneBinDisk : Disk :=
  Disk.empty.write (.bvol 0 20 (binBytes zeroFinger oneEntry (levelToMaxAmount 0)))

theorem oneEntry_wf : oneEntry.WF :=
  (HTable.init_wf 1).insert (HTable.lookup_init 1 _) _

theorem oneBin_stored : StoredBin oneBinTables oneBinDisk zeroFinger zeroFinger oneEntry := by
  have hlook : oneBinTables.main_table.lookup zeroFinger = some ⟨zeroFinger, addressOf 0 20⟩ := by
    rw [oneBinTables, (HTable.init_wf 1).lookup_insert (HTable.lookup_init 1 _), if_pos rfl]
  have haddr : oneBinTables.binaddr zeroFinger = addressOf 0 20 :=
    ExtremeBinning.binaddr_of_lookup hlook
  have hlen : binLength oneEntry = 108 := rfl
  have hfits : binLength oneEntry ≤ levelToMaxAmount 0 := by
    rw [hlen]
    decide
  refine ⟨(HTable.init_wf 1).insert (HTable.lookup_init 1 _) _, HTable.init_wf 100,
    HTable.lookup_init 100 _, ?_, ?_, fun _ => ?_, oneEntry_wf, ?_, by rw [hlen]; decide, ?_⟩
  · rw [haddr]
    decide
  · rw [haddr]
    decide
  · show 20 ≤ 532 ∧ 532 < 2 ^ 56
    decide
  · rw [haddr]
    exact hfits
  · rw [haddr]
    have ho : 20 < 2 ^ 56 := by decide
    exact regionAt_write (by decide) ho (length_binBytes oneEntry_wf hfits)

/-- The bin is read, and then three fingerprints are inserted, one of which it has. -/
theorem one_bin_kept : EntriesKept .succeeds oneBinTables oneBinDisk zeroFinger zeroFinger 3
    [(fixed 20 [1], fixed 64 [97]), (zeroFinger, fixed 64 [97]), (fixed 20 [2], fixed 64 [98])] :=
  (entries_kept_iff oneBin_stored .succeeds zeroFinger 3 _).mpr (.inr (.inl ⟨rfl, rfl⟩))

/-- `open` fails, nothing is inserted, and an empty bin is written over the one that is stored. -/
theorem unread_bin_is_lost :
    ¬ ∀ (r : BinRead) ex d k rep_finger fingers, StoredBin ex d k rep_finger fingers →
      ∀ file_hash chunknum inserts, EntriesKept r ex d k file_hash chunknum inserts := by
  intro h
  have hkept := (entries_kept_iff oneBin_stored _ _ _ _).mp
    (h .openFails _ _ _ _ _ oneBin_stored zeroFinger 0 [])
  rw [entriesAt_of_region oneBin_stored.table oneBin_stored.short oneBin_stored.region] at hkept
  have hmem : (zeroFinger, noAddress) ∈ oneEntry.walk :=
    oneEntry_wf.lookup_eq_some_iff.mp
      (((HTable.init_wf 1).lookup_insert (HTable.lookup_init 1 _) _ _).trans (if_pos rfl))
  rcases hkept with hneg | ⟨hread, -⟩ | hall | hlong
  · exact absurd hneg (by decide)
  · cases hread
  · cases hall _ hmem
  · exact absurd hlong (by decide)

end TCBackup.Client
