import TCBackup.Client.Disk
import TCBackup.Client.HTable

/-!
# Bins on disk (`client/src/extreme_binning.c`)

A bin maps the fingerprints of chunks to container names. Bins lie in volumes by
size, a volume for every level, and the main table tells for every representative
fingerprint in which volume and where its bin lies.

## Main definitions

- `ExtremeBinning` — the main table, the cached bins and the volumes of a process
- `extremeBinningInit`, `extremeBinningFlush` — what a process loads and saves
- `loadBin`, `freeBin` — a bin comes from its volume and goes back
-/

namespace TCBackup.Client

open ByteFile

structure BinVolume where
  current_bin_num : ℤ
  current_volume_length : ℕ
  deriving DecidableEq

/-- An entry of the main table, whose key is `rep_finger`. -/
structure MainIndex where
  file_hash : Fingerprint
  binaddr : ℕ
  deriving DecidableEq

structure Bin where
  rep_finger : Fingerprint
  fingers : HTable 20 Chunkaddress
  address : ℕ

/-- `exbin` and `bin_volume_array`. -/
structure ExtremeBinning where
  main_table : HTable 20 MainIndex
  bin_cache : HTable 20 Bin
  bin_volume_array : ℕ → BinVolume

/-- `bvolume_head_size` -/
def bvolumeHeadSize : ℕ := 20

/-- `max_bin_level` -/
def maxBinLevel : ℕ := 30

/-- `level_to_max_amount`, for the levels that exist. -/
def levelToMaxAmount (level : ℕ) : ℕ := 2 ^ level * 512

/-- An integer variable of `n` bytes after a `read` that may come short. -/
def readInto (n : ℕ) (old : ℤ) (bytes : Bytes) : ℤ := intOf (writeAt (intBytes n old) 0 bytes)

/-- The header of a volume, in four `write` calls. -/
def headerWrites (level : ℕ) (bvol : BinVolume) : List DiskWrite :=
  [.bvol level 0 magicKey, .bvol level 4 (leBytes 4 level),
    .bvol level 8 (intBytes 4 bvol.current_bin_num),
    .bvol level 12 (intBytes 8 bvol.current_volume_length)]

/-- The header of a volume file; `none` for a new volume. -/
def readHeader (level : ℕ) (file : Bytes) : Option BinVolume :=
  if readAt file 0 4 = magicKey then
    if readAt file 4 4 = leBytes 4 level then
      some ⟨readInto 4 0 (readAt file 8 4),
        (readInto 8 bvolumeHeadSize (readAt file 12 8)).toNat⟩
    else some ⟨0, bvolumeHeadSize⟩
  else none

/-- `BinVolumeInit`: read the header, or write one into a new volume. -/
def binVolumeInit (d : Disk) (level : ℕ) : BinVolume × Disk :=
  match readHeader level ((d.files.bvol level).getD []) with
  | some bvol => (bvol, d)
  | none =>
    let bvol : BinVolume := ⟨0, bvolumeHeadSize⟩
    (bvol, d.writes (headerWrites level bvol))

/-- All volumes up to a level. -/
def binVolumesInit (d : Disk) : ℕ → (ℕ → BinVolume) × Disk
  | 0 => (fun _ => ⟨0, bvolumeHeadSize⟩, d)
  | n + 1 =>
    let (vols, d) := binVolumesInit d n
    let (bvol, d) := binVolumeInit d n
    (Function.update vols n bvol, d)

/-- A record of `repfinger`: representative fingerprint, file hash and address. -/
def mainIndexOf (b : Bytes) : Fingerprint × MainIndex :=
  (fixed 20 (readAt b 0 20), ⟨fixed 20 (readAt b 20 20), leNat (readAt b 40 8)⟩)

/-- The records that `ExtremeBinningInit` finds in `repfinger`. -/
def savedRecords (file : Bytes) : List (Fingerprint × MainIndex) :=
  if readAt file 0 4 = magicKey then
    readRecords mainIndexOf 48 file (intOf (readAt file 4 4)).toNat 8
  else []

/-- `ExtremeBinningInit` -/
def extremeBinningInit (d : Disk) : ExtremeBinning × Disk :=
  let records := savedRecords (d.files.repfinger.getD [])
  let vols := binVolumesInit d maxBinLevel
  (⟨(htableInit 3200 : HTable 20 MainIndex).insertAll records, htableInit 100, vols.1⟩, vols.2)

/-- The `write` calls for one entry of the main table. -/
def recordWrites : ℕ → List (Fingerprint × MainIndex) → List DiskWrite
  | _, [] => []
  | pos, (rep_finger, mainindex) :: l =>
    .repfinger pos rep_finger.toList :: .repfinger (pos + 20) mainindex.file_hash.toList ::
      .repfinger (pos + 40) (leBytes 8 mainindex.binaddr) :: recordWrites (pos + 48) l

/-- `ExtremeBinningFlush`: the main table, then the headers of all volumes. -/
def extremeBinningFlush (ex : ExtremeBinning) (d : Disk) : Disk :=
  let d := d.writes (.repfinger 0 magicKey :: .repfinger 4 (intBytes 4 ex.main_table.size) ::
    recordWrites 8 ex.main_table.walk)
  (List.range maxBinLevel).foldl
    (fun d level => d.writes (headerWrites level (ex.bin_volume_array level))) d

/-- `address >> 56` -/
def levelOf (address : ℕ) : ℕ := address / 2 ^ 56

/-- `address & OFF_MASK` -/
def offsetOf (address : ℕ) : ℕ := address % 2 ^ 56

/-- `(level<<56)+offset` -/
def addressOf (level offset : ℕ) : ℕ := (level * 2 ^ 56 + offset) % 2 ^ 64

/-- `nlen`: fingerprint, count and entries. -/
def binLength (fingers : HTable 20 Chunkaddress) : ℕ := 24 + fingers.size * 84

def chunkMetaBytes (p : Fingerprint × Chunkaddress) : Bytes := p.1.toList ++ p.2.toList

def chunkMetaOf (b : Bytes) : Fingerprint × Chunkaddress :=
  (fixed 20 (readAt b 0 20), fixed 64 (readAt b 20 64))

/-- A bin as it lies in a region of `size` bytes. -/
def binBytes (rep_finger : Fingerprint) (fingers : HTable 20 Chunkaddress) (size : ℕ) : Bytes :=
  rep_finger.toList ++ leBytes 4 fingers.size ++ fingers.walk.flatMap chunkMetaBytes ++
    List.replicate (size - binLength fingers) 0xcf

/-- The loop that raises the level until the bin fits, over at most `n` levels. -/
def raiseLevel (nlen : ℕ) : ℕ → ℕ → ℕ
  | 0, level => level
  | n + 1, level =>
    if levelToMaxAmount level < nlen then raiseLevel nlen n (level + 1) else level

/-- `WriteBinToVolume`: the new address, the volumes and the disk. Offset 0 stands
for a bin that has no region of its level yet. -/
def writeBinToVolume (vols : ℕ → BinVolume) (d : Disk) (bin : Bin) :
    ℕ × (ℕ → BinVolume) × Disk :=
  let level := raiseLevel (binLength bin.fingers) maxBinLevel (levelOf bin.address)
  let offset := if level = levelOf bin.address then offsetOf bin.address else 0
  let size := levelToMaxAmount level
  let data := binBytes bin.rep_finger bin.fingers size
  if offset = 0 then
    let bvol := vols level
    let offset := bvol.current_volume_length
    (addressOf level offset,
      Function.update vols level ⟨bvol.current_bin_num + 1, bvol.current_volume_length + size⟩,
      d.write (.bvol level offset data))
  else (addressOf level offset, vols, d.write (.bvol level offset data))

/-- `ReadBinFromVolume`: whether it succeeds, and the bin; `none` when the volume
ends before the region does, and the loop reads on for ever. -/
def readBinFromVolume (d : Disk) (bin : Bin) : Option (Bool × Bin) :=
  match d.files.bvol (levelOf bin.address) with
  | none => some (false, bin)
  | some file =>
    let size := levelToMaxAmount (levelOf bin.address)
    let p := readAt file (offsetOf bin.address) size
    if p.length ≠ size then none
    else if fixed 20 (readAt p 0 20) ≠ bin.rep_finger then some (false, bin)
    else
      let metas := readRecords chunkMetaOf 84 p (intOf (readAt p 20 4)).toNat 24
      some (true, { bin with fingers := bin.fingers.insertAll metas })

/-- A bin without entries. -/
def emptyBin (address : ℕ) (rep_finger : Fingerprint) (n : ℕ) : Bin :=
  ⟨rep_finger, htableInit n, address⟩

/-- `NewBin`. For a negative number of chunks the loop of `htable::init` does not end. -/
def newBin (address : ℕ) (rep_finger : Fingerprint) (chunk_num : ℤ) : Option Bin :=
  if chunk_num < 0 then none else some (emptyBin address rep_finger chunk_num.toNat)

/-- `LocationBin` -/
def locationBin (main_table : HTable 20 MainIndex) (rep_finger file_hash : Fingerprint) :
    ℕ × HTable 20 MainIndex :=
  match main_table.lookup rep_finger with
  | some mainindex => (mainindex.binaddr, main_table)
  | none => (0, main_table.insert rep_finger ⟨file_hash, 0⟩)

/-- `LoadBin`; the bin stays in the cache. -/
def loadBin (ex : ExtremeBinning) (d : Disk) (rep_finger file_hash : Fingerprint)
    (chunknum : ℤ) : Option (Bin × ExtremeBinning) :=
  match ex.bin_cache.lookup rep_finger with
  | some bin => some (bin, ex)
  | none =>
    let (addr, main_table) := locationBin ex.main_table rep_finger file_hash
    (newBin addr rep_finger chunknum).bind fun bin =>
      if addr = 0 then
        some (bin, { ex with
          main_table := main_table, bin_cache := ex.bin_cache.insert rep_finger bin })
      else
        (readBinFromVolume d bin).map fun r =>
          (r.2, { ex with
            main_table := main_table, bin_cache := ex.bin_cache.insert rep_finger r.2 })

/-- `FreeBin` -/
def freeBin (ex : ExtremeBinning) (d : Disk) (bin : Bin) : ExtremeBinning × Disk :=
  let (new_addr, vols, d) := writeBinToVolume ex.bin_volume_array d bin
  let ex := { ex with bin_volume_array := vols }
  if new_addr = 0 then ({ ex with bin_cache := ex.bin_cache.remove bin.rep_finger }, d)
  else
    match ex.main_table.lookup bin.rep_finger with
    | none => (ex, d)
    | some mainindex =>
      ({ ex with
        main_table := ex.main_table.set bin.rep_finger { mainindex with binaddr := new_addr }
        bin_cache := ex.bin_cache.remove bin.rep_finger }, d)

/-- `FreeBin` for one bin after the other. -/
def freeAll (l : List (Fingerprint × Bin)) (ex : ExtremeBinning) (d : Disk) :
    ExtremeBinning × Disk :=
  l.foldl (fun s p => freeBin s.1 s.2 p.2) (ex, d)

/-- `free_cache_bin`. The walk goes on through the link of the bin just freed, whose
memory is taken to be intact. -/
def freeCacheBin (ex : ExtremeBinning) (d : Disk) : ExtremeBinning × Disk :=
  freeAll ex.bin_cache.walk ex d

/-- A change of the cached bin through the pointer that `LoadBin` returned. -/
def ExtremeBinning.setBin (ex : ExtremeBinning) (bin : Bin) : ExtremeBinning :=
  { ex with bin_cache := ex.bin_cache.set bin.rep_finger bin }

section NewBin

variable {ex : ExtremeBinning} {d : Disk} {k file_hash : Fingerprint} {n : ℤ}

theorem newBin_of_nonneg (address : ℕ) (k : Fingerprint) (hn : 0 ≤ n) :
    newBin address k n = some (emptyBin address k n.toNat) := by
  rw [newBin, if_neg (not_lt.mpr hn)]

theorem newBin_of_neg (address : ℕ) (k : Fingerprint) (hn : n < 0) : newBin address k n = none := by
  rw [newBin, if_pos hn]

/-- If `LoadBin` comes back with a bin that was not in the cache, its number of chunks is one. -/
theorem nonneg_of_loadBin {p : Bin × ExtremeBinning} (h : loadBin ex d k file_hash n = some p)
    (hnone : ex.bin_cache.lookup k = none) : 0 ≤ n := by
  by_contra hneg
  rw [loadBin, hnone] at h
  dsimp only at h
  rw [newBin_of_neg _ k (not_le.mp hneg)] at h
  cases h

end NewBin

end TCBackup.Client
