import TCBackup.Client.ExtremeBinning

/-!
# Saving and loading volumes and the main table

What `ExtremeBinningFlush` writes is what the next `ExtremeBinningInit` reads, and
neither touches the regions of the bins.
-/

namespace TCBackup.Client

open ByteFile

def headerBytes (level : ℕ) (bvol : BinVolume) : Bytes :=
  magicKey ++ leBytes 4 level ++ intBytes 4 bvol.current_bin_num ++
    intBytes 8 bvol.current_volume_length

@[simp] theorem length_headerBytes (level : ℕ) (bvol : BinVolume) :
    (headerBytes level bvol).length = 20 := by
  simp [headerBytes]

theorem replay_headerWrites (fs : Files) (level : ℕ) (bvol : BinVolume) :
    replay fs (headerWrites level bvol) = fs.apply (.bvol level 0 (headerBytes level bvol)) := by
  have h1 := fs.apply_bvol_append level 0 magicKey (leBytes 4 level)
  have h2 := fs.apply_bvol_append level 0 (magicKey ++ leBytes 4 level)
    (intBytes 4 bvol.current_bin_num)
  have h3 := fs.apply_bvol_append level 0
    (magicKey ++ leBytes 4 level ++ intBytes 4 bvol.current_bin_num)
    (intBytes 8 bvol.current_volume_length)
  simp only [List.length_append, length_magicKey, length_leBytes, length_intBytes,
    Nat.zero_add, Nat.reduceAdd] at h1 h2 h3
  simp only [replay, headerWrites, List.foldl_cons, List.foldl_nil]
  rw [h1, h2, h3, headerBytes]

theorem readInto_full {n : ℕ} {bytes : Bytes} (h : bytes.length = n) (old : ℤ) :
    readInto n old bytes = intOf bytes := by
  have hw : writeAt (intBytes n old) 0 bytes = bytes := by
    simp [writeAt, List.drop_eq_nil_of_le, h]
  rw [readInto, hw]

/-- The header that was written is read back. -/
theorem readHeader_writeAt (f : Bytes) (level : ℕ) {bvol : BinVolume}
    (h : bvol.current_volume_length < 2 ^ 63) :
    readHeader level (writeAt f 0 (headerBytes level bvol)) =
      some ⟨bvol.current_bin_num.bmod (256 ^ 4), bvol.current_volume_length⟩ := by
  have hread : ∀ pos n, pos + n ≤ 20 → readAt (writeAt f 0 (headerBytes level bvol)) pos n =
      readAt (headerBytes level bvol) pos n := by
    intro pos n hle
    have := @readAt_writeAt_inside f (headerBytes level bvol) 0 pos n (by simpa using hle)
    rwa [Nat.zero_add] at this
  have h1 : readAt (headerBytes level bvol) 0 4 = magicKey := by
    rw [headerBytes, List.append_assoc, List.append_assoc]
    exact readAt_front length_magicKey
  have h2 : readAt (headerBytes level bvol) 4 4 = leBytes 4 level := by
    rw [headerBytes, List.append_assoc, List.append_assoc, readAt_skip (k := 0) (by simp)]
    exact readAt_front (length_leBytes ..)
  have h3 : readAt (headerBytes level bvol) 8 4 = intBytes 4 bvol.current_bin_num := by
    rw [headerBytes, List.append_assoc, readAt_skip (k := 0) (by simp)]
    exact readAt_front (length_intBytes ..)
  have h4 : readAt (headerBytes level bvol) 12 8 = intBytes 8 bvol.current_volume_length := by
    have hlen : (intBytes 8 (bvol.current_volume_length : ℤ)).length ≤ 8 := by simp
    rw [headerBytes, readAt_skip (k := 0) (by simp), readAt, List.drop_zero,
      List.take_of_length_le hlen]
  rw [readHeader, hread 0 4 (by omega), hread 4 4 (by omega), hread 8 4 (by omega),
    hread 12 8 (by omega), h1, h2, h3, h4, if_pos rfl, if_pos rfl,
    readInto_full (length_intBytes ..), readInto_full (length_intBytes ..), intOf_intBytes,
    intOf_intBytes_natCast (by omega), Int.toNat_natCast]

/-- A volume and its file after `BinVolumeInit`. -/
def volumeInit (level : ℕ) (file : Option Bytes) : BinVolume × Option Bytes :=
  match readHeader level (file.getD []) with
  | some bvol => (bvol, file)
  | none =>
    (⟨0, bvolumeHeadSize⟩,
      some (writeAt (file.getD []) 0 (headerBytes level ⟨0, bvolumeHeadSize⟩)))

theorem binVolumeInit_eq (d : Disk) (level : ℕ) :
    (binVolumeInit d level).1 = (volumeInit level (d.files.bvol level)).1 ∧
      (binVolumeInit d level).2.files = { d.files with
        bvol := Function.update d.files.bvol level (volumeInit level (d.files.bvol level)).2 } := by
  rw [binVolumeInit, volumeInit]
  cases readHeader level ((d.files.bvol level).getD []) with
  | some bvol => simp
  | none =>
    dsimp only
    rw [Disk.writes_files, replay_headerWrites]
    exact ⟨rfl, rfl⟩

/-- A second initialisation finds what the first one has left. -/
theorem volumeInit_idem (level : ℕ) (file : Option Bytes) :
    volumeInit level (volumeInit level file).2 = volumeInit level file := by
  cases h : readHeader level (file.getD []) with
  | some bvol => simp [volumeInit, h]
  | none =>
    have hinit : volumeInit level file = (⟨0, bvolumeHeadSize⟩,
        some (writeAt (file.getD []) 0 (headerBytes level ⟨0, bvolumeHeadSize⟩))) := by
      simp [volumeInit, h]
    have hread := @readHeader_writeAt (file.getD []) level ⟨0, bvolumeHeadSize⟩
      (by simp [bvolumeHeadSize])
    rw [hinit, volumeInit, Option.getD_some, hread]
    rfl

theorem binVolumesInit_eq (d : Disk) (n : ℕ) :
    (∀ v, (binVolumesInit d n).1 v =
      if v < n then (volumeInit v (d.files.bvol v)).1 else ⟨0, bvolumeHeadSize⟩) ∧
    (binVolumesInit d n).2.files = { d.files with
      bvol := fun v => if v < n then (volumeInit v (d.files.bvol v)).2 else d.files.bvol v } := by
  induction n with
  | zero => exact ⟨fun v => by simp [binVolumesInit], by simp [binVolumesInit]⟩
  | succ n ih =>
    obtain ⟨hvols, hfiles⟩ := ih
    have hn := binVolumeInit_eq (binVolumesInit d n).2 n
    have hfile : (binVolumesInit d n).2.files.bvol n = d.files.bvol n := by simp [hfiles]
    rw [hfile] at hn
    constructor
    · intro v
      simp only [binVolumesInit]
      rcases eq_or_ne v n with rfl | hne
      · rw [Function.update_self, if_pos (by omega)]
        exact hn.1
      · rw [Function.update_of_ne hne, hvols]
        have : v < n ↔ v < n + 1 := by omega
        simp [this]
    · simp only [binVolumesInit]
      rw [hn.2, hfiles]
      simp only [Files.mk.injEq, true_and, and_true]
      funext v
      rcases eq_or_ne v n with rfl | hne
      · simp
      · rw [Function.update_of_ne hne]
        have : v < n ↔ v < n + 1 := by omega
        simp [this]

def recordBytes (r : Fingerprint × MainIndex) : Bytes :=
  r.1.toList ++ r.2.file_hash.toList ++ leBytes 8 r.2.binaddr

@[simp] theorem length_recordBytes (r : Fingerprint × MainIndex) : (recordBytes r).length = 48 := by
  simp [recordBytes]

theorem mainIndexOf_recordBytes {r : Fingerprint × MainIndex} (h : r.2.binaddr < 2 ^ 64) :
    mainIndexOf (recordBytes r) = r := by
  have h1 : readAt (recordBytes r) 0 20 = r.1.toList := by
    rw [recordBytes, List.append_assoc]
    exact readAt_front r.1.toList_length
  have h2 : readAt (recordBytes r) 20 20 = r.2.file_hash.toList := by
    rw [recordBytes, List.append_assoc, readAt_skip (k := 0) (by simp)]
    exact readAt_front r.2.file_hash.toList_length
  have h3 : readAt (recordBytes r) 40 8 = leBytes 8 r.2.binaddr := by
    have hlen : (leBytes 8 r.2.binaddr).length ≤ 8 := by simp
    rw [recordBytes, readAt_skip (k := 0) (by simp), readAt, List.drop_zero,
      List.take_of_length_le hlen]
  rw [mainIndexOf, h1, h2, h3, fixed_toList, fixed_toList, leNat_leBytes_of_lt (by omega)]

theorem replay_recordWrites (fs : Files) (a : Bytes) (l : List (Fingerprint × MainIndex)) :
    replay (fs.apply (.repfinger 0 a)) (recordWrites a.length l) =
      fs.apply (.repfinger 0 (a ++ l.flatMap recordBytes)) := by
  induction l generalizing a with
  | nil => simp [recordWrites, replay]
  | cons r l ih =>
    obtain ⟨rep_finger, mainindex⟩ := r
    have h1 := fs.apply_repfinger_append 0 a rep_finger.toList
    have h2 := fs.apply_repfinger_append 0 (a ++ rep_finger.toList) mainindex.file_hash.toList
    have h3 := fs.apply_repfinger_append 0
      (a ++ rep_finger.toList ++ mainindex.file_hash.toList) (leBytes 8 mainindex.binaddr)
    have hih := ih (a ++ recordBytes (rep_finger, mainindex))
    simp only [List.length_append, List.Vector.toList_length, length_recordBytes,
      Nat.zero_add, Nat.add_assoc, Nat.reduceAdd] at h1 h2 h3 hih
    simp only [replay, recordWrites, List.foldl_cons] at hih ⊢
    have hrec : a ++ rep_finger.toList ++ mainindex.file_hash.toList ++
        leBytes 8 mainindex.binaddr = a ++ recordBytes (rep_finger, mainindex) := by
      simp [recordBytes]
    rw [h1, h2, h3, hrec, List.flatMap_cons, ← List.append_assoc]
    exact hih

/-- `repfinger` after a flush of the main table. -/
def repfingerBytes (t : HTable 20 MainIndex) : Bytes :=
  magicKey ++ intBytes 4 t.size ++ t.walk.flatMap recordBytes

theorem replay_repfinger (fs : Files) (t : HTable 20 MainIndex) :
    replay fs (.repfinger 0 magicKey :: .repfinger 4 (intBytes 4 t.size) ::
      recordWrites 8 t.walk) = fs.apply (.repfinger 0 (repfingerBytes t)) := by
  have h1 := fs.apply_repfinger_append 0 magicKey (intBytes 4 t.size)
  have h2 := replay_recordWrites fs (magicKey ++ intBytes 4 t.size) t.walk
  simp only [List.length_append, length_magicKey, length_intBytes, Nat.zero_add,
    Nat.reduceAdd] at h1 h2
  simp only [replay, List.foldl_cons] at h2 ⊢
  rw [h1]
  exact h2

/-- A main table that was written is read back, entry by entry. -/
theorem savedRecords_writeAt (f : Bytes) {t : HTable 20 MainIndex} (ht : t.WF)
    (hsize : t.size < 2 ^ 31) (haddr : ∀ r ∈ t.walk, r.2.binaddr < 2 ^ 64) :
    savedRecords (writeAt f 0 (repfingerBytes t)) = t.walk := by
  have hlen : (repfingerBytes t).length = 8 + 48 * t.walk.length := by
    simp only [repfingerBytes, List.length_append, length_magicKey, length_intBytes,
      length_flatMap_enc length_recordBytes]
  have hread : ∀ pos n, pos + n ≤ (repfingerBytes t).length →
      readAt (writeAt f 0 (repfingerBytes t)) pos n = readAt (repfingerBytes t) pos n := by
    intro pos n hle
    have := @readAt_writeAt_inside f _ 0 _ _ hle
    rwa [Nat.zero_add] at this
  have h1 : readAt (repfingerBytes t) 0 4 = magicKey := by
    rw [repfingerBytes, List.append_assoc]
    exact readAt_front length_magicKey
  have h2 : readAt (repfingerBytes t) 4 4 = intBytes 4 t.size := by
    rw [repfingerBytes, List.append_assoc, readAt_skip (k := 0) (by simp)]
    exact readAt_front (length_intBytes ..)
  have h3 : readAt (repfingerBytes t) 8 (48 * t.walk.length) = t.walk.flatMap recordBytes := by
    have hle : (t.walk.flatMap recordBytes).length ≤ 48 * t.walk.length := by
      rw [length_flatMap_enc length_recordBytes]
    rw [repfingerBytes, readAt_skip (k := 0) (by simp), readAt, List.drop_zero,
      List.take_of_length_le hle]
  rw [savedRecords, hread 0 4 (by omega), hread 4 4 (by omega), h1, h2, if_pos rfl,
    intOf_intBytes_natCast (by omega), Int.toNat_natCast, ht.size_eq]
  apply readRecords_of_readAt' length_recordBytes
  · intro r hr
    exact mainIndexOf_recordBytes (haddr r hr)
  · rw [hread 8 _ (by omega), h3]

/-- A count that is read back as a negative number loads nothing. -/
theorem savedRecords_full (f : Bytes) {t : HTable 20 MainIndex} (hsize : t.size = 2 ^ 31) :
    savedRecords (writeAt f 0 (repfingerBytes t)) = [] := by
  have hlen : 8 ≤ (repfingerBytes t).length := by
    rw [repfingerBytes, List.length_append, List.length_append, length_magicKey, length_intBytes]
    omega
  have h2 : readAt (writeAt f 0 (repfingerBytes t)) 4 4 = intBytes 4 (2 ^ 31) := by
    have hinside := @readAt_writeAt_inside f (repfingerBytes t) 0 4 4 (by omega)
    rw [Nat.zero_add] at hinside
    rw [hinside, repfingerBytes, List.append_assoc, readAt_skip (k := 0) (by simp), hsize]
    exact readAt_front (length_intBytes ..)
  have hcount : (intOf (intBytes 4 (2 ^ 31))).toNat = 0 := by
    rw [intOf_intBytes]
    decide
  rw [savedRecords, h2, hcount]
  split <;> rfl

theorem extremeBinningInit_eq (d : Disk) :
    (extremeBinningInit d).1.main_table =
      (htableInit 3200 : HTable 20 MainIndex).insertAll (savedRecords (d.files.repfinger.getD [])) ∧
    (extremeBinningInit d).1.bin_cache = htableInit 100 ∧
    (∀ v, (extremeBinningInit d).1.bin_volume_array v =
      if v < maxBinLevel then (volumeInit v (d.files.bvol v)).1 else ⟨0, bvolumeHeadSize⟩) ∧
    (extremeBinningInit d).2.files = { d.files with
      bvol := fun v =>
        if v < maxBinLevel then (volumeInit v (d.files.bvol v)).2 else d.files.bvol v } := by
  rw [extremeBinningInit]
  generalize hvols : binVolumesInit d maxBinLevel = vols
  obtain ⟨h1, h2⟩ := binVolumesInit_eq d maxBinLevel
  rw [hvols] at h1 h2
  exact ⟨rfl, rfl, h1, h2⟩

/-- A second process finds what the first one has loaded. -/
theorem extremeBinningInit_idem (d : Disk) :
    (extremeBinningInit (extremeBinningInit d).2).1 = (extremeBinningInit d).1 ∧
      (extremeBinningInit (extremeBinningInit d).2).2.files = (extremeBinningInit d).2.files := by
  obtain ⟨hmain, hcache, hvols, hfiles⟩ := extremeBinningInit_eq d
  obtain ⟨hmain', hcache', hvols', hfiles'⟩ := extremeBinningInit_eq (extremeBinningInit d).2
  have hvolume : ∀ v < maxBinLevel, volumeInit v ((extremeBinningInit d).2.files.bvol v) =
      volumeInit v (d.files.bvol v) := by
    intro v hv
    rw [hfiles]
    dsimp only
    rw [if_pos hv, volumeInit_idem]
  constructor
  · have hv : (extremeBinningInit (extremeBinningInit d).2).1.bin_volume_array =
        (extremeBinningInit d).1.bin_volume_array := by
      funext v
      rw [hvols', hvols]
      split
      · next hv => rw [hvolume v hv]
      · rfl
    have hm : (extremeBinningInit (extremeBinningInit d).2).1.main_table =
        (extremeBinningInit d).1.main_table := by
      rw [hmain', hmain, hfiles]
    generalize (extremeBinningInit (extremeBinningInit d).2).1 = ex' at *
    generalize (extremeBinningInit d).1 = ex at *
    obtain ⟨main', cache', vols'⟩ := ex'
    obtain ⟨main, cache, vols⟩ := ex
    dsimp only at hm hv hcache hcache'
    rw [hm, hv, hcache, hcache']
  · rw [hfiles']
    have hb : (fun v => if v < maxBinLevel then
        (volumeInit v ((extremeBinningInit d).2.files.bvol v)).2
        else (extremeBinningInit d).2.files.bvol v) = (extremeBinningInit d).2.files.bvol := by
      funext v
      split
      · next hv =>
        rw [hvolume v hv, hfiles]
        dsimp only
        rw [if_pos hv]
      · rfl
    rw [hb]

theorem flushVolumes_files (vols : ℕ → BinVolume) (d : Disk) (n : ℕ) :
    ((List.range n).foldl (fun d level => d.writes (headerWrites level (vols level))) d).files =
      { d.files with
        bvol := fun v =>
          if v < n then some (writeAt (volumeFile d.files v) 0 (headerBytes v (vols v)))
          else d.files.bvol v } := by
  induction n with
  | zero => simp
  | succ n ih =>
    rw [List.range_succ, List.foldl_append, List.foldl_cons, List.foldl_nil, Disk.writes_files,
      replay_headerWrites, ih]
    simp only [Files.apply, writeFile, Files.mk.injEq, true_and, and_true]
    funext v
    rcases eq_or_ne v n with rfl | hne
    · simp [volumeFile]
    · rw [Function.update_of_ne hne]
      have : v < n ↔ v < n + 1 := by omega
      simp [this]

/-- What `ExtremeBinningFlush` leaves on the disk. -/
theorem extremeBinningFlush_files (ex : ExtremeBinning) (d : Disk) :
    (extremeBinningFlush ex d).files = { d.files with
      repfinger := some (writeAt (d.files.repfinger.getD []) 0 (repfingerBytes ex.main_table))
      bvol := fun v =>
        if v < maxBinLevel then
          some (writeAt (volumeFile d.files v) 0 (headerBytes v (ex.bin_volume_array v)))
        else d.files.bvol v } := by
  rw [extremeBinningFlush, flushVolumes_files, Disk.writes_files, replay_repfinger]
  rfl

end TCBackup.Client
