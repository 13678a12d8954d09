import TCBackup.Client.IndexSound
import TCBackup.Client.Bins
import TCBackup.Lib.Prefixes

/-!
# What a process finds after a crash

A process that starts takes the address of its bin from the main table and the entries from the
region at that address. Neither the headers of the volumes nor the container files matter to it.

## Main definitions

- `CrashSound` — every entry that a process can load leads to a chunk
- `TableAt`, `BinAt` — where the bin is, and what it holds

## Main results

- `crashSound_iff` — which entries count
- `always_tableAt` — the main table while it is written
-/

namespace TCBackup.Client

open ByteFile Prefixes

/-- All entries of all bins that a process loads from these files lead to container files with
their chunks. -/
def CrashSound (sha1 : Bytes → Fingerprint) (fs : Files) : Prop :=
  ∀ k file_hash n bin ex, loadBin (extremeBinningInit ⟨fs, []⟩).1 (extremeBinningInit ⟨fs, []⟩).2 k
    file_hash n = some (bin, ex) →
      ∀ p ∈ bin.fingers.walk, OnDisk (Hashed sha1) ⟨fs, []⟩ p.2 p.1

/-- The main table has no bin but that of `zeroFinger`, at this address; 0 stands for none. -/
def TableAt (addr : ℕ) (repfinger : Option Bytes) : Prop :=
  savedRecords (repfinger.getD []) = [] ∧ addr = 0 ∨
    ∃ file_hash, savedRecords (repfinger.getD []) = [(zeroFinger, ⟨file_hash, addr⟩)]

/-- The region at the address holds a bin with these entries. -/
structure RegionAt (F : BinMap) (addr : ℕ) (bvol : ℕ → Option Bytes) : Prop where
  behind : bvolumeHeadSize ≤ offsetOf addr
  bin : ∃ t : HTable 20 Chunkaddress, t.WF ∧ binLength t ≤ levelToMaxAmount (levelOf addr) ∧
    binLength t < 2 ^ 31 ∧ t.lookup = F ∧
    readAt ((bvol (levelOf addr)).getD []) (offsetOf addr) (levelToMaxAmount (levelOf addr)) =
      binBytes zeroFinger t (levelToMaxAmount (levelOf addr))

/-- There is no bin, or the region holds it. -/
def BinAt (F : BinMap) (addr : ℕ) (bvol : ℕ → Option Bytes) : Prop :=
  addr = 0 ∧ F = noEntries ∨ addr ≠ 0 ∧ RegionAt F addr bvol

variable {sha1 : Bytes → Fingerprint} {F : BinMap} {addr addr' : ℕ} {fs : Files} {d : Disk}
  {level pos : ℕ} {data : Bytes}

theorem RegionAt.end_le {bvol : ℕ → Option Bytes} (h : RegionAt F addr bvol) :
    offsetOf addr + levelToMaxAmount (levelOf addr) ≤ ((bvol (levelOf addr)).getD []).length := by
  obtain ⟨t, hwf, hfit, -, -, hread⟩ := h.bin
  have hlength := congrArg List.length hread
  have := levelToMaxAmount_pos (levelOf addr)
  rw [length_readAt, length_binBytes hwf hfit] at hlength
  omega

/-- A write that leaves the region alone. -/
theorem BinAt.write (h : BinAt F addr fs.bvol)
    (haside : levelOf addr ≠ level ∨ pos + data.length ≤ bvolumeHeadSize) :
    BinAt F addr (fs.apply (.bvol level pos data)).bvol := by
  rcases h with hnone | ⟨hne, hregion⟩
  · exact .inl hnone
  · refine .inr ⟨hne, hregion.behind, ?_⟩
    obtain ⟨t, hwf, hfit, hlen, hlookup, hread⟩ := hregion.bin
    refine ⟨t, hwf, hfit, hlen, hlookup, ?_⟩
    rw [← hread, Files.apply]
    dsimp only
    by_cases hlevel : levelOf addr = level
    · have hhead := haside.resolve_left fun hne => hne hlevel
      have hend := hregion.end_le
      have hbehind := hregion.behind
      rw [hlevel] at hend ⊢
      rw [Function.update_self, writeFile, Option.getD_some]
      exact readAt_writeAt_of_disjoint (.inr (hhead.trans hbehind)) hend
    · rw [Function.update_of_ne hlevel]

/-- What is asked of a write that initialises or updates volumes. -/
def IsHeader : DiskWrite → Prop
  | .bvol _ pos data => pos + data.length ≤ bvolumeHeadSize
  | _ => False

theorem isHeader_headerWrites (level : ℕ) (bvol : BinVolume) : ∀ w ∈ headerWrites level bvol, IsHeader w := by
  intro w hw
  simp only [headerWrites, List.mem_cons, List.not_mem_nil, or_false] at hw
  rcases hw with rfl | rfl | rfl | rfl <;> simp [IsHeader, bvolumeHeadSize]

theorem binVolumesInit_writes (d : Disk) (n : ℕ) :
    ∃ ws, (binVolumesInit d n).2 = d.writes ws ∧ ∀ w ∈ ws, IsHeader w := by
  induction n with
  | zero => exact ⟨[], rfl, by simp⟩
  | succ n ih =>
    obtain ⟨ws, hdisk, hws⟩ := ih
    rw [binVolumesInit]
    dsimp only
    rw [binVolumeInit]
    split
    · exact ⟨ws, hdisk, hws⟩
    · refine ⟨ws ++ headerWrites n ⟨0, bvolumeHeadSize⟩, ?_, fun w hw => ?_⟩
      · rw [Disk.writes_append, ← hdisk]
      · rcases List.mem_append.mp hw with hold | hnew
        · exact hws w hold
        · exact isHeader_headerWrites _ _ w hnew

/-- `ExtremeBinningInit` writes nothing but headers. -/
theorem extremeBinningInit_writes (d : Disk) :
    ∃ ws, (extremeBinningInit d).2 = d.writes ws ∧ ∀ w ∈ ws, IsHeader w := by
  rw [extremeBinningInit]
  generalize maxBinLevel = n
  exact binVolumesInit_writes d n

/-- The part of `ExtremeBinningFlush` that is about the main table. -/
def tableWrites (main_table : HTable 20 MainIndex) : List DiskWrite :=
  .repfinger 0 magicKey :: .repfinger 4 (intBytes 4 main_table.size) :: recordWrites 8 main_table.walk

theorem flushVolumes_writes (vols : ℕ → BinVolume) (d : Disk) (n : ℕ) :
    ∃ ws, (List.range n).foldl (fun d level => d.writes (headerWrites level (vols level))) d = d.writes ws ∧
      ∀ w ∈ ws, IsHeader w := by
  induction n with
  | zero => exact ⟨[], rfl, by simp⟩
  | succ n ih =>
    obtain ⟨ws, hdisk, hws⟩ := ih
    refine ⟨ws ++ headerWrites n (vols n), ?_, fun w hw => ?_⟩
    · rw [List.range_succ, List.foldl_append, List.foldl_cons, List.foldl_nil, hdisk, Disk.writes_append]
    · rcases List.mem_append.mp hw with hold | hnew
      · exact hws w hold
      · exact isHeader_headerWrites _ _ w hnew

/-- `ExtremeBinningFlush` writes the main table, and then nothing but headers. -/
theorem extremeBinningFlush_writes (ex : ExtremeBinning) (d : Disk) :
    ∃ ws, extremeBinningFlush ex d = d.writes (tableWrites ex.main_table ++ ws) ∧ ∀ w ∈ ws, IsHeader w := by
  obtain ⟨ws, hdisk, hws⟩ := flushVolumes_writes ex.bin_volume_array (d.writes (tableWrites ex.main_table))
    maxBinLevel
  refine ⟨ws, ?_, hws⟩
  rw [Disk.writes_append, ← hdisk]
  rfl

theorem BinAt.headers {ws : List DiskWrite} (h : BinAt F addr fs.bvol) (hws : ∀ w ∈ ws, IsHeader w) :
    BinAt F addr (replay fs ws).bvol := by
  induction ws generalizing fs with
  | nil => exact h
  | cons w ws ih =>
    refine ih ?_ fun w hw => hws w (List.mem_cons_of_mem _ hw)
    have hheader := hws w List.mem_cons_self
    cases w with
    | bvol level pos data => exact h.write (.inr hheader)
    | container name data => exact hheader.elim
    | repfinger pos data => exact hheader.elim

theorem TableAt.lookup (h : TableAt addr fs.repfinger) (k : Fingerprint) :
    (extremeBinningInit ⟨fs, []⟩).1.main_table.lookup k = none ∧ (k = zeroFinger → addr = 0) ∨
      k = zeroFinger ∧ ∃ file_hash, (extremeBinningInit ⟨fs, []⟩).1.main_table.lookup k =
        some ⟨file_hash, addr⟩ := by
  rw [(extremeBinningInit_eq ⟨fs, []⟩).1]
  rcases h with ⟨hnil, hzero⟩ | ⟨file_hash, hone⟩
  · left
    rw [hnil]
    exact ⟨HTable.lookup_init 3200 k, fun _ => hzero⟩
  · rw [hone]
    have hlookup := (HTable.init_wf 3200).lookup_insert (HTable.lookup_init 3200 zeroFinger)
      (⟨file_hash, addr⟩ : MainIndex) k
    by_cases hk : k = zeroFinger
    · rw [if_pos hk] at hlookup
      exact .inr ⟨hk, file_hash, hlookup⟩
    · rw [if_neg hk, HTable.lookup_init] at hlookup
      exact .inl ⟨hlookup, fun heq => absurd heq hk⟩

/-- `LoadBin` returns the bin at the address, and new bins for other keys. -/
theorem load_after (htable : TableAt addr fs.repfinger) (hbin : BinAt F addr fs.bvol)
    (k file_hash : Fingerprint) (n : ℕ) :
    ∃ bin ex, loadBin (extremeBinningInit ⟨fs, []⟩).1 (extremeBinningInit ⟨fs, []⟩).2 k file_hash n =
      some (bin, ex) ∧ bin.fingers.WF ∧ bin.fingers.lookup = if k = zeroFinger then F else noEntries := by
  obtain ⟨ws, hdisk, hws⟩ := extremeBinningInit_writes ⟨fs, []⟩
  have hbin' : BinAt F addr (extremeBinningInit ⟨fs, []⟩).2.files.bvol := by
    rw [hdisk, Disk.writes_files]
    exact hbin.headers hws
  have hlookup := htable.lookup k
  have hcache : (extremeBinningInit ⟨fs, []⟩).1.bin_cache.lookup k = none := by
    rw [(extremeBinningInit_eq ⟨fs, []⟩).2.1]
    exact HTable.lookup_init 100 k
  generalize extremeBinningInit ⟨fs, []⟩ = p at hbin' hlookup hcache
  obtain ⟨ex, d⟩ := p
  dsimp only at hbin' hlookup hcache ⊢
  have hempty : ((emptyBin 0 k n).fingers.lookup : BinMap) = noEntries :=
    funext fun hash => HTable.lookup_init n hash
  have hnew := fun address => newBin_of_nonneg address k (Int.natCast_nonneg n)
  rw [loadBin, hcache]
  dsimp only
  rw [locationBin]
  rcases hlookup with ⟨hnone, hzero⟩ | ⟨rfl, hash, hsome⟩
  · rw [hnone]
    dsimp only
    rw [hnew, Option.bind_some, if_pos rfl]
    refine ⟨_, _, rfl, HTable.init_wf n, ?_⟩
    split
    · next hk =>
      rw [Int.toNat_natCast, hempty]
      rcases hbin with ⟨-, hF⟩ | ⟨hne, -⟩
      · exact hF.symm
      · exact absurd (hzero hk) hne
    · rw [Int.toNat_natCast, hempty]
  · rw [hsome]
    dsimp only
    rw [if_pos rfl, hnew, Option.bind_some, Int.toNat_natCast]
    rcases hbin' with ⟨rfl, hF⟩ | ⟨hne, hregion⟩
    · rw [if_pos rfl]
      exact ⟨_, _, rfl, HTable.init_wf n, hempty.trans hF.symm⟩
    · obtain ⟨t, hwf, hfit, hlen, hF, hread⟩ := hregion.bin
      obtain ⟨bin, hload, -, -, hbinwf, hbinlookup⟩ := readBin_region (d := d) hwf hfit hlen hread n
      rw [if_neg hne, hload]
      exact ⟨_, _, rfl, hbinwf, hbinlookup.trans hF⟩

/-- Only the entries at the address count. -/
theorem crashSound_iff (htable : TableAt addr fs.repfinger) (hbin : BinAt F addr fs.bvol) :
    CrashSound sha1 fs ↔ ∀ hash a, F hash = some a → OnDisk (Hashed sha1) ⟨fs, []⟩ a hash := by
  constructor
  · intro h hash a ha
    obtain ⟨bin, ex, hload, hwf, hlookup⟩ := load_after htable hbin zeroFinger zeroFinger 0
    rw [if_pos rfl] at hlookup
    rw [← hlookup] at ha
    exact h _ _ _ _ _ hload (hash, a) (hwf.lookup_eq_some_iff.mp ha)
  · intro h k file_hash n bin ex hload p hp
    have hn : 0 ≤ n := nonneg_of_loadBin hload <| by
      rw [(extremeBinningInit_eq ⟨fs, []⟩).2.1]
      exact HTable.lookup_init 100 k
    lift n to ℕ using hn
    obtain ⟨bin', ex', hload', hwf, hlookup⟩ := load_after htable hbin k file_hash n
    obtain ⟨rfl, -⟩ := Prod.mk.inj (Option.some.inj (hload.symm.trans hload'))
    have hentry := hwf.lookup_eq_some_iff.mpr hp
    rw [hlookup] at hentry
    split at hentry
    · exact h p.1 p.2 hentry
    · cases hentry

/-- `repfinger` without an entry, or with that of `zeroFinger`. -/
inductive Saved : Option Bytes → ℕ → Prop
  | none : Saved none 0
  | empty : Saved (some (magicKey ++ intBytes 4 0)) 0
  | entry (file_hash : Fingerprint) {addr : ℕ} (hne : addr ≠ 0) (hlt : addr < 2 ^ 64) :
      Saved (some (magicKey ++ intBytes 4 1 ++ recordBytes (zeroFinger, ⟨file_hash, addr⟩))) addr

theorem savedRecords_count {c : ℕ} (hc : c < 2 ^ 31) (x : Bytes) :
    savedRecords (magicKey ++ intBytes 4 c ++ x) =
      readRecords mainIndexOf 48 (magicKey ++ intBytes 4 c ++ x) c 8 := by
  have hmagic : readAt (magicKey ++ intBytes 4 c ++ x) 0 4 = magicKey := by
    rw [List.append_assoc]
    exact readAt_front length_magicKey
  have hcount : readAt (magicKey ++ intBytes 4 c ++ x) 4 4 = intBytes 4 c := by
    rw [List.append_assoc, readAt_skip (k := 0) (by simp)]
    exact readAt_front (length_intBytes ..)
  rw [savedRecords, if_pos hmagic, hcount, intOf_intBytes_natCast (by omega), Int.toNat_natCast]

theorem tableAt_none : TableAt 0 none := .inl ⟨by simp [savedRecords, readAt, magicKey, leBytes], rfl⟩

theorem tableAt_magic : TableAt 0 (some magicKey) := by
  refine .inl ⟨?_, rfl⟩
  rw [Option.getD_some, savedRecords]
  rfl

theorem tableAt_zero : TableAt 0 (some (magicKey ++ intBytes 4 0)) := by
  have hrecords := savedRecords_count (c := 0) (by omega) []
  rw [List.append_nil] at hrecords
  exact .inl ⟨hrecords, rfl⟩

/-- An entry that is not complete is read as if zeros followed. -/
theorem tableAt_one {x : Bytes} (hkey : fixed 20 (readAt x 0 20) = zeroFinger) (hlen : x.length ≤ 48) :
    TableAt (leNat (readAt x 40 8)) (some (magicKey ++ intBytes 4 1 ++ x)) := by
  have hrecords := savedRecords_count (c := 1) (by omega) x
  have hread : readAt (magicKey ++ intBytes 4 1 ++ x) 8 48 = x := by
    rw [readAt_skip (k := 0) (by simp), readAt, List.drop_zero, List.take_of_length_le hlen]
  refine .inr ⟨fixed 20 (readAt x 20 20), ?_⟩
  rw [Option.getD_some]
  refine hrecords.trans ?_
  rw [readRecords, readRecords]
  have hread' : readAt (magicKey ++ intBytes 4 ((1 : ℕ) : ℤ) ++ x) 8 48 = x := hread
  rw [hread', mainIndexOf, hkey]

theorem Saved.table {file : Option Bytes} (h : Saved file addr) : TableAt addr file := by
  cases h with
  | none => exact tableAt_none
  | empty => exact tableAt_zero
  | entry file_hash hne hlt =>
    have hrecord := mainIndexOf_recordBytes (r := (zeroFinger, ⟨file_hash, addr⟩)) hlt
    rw [mainIndexOf] at hrecord
    obtain ⟨hkey, hindex⟩ := Prod.mk.inj hrecord
    obtain ⟨-, haddr⟩ := MainIndex.mk.inj hindex
    have hone := tableAt_one hkey (length_recordBytes (zeroFinger, ⟨file_hash, addr⟩)).le
    rwa [haddr] at hone

/-- Only the main table differs, and it has the bin at one of two addresses. -/
structure TableOnly (fs : Files) (addr addr' : ℕ) (fs' : Files) : Prop where
  tmp : fs'.tmp = fs.tmp
  bvol : fs'.bvol = fs.bvol
  table : TableAt addr fs'.repfinger ∨ TableAt addr' fs'.repfinger

theorem repfinger_apply (fs : Files) (p : Bytes) :
    (fs.apply (.repfinger 0 p)).repfinger = some (p ++ (fs.repfinger.getD []).drop p.length) := by
  simp [Files.apply, writeFile, writeAt]

/-- What stands behind magic and count. -/
theorem Saved.drop {file : Option Bytes} (h : Saved file addr) :
    (file.getD []).drop 8 = [] ∧ addr = 0 ∨
      ∃ file_hash, (file.getD []).drop 8 = recordBytes (zeroFinger, ⟨file_hash, addr⟩) ∧ addr < 2 ^ 64 := by
  cases h with
  | none => exact .inl ⟨rfl, rfl⟩
  | empty => exact .inl ⟨rfl, rfl⟩
  | entry file_hash hne hlt =>
    refine .inr ⟨file_hash, ?_, hlt⟩
    exact List.drop_left' (by simp)

/-- An entry of which the first part is new. -/
theorem Saved.tableAt_partial (h : Saved fs.repfinger addr) {q : Bytes} (hlen : q.length ≤ 40)
    (hq : q = [] ∨ ∃ rest, q = zeroFinger.toList ++ rest) :
    TableAt addr (fs.apply (.repfinger 0 (magicKey ++ intBytes 4 1 ++ q))).repfinger := by
  obtain ⟨x, hx⟩ : ∃ x, x = (fs.repfinger.getD []).drop 8 := ⟨_, rfl⟩
  have hfile : (fs.apply (.repfinger 0 (magicKey ++ intBytes 4 1 ++ q))).repfinger =
      some (magicKey ++ intBytes 4 1 ++ (q ++ x.drop q.length)) := by
    have hlength : (magicKey ++ intBytes 4 1 ++ q).length = 8 + q.length := by simp; omega
    rw [repfinger_apply, hlength, ← List.drop_drop, ← hx, List.append_assoc (magicKey ++ intBytes 4 1)]
  have hsaved := h.drop
  rw [← hx] at hsaved
  have hkey : fixed 20 (readAt (q ++ x.drop q.length) 0 20) = zeroFinger := by
    rcases hq with rfl | ⟨rest, rfl⟩
    · rw [List.nil_append, List.length_nil, List.drop_zero]
      rcases hsaved with ⟨hnil, -⟩ | ⟨file_hash, hrecord, -⟩
      · rw [hnil]
        rfl
      · rw [hrecord, recordBytes, List.append_assoc, readAt_front (by simp), fixed_toList]
    · rw [List.append_assoc, readAt_front (by simp), fixed_toList]
  have haddr : leNat (readAt (q ++ x.drop q.length) 40 8) = addr := by
    rcases hsaved with ⟨hnil, hzero⟩ | ⟨file_hash, hrecord, hlt⟩
    · rw [hnil, List.drop_nil, List.append_nil, readAt, List.drop_eq_nil_of_le hlen, hzero]
      rfl
    · have hwrite : q ++ x.drop q.length = writeAt x 0 q := by simp [writeAt]
      have hindex := mainIndexOf_recordBytes (r := (zeroFinger, ⟨file_hash, addr⟩)) hlt
      rw [mainIndexOf] at hindex
      rw [hwrite, hrecord, readAt_writeAt_of_disjoint (.inr (by omega)) (by simp)]
      exact congrArg (fun r : Fingerprint × MainIndex => r.2.binaddr) hindex
  have hlength : (q ++ x.drop q.length).length ≤ 48 := by
    rcases hsaved with ⟨hnil, -⟩ | ⟨file_hash, hrecord, -⟩
    · rw [hnil, List.drop_nil, List.append_nil]
      omega
    · rw [hrecord, List.length_append, List.length_drop, length_recordBytes]
      omega
  have hone := tableAt_one hkey hlength
  rw [haddr] at hone
  rw [hfile]
  exact hone

theorem Saved.tableAt_magic (h : Saved fs.repfinger addr) :
    TableAt addr (fs.apply (.repfinger 0 magicKey)).repfinger := by
  have htable := h.table
  rw [repfinger_apply]
  generalize fs.repfinger = file at h htable
  cases h with
  | none => exact Client.tableAt_magic
  | empty => exact htable
  | entry file_hash hne hlt => exact htable

/-- The main table is written with its only entry. -/
theorem Saved.always_entry (h : Saved fs.repfinger addr) (file_hash : Fingerprint) (hne : addr' ≠ 0)
    (hlt : addr' < 2 ^ 64) :
    Always Files.apply (TableOnly fs addr addr') fs
        [.repfinger 0 magicKey, .repfinger 4 (intBytes 4 1), .repfinger 8 zeroFinger.toList,
          .repfinger 28 file_hash.toList, .repfinger 48 (leBytes 8 addr')] ∧
      Saved (replay fs [.repfinger 0 magicKey, .repfinger 4 (intBytes 4 1), .repfinger 8 zeroFinger.toList,
        .repfinger 28 file_hash.toList, .repfinger 48 (leBytes 8 addr')]).repfinger addr' := by
  have h1 := fs.apply_repfinger_append 0 magicKey (intBytes 4 1)
  have h2 := fs.apply_repfinger_append 0 (magicKey ++ intBytes 4 1) zeroFinger.toList
  have h3 := fs.apply_repfinger_append 0 (magicKey ++ intBytes 4 1 ++ zeroFinger.toList)
    file_hash.toList
  have h4 := fs.apply_repfinger_append 0
    (magicKey ++ intBytes 4 1 ++ zeroFinger.toList ++ file_hash.toList) (leBytes 8 addr')
  simp only [List.length_append, length_magicKey, length_intBytes, List.Vector.toList_length,
    Nat.zero_add, Nat.reduceAdd] at h1 h2 h3 h4
  have hcount := h.tableAt_partial (q := []) (by simp) (.inl rfl)
  have hkey := h.tableAt_partial (q := zeroFinger.toList) (by simp) (.inr ⟨[], by simp⟩)
  have hhash := h.tableAt_partial (q := zeroFinger.toList ++ file_hash.toList) (by simp)
    (.inr ⟨_, rfl⟩)
  rw [List.append_nil] at hcount
  rw [← List.append_assoc] at hhash
  have hfinal : Saved (fs.apply (.repfinger 0 (magicKey ++ intBytes 4 1 ++ zeroFinger.toList ++
      file_hash.toList ++ leBytes 8 addr'))).repfinger addr' := by
    have hrecord : magicKey ++ intBytes 4 1 ++ zeroFinger.toList ++ file_hash.toList ++ leBytes 8 addr' =
        magicKey ++ intBytes 4 1 ++ recordBytes (zeroFinger, ⟨file_hash, addr'⟩) := by
      simp [recordBytes]
    have hdrop : (fs.repfinger.getD []).drop 56 = [] := by
      rw [show (56 : ℕ) = 8 + 48 from rfl, ← List.drop_drop]
      rcases h.drop with ⟨hnil, -⟩ | ⟨hash, hold, -⟩
      · rw [hnil, List.drop_nil]
      · rw [hold, List.drop_eq_nil_of_le (by simp)]
    rw [hrecord, repfinger_apply]
    have hlength : (magicKey ++ intBytes 4 1 ++ recordBytes (zeroFinger, ⟨file_hash, addr'⟩)).length = 56 := by
      simp
    rw [hlength, hdrop, List.append_nil]
    exact .entry file_hash hne hlt
  refine ⟨?_, ?_⟩
  · simp only [always_cons, always_nil, h1, h2, h3, h4]
    exact ⟨⟨rfl, rfl, .inl h.table⟩, ⟨rfl, rfl, .inl h.tableAt_magic⟩, ⟨rfl, rfl, .inl hcount⟩,
      ⟨rfl, rfl, .inl hkey⟩, ⟨rfl, rfl, .inl hhash⟩, ⟨rfl, rfl, .inr hfinal.table⟩⟩
  · simp only [replay, List.foldl_cons, List.foldl_nil, h1, h2, h3, h4]
    exact hfinal

/-- The main table is written without an entry. -/
theorem Saved.always_empty (h : Saved fs.repfinger 0) :
    Always Files.apply (TableOnly fs 0 0) fs [.repfinger 0 magicKey, .repfinger 4 (intBytes 4 0)] ∧
      Saved (replay fs [.repfinger 0 magicKey, .repfinger 4 (intBytes 4 0)]).repfinger 0 := by
  have h1 := fs.apply_repfinger_append 0 magicKey (intBytes 4 0)
  simp only [length_magicKey, Nat.zero_add] at h1
  have hfinal : Saved (fs.apply (.repfinger 0 (magicKey ++ intBytes 4 0))).repfinger 0 := by
    have hdrop : (fs.repfinger.getD []).drop 8 = [] := by
      rcases h.drop with ⟨hnil, -⟩ | ⟨hash, hold, -⟩
      · exact hnil
      · generalize fs.repfinger = file at h hold
        cases h with
        | none => rfl
        | empty => rfl
        | entry _ hne _ => exact absurd rfl hne
    rw [repfinger_apply, show (magicKey ++ intBytes 4 0).length = 8 by simp, hdrop, List.append_nil]
    exact .empty
  refine ⟨?_, ?_⟩
  · simp only [always_cons, always_nil, h1]
    exact ⟨⟨rfl, rfl, .inl h.table⟩, ⟨rfl, rfl, .inl h.tableAt_magic⟩, ⟨rfl, rfl, .inl hfinal.table⟩⟩
  · simp only [replay, List.foldl_cons, List.foldl_nil, h1]
    exact hfinal

end TCBackup.Client
