import TCBackup.Client.CrashOrder
import TCBackup.Client.RoundTrip
import TCBackup.Pipeline.RecipeTransport

/-!
# Crashes during many backups

Backups by either client, one after the other, and a crash after any of their writes. Whether a
crash can lose chunks depends on the files of a backup and on the bin that it finds.

## Main definitions

- `driverRuns` — the backups
- `Packs` — the recipes are not too long for the client
- `reachedDisk` — what the backups have written, also when one of them hangs or dies
- `CrashSafe` — after any prefix of the writes the bins lead to chunks
- `SafeOrder`, `AllSafe` — the backups that write in a safe order

## Main results

- `CrashKept.backup` — one backup
- `crash_safe_iff` — when no crash loses a chunk
- `crash_loses_chunk` — a crash that does
-/

namespace TCBackup.Client

open ByteFile Handoff Prefixes

-- ════════════════════════════════════════════════════════════════════════
-- The backups
-- ════════════════════════════════════════════════════════════════════════

section Runs

variable (sha1 : Bytes → Fingerprint)

/-- All files of a backup. -/
def driverFiles (driver : Driver) (run : BackupRun) (d : Disk) (n : Names) : Option DedupThread :=
  driver.files sha1 run.settings run.clock run.content run.stream (run.start d n)

/-- One backup after the other, each by one of the clients: the disk and the names. -/
def driverRuns : List (Driver × BackupRun) → Disk → Names → Option (Disk × Names)
  | [], d, n => some (d, n)
  | (driver, run) :: runs, d, n =>
    (driverFiles sha1 driver run d n).bind fun t =>
      driverRuns runs (driver.finish t) t.work.store.names

/-- `update_recipe_module` has room for the recipes of all new files. -/
def Packs (driver : Driver) (run : BackupRun) : Prop :=
  driver = .pipelineBackup → ∀ cut ∈ cutItems run.content run.rabin run.stream,
    cut.length ≤ Pipeline.RecipeTransport.maxChunks

instance (driver : Driver) (run : BackupRun) : Decidable (Packs driver run) :=
  inferInstanceAs (Decidable (_ → _))

/-- All files of a backup, if the client lives on until they are done. -/
def endedFiles (driver : Driver) (run : BackupRun) (d : Disk) (n : Names) : Option DedupThread :=
  if Packs driver run then driverFiles sha1 driver run d n else none

/-- The state of a backup when it has come as far as it can. -/
def reachedState (driver : Driver) (run : BackupRun) (d : Disk) (n : Names) : DedupThread :=
  driver.reached sha1 run.settings run.clock run.content run.stream (run.start d n)

/-- The disk after all backups, or what can be on it when one of them does not come back from
`LoadBin` or has no room for a recipe. -/
def reachedDisk : List (Driver × BackupRun) → Disk → Names → Disk
  | [], d, _ => d
  | (driver, run) :: runs, d, n =>
    match endedFiles sha1 driver run d n with
    | some t => reachedDisk runs (driver.finish t) t.work.store.names
    | none => (reachedState sha1 driver run d n).work.store.disk

/-- In every backup no name has been given twice, and the bin that is written takes less than
`2 ^ 31` bytes. -/
def ReachedRunsFit : List (Driver × BackupRun) → Disk → Names → Prop
  | [], _, _ => True
  | (driver, run) :: runs, d, n =>
    ((reachedState sha1 driver run d n).work.store.names.calls.map fun call => cstr call.name).Nodup ∧
      ∀ t, endedFiles sha1 driver run d n = some t →
        binLength t.work.fingers < 2 ^ 31 ∧ ReachedRunsFit runs (driver.finish t) t.work.store.names

/-- In every backup the bin takes less than `2 ^ 31` bytes, and no name has been given twice. -/
def DriverRunsFit : List (Driver × BackupRun) → Disk → Names → Prop
  | [], _, _ => True
  | (driver, run) :: runs, d, n => ∀ t, driverFiles sha1 driver run d n = some t →
    binLength t.work.fingers < 2 ^ 31 ∧
      (t.work.store.names.calls.map fun call => cstr call.name).Nodup ∧
      DriverRunsFit runs (driver.finish t) t.work.store.names

/-- The address of the bin that a process finds on the disk. -/
def savedAddress (d : Disk) : ℕ := (extremeBinningInit d).1.binaddr zeroFinger

/-- The chunks of all files. -/
def BackupRun.cuts (run : BackupRun) : List Bytes := (cutItems run.content run.rabin run.stream).flatten

/-- With the new chunks the bin still fits into its region. -/
def InPlace (run : BackupRun) (d : Disk) : Prop :=
  savedAddress d ≠ 0 ∧ 24 + 84 * (savedHashes d ++ run.cuts.map sha1).toFinset.card ≤
    levelToMaxAmount (levelOf (savedAddress d))

/-- No chunk is new, or the container is written before the main table and the old bin stays. -/
def SafeOrder (driver : Driver) (run : BackupRun) (d : Disk) : Prop :=
  (∀ bs ∈ run.cuts, sha1 bs ∈ savedHashes d) ∨ driver = .pipelineBackup ∧ ¬InPlace sha1 run d

/-- All backups write in a safe order, up to one that does not come to write its bin. -/
def AllSafe : List (Driver × BackupRun) → Disk → Names → Prop
  | [], _, _ => True
  | (driver, run) :: runs, d, n =>
    (BinCounted run.content run.rabin run.stream → Packs driver run → SafeOrder sha1 driver run d) ∧
      ∀ t, endedFiles sha1 driver run d n = some t →
        AllSafe runs (driver.finish t) t.work.store.names

/-- Between two backups: the bin that the next one finds is intact, and all containers have been
named. -/
structure CrashKept (d : Disk) (n : Names) : Prop where
  bins : ∃ F, BinPersistence.Idle {zeroFinger} F d ∧ Intact sha1 (F zeroFinger) (savedAddress d) d.files
  named : ∀ name, d.files.tmp name ≠ none → ∃ call ∈ n.calls, cstr call.name = name

end Runs

variable {sha1 : Bytes → Fingerprint} {d : Disk} {n : Names} {driver : Driver} {run : BackupRun}
  {t : DedupThread} {addr : ℕ} {F : Fingerprint → BinMap}

theorem savedAddress_eq (h : TableAt addr d.files.repfinger) : savedAddress d = addr := by
  have hcongr := (@extremeBinningInit_congr ⟨d.files, []⟩ d rfl rfl).1
  rw [savedAddress, hcongr, ExtremeBinning.binaddr]
  rcases h.lookup zeroFinger with ⟨hnone, hzero⟩ | ⟨-, file_hash, hsome⟩
  · rw [hnone, hzero rfl]
    rfl
  · rw [hsome]
    rfl

theorem CrashKept.storeKept (h : CrashKept sha1 d n) : StoreKept sha1 d n := by
  obtain ⟨F, hidle, hintact⟩ := h.bins
  exact ⟨⟨F, hidle, fun hash a ha => (hintact.entries hash a ha).congr rfl rfl⟩, h.named⟩

/-- The entries of the bin are the saved ones. -/
theorem savedHashes_iff (hdisk : SoundDisk sha1 d) (hidle : BinPersistence.Idle {zeroFinger} F d)
    (hash : Fingerprint) : hash ∈ savedHashes d ↔ F zeroFinger hash ≠ none := by
  obtain ⟨data, hbins⟩ := hidle
  obtain ⟨bin, ex, hload, -, -, hfound⟩ :=
    hbins.loadBin (Finset.mem_singleton_self zeroFinger) zeroFinger fun _ => le_refl (0 : ℤ)
  have hlookup : bin.fingers.lookup = F zeroFinger := by
    rcases hfound with hbad | ⟨-, hlookup⟩
    · rw [(extremeBinningInit_eq d).2.1, HTable.lookup_init] at hbad
      cases hbad
    · exact hlookup
  rw [← hlookup, Ne, savedHashes_spec hdisk hload, not_not]

-- ════════════════════════════════════════════════════════════════════════
-- One backup
-- ════════════════════════════════════════════════════════════════════════

/-- What is known of a backup whose files are done, before anything is written at its end. -/
structure FilesDone (sha1 : Bytes → Fingerprint) (run : BackupRun) (d : Disk) (n : Names)
    (F : Fingerprint → BinMap) (t : DedupThread) (σ : ℕ → Stage) (ws : List DiskWrite) : Prop where
  filed : Filed sha1 run.settings run.clock run.content (extremeBinningInit d).1
    (run.start d n).work.store F run.cuts (run.start d n) (fun _ => .fresh) t σ
  distinct : Distinct d ⟨1, n.calls⟩ t.work.store.names
  index : IndexSound sha1 d ⟨1, n.calls⟩ t.work σ
  disk : t.work.store.disk = d.writes ws
  always : Always Files.apply (Intact sha1 (F zeroFinger) (savedAddress d)) d.files ws

theorem filing_start (hidle : BinPersistence.Idle {zeroFinger} F d) (n : Names) (run : BackupRun) :
    Filing sha1 (extremeBinningInit d).1 F [] (run.start d n) := by
  refine ⟨binsInOrder_start hidle _ _ _ _, rfl, .inl ⟨?_, rfl⟩⟩
  change (extremeBinningInit d).1.bin_cache.lookup zeroFinger = none
  rw [(extremeBinningInit_eq d).2.1]
  exact HTable.lookup_init 100 zeroFinger

theorem driverFiles_filed (hidle : BinPersistence.Idle {zeroFinger} F d)
    (hs : run.settings.rewrite = .noRewrite) (hfiles : driverFiles sha1 driver run d n = some t) :
    ∃ σ, Filed sha1 run.settings run.clock run.content (extremeBinningInit d).1
      (run.start d n).work.store F run.cuts (run.start d n) (fun _ => .fresh) t σ := by
  have hbetween := between_start sha1 run.settings run.content run.clock d ⟨1, n.calls⟩ run.rabin run.u
  rw [driverFiles, Driver.files_eq hs] at hfiles
  obtain ⟨σ, hfiled⟩ := driver.items_filed hs hbetween (filing_start hidle n run) rfl (firstLoad_wf hidle _ _ _ _) hfiles
  exact ⟨σ, hfiled⟩

theorem reachedState_eq (hs : run.settings.rewrite = .noRewrite)
    (hfiles : driverFiles sha1 driver run d n = some t) : reachedState sha1 driver run d n = t := by
  rw [driverFiles, Driver.files_eq hs] at hfiles
  exact Driver.reached_eq hfiles

theorem endedFiles_some (hended : endedFiles sha1 driver run d n = some t) :
    Packs driver run ∧ driverFiles sha1 driver run d n = some t := by
  rw [endedFiles] at hended
  split at hended
  · next hpacks => exact ⟨hpacks, hended⟩
  · cases hended

theorem CrashKept.filesDone (h : CrashKept sha1 d n) (hs : run.settings.rewrite = .noRewrite)
    (hfiles : driverFiles sha1 driver run d n = some t)
    (hnames : (t.work.store.names.calls.map fun call => cstr call.name).Nodup) :
    ∃ F σ ws, BinPersistence.Idle {zeroFinger} F d ∧ FilesDone sha1 run d n F t σ ws := by
  obtain ⟨F, hidle, hintact⟩ := h.bins
  obtain ⟨σ, hfiled⟩ := driverFiles_filed hidle hs hfiles
  have hstore := h.storeKept.restart 1
  have hcalls : n.calls <+: t.work.store.names.calls :=
    List.IsPrefix.trans (List.prefix_append _ _) hfiled.moves.calls
  have hdistinct := hstore.distinct hcalls hnames
  have hloads := firstLoad_sound h.storeKept.soundDisk run.clock ⟨1, n.calls⟩ run.rabin run.u
  have hindex := indexSound_start sha1 run.clock d ⟨1, n.calls⟩ run.rabin run.u
  obtain ⟨ws₀, hinit, hws₀⟩ := extremeBinningInit_writes d
  have hheaders := hintact.headers hws₀
  have hopen : (run.start d n).work.store.disk = d.writes ws₀ := by
    rw [BackupRun.start, dedupStart_store, storeInit_disk]
    exact hinit
  have hinit' : Intact sha1 (F zeroFinger) (savedAddress d) (run.start d n).work.store.disk.files := by
    rw [hopen, Disk.writes_files]
    exact hheaders.end
  obtain ⟨ws₁, hdisk, halways⟩ := hfiled.moves.always
    (fun fs name data hfs hfree => hfs.container hfree data) hloads hindex hdistinct hinit'
  refine ⟨F, σ, ws₀ ++ ws₁, hidle, hfiled, hdistinct, hfiled.moves.sound hloads hindex hdistinct, ?_, ?_⟩
  · rw [Disk.writes_append, ← hopen]
    exact hdisk
  · rw [hopen, Disk.writes_files] at halways
    exact always_append.mpr ⟨hheaders, halways⟩

/-- What `free_cache_bin` leaves in the main table has been written. -/
theorem Bins.written_keys {data : Fingerprint → Bytes} {ex : ExtremeBinning} {fs : Files}
    (h : Bins {zeroFinger} F data ex fs) (hempty : ∀ k, ex.bin_cache.lookup k = none) (k : Fingerprint)
    (mi : MainIndex) (hmi : ex.main_table.lookup k = some mi) :
    k = zeroFinger ∧ mi.binaddr ≠ 0 ∧ mi.binaddr < 2 ^ 64 := by
  obtain ⟨hk, hlt⟩ := h.keys k mi hmi
  exact ⟨Finset.mem_singleton.mp hk, fun hzero => h.pending k mi hmi hzero (hempty k), hlt⟩

theorem lastContainer_free {store : Store} (hfree : store.disk.files.tmp (cstr store.container.name) = none) :
    lastContainer store = [] ∨
      ∃ name data, lastContainer store = [.container name data] ∧ store.disk.files.tmp name = none := by
  rw [lastContainer]
  split
  · exact .inr ⟨_, _, rfl, hfree⟩
  · exact .inl rfl

/-- What `free_cache_bin` and `store_destory` have to write when the files are done. -/
structure Closing (sha1 : Bytes → Fingerprint) (run : BackupRun) (d : Disk) (F F' : Fingerprint → BinMap)
    (t : DedupThread) (bins : List DiskWrite) : Prop where
  ordered : ∃ data, Bins {zeroFinger} F' data (freeCacheBin t.exbin t.work.store.disk).1
    (freeCacheBin t.exbin t.work.store.disk).2.files
  empty : ∀ k, (freeCacheBin t.exbin t.work.store.disk).1.bin_cache.lookup k = none
  freed : (freeCacheBin t.exbin t.work.store.disk).2 = t.work.store.disk.writes bins
  ending : Ending sha1 (F zeroFinger) (F' zeroFinger) (savedAddress d) t.work.store.disk.files
    (freeCacheBin t.exbin t.work.store.disk).1 bins (lastContainer t.work.store) (InPlace sha1 run d)
  known : F' zeroFinger = F zeroFinger ∧ lastContainer t.work.store = [] ↔
    ∀ bs ∈ run.cuts, sha1 bs ∈ savedHashes d

variable {σ : ℕ → Stage} {ws : List DiskWrite}

/-- No file was deduplicated. -/
theorem FilesDone.closing_unloaded (h : FilesDone sha1 run d n F t σ ws)
    (hnone : t.exbin.bin_cache.lookup zeroFinger = none) : ∃ F', Closing sha1 run d F F' t [] := by
  obtain ⟨data, hbins⟩ := h.filed.filing.order.bins
  obtain ⟨paths, hbetween⟩ := h.filed.between
  have hcuts : run.cuts = [] := (h.filed.filing.bin.resolve_right fun hsome => hsome.1 hnone).2
  have hlast : lastContainer t.work.store = [] := by
    rw [(hbetween.bins.unloaded hnone).2.1]
    rfl
  have hfreed : freeCacheBin t.exbin t.work.store.disk = (t.exbin, t.work.store.disk) := by
    rw [freeCacheBin_one hbins, hnone]
    rfl
  have hempty : ∀ k, t.exbin.bin_cache.lookup k = none := by
    intro k
    by_contra hne
    obtain ⟨bin, hbin⟩ := Option.ne_none_iff_exists'.mp hne
    obtain ⟨-, -, mi, hmi, -⟩ := hbins.cached k bin hbin
    obtain rfl := Finset.mem_singleton.mp (hbins.keys k mi hmi).1
    exact hne hnone
  have hintact : Intact sha1 (F zeroFinger) (savedAddress d) t.work.store.disk.files := by
    rw [h.disk, Disk.writes_files]
    exact h.always.end
  have haddr : t.exbin.binaddr zeroFinger = savedAddress d := h.filed.filing.address
  refine ⟨F, ?_⟩
  constructor
  · rw [hfreed]
    exact ⟨data, hbins⟩
  · rw [hfreed]
    exact hempty
  · rw [hfreed]
    rfl
  · rw [hfreed, hlast]
    refine ⟨hintact, .inl rfl, hbins.main, hbins.written_keys hempty, fun hne => haddr ▸ hne, hbins.binAt, ?_,
      .inl rfl, hintact.entries, .inl ⟨rfl, rfl⟩⟩
    by_cases hplace : InPlace sha1 run d
    · exact .inl ⟨hplace, haddr⟩
    · exact .inr ⟨hplace, hintact.bin⟩
  · rw [hcuts]
    exact iff_of_true ⟨rfl, hlast⟩ (by simp)

theorem lastContainer_of_empty {store : Store} (h : store.container.chunk_num = 0) :
    lastContainer store = [] := by
  rw [lastContainer, h]
  rfl

section Added

variable {G : BinMap} {cuts : List Bytes} {w : Work}

/-- The bin is as it was and no container is open, or an entry names the open container. -/
theorem Added.fresh (h : Added sha1 G cuts w)
    (hfree : w.store.disk.files.tmp (cstr w.store.container.name) = none) :
    w.fingers.lookup = G ∧ lastContainer w.store = [] ∨
      ∃ hash a, w.fingers.lookup hash = some a ∧ w.store.disk.files.tmp (cstr a) = none := by
  rcases h.store with ⟨hall, hzero⟩ | ⟨hash, -, hname⟩
  · exact .inl ⟨h.same hall, lastContainer_of_empty hzero⟩
  · exact .inr ⟨hash, _, hname, hfree⟩

theorem Added.known_iff (h : Added sha1 G cuts w) :
    w.fingers.lookup = G ∧ lastContainer w.store = [] ↔ ∀ bs ∈ cuts, G (sha1 bs) ≠ none := by
  constructor
  · rintro ⟨hsame, -⟩ bs hbs hnone
    refine (h.keys _ hnone).mpr (List.mem_map_of_mem hbs) ?_
    rw [hsame, hnone]
  · intro hall
    rcases h.store with ⟨hall', hzero⟩ | ⟨hash, hnone, hname⟩
    · exact ⟨h.same hall', lastContainer_of_empty hzero⟩
    · have hin := (h.keys hash hnone).mp (by rw [hname]; exact Option.some_ne_none _)
      obtain ⟨bs, hbs, rfl⟩ := List.mem_map.mp hin
      exact absurd hnone (hall bs hbs)

end Added

/-- Every entry leads to its chunk when the last container is written. -/
theorem FilesDone.located (h : FilesDone sha1 run d n F t σ ws) (hwf : t.work.fingers.WF)
    {hash : Fingerprint} {a : Chunkaddress} (ha : t.work.fingers.lookup hash = some a) :
    OnDisk (Hashed sha1) ⟨replay t.work.store.disk.files (lastContainer t.work.store), []⟩ a hash := by
  have hon := (h.index.bin (hash, a) (hwf.lookup_eq_some_iff.mp ha)).storeDestory h.index.storeOk h.distinct
  rw [storeDestory_writes] at hon
  exact hon.congr rfl (congrFun (congrArg Files.tmp (Disk.writes_files _ _).symm) (cstr a))

/-- With the bin in memory. -/
theorem FilesDone.closing_loaded (h : FilesDone sha1 run d n F t σ ws)
    (hsaved : ∀ hash, hash ∈ savedHashes d ↔ F zeroFinger hash ≠ none)
    (hfit : binLength t.work.fingers < 2 ^ 31) {bin : Bin}
    (hbin : t.exbin.bin_cache.lookup zeroFinger = some bin) :
    ∃ F' bins, Closing sha1 run d F F' t bins := by
  obtain ⟨data, hbins⟩ := h.filed.filing.order.bins
  obtain ⟨paths, hbetween⟩ := h.filed.between
  obtain ⟨hfingers, -⟩ := hbetween.bins.loaded bin hbin
  have hadded : Added sha1 (F zeroFinger) run.cuts t.work :=
    (h.filed.filing.bin.resolve_left fun hnone => by rw [hbin] at hnone; cases hnone.1).2
  have hone : ({zeroFinger} : Finset Fingerprint).card < 2 ^ 25 := by rw [Finset.card_singleton]; norm_num
  have hlen : ∀ k bin', t.exbin.bin_cache.lookup k = some bin' → binLength bin'.fingers < 2 ^ 31 := by
    intro k bin' hbin'
    obtain ⟨-, -, mi, hmi, -⟩ := hbins.cached k bin' hbin'
    obtain rfl := Finset.mem_singleton.mp (hbins.keys k mi hmi).1
    obtain rfl := Option.some.inj (hbin.symm.trans hbin')
    rwa [hfingers]
  obtain ⟨F', data', -, hordered, hcached, -, hempty, -⟩ := hbins.freeCacheBin hone hlen
  have hF' : F' zeroFinger = t.work.fingers.lookup := (hcached zeroFinger bin hbin).trans (by rw [hfingers])
  have hfreed : freeCacheBin t.exbin t.work.store.disk = freeBin t.exbin t.work.store.disk bin := by
    rw [freeCacheBin_one hbins, hbin]
    rfl
  obtain ⟨level, offset, bytes, hwrite, hne, hcases⟩ :=
    hbins.freeBin_writes (fun _ hv => hbins.length_lt hone hv) hbin (hlen _ _ hbin)
  have hsize : binLength bin.fingers = 24 + 84 * (savedHashes d ++ run.cuts.map sha1).toFinset.card := by
    rw [binLength, hfingers, hadded.size hsaved, Nat.mul_comm]
  have hdisk : (freeCacheBin t.exbin t.work.store.disk).2 =
      t.work.store.disk.writes [.bvol level offset bytes] := by
    rw [hfreed]
    exact hwrite
  have hintact : Intact sha1 (F zeroFinger) (savedAddress d) t.work.store.disk.files := by
    rw [h.disk, Disk.writes_files]
    exact h.always.end
  have haddr : t.exbin.binaddr zeroFinger = savedAddress d := h.filed.filing.address
  have hfree := h.index.storeOk.free h.distinct
  have hplace : InPlace sha1 run d ∧ (freeCacheBin t.exbin t.work.store.disk).1.binaddr zeroFinger =
      savedAddress d ∨ ¬InPlace sha1 run d ∧
        BinAt (F zeroFinger) (savedAddress d)
          (replay t.work.store.disk.files [.bvol level offset bytes]).bvol := by
    rw [InPlace, ← hsize, ← haddr, hfreed]
    rcases hcases with ⟨hpos, hroom, hsame⟩ | ⟨hup, haside⟩
    · exact .inl ⟨⟨hpos, hroom⟩, hsame⟩
    · refine .inr ⟨fun hplace => absurd hplace.2 (by have := hup hplace.1; omega), ?_⟩
      rw [haddr] at haside ⊢
      rcases hintact.bin with hzero | ⟨hpos, hregion⟩
      · exact .inl hzero
      · exact BinAt.write (.inr ⟨hpos, hregion⟩) (.inl (haside hpos))
  refine ⟨F', [.bvol level offset bytes], ⟨data', hordered⟩, hempty, hdisk, ?_, ?_⟩
  · have hbinAt := hordered.binAt
    rw [hdisk, Disk.writes_files] at hbinAt
    exact ⟨hintact, .inr ⟨level, offset, bytes, rfl⟩, hordered.main, hordered.written_keys hempty,
      fun _ => hfreed ▸ hne, hbinAt, hplace, lastContainer_free hfree,
      fun hash a ha => h.located hadded.wf (hF' ▸ ha), hF' ▸ hadded.fresh hfree⟩
  · rw [hF', hadded.known_iff]
    simp only [hsaved]

theorem FilesDone.closing (h : FilesDone sha1 run d n F t σ ws)
    (hsaved : ∀ hash, hash ∈ savedHashes d ↔ F zeroFinger hash ≠ none)
    (hfit : binLength t.work.fingers < 2 ^ 31) : ∃ F' bins, Closing sha1 run d F F' t bins := by
  cases hbin : t.exbin.bin_cache.lookup zeroFinger with
  | none =>
    obtain ⟨F', hclosing⟩ := h.closing_unloaded hbin
    exact ⟨F', [], hclosing⟩
  | some bin => exact h.closing_loaded hsaved hfit hbin

/-- The last writes of either client. -/
theorem Closing.finish {F' : Fingerprint → BinMap} {bins : List DiskWrite}
    (h : Closing sha1 run d F F' t bins) (driver : Driver) :
    ∃ hs, (∀ w ∈ hs, IsHeader w) ∧ driver.finish t = t.work.store.disk.writes (bins ++ Ending.order driver
      (tableWrites (freeCacheBin t.exbin t.work.store.disk).1.main_table ++ hs)
      (lastContainer t.work.store)) := by
  cases driver with
  | backupClient =>
    obtain ⟨hs, hflush, hheaders⟩ := extremeBinningFlush_writes
      (freeCacheBin t.exbin t.work.store.disk).1 (freeCacheBin t.exbin t.work.store.disk).2
    refine ⟨hs, hheaders, ?_⟩
    rw [Driver.finish, backupEnd]
    dsimp only
    rw [storeDestory_writes, hflush, h.freed, Ending.order]
    generalize tableWrites (freeCacheBin t.exbin t.work.store.disk).1.main_table ++ hs = table
    rw [Disk.writes_append, Disk.writes_append]
    rfl
  | pipelineBackup =>
    obtain ⟨hs, hflush, hheaders⟩ := extremeBinningFlush_writes
      (freeCacheBin t.exbin t.work.store.disk).1
      (storeDestory { t.work.store with disk := (freeCacheBin t.exbin t.work.store.disk).2 })
    refine ⟨hs, hheaders, ?_⟩
    rw [Driver.finish]
    dsimp only
    rw [hflush, storeDestory_writes, h.freed, Ending.order]
    generalize tableWrites (freeCacheBin t.exbin t.work.store.disk).1.main_table ++ hs = table
    rw [Disk.writes_append, Disk.writes_append]
    rfl

/-- The bins that the next process finds. -/
theorem Closing.idle {F' : Fingerprint → BinMap} {bins : List DiskWrite}
    (h : Closing sha1 run d F F' t bins) (driver : Driver) :
    BinPersistence.Idle {zeroFinger} F' (driver.finish t) := by
  obtain ⟨data, hordered⟩ := h.ordered
  have hone : ({zeroFinger} : Finset Fingerprint).card < 2 ^ 31 := by rw [Finset.card_singleton]; norm_num
  cases driver with
  | backupClient => exact idle_backupEnd ⟨data, hordered.reload hone h.empty⟩
  | pipelineBackup =>
    obtain ⟨store, hstore⟩ : ∃ store : Store, store =
        { t.work.store with disk := (freeCacheBin t.exbin t.work.store.disk).2 } := ⟨_, rfl⟩
    have hdisk : store.disk = (freeCacheBin t.exbin t.work.store.disk).2 := by rw [hstore]
    rw [Driver.finish]
    dsimp only
    rw [← hstore]
    rw [← hdisk] at hordered
    exact ⟨data, (hordered.congr (storeDestory_bvol store).1).reload hone h.empty⟩

theorem finish_tmp (driver : Driver) (t : DedupThread) :
    (driver.finish t).files.tmp = (backupEnd t).files.tmp := by
  cases driver with
  | backupClient => rfl
  | pipelineBackup =>
    have htmp := freeCacheBin_tmp t.exbin t.work.store.disk
    rw [backupEnd_tmp, Driver.finish]
    dsimp only
    rw [extremeBinningFlush_files, storeDestory, storeDestory]
    dsimp only
    split
    · rw [writeContainer, writeContainer, Disk.write_files, Disk.write_files, Files.apply, Files.apply, htmp]
    · exact htmp

/-- What one backup writes, and when no crash during it loses a chunk. -/
structure RunDone (sha1 : Bytes → Fingerprint) (driver : Driver) (run : BackupRun) (d d' : Disk)
    (n' : Names) : Prop where
  kept : CrashKept sha1 d' n'
  crash : ∃ ws, d' = d.writes ws ∧ (Always Files.apply (CrashSound sha1) d.files ws ↔ SafeOrder sha1 driver run d)

theorem CrashKept.backup (h : CrashKept sha1 d n) (hs : run.settings.rewrite = .noRewrite)
    (hfiles : driverFiles sha1 driver run d n = some t) (hfit : binLength t.work.fingers < 2 ^ 31)
    (hnames : (t.work.store.names.calls.map fun call => cstr call.name).Nodup) :
    RunDone sha1 driver run d (driver.finish t) t.work.store.names := by
  have hdisk := h.storeKept.soundDisk
  obtain ⟨F, σ, ws, hidle, hdone⟩ := h.filesDone hs hfiles hnames
  obtain ⟨F', bins, hclosing⟩ := hdone.closing (savedHashes_iff hdisk hidle) hfit
  obtain ⟨hs', hheaders, hfinish⟩ := hclosing.finish driver
  have hfinal := hclosing.ending.final driver hheaders
  rw [← Disk.writes_files, ← hfinish] at hfinal
  constructor
  · have hstore := (h.storeKept.restart 1).run hdone.filed.moves hdone.filed.between (fun G hG => by
      obtain ⟨τ, hfiled⟩ := driverFiles_filed hG hs hfiles
      exact hfiled.filing.order) hdone.distinct hfit
    refine ⟨⟨F', hclosing.idle driver, ?_⟩, fun name hname => hstore.named name ?_⟩
    · rw [savedAddress_eq hfinal.table.table]
      exact hfinal
    · rwa [← finish_tmp driver]
  · refine ⟨ws ++ (bins ++ Ending.order driver
      (tableWrites (freeCacheBin t.exbin t.work.store.disk).1.main_table ++ hs')
      (lastContainer t.work.store)), ?_, ?_⟩
    · rw [Disk.writes_append, ← hdone.disk]
      exact hfinish
    · have hbefore := hdone.always.mono fun _ => Intact.sound
      have hend : (t.work.store.disk).files = replay d.files ws := by rw [hdone.disk, Disk.writes_files]
      rw [SafeOrder, ← hclosing.known, ← hclosing.ending.always_iff driver hheaders, hend]
      constructor
      · exact fun halways => (always_append.mp halways).2
      · exact fun halways => always_append.mpr ⟨hbefore, halways⟩

-- ════════════════════════════════════════════════════════════════════════
-- All backups
-- ════════════════════════════════════════════════════════════════════════

theorem StoreKept.driverFiles_end (h : StoreKept sha1 d n) (hs : run.settings.rewrite = .noRewrite)
    (hcount : BinCounted run.content run.rabin run.stream) (driver : Driver) :
    ∃ t, driverFiles sha1 driver run d n = some t := by
  rw [driverFiles, Driver.files_eq hs]
  refine driver.items_end hs run.clock (between_start sha1 run.settings run.content run.clock d
    ⟨1, n.calls⟩ run.rabin run.u) (fun file_hash k => ?_) fun _ => hcount
  obtain ⟨bin, ex, hload, -⟩ := h.soundDisk file_hash k
  rw [dedupStart_exbin, dedupStart_store, storeInit_disk]
  exact ⟨(bin, ex), hload⟩

theorem start_unloaded (run : BackupRun) (d : Disk) (n : Names) :
    (run.start d n).exbin.bin_cache.lookup zeroFinger = none := by
  rw [BackupRun.start, dedupStart_exbin, (extremeBinningInit_eq d).2.1]
  exact HTable.lookup_init 100 zeroFinger

/-- A backup that hangs has written headers at most. -/
theorem driverFiles_hang (hs : run.settings.rewrite = .noRewrite)
    (hcount : ¬BinCounted run.content run.rabin run.stream) (driver : Driver) :
    driverFiles sha1 driver run d n = none ∧ ∃ ws, (∀ w ∈ ws, IsHeader w) ∧
      (reachedState sha1 driver run d n).work.store.disk = d.writes ws := by
  obtain ⟨hnone, hstore⟩ := driver.items_hang hs run.clock (start_unloaded run d n) hcount
  obtain ⟨ws, hinit, hws⟩ := extremeBinningInit_writes d
  refine ⟨?_, ws, hws, ?_⟩
  · rw [driverFiles, Driver.files_eq hs]
    exact hnone
  · rw [reachedState, hstore, BackupRun.start, dedupStart_store, storeInit_disk]
    exact hinit

/-- A client that dies of a recipe has not come to its bin. -/
theorem CrashKept.dies (h : CrashKept sha1 d n) (hs : run.settings.rewrite = .noRewrite)
    (hfiles : driverFiles sha1 driver run d n = some t)
    (hnames : (t.work.store.names.calls.map fun call => cstr call.name).Nodup) :
    ∃ ws, t.work.store.disk = d.writes ws ∧ Always Files.apply (CrashSound sha1) d.files ws := by
  obtain ⟨F, σ, ws, -, hdone⟩ := h.filesDone hs hfiles hnames
  exact ⟨ws, hdone.disk, hdone.always.mono fun _ => Intact.sound⟩

/-- After a backup that ends the next ones have to be safe too. -/
theorem allSafe_ended {runs : List (Driver × BackupRun)} (hended : endedFiles sha1 driver run d n = some t)
    (hcount : BinCounted run.content run.rabin run.stream) :
    AllSafe sha1 ((driver, run) :: runs) d n ↔
      SafeOrder sha1 driver run d ∧ AllSafe sha1 runs (driver.finish t) t.work.store.names := by
  rw [AllSafe, imp_iff_right hcount, imp_iff_right (endedFiles_some hended).1]
  refine and_congr_right fun _ => ⟨fun hall => hall t hended, fun hsafe u hu => ?_⟩
  obtain rfl := Option.some.inj (hended.symm.trans hu)
  exact hsafe

/-- No backup comes after one that does not end. -/
theorem allSafe_stopped {runs : List (Driver × BackupRun)} (hended : endedFiles sha1 driver run d n = none)
    (hstop : BinCounted run.content run.rabin run.stream → ¬Packs driver run) :
    AllSafe sha1 ((driver, run) :: runs) d n := by
  rw [AllSafe, hended]
  exact ⟨fun hcount hpacks => absurd hpacks (hstop hcount), fun t ht => by cases ht⟩

/-- No crash is bad exactly if all backups write in a safe order. -/
theorem CrashKept.backups (h : CrashKept sha1 d n) {runs : List (Driver × BackupRun)}
    (hs : ∀ p ∈ runs, p.2.settings.rewrite = .noRewrite) (hfit : ReachedRunsFit sha1 runs d n) :
    ∃ ws, reachedDisk sha1 runs d n = d.writes ws ∧
      (Always Files.apply (CrashSound sha1) d.files ws ↔ AllSafe sha1 runs d n) := by
  induction runs generalizing d n with
  | nil =>
    refine ⟨[], rfl, ?_⟩
    obtain ⟨F, -, hintact⟩ := h.bins
    exact iff_of_true (always_nil.mpr hintact.sound) trivial
  | cons p runs ih =>
    obtain ⟨driver, run⟩ := p
    have hrewrite := hs _ List.mem_cons_self
    by_cases hcount : BinCounted run.content run.rabin run.stream
    · obtain ⟨t, hfiles⟩ := h.storeKept.driverFiles_end hrewrite hcount driver
      obtain ⟨hnames, hends⟩ := hfit
      rw [reachedState_eq hrewrite hfiles] at hnames
      by_cases hpacks : Packs driver run
      · have hended : endedFiles sha1 driver run d n = some t := by rw [endedFiles, if_pos hpacks, hfiles]
        obtain ⟨hlength, hrest⟩ := hends t hended
        obtain ⟨hkept, ws, hdisk, hcrash⟩ := h.backup hrewrite hfiles hlength hnames
        obtain ⟨ws', hdisk', hcrash'⟩ := ih hkept (fun q hq => hs q (List.mem_cons_of_mem _ hq)) hrest
        refine ⟨ws ++ ws', ?_, ?_⟩
        · rw [reachedDisk, hended]
          dsimp only
          rw [hdisk', hdisk, Disk.writes_append]
        · have hfiles' : (driver.finish t).files = ws.foldl Files.apply d.files := by
            rw [hdisk, Disk.writes_files]
            rfl
          rw [always_append, hcrash, ← hfiles', hcrash', allSafe_ended hended hcount]
      · -- the client may have written all containers but the last when it dies
        have hended : endedFiles sha1 driver run d n = none := if_neg hpacks
        obtain ⟨ws, hdisk, halways⟩ := h.dies hrewrite hfiles hnames
        refine ⟨ws, ?_, ?_⟩
        · rw [reachedDisk, hended]
          dsimp only
          rw [reachedState_eq hrewrite hfiles, hdisk]
        · exact iff_of_true halways (allSafe_stopped hended fun _ => hpacks)
    · -- the bin is not loaded, and nothing comes after this backup
      obtain ⟨hnone, ws, hws, hdisk⟩ := driverFiles_hang hrewrite hcount driver
      have hended : endedFiles sha1 driver run d n = none := by rw [endedFiles, hnone, ite_self]
      obtain ⟨F, -, hintact⟩ := h.bins
      refine ⟨ws, ?_, ?_⟩
      · rw [reachedDisk, hended]
        exact hdisk
      · exact iff_of_true ((hintact.headers hws).mono fun _ => Intact.sound)
          (allSafe_stopped hended fun hcounted => absurd hcounted hcount)

end TCBackup.Client
