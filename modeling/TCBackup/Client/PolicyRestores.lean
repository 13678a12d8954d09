import TCBackup.Client.PolicyRuns
import TCBackup.Pipeline.RecipeTransport

/-!
# Restores after rewriting

A restore with `REWRITE` takes the addresses from the bin, not from the recipe. Whatever the policies
of the backups were, the bin leads to the chunks of all forwarded files.

The backups see of the hash only what it gives for the files and their chunks. So a chunk on the disk
with the hash of another one can only be one of these.

## Main definitions

- `hashedBytes` — what is hashed
- `Requests` — a file as the server names it

## Main results

- `driverRuns_congr` — only these hashes matter
- `mem_of_fetch` — what the bin leads to
- `policies_restored` — every forwarded file comes back
-/

namespace TCBackup.Client

open ByteFile ContainerNames Pipeline.RecipeTransport

variable {sha1 sha1' : Bytes → Fingerprint} {s : Settings} {clock : ℕ → ℤ} {content : Bytes → Bytes}
  {t : DedupThread} {fileinfo : FileInfo ℕ} {F F' : Fingerprint → BinMap} {item : Bytes × Answer}
  {stream : List (Bytes × Answer)} {d : Disk} {n : Names} {run : BackupRun} {runs : List BackupRun}

/-- A file and its chunks. -/
def fileBytes (bytes : Bytes) : Set Bytes := {bs | bs = bytes ∨ bs ∈ chunksOf bytes}

/-- The files of the backups, and their chunks. -/
def hashedBytes (runs : List BackupRun) : Set Bytes :=
  {bs | ∃ run ∈ runs, ∃ item ∈ run.stream, bs ∈ fileBytes (run.content item.1)}

theorem fingerChunks_congr {l : List Bytes} (h : Set.EqOn sha1 sha1' {bs | bs ∈ l}) (offset : ℕ) :
    fingerChunks sha1 offset l = fingerChunks sha1' offset l := by
  induction l generalizing offset with
  | nil => rfl
  | cons bs l ih =>
    rw [fingerChunks, fingerChunks, h (List.mem_cons_self : bs ∈ bs :: l),
      ih fun c hc => h (List.mem_cons_of_mem bs hc)]

theorem chunkDedup_congr (h : Set.EqOn sha1 sha1' (fileBytes (content fileinfo.file_path))) :
    chunkDedup sha1 s clock content fileinfo t = chunkDedup sha1' s clock content fileinfo t := by
  have hcut : cutFile sha1 content fileinfo t = cutFile sha1' content fileinfo t := by
    rw [cutFile, cutFile, fingerChunks_congr]
    intro bs hbs
    have hbs : bs ∈ (chunkFile t.rabin (content fileinfo.file_path)).1 := hbs
    rw [chunkFile_eq_chunksOf] at hbs
    exact h (.inr hbs)
  rw [chunkDedup, chunkDedup, hcut]

theorem queuedFile_congr {path : Bytes} (h : Set.EqOn sha1 sha1' (fileBytes (content path))) :
    queuedFile sha1 content path = queuedFile sha1' content path := by
  rw [queuedFile, queuedFile, h (.inl rfl)]

theorem dedupItem_congr (h : Set.EqOn sha1 sha1' (fileBytes (content item.1))) :
    dedupItem sha1 s clock content t item = dedupItem sha1' s clock content t item := by
  obtain ⟨path, answer⟩ := item
  rw [dedupItem, dedupItem, queuedFile_congr h]
  cases answer with
  | newFile => exact congrArg (Option.map forward) (chunkDedup_congr h)
  | dedupFile msgs =>
    have hpath := appendChunks_path (msgs.map receivedChunk)
      { queuedFile sha1' content path with is_new := .dedupFile } t
    dsimp only
    generalize appendChunks (msgs.map receivedChunk)
      { queuedFile sha1' content path with is_new := .dedupFile } t = p at hpath
    have hsame : chunkDedup sha1 s clock content { p.1 with chunks := [] } p.2 =
        chunkDedup sha1' s clock content { p.1 with chunks := [] } p.2 := chunkDedup_congr (by
      show Set.EqOn sha1 sha1' (fileBytes (content p.1.file_path))
      rwa [hpath])
    rw [hsame]

theorem dedupItems_congr (h : ∀ item ∈ stream, Set.EqOn sha1 sha1' (fileBytes (content item.1))) :
    stream.foldlM (dedupItem sha1 s clock content) t = stream.foldlM (dedupItem sha1' s clock content) t := by
  induction stream generalizing t with
  | nil => rw [List.foldlM_nil, List.foldlM_nil]
  | cons item stream ih =>
    obtain ⟨hitem, hitems⟩ := List.forall_mem_cons.mp h
    have hrest : stream.foldlM (dedupItem sha1 s clock content) =
        stream.foldlM (dedupItem sha1' s clock content) := funext fun v => @ih v hitems
    rw [List.foldlM_cons, List.foldlM_cons, dedupItem_congr hitem, hrest]

theorem chunkDedupModule_congr
    (h : ∀ item ∈ stream, Set.EqOn sha1 sha1' (fileBytes (content item.1))) :
    chunkDedupModule sha1 s clock content stream t = chunkDedupModule sha1' s clock content stream t := by
  rw [chunkDedupModule, chunkDedupModule, dedupItems_congr h]

theorem driverFiles_congr (h : ∀ item ∈ run.stream, Set.EqOn sha1 sha1' (fileBytes (run.content item.1))) :
    driverFiles sha1 .pipelineBackup run d n = driverFiles sha1' .pipelineBackup run d n := by
  rw [driverFiles, driverFiles, Driver.files, Driver.files]
  exact chunkDedupModule_congr h

/-- Only the hashes of files and chunks matter. -/
theorem driverRuns_congr (h : Set.EqOn sha1 sha1' (hashedBytes runs)) :
    driverRuns sha1 (pipelined runs) d n = driverRuns sha1' (pipelined runs) d n ∧
      (DriverRunsFit sha1 (pipelined runs) d n → DriverRunsFit sha1' (pipelined runs) d n) := by
  induction runs generalizing d n with
  | nil => exact ⟨rfl, id⟩
  | cons run runs ih =>
    have hfirst : driverFiles sha1 .pipelineBackup run d n = driverFiles sha1' .pipelineBackup run d n :=
      driverFiles_congr fun item hitem bs hbs => h ⟨run, List.mem_cons_self, item, hitem, hbs⟩
    have hrest : Set.EqOn sha1 sha1' (hashedBytes runs) := by
      rintro bs ⟨r, hr, item, hitem, hbs⟩
      exact h ⟨r, List.mem_cons_of_mem _ hr, item, hitem, hbs⟩
    rw [pipelined, List.map_cons, driverRuns, driverRuns, DriverRunsFit, DriverRunsFit, ← hfirst]
    refine ⟨congrArg _ (funext fun t => (ih hrest).1), fun hfit t ht => ?_⟩
    obtain ⟨hlength, hnames, hlater⟩ := hfit t ht
    exact ⟨hlength, hnames, (ih hrest).2 hlater⟩

/-- The entries are those that `LoadBin` finds. -/
theorem idle_unique (h : BinPersistence.Idle {zeroFinger} F d) (h' : BinPersistence.Idle {zeroFinger} F' d) :
    F zeroFinger = F' zeroFinger := by
  have hnone : (extremeBinningInit d).1.bin_cache.lookup zeroFinger = none := by
    rw [(extremeBinningInit_eq d).2.1, HTable.lookup_init]
  obtain ⟨data, hbins⟩ := h
  obtain ⟨data', hbins'⟩ := h'
  obtain ⟨bin, ex, hload, -, -, hfound⟩ :=
    hbins.loadBin (Finset.mem_singleton_self zeroFinger) zeroFinger fun _ => le_refl 0
  obtain ⟨bin', ex', hload', -, -, hfound'⟩ :=
    hbins'.loadBin (Finset.mem_singleton_self zeroFinger) zeroFinger fun _ => le_refl 0
  obtain ⟨rfl, rfl⟩ := Prod.mk.inj (Option.some.inj (hload.symm.trans hload'))
  have hlookup := hfound.resolve_left fun hsome => by simp [hnone] at hsome
  have hlookup' := hfound'.resolve_left fun hsome => by simp [hnone] at hsome
  exact hlookup.2.symm.trans hlookup'.2

/-- Two different fingerprints. -/
theorem exists_other (hash : Fingerprint) : ∃ other : Fingerprint, other ≠ hash := by
  have hpair : (zeroFinger : Fingerprint) ≠ List.Vector.replicate 20 1 := by decide
  by_cases heq : zeroFinger = hash
  · exact ⟨_, fun hother => hpair (heq.trans hother.symm)⟩
  · exact ⟨_, heq⟩

/-- What the bin leads to was hashed. Otherwise the backups would have come to the same end if its
hash had been another one, and then its entry were wrong. -/
theorem mem_of_fetch (hcount : ∀ run ∈ runs, ∀ item ∈ run.stream, FitsChunknum (run.content item.1))
    (hstream : ∀ run ∈ runs, run.settings.rewrite = .cappingRewrite → run.stream ≠ [])
    (hfit : DriverRunsFit sha1 (pipelined runs) .empty ⟨1, []⟩)
    (hruns : driverRuns sha1 (pipelined runs) .empty ⟨1, []⟩ = some (d, n))
    (hidle : BinPersistence.Idle {zeroFinger} F d) {hash : Fingerprint} {a : Chunkaddress} {data : Bytes}
    (ha : F zeroFinger hash = some a) (hfetch : fetch d a hash = some data) : data ∈ hashedBytes runs := by
  by_contra hnot
  obtain ⟨other, hother⟩ := exists_other hash
  have hsame : Set.EqOn sha1 (Function.update sha1 data other) (hashedBytes runs) := by
    intro bs hbs
    rw [Function.update_of_ne]
    rintro rfl
    exact hnot hbs
  obtain ⟨hequal, hfits⟩ := driverRuns_congr hsame
  obtain ⟨d', n', hruns', hknows⟩ := 
    (knows_empty (Function.update sha1 data other)).backups hcount hstream (hfits hfit)
  obtain ⟨rfl, rfl⟩ := Prod.mk.inj (Option.some.inj (hruns.symm.trans (hequal.trans hruns')))
  obtain ⟨F', hidle', hsound, -⟩ := hknows.bins
  rw [idle_unique hidle hidle'] at ha
  obtain ⟨-, data', hfetch', hhashed⟩ := hsound hash a ha
  obtain rfl := Option.some.inj (hfetch.symm.trans hfetch')
  rw [Hashed, Function.update_self] at hhashed
  exact hother hhashed

/-- A file as the server names it: the fingerprints of the chunks of a forwarded file, with any
addresses. -/
def Requests (sha1 : Bytes → Fingerprint) (runs : List BackupRun) (file : RestoreFile) (bytes : Bytes) :
    Prop :=
  file.chunks.map FingerChunk.chunk_hash = (chunksOf bytes).map sha1 ∧
    ∃ run ∈ runs, ∃ item ∈ run.stream, Forwarded run.settings item.2 ∧ run.content item.1 = bytes

/-- A chunk that the bin leads to. -/
def Leads (sha1 : Bytes → Fingerprint) (F : BinMap) (d : Disk) (bs : Bytes) : Prop :=
  ∃ a, F (sha1 bs) = some a ∧ IsContainer d a ∧ fetch d a (sha1 bs) = some bs

variable {fingers : HTable 20 Chunkaddress} {G : BinMap} {pieces : List Bytes} {fcs : List FingerChunk}
  {restore : Restore} {wrote : ℕ → ℕ}

theorem Leads.congr {d' : Disk} {bs : Bytes} (h : Leads sha1 G d bs) (htmp : d'.files.tmp = d.files.tmp) :
    Leads sha1 G d' bs := by
  obtain ⟨a, ha, hfile, hfetch⟩ := h
  refine ⟨a, ha, ?_, ?_⟩
  · rwa [IsContainer, htmp]
  · rwa [fetch_congr rfl (congrFun htmp _)]

/-- The chunks with the addresses from the bin. -/
theorem binAddresses_leads (hfingers : fingers.lookup = G) (hleads : ∀ bs ∈ pieces, Leads sha1 G d bs)
    (hhashes : fcs.map FingerChunk.chunk_hash = pieces.map sha1) :
    ∃ fcs', binAddresses fingers fcs = some fcs' ∧ (∀ fc ∈ fcs', IsContainer d fc.chunkaddress) ∧
      List.Forall₂ (fun fc bs => fetch d fc.chunkaddress fc.chunk_hash = some bs) fcs' pieces := by
  induction fcs generalizing pieces with
  | nil =>
    obtain rfl := List.map_eq_nil_iff.mp hhashes.symm
    exact ⟨[], rfl, by simp, .nil⟩
  | cons fc fcs ih =>
    cases pieces with
    | nil => cases hhashes
    | cons bs pieces =>
      rw [List.map_cons, List.map_cons] at hhashes
      obtain ⟨hhash, hhashes⟩ := List.cons_eq_cons.mp hhashes
      obtain ⟨a, ha, hfile, hfetch⟩ := hleads bs List.mem_cons_self
      obtain ⟨fcs', hrest, hfiles, hall⟩ := ih (fun c hc => hleads c (List.mem_cons_of_mem _ hc)) hhashes
      rw [← hhash] at ha hfetch
      refine ⟨{ fc with chunkaddress := a } :: fcs', ?_, ?_, .cons hfetch hall⟩
      · rw [binAddresses, hfingers, ha, Option.bind_some, hrest]
        rfl
      · intro x hx
        rcases List.mem_cons.mp hx with rfl | hx
        · exact hfile
        · exact hfiles x hx

/-- A thread that has loaded the bin, or will. -/
structure Loading (F : Fingerprint → BinMap) (d : Disk) (ex : ExtremeBinning) : Prop where
  bins : ∃ data, Bins {zeroFinger} F data ex d.files
  cached : ∀ bin, ex.bin_cache.lookup zeroFinger = some bin → bin.fingers.lookup = F zeroFinger

theorem Loading.load {ex : ExtremeBinning} (h : Loading F d ex) (file_hash : Fingerprint)
    {k : ℤ} (hk : 0 ≤ k) : ∃ bin ex', loadBin ex d zeroFinger file_hash k = some (bin, ex') ∧ bin.fingers.lookup = F zeroFinger ∧
      Loading F d ex' := by
  obtain ⟨data, hbins⟩ := h.bins
  obtain ⟨bin, ex', hload, hbins', hcache, hfound⟩ :=
    hbins.loadBin (Finset.mem_singleton_self zeroFinger) file_hash fun _ => hk
  have hlookup : bin.fingers.lookup = F zeroFinger := by
    rcases hfound with hcached | ⟨-, hlookup⟩
    · exact h.cached bin hcached
    · exact hlookup
  refine ⟨bin, ex', hload, hlookup, ⟨data, hbins'⟩, fun bin' hbin' => ?_⟩
  rw [hcache, if_pos rfl] at hbin'
  obtain rfl := Option.some.inj hbin'
  exact hlookup

/-- One file. -/
theorem constructOne_leads (clock : ℕ → ℤ) {ex : ExtremeBinning} (hloading : Loading F d ex) {file : RestoreFile}
    (hchunks : file.chunks.map FingerChunk.chunk_hash = pieces.map sha1) (hcount : pieces.length < 2 ^ 31)
    (hleads : ∀ bs ∈ pieces, Leads sha1 (F zeroFinger) d bs ∧ bs.length ≤ maxChunkSize)
    {restore_path : Bytes} (hfits : (restore_path ++ file.file_path).length < 256) {io : FileIO}
    (hio : io.created = true ∧ io.opened = true ∧ WritesAll io.wrote)
    (hcached : Cached d (IsContainer d) restore.restore_cache) :
    ∃ restore' ex', constructOne clock d restore_path io file ⟨restore, some ex⟩ =
        .written ⟨restore_path ++ file.file_path, pieces⟩ ⟨restore', some ex'⟩ ∧
      Loading F d ex' ∧ Cached d (IsContainer d) restore'.restore_cache := by
  obtain ⟨hcreated, hopened, hwrote⟩ := hio
  have hlength := congrArg List.length hchunks
  rw [List.length_map, List.length_map] at hlength
  have hchunknum : 0 ≤ file.chunknum := by
    rw [FileInfo.chunknum_eq (hlength ▸ hcount)]
    exact Int.natCast_nonneg _
  obtain ⟨bin, ex', hload, hlookup, hloading'⟩ := hloading.load file.file_hash hchunknum
  obtain ⟨fcs, hfcs, hfiles, hfetch⟩ :=
    binAddresses_leads hlookup (fun bs hbs => (hleads bs hbs).1) hchunks
  have hread := readAll_of_fetch hfetch (fun j bs hbs => (hleads bs hbs).2.trans (hwrote j)) 0
  obtain ⟨-, hwrites, hcontainers⟩ := @writeChunks_eq clock d _ io.wrote 0 fcs restore hcached hfiles
  rw [hread] at hwrites
  obtain ⟨⟨data, restore'⟩, hjoin, rfl⟩ := Option.map_eq_some_iff.mp hwrites
  have hwrite := Option.join_eq_some_iff.mp hjoin
  refine ⟨restore', ex', ?_, hloading', hcontainers _ hwrite⟩
  rw [constructOne]
  dsimp only
  rw [hload]
  dsimp only
  rw [hfcs]
  dsimp only
  rw [writeOne, if_neg (by omega), if_neg (by simp [hcreated]), if_neg (by simp [hopened])]
  dsimp only
  rw [hwrite]

/-- All files. -/
theorem constructFile_leads (clock : ℕ → ℤ) {ex : ExtremeBinning} (hloading : Loading F d ex) {restore_path : Bytes}
    {io : ℕ → FileIO} (hio : ∀ i, (io i).created = true ∧ (io i).opened = true ∧ WritesAll (io i).wrote)
    {pool : List (RestoreFile × List Bytes)}
    (hpool : ∀ p ∈ pool, (restore_path ++ p.1.file_path).length < 256 ∧
      p.1.chunks.map FingerChunk.chunk_hash = p.2.map sha1 ∧ p.2.length < 2 ^ 31 ∧
        ∀ bs ∈ p.2, Leads sha1 (F zeroFinger) d bs ∧ bs.length ≤ maxChunkSize)
    (hcached : Cached d (IsContainer d) restore.restore_cache) (i : ℕ) :
    constructFile clock d restore_path io i (pool.map Prod.fst) ⟨restore, some ex⟩ =
      some (pool.map fun p => ⟨restore_path ++ p.1.file_path, p.2⟩) := by
  induction pool generalizing restore ex i with
  | nil => rfl
  | cons p pool ih =>
    obtain ⟨hfits, hchunks, hcount, hleads⟩ := hpool p List.mem_cons_self
    obtain ⟨restore', ex', hone, hloading', hcached'⟩ :=
      constructOne_leads clock hloading hchunks hcount hleads hfits (hio i) hcached
    rw [List.map_cons, constructFile, hone]
    dsimp only
    rw [ih hloading' (fun q hq => hpool q (List.mem_cons_of_mem _ hq)) hcached' (i + 1)]
    rfl

/-- A restore by the bin where every call succeeds. The containers that it prepares in memory have no
name of a container on the disk. -/
structure BinRestore (d : Disk) (e : RestoreEnv) : Prop where
  thread : e.thread = true
  rewrite : e.rewrite = true
  disk : e.disk = d
  names : ∀ name, Names.later e.clock e.names name → d.files.tmp (cstr name) = none
  io : ∀ i, (e.io i).created = true ∧ (e.io i).opened = true ∧ WritesAll (e.io i).wrote

theorem Knows.leads {K : Set Fingerprint} (hknows : Knows sha1 K d n) (hsha1 : Set.InjOn sha1 (hashedBytes runs))
    (hdata : ∀ F hash a data, BinPersistence.Idle {zeroFinger} F d → F zeroFinger hash = some a →
      fetch d a hash = some data → data ∈ hashedBytes runs) :
    ∃ F, BinPersistence.Idle {zeroFinger} F d ∧
      ∀ bs ∈ hashedBytes runs, sha1 bs ∈ K → Leads sha1 (F zeroFinger) d bs := by
  obtain ⟨F, hidle, hsound, hknown⟩ := hknows.bins
  refine ⟨F, hidle, fun bs hbs hmem => ?_⟩
  obtain ⟨a, ha⟩ := Option.ne_none_iff_exists'.mp (hknown _ hmem)
  have hdisk := hsound _ a ha
  obtain ⟨-, data, hfetch, hhashed⟩ := id hdisk
  obtain rfl := hsha1 (hdata F _ a data hidle ha hfetch) hbs hhashed
  exact ⟨a, ha, hdisk.exists_file, hfetch⟩

/-- Whatever the policies of the backups were, every forwarded file comes back as it was, at any
addresses that the server has for it. -/
theorem policies_restored (sha1 : Bytes → Fingerprint) (runs : List BackupRun)
    (hcount : ∀ run ∈ runs, ∀ item ∈ run.stream, FitsRecipe (run.content item.1))
    (hstream : ∀ run ∈ runs, run.settings.rewrite = .cappingRewrite → run.stream ≠ [])
    (hfit : DriverRunsFit sha1 (pipelined runs) .empty ⟨1, []⟩)
    (hsha1 : Set.InjOn sha1 (hashedBytes runs)) :
    ∃ d n, driverRuns sha1 (pipelined runs) .empty ⟨1, []⟩ = some (d, n) ∧
      ∀ e, BinRestore d e → ∀ (pool : List (RestoreFile × Bytes)) (conn : Incoming),
        getFiles e.chunknum conn = .ok (pool.map Prod.fst) →
        (∀ p ∈ pool, (trimSlash e.restore_path ++ p.1.file_path).length < 256 ∧ Requests sha1 runs p.1 p.2) →
        ∃ outs, restoreClient e conn = .ok outs ∧ (outs.map fun out => (out.path, out.data.flatten)) =
          pool.map fun p => (trimSlash e.restore_path ++ p.1.file_path, p.2) := by
  have hfits : ∀ run ∈ runs, ∀ item ∈ run.stream, FitsChunknum (run.content item.1) :=
    fun run hrun item hitem => (hcount run hrun item hitem).fitsChunknum
  obtain ⟨d, n, hruns, hknows⟩ := (knows_empty sha1).backups hfits hstream hfit
  obtain ⟨F, hidle, hleads⟩ := hknows.leads hsha1 fun F hash a data hidle =>
    mem_of_fetch hfits hstream hfit hruns hidle
  refine ⟨d, n, hruns, fun e he pool conn hfiles hpool => ?_⟩
  have hstore : e.store = (extremeBinningInit d).2 := by
    rw [RestoreEnv.store, he.rewrite, he.disk]
    rfl
  have hworker : e.worker = ⟨restoreInit e.clock e.names, some (extremeBinningInit d).1⟩ := by
    rw [RestoreEnv.worker, he.rewrite, he.disk]
    rfl
  have htmp := tmp_extremeBinningInit d
  have hloading : Loading F (extremeBinningInit d).2 (extremeBinningInit d).1 := by
    refine ⟨hidle, fun bin hbin => ?_⟩
    rw [(extremeBinningInit_eq d).2.1, HTable.lookup_init] at hbin
    cases hbin
  have hcached : Cached (extremeBinningInit d).2 (IsContainer (extremeBinningInit d).2)
      (restoreInit e.clock e.names).restore_cache := by
    refine restoreInit_cached fun name hname address hfile hsame => hfile ?_
    rw [← hsame, htmp]
    exact he.names name hname
  have hcut : ∀ p ∈ pool.map fun p => (p.1, chunksOf p.2),
      (trimSlash e.restore_path ++ p.1.file_path).length < 256 ∧
        p.1.chunks.map FingerChunk.chunk_hash = p.2.map sha1 ∧ p.2.length < 2 ^ 31 ∧
          ∀ bs ∈ p.2, Leads sha1 (F zeroFinger) (extremeBinningInit d).2 bs ∧ bs.length ≤ maxChunkSize := by
    intro p hp
    obtain ⟨⟨file, bytes⟩, hmem, rfl⟩ := List.mem_map.mp hp
    obtain ⟨hshort, hchunks, run, hrun, item, hitem, hforwarded, rfl⟩ := hpool _ hmem
    have hlength := hfits run hrun item hitem run.rabin
    rw [chunkFile_eq_chunksOf] at hlength
    refine ⟨hshort, hchunks, hlength, fun bs hbs => ⟨Leads.congr (hleads bs ?_ (.inr ?_)) htmp, ?_⟩⟩
    · exact ⟨run, hrun, item, hitem, .inr hbs⟩
    · exact ⟨run, hrun, item, hitem, hforwarded, bs, hbs, rfl⟩
    · have hbs : bs ∈ chunksOf (run.content item.1) := hbs
      rw [← chunkFile_eq_chunksOf run.rabin] at hbs
      exact (isChunk_chunkFile hbs).2
  have houts := constructFile_leads e.clock hloading he.io hcut hcached 0
  rw [List.map_map] at houts
  refine ⟨_, restoreClient_eq he.thread hfiles (by rw [hstore, hworker]; exact houts), ?_⟩
  rw [List.map_map, List.map_map]
  refine List.map_congr_left fun p hp => ?_
  have hflat := chunkFile_flatten ⟨0, 0, fun _ => 0⟩ p.2
  rw [chunkFile_eq_chunksOf] at hflat
  exact Prod.ext rfl hflat

/-- The same file, backed up under two policies. The second time the server knows it. -/
def policyRun (day : ℤ) (policy : Rewrite) (answer : Answer) : BackupRun where
  settings := ⟨policy, fun _ _ => true, fun _ => true, fun _ => true, 0, 0⟩
  clock := fun _ => day
  content := fun _ => [1, 2, 3]
  stream := [([97], answer)]
  rabin := ⟨0, 0, fun _ => 0⟩
  u := 0

def policyRuns : List BackupRun :=
  [policyRun 0 .cflRewrite .newFile, policyRun 1 .cappingRewrite (.dedupFile [])]

theorem policyRuns_fit : DriverRunsFit (fun _ => zeroFinger) (pipelined policyRuns) .empty ⟨1, []⟩ := by
  have hruns : (driverFiles (fun _ => zeroFinger) .pipelineBackup (policyRun 0 .cflRewrite .newFile) .empty
      ⟨1, []⟩).bind (fun t => (driverFiles (fun _ => zeroFinger) .pipelineBackup
        (policyRun 1 .cappingRewrite (.dedupFile [])) (Driver.finish .pipelineBackup t) t.work.store.names).map
          fun u => (decide (binLength t.work.fingers < 2 ^ 31), t.work.store.names.calls,
            decide (binLength u.work.fingers < 2 ^ 31), u.work.store.names.calls)) =
      some (true, [⟨0, 2⟩], true, [⟨0, 2⟩, ⟨1, 2⟩]) := by
    decide +kernel
  have hone : cstr (⟨0, 2⟩ : NameCall).name ≠ cstr (⟨1, 2⟩ : NameCall).name := by decide +kernel
  intro t hfirst
  rw [hfirst, Option.bind_some] at hruns
  obtain ⟨u, hsecond, heq⟩ := Option.map_eq_some_iff.mp hruns
  obtain ⟨hfit, heq⟩ := Prod.mk.inj heq
  obtain ⟨hcalls, heq⟩ := Prod.mk.inj heq
  obtain ⟨hfit', hcalls'⟩ := Prod.mk.inj heq
  refine ⟨of_decide_eq_true hfit, ?_, fun v hlast => ?_⟩
  · rw [hcalls]
    exact List.nodup_singleton _
  · obtain rfl := Option.some.inj (hsecond.symm.trans hlast)
    refine ⟨of_decide_eq_true hfit', ?_, trivial⟩
    rw [hcalls']
    simpa using hone

theorem mem_policyRuns (hrun : run ∈ policyRuns) :
    ∃ day policy answer, run = policyRun day policy answer := by
  rw [policyRuns, List.mem_cons, List.mem_singleton] at hrun
  rcases hrun with rfl | rfl <;> exact ⟨_, _, _, rfl⟩

theorem chunksOf_small : chunksOf [1, 2, 3] = [[1, 2, 3]] := by
  rw [← chunkFile_eq_chunksOf ⟨0, 0, fun _ => 0⟩]
  decide +kernel

theorem mem_policyRuns_bytes {bs : Bytes} (hbs : bs ∈ hashedBytes policyRuns) : bs = [1, 2, 3] := by
  obtain ⟨run, hrun, item, -, hbs⟩ := hbs
  obtain ⟨day, policy, answer, rfl⟩ := mem_policyRuns hrun
  rcases hbs with rfl | hbs
  · rfl
  · have hbs : bs ∈ chunksOf [1, 2, 3] := hbs
    rw [chunksOf_small] at hbs
    exact List.mem_singleton.mp hbs

/-- What a server sends for one file with one chunk, without an address. -/
def oneFile : Incoming where
  arriving := [.whole (intBytes 4 1), .whole (intBytes 4 21 ++ zeroFinger.toList ++ [98]),
    .whole (intBytes 8 1), .whole (List.replicate 84 0)]
  closed := true

/-- A restore into the root directory. -/
def rootBinRestore (d : Disk) (n : Names) : RestoreEnv where
  thread := true
  rewrite := true
  restore_path := [47]
  disk := d
  names := n
  clock := fun _ => 2
  io := fun _ => ⟨true, true, fun _ => maxChunkSize⟩
  chunknum := fun _ => 0

theorem policies_restored_two :
    ∃ d n, driverRuns (fun _ => zeroFinger) (pipelined policyRuns) .empty ⟨1, []⟩ = some (d, n) ∧
      ∃ outs, restoreClient (rootBinRestore d n) oneFile = .ok outs ∧
        (outs.map fun out => (out.path, out.data.flatten)) = [([98], [1, 2, 3])] := by
  have hstream : ∀ run ∈ policyRuns, run.settings.rewrite = .cappingRewrite → run.stream ≠ [] := by
    intro run hrun _
    obtain ⟨day, policy, answer, rfl⟩ := mem_policyRuns hrun
    exact List.cons_ne_nil _ _
  have hcount : ∀ run ∈ policyRuns, ∀ item ∈ run.stream, FitsRecipe (run.content item.1) := by
    intro run hrun item _ rabin
    obtain ⟨day, policy, answer, rfl⟩ := mem_policyRuns hrun
    exact (length_chunkFile_le rabin [1, 2, 3]).trans (by norm_num [maxChunks])
  obtain ⟨d, n, hruns, hrestore⟩ := policies_restored (fun _ => zeroFinger) policyRuns hcount hstream policyRuns_fit
    fun a ha b hb _ => (mem_policyRuns_bytes ha).trans (mem_policyRuns_bytes hb).symm
  have hcalls : (driverRuns (fun _ => zeroFinger) (pipelined policyRuns) .empty ⟨1, []⟩).map
      (fun p => p.2.calls) = some [⟨0, 2⟩, ⟨1, 2⟩] := by
    decide +kernel
  rw [hruns] at hcalls
  have hcalls : n.calls = [⟨0, 2⟩, ⟨1, 2⟩] := Option.some.inj hcalls
  have hnames : ∀ name, Names.later (fun _ => 2) n name → d.files.tmp (cstr name) = none := by
    obtain ⟨d', n', hruns', hknows⟩ := (knows_empty (fun _ => zeroFinger)).backups
      (fun run hrun item hitem => (hcount run hrun item hitem).fitsChunknum) hstream policyRuns_fit
    obtain ⟨rfl, rfl⟩ := Prod.mk.inj (Option.some.inj (hruns.symm.trans hruns'))
    refine fun _ => hknows.storeKept.later_free fun call hcall => ?_
    rw [hcalls] at hcall
    simp only [List.mem_cons, List.not_mem_nil, or_false] at hcall
    rcases hcall with rfl | rfl <;> exact ⟨⟨by decide, by decide⟩, by decide⟩
  have hreceived : (getFiles (fun _ => 0) oneFile).toOption.map (fun pool => pool.map fun file =>
      (file.file_path, file.chunks.map FingerChunk.chunk_hash)) = some [([98], [zeroFinger])] := by
    decide +kernel
  cases hfiles : getFiles (fun _ => 0) oneFile with
  | error stop =>
    rw [hfiles] at hreceived
    cases hreceived
  | ok pool =>
    rw [hfiles] at hreceived
    have hpool := Option.some.inj hreceived
    obtain ⟨file, rfl, hfile⟩ := List.map_eq_singleton_iff.mp hpool
    obtain ⟨hpath, hchunks⟩ := Prod.mk.inj hfile
    have hroot : trimSlash (rootBinRestore d n).restore_path = [] := rfl
    obtain ⟨outs, houts, hwritten⟩ := hrestore (rootBinRestore d n)
      ⟨rfl, rfl, rfl, hnames, fun _ => ⟨rfl, rfl, fun _ => le_refl _⟩⟩ [(file, [1, 2, 3])] oneFile hfiles
      fun p hp => by
        obtain rfl := List.mem_singleton.mp hp
        refine ⟨by rw [hroot, hpath]; decide, ?_, _, List.mem_cons_self, _, List.mem_cons_self, .inl rfl, rfl⟩
        rw [chunksOf_small]
        exact hchunks
    refine ⟨d, n, hruns, outs, houts, ?_⟩
    rw [hwritten, hroot]
    simp [hpath]

end TCBackup.Client
