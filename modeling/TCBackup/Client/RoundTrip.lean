import TCBackup.Client.StoredBytes

/-!
# From backup to restore

The records of a file, taken one after the other by `construct_file`, give back the file, no matter
how many backups came later and which files have been restored before.

## Main definitions

- `backedUp` — the files of all backups, each with its records
- `Restored` — the containers in memory after restores of such files

## Main results

- `round_trip` — every file comes back
-/

namespace TCBackup.Client

open ByteFile ContainerNames

/-- The contents and the records of the files of one backup. -/
def BackupRun.files (run : BackupRun) (records : List (List (Fingerprint × Chunkaddress))) :
    List (Bytes × List (Fingerprint × Chunkaddress)) :=
  (run.stream.map fun item => run.content item.1).zip records

/-- The files of all backups. -/
def backedUp (runs : List BackupRun) (results : List (List (List (Fingerprint × Chunkaddress)))) :
    List (Bytes × List (Fingerprint × Chunkaddress)) :=
  (List.zipWith BackupRun.files runs results).flatten

/-- The chunks that `recv_deplicate_chunk` makes of the records. -/
def requested (records : List (Fingerprint × Chunkaddress)) : List FingerChunk :=
  records.map fun record => { fingerchunkNew with chunk_hash := record.1, chunkaddress := record.2 }

/-- All bytes of a chunk are written. -/
def WritesAll (wrote : ℕ → ℕ) : Prop := ∀ j, maxChunkSize ≤ wrote j

/-- The thread has restored any number of files, in any order. -/
inductive Restored (clock : ℕ → ℤ) (d : Disk) (names : Names)
    (files : List (Bytes × List (Fingerprint × Chunkaddress))) : Restore → Prop
  | init : Restored clock d names files (restoreInit clock names)
  | file {restore restore' : Restore} {file : Bytes × List (Fingerprint × Chunkaddress)}
      {wrote : ℕ → ℕ} {data : List Bytes} :
      Restored clock d names files restore → file ∈ files → WritesAll wrote →
      writeChunks clock d wrote 0 (requested file.2) restore = some (some (data, restore')) →
      Restored clock d names files restore'

variable {sha1 : Bytes → Fingerprint} {content : Bytes → Bytes} {rabin : Rabin}
  {stream : List (Bytes × Answer)} {run : BackupRun} {runs : List BackupRun} {M : Set Bytes} {d : Disk}
  {records : List (List (Fingerprint × Chunkaddress))} {clock : ℕ → ℤ} {names : Names}
  {results : List (List (List (Fingerprint × Chunkaddress)))}
  {file : Bytes × List (Fingerprint × Chunkaddress)}
  {files : List (Bytes × List (Fingerprint × Chunkaddress))}

theorem cutItems_flatten (hnew : ∀ item ∈ stream, item.2 = .newFile) :
    (cutItems content rabin stream).map List.flatten = stream.map fun item => content item.1 := by
  induction stream generalizing rabin with
  | nil => rfl
  | cons item stream ih =>
    have hfirst : (cutItem content rabin item).1.flatten = content item.1 := by
      rw [cutItem, hnew item List.mem_cons_self]
      exact chunkFile_flatten _ _
    rw [cutItems, List.map_cons, List.map_cons, hfirst,
      ih fun item hitem => hnew item (List.mem_cons_of_mem _ hitem)]

theorem isChunk_cutItems {bs : Bytes} (hbs : bs ∈ (cutItems content rabin stream).flatten) : IsChunk bs := by
  induction stream generalizing rabin with
  | nil => cases hbs
  | cons item stream ih =>
    rw [cutItems, List.flatten_cons, List.mem_append] at hbs
    rcases hbs with hfirst | hrest
    · obtain ⟨path, answer⟩ := item
      cases answer with
      | newFile => exact isChunk_chunkFile hfirst
      | dedupFile msgs => cases hfirst
    · exact ih hrest

/-- What is known of a file that was backed up. -/
structure FileKept (sha1 : Bytes → Fingerprint) (M : Set Bytes) (d : Disk)
    (file : Bytes × List (Fingerprint × Chunkaddress)) (pieces : List Bytes) : Prop where
  flatten : pieces.flatten = file.1
  hashes : file.2.map Prod.fst = pieces.map sha1
  chunks : ∀ bs ∈ pieces, IsChunk bs ∧ bs ∈ M
  stored : ∀ record ∈ file.2, OnDisk (Hashed sha1) d record.2 record.1

theorem RunStored.kept (h : RunStored sha1 d run records) (hnew : ∀ item ∈ run.stream, item.2 = .newFile)
    (hM : ∀ bs ∈ (cutItems run.content run.rabin run.stream).flatten, bs ∈ M)
    (hfile : file ∈ run.files records) : ∃ pieces, FileKept sha1 M d file pieces := by
  have hflat : (cutItems run.content run.rabin run.stream).map List.flatten =
      run.stream.map fun item => run.content item.1 := cutItems_flatten hnew
  rw [BackupRun.files, ← hflat] at hfile
  obtain ⟨i, hi, rfl⟩ := List.mem_iff_getElem.mp hfile
  rw [List.length_zip, List.length_map, Nat.lt_min] at hi
  obtain ⟨hi, hr⟩ := hi
  obtain ⟨pieces, hpieces⟩ : ∃ pieces, pieces = (cutItems run.content run.rabin run.stream)[i] := ⟨_, rfl⟩
  have hmem : pieces ∈ cutItems run.content run.rabin run.stream := hpieces ▸ List.getElem_mem hi
  refine ⟨pieces, ?_, ?_, fun bs hbs => ?_, fun record hrecord => ?_⟩
  · simp [hpieces]
  · have hat := congrArg (fun l => l[i]?) h.hashes
    simpa [hi, hr, hpieces] using hat
  · have hin := List.mem_flatten_of_mem hmem hbs
    exact ⟨isChunk_cutItems hin, hM bs hin⟩
  · refine h.stored record (List.mem_flatten_of_mem (List.getElem_mem hr) ?_)
    simpa using hrecord

theorem mem_backedUp (h : List.Forall₂ (RunStored sha1 d) runs results)
    (hnew : ∀ run ∈ runs, ∀ item ∈ run.stream, item.2 = .newFile)
    (hM : ∀ run ∈ runs, ∀ bs ∈ (cutItems run.content run.rabin run.stream).flatten, bs ∈ M)
    (hfile : file ∈ backedUp runs results) : ∃ pieces, FileKept sha1 M d file pieces := by
  induction h with
  | nil => cases hfile
  | @cons run records runs results hrun hrest ih =>
    rw [backedUp, List.zipWith_cons_cons, List.flatten_cons, List.mem_append] at hfile
    rcases hfile with hfirst | hlater
    · exact hrun.kept (hnew run List.mem_cons_self) (hM run List.mem_cons_self) hfirst
    · exact ih (fun run hmem => hnew run (List.mem_cons_of_mem _ hmem))
        (fun run hmem => hM run (List.mem_cons_of_mem _ hmem)) hlater

/-- No file is left out. -/
theorem backedUp_contents (h : List.Forall₂ (RunStored sha1 d) runs results)
    (hnew : ∀ run ∈ runs, ∀ item ∈ run.stream, item.2 = .newFile) :
    (backedUp runs results).map Prod.fst =
      runs.flatMap fun run => run.stream.map fun item => run.content item.1 := by
  induction h with
  | nil => rfl
  | @cons run records runs results hrun hrest ih =>
    have hlength : records.length = run.stream.length := by
      have hcut := congrArg List.length hrun.hashes
      have hcontents : (cutItems run.content run.rabin run.stream).map List.flatten =
          run.stream.map fun item => run.content item.1 := cutItems_flatten (hnew run List.mem_cons_self)
      have hflat := congrArg List.length hcontents
      simp only [List.length_map] at hcut hflat
      omega
    have hfirst : (run.files records).map Prod.fst = run.stream.map fun item => run.content item.1 := by
      rw [BackupRun.files, List.map_fst_zip]
      rw [List.length_map, hlength]
    have hrest := ih fun run hmem => hnew run (List.mem_cons_of_mem _ hmem)
    rw [backedUp] at hrest
    rw [backedUp, List.zipWith_cons_cons, List.flatten_cons, List.map_append, hfirst, hrest,
      List.flatMap_cons]

/-- A record leads to the chunk with its fingerprint, if there is only one. -/
theorem requested_fetch {sent : List (Fingerprint × Chunkaddress)} {pieces : List Bytes}
    (hhold : FilesHold M d) (hinj : Set.InjOn sha1 M) (hhashes : sent.map Prod.fst = pieces.map sha1)
    (hM : ∀ bs ∈ pieces, bs ∈ M) (hstored : ∀ record ∈ sent, OnDisk (Hashed sha1) d record.2 record.1) :
    List.Forall₂ (fun fc bs => fetch d fc.chunkaddress fc.chunk_hash = some bs) (requested sent) pieces := by
  induction sent generalizing pieces with
  | nil =>
    obtain rfl := List.map_eq_nil_iff.mp hhashes.symm
    exact .nil
  | cons record sent ih =>
    cases pieces with
    | nil => cases hhashes
    | cons bs pieces =>
      rw [List.map_cons, List.map_cons] at hhashes
      obtain ⟨hhash, hhashes⟩ := List.cons_eq_cons.mp hhashes
      obtain ⟨-, data, hfetch, hgood⟩ := hstored record List.mem_cons_self
      have hsame : data = bs := hinj (hhold _ _ _ hfetch) (hM bs List.mem_cons_self) (hgood.trans hhash)
      refine .cons (hsame ▸ hfetch) (ih hhashes (fun c hc => hM c (List.mem_cons_of_mem _ hc)) ?_)
      exact fun r hr => hstored r (List.mem_cons_of_mem _ hr)

theorem requested_isContainer (hstored : ∀ record ∈ file.2, OnDisk (Hashed sha1) d record.2 record.1) :
    ∀ fc ∈ requested file.2, IsContainer d fc.chunkaddress := by
  intro fc hfc
  obtain ⟨record, hrecord, rfl⟩ := List.mem_map.mp hfc
  exact (hstored record hrecord).exists_file

/-- The containers in memory are those on the disk. -/
theorem Restored.cached {restore : Restore} (h : Restored clock d names files restore)
    (hnames : ∀ name, names.later clock name → d.files.tmp (cstr name) = none)
    (hstored : ∀ file ∈ files, ∀ record ∈ file.2, OnDisk (Hashed sha1) d record.2 record.1) :
    Cached d (IsContainer d) restore.restore_cache := by
  induction h with
  | init =>
    refine restoreInit_cached fun name hname address hfile hsame => hfile ?_
    rw [← hsame]
    exact hnames name hname
  | file _ hfile _ hwrite ih =>
    exact (writeChunks_eq ih (requested_isContainer (hstored _ hfile))).2.2 _ hwrite

/-- The bytes of a file come back. -/
theorem FileKept.writeChunks {pieces : List Bytes} (h : FileKept sha1 M d file pieces)
    (hhold : FilesHold M d) (hinj : Set.InjOn sha1 M) {restore : Restore}
    (hcached : Cached d (IsContainer d) restore.restore_cache) {wrote : ℕ → ℕ} (hwrote : WritesAll wrote) :
    ∃ data restore', writeChunks clock d wrote 0 (requested file.2) restore =
      some (some (data, restore')) ∧ data.flatten = file.1 := by
  have hfetch := requested_fetch hhold hinj h.hashes (fun bs hbs => (h.chunks bs hbs).2) h.stored
  have hread := readAll_of_fetch hfetch (fun j bs hbs => (h.chunks bs hbs).1.2.trans (hwrote j)) 0
  have hwrites := (@writeChunks_eq clock _ _ wrote 0 _ _ hcached (requested_isContainer h.stored)).2.1
  rw [← hwrites] at hread
  obtain ⟨⟨data, restore'⟩, hwrite, rfl⟩ := Option.map_eq_some_iff.mp hread
  exact ⟨data, restore', Option.join_eq_some_iff.mp hwrite, h.flatten⟩

/-- A restore is the reading of the files and the work of the thread. -/
theorem restoreClient_eq {e : RestoreEnv} {conn : Incoming} {pool : List RestoreFile} {outs : List Output}
    (hthread : e.thread = true) (hfiles : getFiles e.chunknum conn = .ok pool)
    (houts : constructFile e.clock e.store (trimSlash e.restore_path) e.io 0 pool e.worker = some outs) :
    restoreClient e conn = .ok outs := by
  rw [getFiles] at hfiles
  rw [restoreClient]
  cases hlist : recvFileList conn with
  | error stop =>
    rw [hlist] at hfiles
    cases hfiles
  | ok p =>
    rw [hlist] at hfiles
    dsimp only at hfiles ⊢
    rw [if_neg (by simp [hthread]), hfiles]
    dsimp only
    rw [houts]

theorem allCounted_noRewrite (hrewrite : run.settings.rewrite = .noRewrite) {cuts : List (List Bytes)} :
    AllCounted run.settings cuts := fun hcfl => by simp [hrewrite] at hcfl

theorem counted_noRewrite (hrewrite : run.settings.rewrite = .noRewrite)
    (hcount : BinCounted run.content run.rabin run.stream) : run.Counted :=
  ⟨hcount, allCounted_noRewrite hrewrite⟩

/-- Without rewriting, every file of every backup comes back as it was. -/
theorem round_trip (sha1 : Bytes → Fingerprint) (runs : List BackupRun)
    (hrewrite : ∀ run ∈ runs, run.settings.rewrite = .noRewrite)
    (hnew : ∀ run ∈ runs, ∀ item ∈ run.stream, item.2 = .newFile)
    (hcount : ∀ run ∈ runs, BinCounted run.content run.rabin run.stream)
    (hfit : RunsFit sha1 runs .empty ⟨1, []⟩)
    (hsha1 : Set.InjOn sha1
      {bs | ∃ run ∈ runs, bs ∈ (cutItems run.content run.rabin run.stream).flatten}) :
    ∃ results d n, backupRuns sha1 runs .empty ⟨1, []⟩ = some (results, d, n) ∧
      ((backedUp runs results).map Prod.fst =
        runs.flatMap fun run => run.stream.map fun item => run.content item.1) ∧
      ∀ clock names, (∀ name, Names.later clock names name → d.files.tmp (cstr name) = none) →
        ∀ restore, Restored clock d names (backedUp runs results) restore →
          ∀ file ∈ backedUp runs results, ∀ wrote, WritesAll wrote →
            ∃ data restore', writeChunks clock d wrote 0 (requested file.2) restore =
              some (some (data, restore')) ∧ data.flatten = file.1 := by
  obtain ⟨results, d, n, hruns, -, -, hstored⟩ :=
    backupRuns_kept (storeKept_empty sha1) (fun run hrun => .inl (hrewrite run hrun))
      (fun run hrun => counted_noRewrite (hrewrite run hrun) (hcount run hrun)) hfit
  have hM : ∀ run ∈ runs, ∀ bs ∈ (cutItems run.content run.rabin run.stream).flatten,
      bs ∈ {bs | ∃ run ∈ runs, bs ∈ (cutItems run.content run.rabin run.stream).flatten} :=
    fun run hrun bs hbs => ⟨run, hrun, hbs⟩
  have hhold := backupRuns_hold (filesHold_empty _) hrewrite hM hruns
  refine ⟨results, d, n, hruns, backedUp_contents hstored hnew, ?_⟩
  intro clock names hnames restore hrestored file hfile wrote hwrote
  have hcached := hrestored.cached hnames fun file hmem => (mem_backedUp hstored hnew hM hmem).choose_spec.stored
  obtain ⟨pieces, hkept⟩ := mem_backedUp hstored hnew hM hfile
  exact hkept.writeChunks hhold hsha1 hcached hwrote

/-- The same file, backed up on two days. -/
def dayRun (day : ℤ) : BackupRun where
  settings := ⟨.noRewrite, fun _ _ => true, fun _ => true, fun _ => true, 0, 0⟩
  clock := fun _ => day
  content := fun _ => [1, 2, 3]
  stream := [([97], .newFile)]
  rabin := ⟨0, 0, fun _ => 0⟩
  u := 0

theorem dayRun_counted (day : ℤ) :
    BinCounted (dayRun day).content (dayRun day).rabin (dayRun day).stream := by
  have hlength : (chunkFile ⟨0, 0, fun _ => 0⟩ [1, 2, 3]).1.length = 1 := by decide +kernel
  change 0 ≤ int32 (chunkFile ⟨0, 0, fun _ => 0⟩ [1, 2, 3]).1.length
  rw [hlength]
  decide

theorem dayRuns_fit : RunsFit (fun _ => zeroFinger) [dayRun 0, dayRun 1] .empty ⟨1, []⟩ := by
  have hruns : (backupFiles (fun _ => zeroFinger) (dayRun 0).settings (dayRun 0).clock (dayRun 0).content
      (dayRun 0).stream ((dayRun 0).start .empty ⟨1, []⟩)).bind (fun p =>
        (backupFiles (fun _ => zeroFinger) (dayRun 1).settings (dayRun 1).clock (dayRun 1).content
          (dayRun 1).stream ((dayRun 1).start (backupEnd p.2) p.2.work.store.names)).map fun q =>
        (decide (binLength p.2.work.fingers < 2 ^ 31), p.2.work.store.names.calls,
          decide (binLength q.2.work.fingers < 2 ^ 31), q.2.work.store.names.calls)) =
      some (true, [⟨0, 2⟩], true, [⟨0, 2⟩, ⟨1, 2⟩]) := by
    decide +kernel
  have hone : (cstr (⟨0, 2⟩ : NameCall).name ≠ cstr (⟨1, 2⟩ : NameCall).name) := by decide +kernel
  intro records t hfirst
  rw [hfirst, Option.bind_some] at hruns
  obtain ⟨⟨records', t'⟩, hsecond, heq⟩ := Option.map_eq_some_iff.mp hruns
  obtain ⟨hfit, heq⟩ := Prod.mk.inj heq
  obtain ⟨hcalls, heq⟩ := Prod.mk.inj heq
  obtain ⟨hfit', hcalls'⟩ := Prod.mk.inj heq
  refine ⟨of_decide_eq_true hfit, ?_, fun records'' t'' hlast => ?_⟩
  · rw [hcalls]
    exact List.nodup_singleton _
  · obtain ⟨-, rfl⟩ := Prod.mk.inj (Option.some.inj (hsecond.symm.trans hlast))
    refine ⟨of_decide_eq_true hfit', ?_, trivial⟩
    rw [hcalls']
    simpa using hone

theorem dayRuns_round_trip :
    ∃ results d n, backupRuns (fun _ => zeroFinger) [dayRun 0, dayRun 1] .empty ⟨1, []⟩ =
      some (results, d, n) ∧ ∃ sent data restore', ([1, 2, 3], sent) ∈ backedUp [dayRun 0, dayRun 1] results ∧
      writeChunks (fun _ => 2) d (fun _ => maxChunkSize) 0 (requested sent) (restoreInit (fun _ => 2) n) =
        some (some (data, restore')) ∧ data.flatten = [1, 2, 3] := by
  have hdays : ∀ run ∈ [dayRun 0, dayRun 1], ∃ day, run = dayRun day := by
    simp
  have hcut : cutItems (fun _ => [1, 2, 3]) ⟨0, 0, fun _ => 0⟩ [([97], .newFile)] = [[[1, 2, 3]]] := by
    decide +kernel
  have hone : ∀ bs ∈ {bs | ∃ run ∈ [dayRun 0, dayRun 1],
      bs ∈ (cutItems run.content run.rabin run.stream).flatten}, bs = [1, 2, 3] := by
    rintro bs ⟨run, hrun, hbs⟩
    obtain ⟨day, rfl⟩ := hdays run hrun
    have hbs : bs ∈ (cutItems (fun _ => [1, 2, 3]) ⟨0, 0, fun _ => 0⟩ [([97], .newFile)]).flatten := hbs
    rw [hcut] at hbs
    simpa using hbs
  obtain ⟨results, d, n, hruns, hfiles, hrestore⟩ := round_trip (fun _ => zeroFinger) [dayRun 0, dayRun 1]
    (fun run hrun => by obtain ⟨day, rfl⟩ := hdays run hrun; rfl)
    (fun run hrun item hitem => by
      obtain ⟨day, rfl⟩ := hdays run hrun
      rw [List.mem_singleton.mp hitem])
    (fun run hrun => by obtain ⟨day, rfl⟩ := hdays run hrun; exact dayRun_counted day)
    dayRuns_fit (fun a ha b hb _ => (hone a ha).trans (hone b hb).symm)
  have hcalls : (backupRuns (fun _ => zeroFinger) [dayRun 0, dayRun 1] .empty ⟨1, []⟩).map
      (fun p => p.2.2.calls) = some [⟨0, 2⟩, ⟨1, 2⟩] := by
    decide +kernel
  rw [hruns] at hcalls
  have hcalls : n.calls = [⟨0, 2⟩, ⟨1, 2⟩] := Option.some.inj hcalls
  have hnames : ∀ name, Names.later (fun _ => 2) n name → d.files.tmp (cstr name) = none := by
    rintro name ⟨k, rfl⟩
    obtain ⟨results', d', n', hruns', hstore, -⟩ :=
      backupRuns_kept (storeKept_empty _) (fun run hrun => .inl (by
        obtain ⟨day, rfl⟩ := hdays run hrun
        rfl)) (fun run hrun => by
        obtain ⟨day, rfl⟩ := hdays run hrun
        exact counted_noRewrite rfl (dayRun_counted day)) dayRuns_fit
    obtain ⟨-, hends⟩ := Prod.mk.inj (Option.some.inj (hruns.symm.trans hruns'))
    obtain ⟨rfl, rfl⟩ := Prod.mk.inj hends
    by_contra hfile
    obtain ⟨call, hcall, hsame⟩ := hstore.named _ hfile
    rw [hcalls] at hcall
    have hint : IsInt call.randomabc ∧ ¬call.second ≡ 2 [ZMOD 2 ^ 32] := by
      simp only [List.mem_cons, List.not_mem_nil, or_false] at hcall
      rcases hcall with rfl | rfl <;> exact ⟨⟨by decide, by decide⟩, by decide⟩
    exact hint.2 ((cstr_name_eq_iff hint.1 (isInt_bmod _)).mp hsame).1
  have hmem : ([1, 2, 3] : Bytes) ∈ (backedUp [dayRun 0, dayRun 1] results).map Prod.fst := by
    rw [hfiles]
    exact List.mem_cons_self
  obtain ⟨⟨bytes, sent⟩, hfile, rfl⟩ := List.mem_map.mp hmem
  obtain ⟨data, restore', hwrite, hflat⟩ := hrestore (fun _ => 2) n hnames _ .init _ hfile
    (fun _ => maxChunkSize) (fun _ => le_refl _)
  exact ⟨results, d, n, hruns, sent, data, restore', hfile, hwrite, hflat⟩

/-- A file of `n` chunks of zeros. -/
def zerosRun (n : ℕ) : BackupRun where
  settings := ⟨.noRewrite, fun _ _ => true, fun _ => true, fun _ => true, 0, 0⟩
  clock := fun _ => 0
  content := fun _ => List.replicate (n * maxChunkSize) 0
  stream := [([97], .newFile)]
  rabin := ⟨0, 0, fun _ => 0⟩
  u := 0

theorem cutItems_zerosRun (n : ℕ) : cutItems (zerosRun n).content (zerosRun n).rabin (zerosRun n).stream =
    [List.replicate n (List.replicate maxChunkSize 0)] := by
  rw [← chunkFile_zeros (zerosRun n).rabin n]
  rfl

/-- `LoadBin` does not come back for a first file whose `chunknum` is negative. -/
theorem backupFiles_zerosRun {n : ℕ} (hn : int32 n < 0) :
    backupFiles (fun _ => zeroFinger) (zerosRun n).settings (zerosRun n).clock (zerosRun n).content
      (zerosRun n).stream ((zerosRun n).start .empty ⟨1, []⟩) = none := by
  rw [Option.eq_none_iff_forall_ne_some]
  rintro ⟨records, t⟩ hfiles
  obtain ⟨sent, u, rest, hfirst, -⟩ := backupFiles_cons hfiles
  obtain ⟨q, hdedup, -⟩ := Option.map_eq_some_iff.mp hfirst
  have hnone : ((zerosRun n).start .empty ⟨1, []⟩).exbin.bin_cache.lookup zeroFinger = none := by
    rw [BackupRun.start, dedupStart_exbin, (extremeBinningInit_eq .empty).2.1]
    exact HTable.lookup_init 100 zeroFinger
  have hlength : (chunkFile ((zerosRun n).start .empty ⟨1, []⟩).rabin
      (List.replicate (n * maxChunkSize) 0)).1.length = n := by
    rw [chunkFile_zeros, List.length_replicate]
  have hcount := chunkDedup_nonneg rfl hnone hdedup
  change 0 ≤ int32 (chunkFile ((zerosRun n).start .empty ⟨1, []⟩).rabin
    (List.replicate (n * maxChunkSize) 0)).1.length at hcount
  rw [hlength] at hcount
  omega

theorem zerosRun_injOn (n : ℕ) : Set.InjOn (fun _ : Bytes => zeroFinger)
    {bs | ∃ run ∈ [zerosRun n], bs ∈ (cutItems run.content run.rabin run.stream).flatten} := by
  have hzeros : ∀ bs ∈ {bs | ∃ run ∈ [zerosRun n],
      bs ∈ (cutItems run.content run.rabin run.stream).flatten}, bs = List.replicate maxChunkSize 0 := by
    rintro bs ⟨run, hrun, hbs⟩
    obtain rfl := List.mem_singleton.mp hrun
    rw [cutItems_zerosRun, List.flatten_singleton] at hbs
    exact List.eq_of_mem_replicate hbs
  exact fun a ha b hb _ => (hzeros a ha).trans (hzeros b hb).symm

/-- All that is assumed holds of a file of 2³¹ chunks of zeros, and its backup does not end. -/
theorem long_file_hangs :
    (∀ run ∈ [zerosRun (2 ^ 31)], run.settings.rewrite = .noRewrite) ∧
      (∀ run ∈ [zerosRun (2 ^ 31)], ∀ item ∈ run.stream, item.2 = .newFile) ∧
      RunsFit (fun _ => zeroFinger) [zerosRun (2 ^ 31)] .empty ⟨1, []⟩ ∧
      Set.InjOn (fun _ => zeroFinger) {bs | ∃ run ∈ [zerosRun (2 ^ 31)],
        bs ∈ (cutItems run.content run.rabin run.stream).flatten} ∧
      backupRuns (fun _ => zeroFinger) [zerosRun (2 ^ 31)] .empty ⟨1, []⟩ = none := by
  have hfiles := backupFiles_zerosRun (n := 2 ^ 31) (by decide)
  refine ⟨?_, ?_, ?_, zerosRun_injOn _, ?_⟩
  · exact List.forall_mem_singleton.mpr rfl
  · exact List.forall_mem_singleton.mpr (List.forall_mem_singleton.mpr rfl)
  · intro records t hsome
    rw [hfiles] at hsome
    cases hsome
  · rw [backupRuns, backupClient, hfiles, Option.map_none, Option.bind_none]

end TCBackup.Client
