import TCBackup.Client.CrashWrites
import TCBackup.Client.NewChunks

/-!
# The two clients

`backup_client` and `pipeline_backup` handle files in the same way when nothing is rewritten. They
differ in what they write last: the main table, or the open container.

## Main definitions

- `Driver` — the two clients
- `Filing` — what holds between two files

## Main results

- `Driver.files_filing` — all files of a backup
- `Moves.always` — the containers that are written meanwhile
-/

namespace TCBackup.Client

open ByteFile Handoff Prefixes

inductive Driver
  | backupClient
  | pipelineBackup
  deriving DecidableEq

section Driver

variable (sha1 : Bytes → Fingerprint) (s : Settings) (clock : ℕ → ℤ) (content : Bytes → Bytes)

/-- The thread that deduplicates, until all files are done. -/
def Driver.files (driver : Driver) (stream : List (Bytes × Answer)) (t : DedupThread) :
    Option DedupThread :=
  match driver with
  | .backupClient => (backupFiles sha1 s clock content stream t).map Prod.snd
  | .pipelineBackup => chunkDedupModule sha1 s clock content stream t

/-- `free_cache_bin`, and then `ExtremeBinningDestroy` and `store_destory` in the order of the
client. -/
def Driver.finish (driver : Driver) (t : DedupThread) : Disk :=
  match driver with
  | .backupClient => backupEnd t
  | .pipelineBackup =>
    let freed := freeCacheBin t.exbin t.work.store.disk
    extremeBinningFlush freed.1 (storeDestory { t.work.store with disk := freed.2 })

/-- One file; `none` where `LoadBin` does not come back. -/
def Driver.item (driver : Driver) (t : DedupThread) (item : Bytes × Answer) : Option DedupThread :=
  match driver with
  | .backupClient => (fileDudup sha1 s clock content t item).map Prod.snd
  | .pipelineBackup => dedupItem sha1 s clock content t item

/-- The state after all files, or that in which `LoadBin` does not come back for one. -/
def Driver.reached (driver : Driver) : List (Bytes × Answer) → DedupThread → DedupThread
  | [], t => t
  | item :: stream, t =>
    match driver.item sha1 s clock content t item with
    | some t => driver.reached stream t
    | none => t

end Driver

variable {sha1 : Bytes → Fingerprint} {s : Settings} {clock : ℕ → ℤ} {content : Bytes → Bytes}
  {ex₀ : ExtremeBinning} {store₀ : Store} {paths : List Bytes} {t t' : DedupThread}
  {σ σ' : ℕ → Stage} {item : Bytes × Answer} {stream : List (Bytes × Answer)} {driver : Driver}
  {F : Fingerprint → BinMap} {cuts : List Bytes} {fileinfo : FileInfo ℕ}
  {q : Bool × FileInfo ℕ × DedupThread}

/-- Without rewriting the stream has no end that matters. -/
theorem Driver.files_eq (hs : s.rewrite = .noRewrite) :
    driver.files sha1 s clock content stream t = stream.foldlM (driver.item sha1 s clock content) t := by
  cases driver with
  | backupClient =>
    rw [Driver.files]
    induction stream generalizing t with
    | nil => rfl
    | cons item stream ih =>
      rw [backupFiles, List.foldlM_cons, Driver.item]
      cases hfirst : fileDudup sha1 s clock content t item with
      | none => rfl
      | some p =>
        have hrest := ih (t := p.2)
        rw [Option.bind_some, Option.map_map]
        exact hrest
  | pipelineBackup =>
    rw [Driver.files, chunkDedupModule]
    have hend : streamEnd s clock content = some := by
      funext u
      rw [streamEnd, hs]
    rw [hend, Option.bind_fun_some]
    rfl

theorem Driver.item_eq (driver : Driver) (path : Bytes) (t : DedupThread) :
    driver.item sha1 s clock content t (path, .newFile) = (chunkDedup sha1 s clock content
      { queuedFile sha1 content path with is_new := .newFile } t).map forward := by
  cases driver with
  | backupClient =>
    rw [Driver.item, fileDudup]
    exact Option.map_map ..
  | pipelineBackup => rfl

/-- A known file is not read, and changes no table and no container. -/
theorem Driver.item_dedupFile (driver : Driver) (hs : s.rewrite = .noRewrite) (path : Bytes)
    (msgs : List Bytes) (t : DedupThread) :
    ∃ u, driver.item sha1 s clock content t (path, .dedupFile msgs) = some u ∧ OnlyChunks t u := by
  have honly := appendChunks_only (msgs.map receivedChunk)
    { queuedFile sha1 content path with is_new := .dedupFile } t
  cases driver with
  | backupClient => exact ⟨_, rfl, honly⟩
  | pipelineBackup =>
    exact ⟨_, if_pos hs, honly.exbin, honly.rabin, honly.cfl, honly.perfect, honly.failed, honly.fingers,
      honly.store⟩

/-- What either client does with a file. -/
structure ItemDone (sha1 : Bytes → Fingerprint) (s : Settings) (clock : ℕ → ℤ)
    (content : Bytes → Bytes) (ex₀ : ExtremeBinning) (store₀ : Store) (t : DedupThread)
    (σ : ℕ → Stage) (item : Bytes × Answer) (t' : DedupThread) (σ' : ℕ → Stage) : Prop where
  moves : Moves sha1 s clock (FirstLoad ex₀ store₀) (t.work, σ) (t'.work, σ')
  between : ∃ paths, Between sha1 s content ex₀ store₀ paths t' σ'
  rabin : t'.rabin = (cutItem content t.rabin item).2
  kind : (∃ q, item.2 = .newFile ∧ chunkDedup sha1 s clock content
      { queuedFile sha1 content item.1 with is_new := .newFile } t = some q ∧ t' = forward q) ∨
    (cutItem content t.rabin item).1 = [] ∧ t'.exbin = t.exbin ∧ t'.work.fingers = t.work.fingers ∧
      t'.work.store = t.work.store

theorem Driver.item_done (hs : s.rewrite = .noRewrite)
    (h : Between sha1 s content ex₀ store₀ paths t σ)
    (hrun : driver.item sha1 s clock content t item = some t') :
    ∃ σ', ItemDone sha1 s clock content ex₀ store₀ t σ item t' σ' := by
  obtain ⟨σ', hmoves, hbetween⟩ : ∃ σ', Moves sha1 s clock (FirstLoad ex₀ store₀) (t.work, σ) (t'.work, σ') ∧
      ∃ paths, Between sha1 s content ex₀ store₀ paths t' σ' := by
    cases driver with
    | backupClient =>
      obtain ⟨⟨sent, u⟩, hfile, rfl⟩ := Option.map_eq_some_iff.mp hrun
      obtain ⟨σ', hdudup⟩ := fileDudup_dudup (by simp [hs]) h (by simp [hs]) hfile
      exact ⟨σ', hdudup.moves, hdudup.between⟩
    | pipelineBackup =>
      obtain ⟨σ', hmoves, hb⟩ := dedupItem_between h (by simp [hs]) hrun
      exact ⟨σ', hmoves, _, hb⟩
  obtain ⟨path, answer⟩ := item
  cases answer with
  | newFile =>
    rw [driver.item_eq] at hrun
    obtain ⟨q, hq, rfl⟩ := Option.map_eq_some_iff.mp hrun
    have hrabin := (chunkDedup_rabin hq).1.trans (cutFile_cut clock h rfl).rabin
    exact ⟨σ', hmoves, hbetween, hrabin, .inl ⟨q, rfl, hq, rfl⟩⟩
  | dedupFile msgs =>
    obtain ⟨u, hu, honly⟩ := driver.item_dedupFile hs path msgs t
    obtain rfl := Option.some.inj (hu.symm.trans hrun)
    exact ⟨σ', hmoves, hbetween, honly.rabin, .inr ⟨rfl, honly.exbin, honly.fingers, honly.store⟩⟩

/-- `LoadBin` leaves all addresses as they are. -/
theorem loadBin_binaddr {ex ex' : ExtremeBinning} (hmain : ex.main_table.WF) {d : Disk}
    {k file_hash : Fingerprint} {n : ℤ} {bin : Bin} (h : loadBin ex d k file_hash n = some (bin, ex'))
    (k' : Fingerprint) : ex'.binaddr k' = ex.binaddr k' := by
  have htable : ∀ table, (locationBin ex.main_table k file_hash).2 = table →
      ((table.lookup k').map MainIndex.binaddr).getD 0 = ex.binaddr k' := by
    rintro _ rfl
    rw [locationBin, ExtremeBinning.binaddr]
    cases hlookup : ex.main_table.lookup k with
    | some mi => rfl
    | none =>
      dsimp only
      rw [hmain.lookup_insert hlookup]
      split
      · next heq =>
        rw [heq, hlookup]
        rfl
      · rfl
  rw [loadBin] at h
  split at h
  · obtain ⟨-, rfl⟩ := Prod.mk.inj (Option.some.inj h)
    rfl
  · dsimp only at h
    obtain ⟨b, -, h⟩ := Option.bind_eq_some_iff.mp h
    split at h
    · obtain ⟨-, rfl⟩ := Prod.mk.inj (Option.some.inj h)
      exact htable _ rfl
    · obtain ⟨r, -, heq⟩ := Option.map_eq_some_iff.mp h
      obtain ⟨-, rfl⟩ := Prod.mk.inj heq
      exact htable _ rfl

/-- What holds between two files, after the files with the chunks `cuts`. -/
structure Filing (sha1 : Bytes → Fingerprint) (ex₀ : ExtremeBinning) (F : Fingerprint → BinMap)
    (cuts : List Bytes) (t : DedupThread) : Prop where
  order : BinsInOrder F t
  address : t.exbin.binaddr zeroFinger = ex₀.binaddr zeroFinger
  bin : t.exbin.bin_cache.lookup zeroFinger = none ∧ cuts = [] ∨
    t.exbin.bin_cache.lookup zeroFinger ≠ none ∧ Added sha1 (F zeroFinger) cuts t.work

theorem chunkDedup_filing (hs : s.rewrite = .noRewrite) (hfile : fileinfo.is_new = .newFile)
    (h : Between sha1 s content ex₀ store₀ paths t σ) (hfiling : Filing sha1 ex₀ F cuts t)
    (hempty : store₀.container.chunk_num = 0)
    (hloads : ∀ store fingers, FirstLoad ex₀ store₀ store fingers → fingers.WF)
    (hchunks : fileinfo.chunks = [])
    (hsize : fileinfo.file_size = (content fileinfo.file_path).length)
    (hrun : chunkDedup sha1 s clock content fileinfo t = some q) :
    Filing sha1 ex₀ F (cuts ++ (chunkFile t.rabin (content fileinfo.file_path)).1) (forward q) := by
  have horder := chunkDedup_inOrder h hfiling.order hloads hchunks hsize (fun _ => hfile) (by simp [hs]) hrun
  obtain ⟨data, hbins⟩ := hfiling.order.bins
  obtain ⟨-, hb, hcut, rs, hf⟩ := cutFile_spec clock (FirstLoad ex₀ store₀) h hchunks
  have hfresh := cutFile_cut clock h hchunks
  rw [chunkDedup] at hrun
  generalize cutFile sha1 content fileinfo t = p at hb hcut hf hfresh hrun
  obtain ⟨f, u⟩ := p
  dsimp only at hb hcut hf hfresh hrun
  obtain ⟨⟨bin, ex⟩, hload, rfl⟩ := Option.map_eq_some_iff.mp hrun
  rw [hcut.rep] at hload
  obtain ⟨-, hcache, hbin, hrep⟩ := hb.bins.openBin sha1 s clock hload
  rw [hfresh.exbin, hfresh.store] at hload
  obtain ⟨bin', ex', hload', hbins', -, hfound⟩ :=
    hbins.loadBin (Finset.mem_singleton_self zeroFinger) f.file_hash (nonneg_of_loadBin hload)
  obtain ⟨rfl, rfl⟩ := Prod.mk.inj (Option.some.inj (hload.symm.trans hload'))
  have hbinwf := (hbins'.cached zeroFinger bin hbin).2.1
  have hopened : Added sha1 (F zeroFinger) cuts (u.openBin bin).work := by
    rcases hfiling.bin with ⟨hnone, rfl⟩ | ⟨hcached, hadded⟩
    · have hlookup := (hfound.resolve_left fun hsome => by rw [hnone] at hsome; cases hsome).2
      refine Added.start hbinwf hlookup ?_
      show u.work.store.container.chunk_num = 0
      rw [hfresh.store, (h.bins.unloaded hnone).2.1]
      exact hempty
    · have hsome := hfound.resolve_right fun hnone => hcached hnone.1
      exact hadded.congr (h.bins.loaded bin hsome).1 hfresh.store
  have hpath : f.file_path = fileinfo.file_path := by rw [hf]
  have hnew : f.is_new = .newFile := by
    rw [hf]
    exact hfile
  have hmark : (markDeplicateChunk s clock content f ({ u with exbin := ex }.openBin bin)).2.work =
      markNewFile clock (content fileinfo.file_path) 0 f.chunks (u.openBin bin).work := by
    rw [markDeplicateChunk, hs]
    dsimp only
    rw [hnew, hpath]
    rfl
  have hrow : f.chunks.map (u.openBin bin).work.chunk =
      fingerChunks sha1 0 (chunkFile t.rabin (content fileinfo.file_path)).1 := hfresh.chunks
  have hadded := markNewFile_added clock (content fileinfo.file_path) hcut.hand.nodup hrow hopened 0
  rw [← hmark] at hadded
  generalize hm : markDeplicateChunk s clock content f ({ u with exbin := ex }.openBin bin) = m at hadded horder ⊢
  have hexbin : m.2.exbin = ex := by
    rw [← hm, markDeplicateChunk_exbin]
    rfl
  have hlookup := (lookup_closeBin (hexbin ▸ hcache) (hexbin ▸ hbin) hrep).2
  refine ⟨horder, ?_, .inr ⟨?_, hadded.congr (forward_fingers _) (forward_store _)⟩⟩
  · rw [forward_exbin]
    show m.2.exbin.binaddr zeroFinger = ex₀.binaddr zeroFinger
    rw [hexbin, loadBin_binaddr hbins.main hload, hfiling.address]
  · rw [forward_exbin]
    dsimp only
    rw [hlookup]
    exact Option.some_ne_none _

theorem ItemDone.filing (hdone : ItemDone sha1 s clock content ex₀ store₀ t σ item t' σ')
    (hs : s.rewrite = .noRewrite) (h : Between sha1 s content ex₀ store₀ paths t σ)
    (hfiling : Filing sha1 ex₀ F cuts t) (hempty : store₀.container.chunk_num = 0)
    (hloads : ∀ store fingers, FirstLoad ex₀ store₀ store fingers → fingers.WF) :
    Filing sha1 ex₀ F (cuts ++ (cutItem content t.rabin item).1) t' := by
  rcases hdone.kind with ⟨q, hitem, hq, rfl⟩ | ⟨hnil, hexbin, hfingers, hstore⟩
  · rw [cutItem, hitem]
    exact chunkDedup_filing hs rfl h hfiling hempty hloads rfl rfl hq
  · rw [hnil, List.append_nil]
    refine ⟨⟨?_, ?_⟩, ?_, ?_⟩
    · rw [hexbin, hstore]
      exact hfiling.order.bins
    · rw [hfingers]
      exact hfiling.order.wf
    · rw [hexbin]
      exact hfiling.address
    · rw [hexbin]
      exact hfiling.bin.imp_right fun hcached => ⟨hcached.1, hcached.2.congr hfingers hstore⟩

/-- What is known when all files are done. -/
structure Filed (sha1 : Bytes → Fingerprint) (s : Settings) (clock : ℕ → ℤ) (content : Bytes → Bytes)
    (ex₀ : ExtremeBinning) (store₀ : Store) (F : Fingerprint → BinMap) (cuts : List Bytes)
    (t : DedupThread) (σ : ℕ → Stage) (t' : DedupThread) (σ' : ℕ → Stage) : Prop where
  moves : Moves sha1 s clock (FirstLoad ex₀ store₀) (t.work, σ) (t'.work, σ')
  between : ∃ paths, Between sha1 s content ex₀ store₀ paths t' σ'
  filing : Filing sha1 ex₀ F cuts t'

theorem Driver.items_filed (hs : s.rewrite = .noRewrite)
    (h : Between sha1 s content ex₀ store₀ paths t σ)
    (hfiling : Filing sha1 ex₀ F cuts t) (hempty : store₀.container.chunk_num = 0)
    (hloads : ∀ store fingers, FirstLoad ex₀ store₀ store fingers → fingers.WF)
    (hrun : stream.foldlM (driver.item sha1 s clock content) t = some t') :
    ∃ σ', Filed sha1 s clock content ex₀ store₀ F (cuts ++ (cutItems content t.rabin stream).flatten)
      t σ t' σ' := by
  induction stream generalizing t σ paths cuts with
  | nil =>
    obtain rfl := Option.some.inj hrun
    refine ⟨σ, Moves.refl _ _, ⟨paths, h⟩, ?_⟩
    rw [cutItems, List.flatten_nil, List.append_nil]
    exact hfiling
  | cons item stream ih =>
    rw [List.foldlM_cons] at hrun
    obtain ⟨u, hitem, hrest⟩ := Option.bind_eq_some_iff.mp hrun
    obtain ⟨σ₁, hdone⟩ := driver.item_done hs h hitem
    obtain ⟨paths₁, hb⟩ := hdone.between
    have hnext := hdone.filing hs h hfiling hempty hloads
    obtain ⟨σ', hfiled⟩ := ih hb hnext hrest
    have hcuts := hfiled.filing
    rw [hdone.rabin, List.append_assoc] at hcuts
    refine ⟨σ', hdone.moves.trans hfiled.moves, hfiled.between, ?_⟩
    rw [cutItems, List.flatten_cons]
    exact hcuts

theorem Driver.items_end (driver : Driver) (hs : s.rewrite = .noRewrite) (clock : ℕ → ℤ)
    (h : Between sha1 s content ex₀ store₀ paths t σ)
    (hload : ∀ file_hash (n : ℕ), ∃ b, loadBin ex₀ store₀.disk zeroFinger file_hash n = some b)
    (hcount : t.exbin.bin_cache.lookup zeroFinger = none → BinCounted content t.rabin stream) :
    ∃ t', stream.foldlM (driver.item sha1 s clock content) t = some t' := by
  induction stream generalizing t σ paths with
  | nil => exact ⟨t, rfl⟩
  | cons item stream ih =>
    obtain ⟨u, hitem, hnext⟩ : ∃ u, driver.item sha1 s clock content t item = some u ∧
        (u.exbin.bin_cache.lookup zeroFinger = none → BinCounted content u.rabin stream) := by
      obtain ⟨path, answer⟩ := item
      cases answer with
      | newFile =>
        obtain ⟨q, hq, hloaded⟩ := chunkDedup_ends s clock h hload
          (rfl : ({ queuedFile sha1 content path with is_new := .newFile } : FileInfo ℕ).chunks = []) hcount
        exact ⟨_, by rw [driver.item_eq, hq]; rfl, fun hnone => absurd hnone hloaded⟩
      | dedupFile msgs =>
        obtain ⟨u, hu, hexbin, hrabin, -⟩ := driver.item_dedupFile hs path msgs t
        exact ⟨u, hu, by rwa [hexbin, hrabin]⟩
    obtain ⟨σ₁, hdone⟩ := driver.item_done hs h hitem
    obtain ⟨paths₁, hb⟩ := hdone.between
    obtain ⟨t', hrest⟩ := ih hb hnext
    refine ⟨t', ?_⟩
    rw [List.foldlM_cons, hitem]
    exact hrest

theorem Driver.reached_eq (hfiles : stream.foldlM (driver.item sha1 s clock content) t = some t') :
    driver.reached sha1 s clock content stream t = t' := by
  induction stream generalizing t with
  | nil => exact Option.some.inj hfiles
  | cons item stream ih =>
    rw [List.foldlM_cons] at hfiles
    obtain ⟨u, hitem, hrest⟩ := Option.bind_eq_some_iff.mp hfiles
    rw [Driver.reached, hitem]
    exact ih hrest

/-- A file that the bin is not loaded for comes before every file that is cut: nothing is written. -/
theorem Driver.items_hang (driver : Driver) (hs : s.rewrite = .noRewrite) (clock : ℕ → ℤ)
    (hnone : t.exbin.bin_cache.lookup zeroFinger = none) (hcount : ¬BinCounted content t.rabin stream) :
    stream.foldlM (driver.item sha1 s clock content) t = none ∧
      (driver.reached sha1 s clock content stream t).work.store = t.work.store := by
  induction stream generalizing t with
  | nil => exact absurd trivial hcount
  | cons item stream ih =>
    obtain ⟨path, answer⟩ := item
    rw [List.foldlM_cons, Driver.reached]
    cases answer with
    | newFile =>
      have hhang : driver.item sha1 s clock content t (path, .newFile) = none := by
        rw [driver.item_eq, Option.map_eq_none_iff, Option.eq_none_iff_forall_ne_some]
        intro q hq
        have hnonneg := chunkDedup_nonneg rfl hnone hq
        exact hcount hnonneg
      rw [hhang]
      exact ⟨rfl, rfl⟩
    | dedupFile msgs =>
      obtain ⟨u, hu, honly⟩ := driver.item_dedupFile hs path msgs t
      rw [hu, ← honly.store]
      exact ih (honly.exbin ▸ hnone) (honly.rabin ▸ hcount)

variable {Loads : Store → HTable 20 Chunkaddress → Prop} {w w' : Work} {d₀ : Disk} {n₀ : Names}
  {P : Files → Prop}

theorem storeChunk_disk (clock : ℕ → ℤ) (store : Store) (chunk : Chunk) :
    (storeChunk clock store chunk).2.disk = store.disk ∨
      (storeChunk clock store chunk).2.disk = writeContainer store.disk store.container := by
  cases hfull : containerFull store.container chunk.length with
  | false =>
    rw [storeChunk_room clock hfull]
    exact .inl rfl
  | true =>
    rw [storeChunk_full clock hfull]
    exact .inr rfl

theorem Handle.disk {fc fc' : FingerChunk} {st st' : Stage} {chunks : List Chunk}
    {fingers : HTable 20 Chunkaddress} {store : Store}
    (h : Handle sha1 clock w fc st fc' chunks fingers store st') :
    store.disk = w.store.disk ∨ store.disk = writeContainer w.store.disk w.store.container := by
  cases h with
  | storeNew | rewrite => exact storeChunk_disk clock w.store _
  | _ => exact .inl rfl

theorem Move.disk (hm : Move sha1 s clock Loads (w, σ) (w', σ')) :
    w'.store.disk = w.store.disk ∨ w'.store.disk = writeContainer w.store.disk w.store.container := by
  cases hm with
  | step hs =>
    generalize hp : (w, σ) = p at hs
    generalize hq : (w', σ') = q at hs
    cases hs with
    | @handle w₀ σ₀ r es fc chunks fingers store s hr hstep hcell hheld hacts hafter =>
      obtain ⟨rfl, rfl⟩ := Prod.mk.inj hp
      obtain ⟨rfl, rfl⟩ := Prod.mk.inj hq
      exact hstep.disk
  | _ => exact .inl rfl

/-- What new containers leave alone holds after every one of them. -/
theorem Moves.always (hstep : ∀ fs name data, P fs → fs.tmp name = none → P (fs.apply (.container name data)))
    (hm : Moves sha1 s clock Loads (w, σ) (w', σ')) (hloads : LoadsSound sha1 Loads)
    (h : IndexSound sha1 d₀ n₀ w σ) (hnames : Distinct d₀ n₀ w'.store.names) (hP : P w.store.disk.files) :
    ∃ ws, w'.store.disk = w.store.disk.writes ws ∧ Always Files.apply P w.store.disk.files ws := by
  refine (Moves.induct (P := fun v τ => Distinct d₀ n₀ v.store.names → IndexSound sha1 d₀ n₀ v τ ∧
    ∃ ws, v.store.disk = w.store.disk.writes ws ∧ Always Files.apply P w.store.disk.files ws) ?_ hm
    (fun _ => ⟨h, [], rfl, always_nil.mpr hP⟩) hnames).2
  intro v τ v' τ' hv hmove hnames'
  have hbefore := hnames'.mono hmove.calls
  obtain ⟨hindex, ws, hdisk, halways⟩ := hv hbefore
  refine ⟨hindex.move hbefore hloads hmove, ?_⟩
  rcases hmove.disk with hsame | hwrite
  · exact ⟨ws, hsame.trans hdisk, halways⟩
  · refine ⟨ws ++ [.container (cstr v.store.container.name) (containerBytes v.store.container)], ?_, ?_⟩
    · rw [hwrite, Disk.writes_append, ← hdisk]
      rfl
    · have hend := halways.end
      have hfree := hindex.storeOk.free hbefore
      have hfiles := Disk.writes_files w.store.disk ws
      rw [← hdisk] at hfiles
      rw [show ws.foldl Files.apply w.store.disk.files = v.store.disk.files from hfiles.symm] at hend
      refine always_append.mpr ⟨halways, ?_⟩
      rw [show ws.foldl Files.apply w.store.disk.files = v.store.disk.files from hfiles.symm, always_cons,
        always_nil]
      exact ⟨hend, hstep _ _ _ hend hfree⟩

end TCBackup.Client
