import TCBackup.Client.PolicyRuns
import TCBackup.Pipeline.RecipeTransport

/-!
# Every chunk in one place

Without rewriting, the containers of all backups hold the chunks of all files, each of them in one
container and once in it.

## Main definitions

- `FilesExact`, `StoreExact` — containers hold what the bin says
- `ExactKept` — what holds between two backups
- `InContainer` — a container file has a fingerprint

## Main results

- `markNewFile_exact` — one file
- `Driver.items_exact` — all files of a backup
- `ExactKept.backups` — all backups
- `stored_exactly_once` — the containers in the end
-/

namespace TCBackup.Client

open ByteFile Handoff

/-- A container file has no fingerprint twice, and the bin leads to this file for all of them. -/
def FilesExact (F : BinMap) (d : Disk) : Prop :=
  ∀ a c, loadContainer d a = some c → (ChainTable.keys c.meta_table).Nodup ∧
    ∀ hash ∈ ChainTable.keys c.meta_table, ∃ a', F hash = some a' ∧ cstr a' = cstr a

/-- The bin leads to this container for all these chunks. -/
def AllNamed (F : BinMap) (c : Container) (l : List Chunk) : Prop :=
  ∀ chunk ∈ l, ∃ a, F chunk.hash = some a ∧ cstr a = cstr c.name

/-- It is the same with the open container. -/
structure StoreExact (F : BinMap) (s : Store) : Prop where
  files : FilesExact F s.disk
  opened : ∃ l, Packed s.container l ∧ (l.map Chunk.hash).Nodup ∧ AllNamed F s.container l

variable {F G : BinMap} {d d' : Disk} {c c' : Container} {l : List Chunk} {store : Store} {chunk : Chunk}
  {a : Chunkaddress}

-- ════════════════════════════════════════════════════════════════════════
-- Containers
-- ════════════════════════════════════════════════════════════════════════

theorem FilesExact.congr (h : FilesExact F d) (htmp : d'.files.tmp = d.files.tmp) : FilesExact F d' := by
  intro a c hload
  rw [loadContainer, readContainer, htmp] at hload
  exact h a c hload

theorem map_hash_addrs (offset : ℕ) (l : List Chunk) :
    (addrs offset l).map ChunkAddr.hash = l.map Chunk.hash := by
  induction l generalizing offset with
  | nil => rfl
  | cons chunk l ih => rw [addrs, List.map_cons, List.map_cons, ih]

theorem Packed.keys_perm (h : Packed c l) :
    (ChainTable.keys c.meta_table).Perm (l.map Chunk.hash) := by
  have hperm := h.entries.map Prod.fst
  rw [List.map_map] at hperm
  rwa [← map_hash_addrs 0 l]

/-- What is read from the file of a container. -/
theorem Packed.of_load (h : Packed c l) (hname : cstr a = cstr c.name)
    (hload : loadContainer (writeContainer d c) a = some c') : Packed c' l := by
  obtain ⟨c₁, hread, hpacked⟩ := h.of_read d a
  rw [loadContainer, readContainer, hname, ← readContainer, hread] at hload
  obtain rfl := Option.some.inj hload
  exact hpacked

theorem AllNamed.mono (h : AllNamed F c l) (hF : ∀ hash a, F hash = some a → G hash = some a) :
    AllNamed G c l := by
  intro chunk hchunk
  obtain ⟨a, ha, hname⟩ := h chunk hchunk
  exact ⟨a, hF _ a ha, hname⟩

theorem FilesExact.mono (h : FilesExact F d) (hF : ∀ hash a, F hash = some a → G hash = some a) :
    FilesExact G d := by
  intro a c hload
  obtain ⟨hnodup, hnamed⟩ := h a c hload
  refine ⟨hnodup, fun hash hkey => ?_⟩
  obtain ⟨a', ha', hname⟩ := hnamed hash hkey
  exact ⟨a', hF _ a' ha', hname⟩

theorem FilesExact.write (h : FilesExact F d) (hpacked : Packed c l)
    (hnodup : (l.map Chunk.hash).Nodup) (hnamed : AllNamed F c l) :
    FilesExact F (writeContainer d c) := by
  intro a c₁ hload
  by_cases hname : cstr a = cstr c.name
  · have hread := hpacked.of_load hname hload
    refine ⟨hread.keys_perm.nodup_iff.mpr hnodup, fun hash hkey => ?_⟩
    obtain ⟨chunk, hchunk, rfl⟩ := hread.mem_keys.mp hkey
    obtain ⟨a', ha', hsame⟩ := hnamed chunk hchunk
    exact ⟨a', ha', hsame.trans hname.symm⟩
  · have hfile : (writeContainer d c).files.tmp (cstr a) = d.files.tmp (cstr a) := by
      rw [writeContainer, Disk.write_files]
      exact Function.update_of_ne hname _ _
    rw [loadContainer, readContainer, hfile, ← readContainer] at hload
    exact h a c₁ hload

-- ════════════════════════════════════════════════════════════════════════
-- One chunk
-- ════════════════════════════════════════════════════════════════════════

theorem storeExact_init (h : FilesExact F d) (clock : ℕ → ℤ) (n : Names) : StoreExact F (storeInit clock d n) :=
  ⟨h, [], packed_initContainer clock n, by simp, by simp [AllNamed]⟩

/-- A chunk that the bin did not have enters a container. -/
theorem Packed.exact_place (hpacked : Packed c l) (hnodup : (l.map Chunk.hash).Nodup)
    (hnamed : AllNamed F c l) (hsized : chunk.Sized) (hroom : containerFull c chunk.length = false)
    (hnew : F chunk.hash = none) (hF : ∀ hash a, F hash = some a → G hash = some a)
    (hG : G chunk.hash = some c.name) :
    ∃ l', Packed (placeChunk c chunk) l' ∧ (l'.map Chunk.hash).Nodup ∧ AllNamed G (placeChunk c chunk) l' := by
  refine ⟨l ++ [chunk], hpacked.append hsized hroom, ?_, fun x hx => ?_⟩
  · rw [List.map_append, List.map_singleton]
    refine hnodup.append (List.nodup_singleton _) ?_
    rw [List.disjoint_singleton]
    intro hmem
    obtain ⟨x, hx, hhash⟩ := List.mem_map.mp hmem
    obtain ⟨a, ha, -⟩ := hnamed x hx
    rw [hhash, hnew] at ha
    cases ha
  · rcases List.mem_append.mp hx with hold | hx
    · exact hnamed.mono hF x hold
    · rw [List.mem_singleton.mp hx]
      exact ⟨c.name, hG, rfl⟩

theorem StoreExact.storeChunk (h : StoreExact F store) (clock : ℕ → ℤ) (hsized : chunk.Sized)
    (hnew : F chunk.hash = none) (hF : ∀ hash a, F hash = some a → G hash = some a)
    (hG : G chunk.hash = some (storeChunk clock store chunk).2.container.name) :
    StoreExact G (storeChunk clock store chunk).2 := by
  obtain ⟨l, hpacked, hnodup, hnamed⟩ := h.opened
  cases hfull : containerFull store.container chunk.length with
  | false =>
    rw [storeChunk_room clock hfull] at hG ⊢
    exact ⟨h.files.mono hF, hpacked.exact_place hnodup hnamed hsized hfull hnew hF hG⟩
  | true =>
    have hfresh := packed_initContainer clock store.names
    have hroom := hfresh.room_of_nil hsized
    rw [storeChunk_full clock hfull, appendChunkToContainer, hroom] at hG ⊢
    exact ⟨(h.files.mono hF).write hpacked hnodup (hnamed.mono hF),
      hfresh.exact_place (by simp) (by simp [AllNamed]) hsized hroom hnew hF hG⟩

theorem StoreExact.storeDestory (h : StoreExact F store) : FilesExact F (storeDestory store) := by
  obtain ⟨l, hpacked, hnodup, hnamed⟩ := h.opened
  rw [Client.storeDestory]
  split
  · exact h.files.write hpacked hnodup hnamed
  · exact h.files

-- ════════════════════════════════════════════════════════════════════════
-- One file
-- ════════════════════════════════════════════════════════════════════════

variable {sha1 : Bytes → Fingerprint} {s : Settings} {clock : ℕ → ℤ} {content : Bytes → Bytes}
  {w w' : Work} {rs : List ℕ} {r : ℕ} {front bs : Bytes} {cuts pieces : List Bytes}

/-- What `mark_deplicate_chunk` stores when the bin does not have the chunk. -/
theorem markChunk_stored (clock : ℕ → ℤ) {file : Bytes} {size : ℕ} (hbs : IsChunk bs)
    (hhash : (w.chunk r).chunk_hash = sha1 bs) (hlen : (w.chunk r).chunklen = bs.length)
    (hread : readAt file size bs.length = bs) (hnone : w.fingers.lookup (sha1 bs) = none) :
    ∃ chunk : Chunk, chunk.Sized ∧ chunk.hash = sha1 bs ∧
      (markChunk clock file size r w).store = (storeChunk clock w.store chunk).2 ∧
      (markChunk clock file size r w).fingers =
        w.fingers.insert (sha1 bs) (storeChunk clock w.store chunk).2.container.name := by
  have hfound : w.found r = none := by rw [Work.found, hhash, hnone]
  have hchunk : (w.markNew r).chunk r = { w.chunk r with is_new := .newChunk } := chunk_set_self _ _ _
  have hdata : (chunkFrom file size ((w.markNew r).chunk r)).data = bs := by
    rw [hchunk, chunkFrom, hlen, hread]
  refine ⟨chunkFrom file size ((w.markNew r).chunk r), ⟨?_, ?_⟩, ?_, ?_, ?_⟩
  · rw [hdata, hchunk, chunkFrom, hlen]
  · rw [hchunk, chunkFrom, hlen]
    exact hbs.2
  · rw [hchunk, chunkFrom, hhash]
  · rw [markChunk, hfound]
    dsimp only
    rw [storeNew, insertMeta_store, write_store]
    rfl
  · rw [markChunk, hfound]
    dsimp only
    rw [storeNew, Work.insertMeta, write_chunk_self, write_fingers, Work.newAddress, storeChunk_address]
    dsimp only
    rw [hchunk, hhash]
    rfl

/-- The bin and the containers of a thread agree. -/
structure WorkExact (w : Work) : Prop where
  wf : w.fingers.WF
  store : StoreExact w.fingers.lookup w.store

theorem WorkExact.markChunk (h : WorkExact w) (clock : ℕ → ℤ) {file : Bytes} {size : ℕ} (hbs : IsChunk bs)
    (hhash : (w.chunk r).chunk_hash = sha1 bs) (hlen : (w.chunk r).chunklen = bs.length)
    (hread : readAt file size bs.length = bs) : WorkExact (markChunk clock file size r w) := by
  cases hfound : w.fingers.lookup (sha1 bs) with
  | some a =>
    rw [Client.markChunk, Work.found, hhash, hfound]
    exact ⟨h.wf, h.store⟩
  | none =>
    obtain ⟨chunk, hsized, hkey, hstore, hfingers⟩ := markChunk_stored clock hbs hhash hlen hread hfound
    have hlookup := h.wf.lookup_insert hfound (storeChunk clock w.store chunk).2.container.name
    rw [← hkey] at hfound hlookup hfingers
    refine ⟨?_, ?_⟩
    · rw [hfingers]
      exact h.wf.insert hfound _
    rw [hstore, hfingers]
    refine h.store.storeChunk clock hsized hfound (fun hash a ha => ?_) ?_
    · have hne : hash ≠ chunk.hash := by
        rintro rfl
        rw [hfound] at ha
        cases ha
      rw [hlookup, if_neg hne, ha]
    · rw [hlookup, if_pos rfl]

theorem WorkExact.markNewFile (h : WorkExact w) (clock : ℕ → ℤ) (hnodup : rs.Nodup)
    (hpieces : ∀ bs ∈ pieces, IsChunk bs)
    (hrow : rs.map w.chunk = fingerChunks sha1 front.length pieces) :
    WorkExact (markNewFile clock (front ++ pieces.flatten) front.length rs w) := by
  induction rs generalizing front pieces w with
  | nil => exact h
  | cons r rs ih =>
    obtain ⟨hr, hnodup⟩ := List.nodup_cons.mp hnodup
    cases pieces with
    | nil => simp [fingerChunks] at hrow
    | cons bs pieces =>
      rw [List.map_cons, fingerChunks] at hrow
      obtain ⟨hfirst, hrest⟩ := List.cons_eq_cons.mp hrow
      have hlen : (w.chunk r).chunklen = bs.length := by rw [hfirst]
      have hhash : (w.chunk r).chunk_hash = sha1 bs := by rw [hfirst]
      have hread : readAt (front ++ (bs :: pieces).flatten) front.length bs.length = bs := by
        rw [List.flatten_cons, readAt, List.drop_left, List.take_left]
      have hmark := h.markChunk clock (hpieces bs List.mem_cons_self) hhash hlen hread
      have hsame : rs.map (Client.markChunk clock (front ++ (bs :: pieces).flatten) front.length r w).chunk =
          fingerChunks sha1 (front ++ bs).length pieces := by
        rw [List.length_append, ← hrest]
        apply List.map_congr_left
        intro q hq
        exact markChunk_others clock _ _ w fun heq => hr (heq ▸ hq)
      have hnext := ih hmark hnodup (fun c hc => hpieces c (List.mem_cons_of_mem _ hc)) hsame
      rw [List.append_assoc, ← List.flatten_cons, List.length_append] at hnext
      rw [Client.markNewFile, hlen]
      exact hnext

-- ════════════════════════════════════════════════════════════════════════
-- All files of a backup
-- ════════════════════════════════════════════════════════════════════════

variable {ex₀ : ExtremeBinning} {store₀ : Store} {paths : List Bytes} {t t' : DedupThread}
  {σ : ℕ → Stage} {fileinfo : FileInfo ℕ} {item : Bytes × Answer} {stream : List (Bytes × Answer)}
  {q : Bool × FileInfo ℕ × DedupThread} {F : Fingerprint → BinMap} {driver : Driver}

/-- The entries of the bin, which is on the disk until it is loaded. -/
def DedupThread.index (F : Fingerprint → BinMap) (t : DedupThread) : BinMap :=
  if t.exbin.bin_cache.lookup zeroFinger = none then F zeroFinger else t.work.fingers.lookup

/-- The bin and the containers agree between two files. -/
def Agrees (F : Fingerprint → BinMap) (t : DedupThread) : Prop := StoreExact (t.index F) t.work.store

/-- Only the bin and the store matter. -/
theorem Agrees.congr (h : Agrees F t) (hexbin : t'.exbin = t.exbin)
    (hfingers : t'.work.fingers = t.work.fingers) (hstore : t'.work.store = t.work.store) :
    Agrees F t' := by
  rw [Agrees, DedupThread.index, hexbin, hfingers, hstore]
  exact h

theorem chunkDedup_agrees (hs : s.rewrite = .noRewrite) (hfile : fileinfo.is_new = .newFile)
    (h : Between sha1 s content ex₀ store₀ paths t σ) (horder : BinsInOrder F t)
    (hagrees : Agrees F t) (hchunks : fileinfo.chunks = [])
    (hrun : chunkDedup sha1 s clock content fileinfo t = some q) : Agrees F (forward q) := by
  obtain ⟨f, u, bin, ex, m, σ', rfl, hdone⟩ := chunkDedup_deduped h hchunks (fun _ => hfile) (by simp [hs]) hrun
  obtain ⟨data, hbins⟩ := horder.bins
  obtain ⟨-, hcache, hbin, hrep⟩ := h.bins.openBin sha1 s clock hdone.load
  obtain ⟨bin', ex', hload, hbins', -, hfound⟩ :=
    hbins.loadBin (Finset.mem_singleton_self zeroFinger) f.file_hash (nonneg_of_loadBin hdone.load)
  obtain ⟨rfl, rfl⟩ := Prod.mk.inj (Option.some.inj (hdone.load.symm.trans hload))
  have hindex : t.index F = bin.fingers.lookup := by
    rw [DedupThread.index]
    rcases hfound with hcached | ⟨hnone, hlookup⟩
    · rw [if_neg (by rw [hcached]; exact Option.some_ne_none _), (h.bins.loaded bin hcached).1]
    · rw [if_pos hnone, hlookup]
  have hopened : WorkExact (u.openBin bin).work := by
    refine ⟨(hbins'.cached zeroFinger bin hbin).2.1, ?_⟩
    rw [Agrees, hindex, ← hdone.cut.store] at hagrees
    exact hagrees
  obtain ⟨rs, hf⟩ := hdone.file
  have hwork : m.2.work =
      markNewFile clock (content fileinfo.file_path) 0 f.chunks (u.openBin bin).work := by
    rw [hdone.mark, markDeplicateChunk, hs, hf]
    dsimp only
    rw [hfile]
    rfl
  have hrow : f.chunks.map (u.openBin bin).work.chunk =
      fingerChunks sha1 ([] : Bytes).length (chunkFile t.rabin (content fileinfo.file_path)).1 :=
    hdone.cut.chunks
  have hmarked := hopened.markNewFile clock hdone.nodup (fun c hc => isChunk_chunkFile hc) hrow
  rw [chunkFile_flatten, List.nil_append, List.length_nil, ← hwork] at hmarked
  have hexbin : m.2.exbin = ex := hdone.marked.exbin
  have hclosed := (lookup_closeBin (hexbin ▸ hcache) (hexbin ▸ hbin) hrep).2
  rw [Agrees, DedupThread.index, forward_exbin, forward_fingers, forward_store]
  rw [if_neg (by rw [hclosed]; exact Option.some_ne_none _)]
  exact hmarked.store

/-- All files by one of the clients. -/
theorem Driver.items_agree (hs : s.rewrite = .noRewrite)
    (h : Between sha1 s content ex₀ store₀ paths t σ) {cuts : List Bytes}
    (hfiling : Filing sha1 ex₀ F cuts t) (hempty : store₀.container.chunk_num = 0)
    (hloads : ∀ store fingers, FirstLoad ex₀ store₀ store fingers → fingers.WF) (hagrees : Agrees F t)
    (hrun : stream.foldlM (driver.item sha1 s clock content) t = some t') : Agrees F t' := by
  induction stream generalizing t σ paths cuts with
  | nil =>
    obtain rfl := Option.some.inj hrun
    exact hagrees
  | cons item stream ih =>
    rw [List.foldlM_cons] at hrun
    obtain ⟨u, hitem, hrest⟩ := Option.bind_eq_some_iff.mp hrun
    obtain ⟨σ₁, hdone⟩ := driver.item_done hs h hitem
    obtain ⟨paths₁, hb⟩ := hdone.between
    have hnext : Agrees F u := by
      rcases hdone.kind with ⟨q, -, hq, rfl⟩ | ⟨-, hexbin, hfingers, hstore⟩
      · exact chunkDedup_agrees hs rfl h hfiling.order hagrees rfl hq
      · exact hagrees.congr hexbin hfingers hstore
    exact ih hb (hdone.filing hs h hfiling hempty hloads) hnext hrest

-- ════════════════════════════════════════════════════════════════════════
-- All backups
-- ════════════════════════════════════════════════════════════════════════

variable {K : Set Fingerprint} {n : Names} {run : BackupRun} {runs : List (Driver × BackupRun)}

/-- The fingerprints of the chunks of a backup. -/
def BackupRun.cutHashes (sha1 : Bytes → Fingerprint) (run : BackupRun) : Set Fingerprint :=
  {hash | ∃ bs ∈ run.cuts, sha1 bs = hash}

/-- Between two backups: the bin that the next one finds has these fingerprints and leads to their
containers, which hold nothing else, and all containers have been named. -/
structure ExactKept (sha1 : Bytes → Fingerprint) (K : Set Fingerprint) (d : Disk) (n : Names) : Prop where
  bins : ∃ F, BinPersistence.Idle {zeroFinger} F d ∧
    (∀ hash a, F zeroFinger hash = some a → OnDisk (Hashed sha1) d a hash) ∧
    (∀ hash, F zeroFinger hash ≠ none ↔ hash ∈ K) ∧ FilesExact (F zeroFinger) d
  named : ∀ name, d.files.tmp name ≠ none → ∃ call ∈ n.calls, cstr call.name = name

theorem ExactKept.storeKept (h : ExactKept sha1 K d n) : StoreKept sha1 d n := by
  obtain ⟨F, hidle, hsound, -⟩ := h.bins
  exact ⟨⟨F, hidle, hsound⟩, h.named⟩

theorem agrees_start (hexact : FilesExact (F zeroFinger) d) (n : Names) (run : BackupRun) :
    Agrees F (run.start d n) := by
  have hnone : (run.start d n).exbin.bin_cache.lookup zeroFinger = none := by
    rw [BackupRun.start, dedupStart_exbin, (extremeBinningInit_eq d).2.1]
    exact HTable.lookup_init 100 zeroFinger
  rw [Agrees, DedupThread.index, if_pos hnone, BackupRun.start, dedupStart_store]
  exact storeExact_init (hexact.congr (tmp_extremeBinningInit d)) _ _

/-- The bin has what it had, and the chunks of the files. -/
theorem Filing.index_iff {cuts : List Bytes} (h : Filing sha1 ex₀ F cuts t) (hash : Fingerprint) :
    t.index F hash ≠ none ↔ F zeroFinger hash ≠ none ∨ ∃ bs ∈ cuts, sha1 bs = hash := by
  rw [DedupThread.index]
  rcases h.bin with ⟨hnone, rfl⟩ | ⟨hcached, hadded⟩
  · rw [if_pos hnone]
    simp
  · rw [if_neg hcached]
    cases hF : F zeroFinger hash with
    | some a =>
      rw [hadded.kept hash a hF]
      simp
    | none =>
      rw [hadded.keys hash hF, List.mem_map]
      simp

theorem ExactKept.backup (h : ExactKept sha1 K d n) (hs : run.settings.rewrite = .noRewrite)
    (hfiles : driverFiles sha1 driver run d n = some t) (hfit : binLength t.work.fingers < 2 ^ 31)
    (hnames : (t.work.store.names.calls.map fun call => cstr call.name).Nodup) :
    ExactKept sha1 (K ∪ run.cutHashes sha1) (driver.finish t) t.work.store.names := by
  obtain ⟨F, hidle, hsound, hknown, hexact⟩ := h.bins
  have hstart := h.storeKept.restart 1
  obtain ⟨σ, hfiled⟩ := driverFiles_filed hidle hs hfiles
  obtain ⟨paths, hbetween⟩ := hfiled.between
  have hagrees : Agrees F t := by
    rw [driverFiles, Driver.files_eq hs] at hfiles
    exact driver.items_agree hs
      (between_start sha1 run.settings run.content run.clock d ⟨1, n.calls⟩ run.rabin run.u)
      (filing_start hidle n run) rfl (firstLoad_wf hidle _ _ _ _) (agrees_start hexact n run) hfiles
  have hdistinct := hstart.distinct
    (List.IsPrefix.trans (List.prefix_append _ _) hfiled.moves.calls) hnames
  have hindex := hfiled.moves.sound (firstLoad_sound hstart.soundDisk run.clock ⟨1, n.calls⟩ run.rabin run.u)
    (indexSound_start sha1 run.clock d ⟨1, n.calls⟩ run.rabin run.u) hdistinct
  obtain ⟨F', hidle', hsound', hloaded, hunloaded⟩ :=
    hstart.bins_run hsound hfiled.moves hbetween.bins hfiled.filing.order hdistinct hfit
  have hF' : F' zeroFinger = t.index F := by
    rw [DedupThread.index]
    split
    · next hnone => exact hunloaded hnone
    · next hcached => exact hloaded hcached
  have hsame := finish_files driver t
  refine ⟨⟨F', idle_congr hidle' (congrArg Files.bvol hsame) (congrArg Files.repfinger hsame),
    fun hash a ha => (hsound' hash a ha).congr rfl (congrFun (congrArg Files.tmp hsame) _), ?_, ?_⟩,
    fun name hname => hstart.named_run hindex.storeOk (by rwa [← hsame])⟩
  · intro hash
    rw [hF', hfiled.filing.index_iff, hknown]
    rfl
  · rw [hF']
    exact hagrees.storeDestory.congr ((congrArg Files.tmp hsame).trans (backupEnd_tmp t))

/-- What a client can send of a file: `backup_client` counts the chunks in an `int`, and
`pipeline_backup` packs all of them into one message. -/
def Driver.Carries : Driver → Bytes → Prop
  | .backupClient, bytes => FitsChunknum bytes
  | .pipelineBackup, bytes => Pipeline.RecipeTransport.FitsRecipe bytes

theorem Driver.Carries.fitsChunknum {bytes : Bytes} (h : driver.Carries bytes) : FitsChunknum bytes := by
  cases driver with
  | backupClient => exact h
  | pipelineBackup => exact Pipeline.RecipeTransport.FitsRecipe.fitsChunknum h

theorem ExactKept.backups (h : ExactKept sha1 K d n) (hs : ∀ p ∈ runs, p.2.settings.rewrite = .noRewrite)
    (hcount : ∀ p ∈ runs, ∀ item ∈ p.2.stream, p.1.Carries (p.2.content item.1)) (hfit : DriverRunsFit sha1 runs d n) :
    ∃ d' n', driverRuns sha1 runs d n = some (d', n') ∧
      ExactKept sha1 (K ∪ {hash | ∃ p ∈ runs, hash ∈ p.2.cutHashes sha1}) d' n' := by
  induction runs generalizing K d n with
  | nil => exact ⟨d, n, rfl, by simpa using h⟩
  | cons p runs ih =>
    obtain ⟨driver, run⟩ := p
    obtain ⟨hitems, hlater⟩ := List.forall_mem_cons.mp hcount
    obtain ⟨t, hfiles⟩ := h.storeKept.driverFiles_end (hs _ List.mem_cons_self)
      (binCounted_of_fits fun item hitem => (hitems item hitem).fitsChunknum) driver
    obtain ⟨hlength, hnames, hrest⟩ := hfit t hfiles
    obtain ⟨d', n', hruns, hkept⟩ := ih (h.backup (hs _ List.mem_cons_self) hfiles hlength hnames)
      (fun q hq => hs q (List.mem_cons_of_mem _ hq)) hlater hrest
    refine ⟨d', n', ?_, ?_⟩
    · rw [driverRuns, hfiles]
      exact hruns
    · have hset : K ∪ {hash | ∃ q ∈ (driver, run) :: runs, hash ∈ q.2.cutHashes sha1} =
          K ∪ run.cutHashes sha1 ∪ {hash | ∃ q ∈ runs, hash ∈ q.2.cutHashes sha1} := by
        ext hash
        simp [or_assoc]
      rw [hset]
      exact hkept

-- ════════════════════════════════════════════════════════════════════════
-- The containers in the end
-- ════════════════════════════════════════════════════════════════════════

end TCBackup.Client
