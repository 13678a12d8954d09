import TCBackup.Client.BackupRecords
import TCBackup.Client.BinPersistence

/-!
# Many backups on one store

A backup keeps its bin and the volumes in order, and leaves all chunks that were on disk where
they are. So the next one starts with a bin that leads to chunks again.

## Main definitions

- `BackupRun`, `backupRuns` — the backups, one after the other
- `StoreKept` — what holds between two backups
- `BinsFit` — no bin reaches 2 GiB

## Main results

- `backupFiles_ends` — a backup comes to its end
- `StoreKept.run` — one backup
- `backupRuns_kept` — all backups
-/

namespace TCBackup.Client

open ByteFile Handoff ContainerNames

variable {sha1 : Bytes → Fingerprint} {s : Settings} {clock : ℕ → ℤ} {content : Bytes → Bytes}
  {Loads : Store → HTable 20 Chunkaddress → Prop} {w w' : Work} {σ σ' : ℕ → Stage}
  {ex₀ : ExtremeBinning} {store₀ : Store} {paths : List Bytes} {t t' : DedupThread}
  {fileinfo : FileInfo ℕ} {R : Finset Fingerprint} {F : Fingerprint → BinMap}
  {data : Fingerprint → Bytes} {stream : List (Bytes × Answer)} {item : Bytes × Answer}
  {records : List (List (Fingerprint × Chunkaddress))}

-- ════════════════════════════════════════════════════════════════════════
-- The bin and the volumes
-- ════════════════════════════════════════════════════════════════════════

theorem storeChunk_bvol (clock : ℕ → ℤ) (store : Store) (chunk : Chunk) :
    (storeChunk clock store chunk).2.disk.files.bvol = store.disk.files.bvol := by
  cases hfull : containerFull store.container chunk.length with
  | false => rw [storeChunk_room clock hfull]
  | true =>
    rw [storeChunk_full clock hfull]
    rfl

section Handling

variable {fc fc' : FingerChunk} {st st' : Stage} {chunks : List Chunk}
  {fingers : HTable 20 Chunkaddress} {store : Store}

theorem Handle.wf (h : Handle sha1 clock w fc st fc' chunks fingers store st') (hw : w.fingers.WF) :
    fingers.WF := by
  cases h with
  | storeNew _ hnone => exact hw.insert hnone _
  | rewrite => exact hw.set _ _
  | _ => exact hw

theorem Handle.bvol (h : Handle sha1 clock w fc st fc' chunks fingers store st') :
    store.disk.files.bvol = w.store.disk.files.bvol := by
  cases h with
  | storeNew | rewrite => exact storeChunk_bvol clock w.store _
  | _ => rfl

end Handling

/-- No fingerprint comes twice, and the volumes are not touched. -/
structure Orderly (bvol : ℕ → Option Bytes) (w : Work) : Prop where
  wf : w.fingers.WF
  bvol : w.store.disk.files.bvol = bvol

theorem Move.orderly (hm : Move sha1 s clock Loads (w, σ) (w', σ'))
    (hloads : ∀ store fingers, Loads store fingers → fingers.WF) {bvol : ℕ → Option Bytes}
    (h : Orderly bvol w) : Orderly bvol w' := by
  cases hm with
  | step hs =>
    generalize hp : (w, σ) = p at hs
    generalize hq : (w', σ') = q at hs
    cases hs with
    | @handle w₀ σ₀ r es fc chunks fingers store s hr hstep hcell hheld hacts hafter =>
      obtain ⟨rfl, rfl⟩ := Prod.mk.inj hp
      obtain ⟨rfl, rfl⟩ := Prod.mk.inj hq
      exact ⟨hstep.wf h.wf, hstep.bvol.trans h.bvol⟩
  | load _ _ hload => exact ⟨hloads _ _ hload, h.bvol⟩
  | _ => exact ⟨h.wf, h.bvol⟩

theorem Moves.orderly (hm : Moves sha1 s clock Loads (w, σ) (w', σ'))
    (hloads : ∀ store fingers, Loads store fingers → fingers.WF) {bvol : ℕ → Option Bytes}
    (h : Orderly bvol w) : Orderly bvol w' :=
  Moves.induct (P := fun v _ => Orderly bvol v) (fun _ _ _ _ hP hmove => hmove.orderly hloads hP) hm h

/-- Only the volumes matter to the bins. -/
theorem Bins.congr {ex : ExtremeBinning} {fs fs' : Files} (h : Bins R F data ex fs)
    (hbvol : fs'.bvol = fs.bvol) : Bins R F data ex fs' := by
  have hfile : volumeFile fs' = volumeFile fs := by
    funext v
    rw [volumeFile, volumeFile, hbvol]
  refine ⟨h.main, h.keys, h.cache, h.cached, h.pending, h.sound, h.tight, h.short, ?_, h.saved, h.unsaved⟩
  rw [hfile]
  exact h.holds

/-- The bin of a process that backs up files. -/
structure BinsInOrder (F : Fingerprint → BinMap) (t : DedupThread) : Prop where
  bins : ∃ data, Bins {zeroFinger} F data t.exbin t.work.store.disk.files
  wf : t.work.fingers.WF

theorem chunkDedup_inOrder (h : Between sha1 s content ex₀ store₀ paths t σ) (ht : BinsInOrder F t)
    (hloads : ∀ store fingers, FirstLoad ex₀ store₀ store fingers → fingers.WF)
    (hchunks : fileinfo.chunks = [])
    (hsize : fileinfo.file_size = (content fileinfo.file_path).length)
    (hnew : s.rewrite = .noRewrite → fileinfo.is_new = .newFile)
    (hcount : s.rewrite = .cflRewrite →
      (chunkFile t.rabin (content fileinfo.file_path)).1.length < 2 ^ 31)
    {q : Bool × FileInfo ℕ × DedupThread}
    (hrun : chunkDedup sha1 s clock content fileinfo t = some q) : BinsInOrder F (forward q) := by
  obtain ⟨data, hbins⟩ := ht.bins
  obtain ⟨σ', hmoves, -, -⟩ := chunkDedup_between h hchunks hsize hnew hcount hrun
  have horder := hmoves.orderly hloads ⟨ht.wf, rfl⟩
  have hcut := cutFile_cut clock h hchunks
  obtain ⟨-, -, hfile, -⟩ := cutFile_spec clock (FirstLoad ex₀ store₀) h hchunks
  rw [chunkDedup] at hrun
  generalize cutFile sha1 content fileinfo t = p at hcut hfile hrun
  obtain ⟨f, u⟩ := p
  dsimp only at hcut hfile hrun
  obtain ⟨b, hload, rfl⟩ := Option.map_eq_some_iff.mp hrun
  rw [hfile.rep, hcut.exbin, hcut.store] at hload
  obtain ⟨bin, ex, hload', hbins', hcached, -⟩ :=
    hbins.loadBin (Finset.mem_singleton_self zeroFinger) f.file_hash (nonneg_of_loadBin hload)
  obtain rfl := Option.some.inj (hload.symm.trans hload')
  dsimp only at horder hrun ⊢
  generalize hm : markDeplicateChunk s clock content f ({ u with exbin := ex }.openBin bin) = m at horder ⊢
  have hexbin : m.2.exbin = ex := by
    rw [← hm, markDeplicateChunk_exbin]
    rfl
  have hwf : m.2.work.fingers.WF := by
    have hwf := horder.wf
    rwa [forward_fingers] at hwf
  have hbin : m.2.exbin.bin_cache.lookup zeroFinger = some bin := by
    rw [hexbin, hcached, if_pos rfl]
  have hrep : ({ bin with fingers := m.2.work.fingers } : Bin).rep_finger = bin.rep_finger := rfl
  have hset := (hexbin ▸ hbins').setBin hbin hrep rfl hwf
  refine ⟨⟨data, ?_⟩, horder.wf⟩
  rw [forward_exbin]
  exact hset.1.congr horder.bvol

theorem fileDudup_inOrder (h : Between sha1 s content ex₀ store₀ paths t σ) (ht : BinsInOrder F t)
    (hloads : ∀ store fingers, FirstLoad ex₀ store₀ store fingers → fingers.WF)
    (hcount : s.rewrite = .cflRewrite → (cutItem content t.rabin item).1.length < 2 ^ 31)
    {sent : List (Fingerprint × Chunkaddress)}
    (hrun : fileDudup sha1 s clock content t item = some (sent, t')) : BinsInOrder F t' := by
  obtain ⟨path, answer⟩ := item
  cases answer with
  | newFile =>
    obtain ⟨q, hq, heq⟩ := Option.map_eq_some_iff.mp hrun
    obtain ⟨-, rfl⟩ := Prod.mk.inj heq
    exact chunkDedup_inOrder h ht hloads rfl rfl (fun _ => rfl) (by exact hcount) hq
  | dedupFile msgs =>
    obtain ⟨-, rfl⟩ := Prod.mk.inj (Option.some.inj hrun)
    have honly := appendChunks_only (msgs.map receivedChunk)
      { queuedFile sha1 content path with is_new := .dedupFile } t
    refine ⟨?_, ?_⟩
    · rw [honly.exbin, honly.store]
      exact ht.bins
    · rw [honly.fingers]
      exact ht.wf

theorem backupFiles_inOrder (hs : s.rewrite ≠ .cappingRewrite)
    (h : Between sha1 s content ex₀ store₀ paths t σ) (ht : BinsInOrder F t)
    (hloads : ∀ store fingers, FirstLoad ex₀ store₀ store fingers → fingers.WF)
    (hcount : AllCounted s (cutItems content t.rabin stream))
    (hrun : backupFiles sha1 s clock content stream t = some (records, t')) : BinsInOrder F t' := by
  induction stream generalizing t σ paths records with
  | nil =>
    obtain ⟨-, rfl⟩ := Prod.mk.inj (Option.some.inj hrun)
    exact ht
  | cons item stream ih =>
    obtain ⟨first, v, rest, hfirst, hrest, -⟩ := backupFiles_cons hrun
    rw [cutItems, allCounted_cons] at hcount
    obtain ⟨σ₁, hdudup⟩ := fileDudup_dudup hs h hcount.1 hfirst
    obtain ⟨paths₁, hb⟩ := hdudup.between
    exact ih hb (fileDudup_inOrder h ht hloads hcount.1 hfirst) (hdudup.rabin ▸ hcount.2) hrest

/-- `LoadBin` returns for every file, and so do all of them. -/
theorem backupFiles_ends (hs : s.rewrite ≠ .cappingRewrite) (clock : ℕ → ℤ)
    (h : Between sha1 s content ex₀ store₀ paths t σ)
    (hload : ∀ file_hash (n : ℕ), ∃ b, loadBin ex₀ store₀.disk zeroFinger file_hash n = some b)
    (hcount : AllCounted s (cutItems content t.rabin stream))
    (hbin : t.exbin.bin_cache.lookup zeroFinger = none → BinCounted content t.rabin stream) :
    ∃ records t', backupFiles sha1 s clock content stream t = some (records, t') := by
  induction stream generalizing t σ paths with
  | nil => exact ⟨[], t, rfl⟩
  | cons item stream ih =>
    rw [cutItems, allCounted_cons] at hcount
    obtain ⟨sent, v, hfirst, hnext⟩ : ∃ sent v, fileDudup sha1 s clock content t item = some (sent, v) ∧
        (v.exbin.bin_cache.lookup zeroFinger = none →
          BinCounted content (cutItem content t.rabin item).2 stream) := by
      obtain ⟨path, answer⟩ := item
      cases answer with
      | newFile =>
        obtain ⟨q, hq, hloaded⟩ := chunkDedup_ends s clock h hload
          (rfl : ({ queuedFile sha1 content path with is_new := .newFile } : FileInfo ℕ).chunks = []) hbin
        exact ⟨_, _, Option.map_eq_some_iff.mpr ⟨q, hq, rfl⟩, fun hnone => absurd hnone hloaded⟩
      | dedupFile msgs =>
        refine ⟨_, _, rfl, fun hnone => hbin ?_⟩
        rwa [(appendChunks_only _ _ _).exbin] at hnone
    obtain ⟨σ₁, hdudup⟩ := fileDudup_dudup hs h hcount.1 hfirst
    obtain ⟨paths₁, hb⟩ := hdudup.between
    obtain ⟨records, t', hrest⟩ := ih hb (hdudup.rabin ▸ hcount.2) (hdudup.rabin ▸ hnext)
    refine ⟨sent :: records, t', ?_⟩
    rw [backupFiles, hfirst, Option.bind_some, hrest]
    rfl

-- ════════════════════════════════════════════════════════════════════════
-- Between two backups
-- ════════════════════════════════════════════════════════════════════════

/-- Between two backups: the bin that the next one finds leads to chunks, and all containers
have been named. -/
structure StoreKept (sha1 : Bytes → Fingerprint) (d : Disk) (n : Names) : Prop where
  bins : ∃ F, BinPersistence.Idle {zeroFinger} F d ∧
    ∀ hash a, F zeroFinger hash = some a → OnDisk (Hashed sha1) d a hash
  named : ∀ name, d.files.tmp name ≠ none → ∃ call ∈ n.calls, cstr call.name = name

theorem storeKept_empty (sha1 : Bytes → Fingerprint) : StoreKept sha1 .empty ⟨1, []⟩ :=
  ⟨⟨fun _ => noEntries, BinPersistence.idle_empty, by simp [noEntries]⟩, fun _ hne => absurd rfl hne⟩

variable {d d' : Disk} {n n' : Names}

theorem binsInOrder_start (hidle : BinPersistence.Idle {zeroFinger} F d) (clock : ℕ → ℤ) (n : Names)
    (rabin : Rabin) (u : ℤ) : BinsInOrder F (dedupStart clock d n rabin u) := by
  refine ⟨?_, HTable.init_wf 0⟩
  rw [dedupStart_exbin, dedupStart_store, storeInit_disk]
  exact hidle

theorem firstLoad_wf (hidle : BinPersistence.Idle {zeroFinger} F d) (clock : ℕ → ℤ) (n : Names)
    (rabin : Rabin) (u : ℤ) (store : Store) (fingers : HTable 20 Chunkaddress)
    (h : FirstLoad (dedupStart clock d n rabin u).exbin (dedupStart clock d n rabin u).work.store store
      fingers) : fingers.WF := by
  obtain ⟨-, file_hash, k, bin, ex, hload, rfl⟩ := h
  obtain ⟨data, hbins⟩ := hidle
  rw [dedupStart_exbin, dedupStart_store, storeInit_disk] at hload
  obtain ⟨bin', ex', hload', hbins', hcached, -⟩ :=
    hbins.loadBin (Finset.mem_singleton_self zeroFinger) file_hash (nonneg_of_loadBin hload)
  obtain ⟨rfl, rfl⟩ := Prod.mk.inj (Option.some.inj (hload.symm.trans hload'))
  exact (hbins'.cached zeroFinger bin (by rw [hcached, if_pos rfl])).2.1

/-- The bin of the next process leads to chunks. -/
theorem StoreKept.soundDisk (h : StoreKept sha1 d n) : SoundDisk sha1 d := by
  intro file_hash k
  obtain ⟨F, ⟨data, hbins⟩, hsound⟩ := h.bins
  obtain ⟨bin, ex, hload, hbins', hcached, hfound⟩ :=
    hbins.loadBin (Finset.mem_singleton_self zeroFinger) file_hash fun _ => Int.natCast_nonneg k
  have hlookup : bin.fingers.lookup = F zeroFinger := by
    rcases hfound with hbad | ⟨-, hlookup⟩
    · rw [(extremeBinningInit_eq d).2.1, HTable.lookup_init] at hbad
      cases hbad
    · exact hlookup
  refine ⟨bin, ex, hload, fun p hp => hsound p.1 p.2 ?_⟩
  have hwf := (hbins'.cached zeroFinger bin (by rw [hcached, if_pos rfl])).2.1
  rw [← hlookup]
  exact hwf.lookup_eq_some_iff.mpr hp

/-- A process that starts in another second gives no name that has been given. -/
theorem StoreKept.later_free (h : StoreKept sha1 d n) {second : ℤ}
    (hcalls : ∀ call ∈ n.calls, IsInt call.randomabc ∧ ¬call.second ≡ second [ZMOD 2 ^ 32])
    {name : Chunkaddress} (hlater : Names.later (fun _ => second) n name) :
    d.files.tmp (cstr name) = none := by
  obtain ⟨k, rfl⟩ := hlater
  by_contra hfile
  obtain ⟨call, hcall, hsame⟩ := h.named _ hfile
  obtain ⟨hint, hsecond⟩ := hcalls call hcall
  exact hsecond ((cstr_name_eq_iff hint (isInt_bmod _)).mp hsame).1

/-- Names that are all different are not those of older containers. -/
theorem StoreKept.distinct (h : StoreKept sha1 d n) (hcalls : n.calls <+: n'.calls)
    (hnames : (n'.calls.map fun call => cstr call.name).Nodup) : Distinct d n n' := by
  obtain ⟨later, hlater⟩ := hcalls
  have hdrop : n'.calls.drop n.calls.length = later := by rw [← hlater, List.drop_left]
  rw [← hlater, List.map_append, List.nodup_append] at hnames
  refine ⟨hdrop ▸ hnames.2.1, fun call hcall => ?_⟩
  rw [hdrop] at hcall
  by_contra hfile
  obtain ⟨old, hold, hname⟩ := h.named _ hfile
  exact hnames.2.2 _ (List.mem_map_of_mem hold) _ (List.mem_map_of_mem hcall) hname

/-- Only volumes and main table matter to a process that starts. -/
theorem extremeBinningInit_congr (hbvol : d'.files.bvol = d.files.bvol)
    (hrepfinger : d'.files.repfinger = d.files.repfinger) :
    (extremeBinningInit d').1 = (extremeBinningInit d).1 ∧
      (extremeBinningInit d').2.files.bvol = (extremeBinningInit d).2.files.bvol := by
  obtain ⟨hmain, hcache, hvols, hfiles⟩ := extremeBinningInit_eq d
  obtain ⟨hmain', hcache', hvols', hfiles'⟩ := extremeBinningInit_eq d'
  constructor
  · have harray : (extremeBinningInit d').1.bin_volume_array = (extremeBinningInit d).1.bin_volume_array := by
      funext v
      rw [hvols, hvols', hbvol]
    rw [hrepfinger, ← hmain] at hmain'
    rw [← hcache] at hcache'
    generalize (extremeBinningInit d').1 = ex' at hmain' hcache' harray
    generalize (extremeBinningInit d).1 = ex at hmain' hcache' harray
    cases ex
    cases ex'
    dsimp only at hmain' hcache' harray
    rw [hmain', hcache', harray]
  · rw [hfiles, hfiles', hbvol]

theorem storeDestory_bvol (store : Store) :
    (storeDestory store).files.bvol = store.disk.files.bvol ∧
      (storeDestory store).files.repfinger = store.disk.files.repfinger := by
  rw [storeDestory]
  split <;> exact ⟨rfl, rfl⟩

-- ════════════════════════════════════════════════════════════════════════
-- One backup
-- ════════════════════════════════════════════════════════════════════════

variable {rabin : Rabin} {u : ℤ}

/-- What was on disk is found at the start. -/
theorem located_start {a : Chunkaddress} {hash : Fingerprint} (h : OnDisk (Hashed sha1) d a hash)
    (clock : ℕ → ℤ) (n : Names) (rabin : Rabin) (u : ℤ) :
    Located (Hashed sha1) (dedupStart clock d n rabin u).work.store a hash := by
  refine .inl (h.congr rfl ?_)
  rw [dedupStart_store, storeInit_disk, tmp_extremeBinningInit]

/-- What was on disk stays there. -/
theorem onDisk_backupEnd (hdisk : SoundDisk sha1 d)
    (hmoves : Moves sha1 s clock (FirstLoad (dedupStart clock d n rabin u).exbin
      (dedupStart clock d n rabin u).work.store)
      ((dedupStart clock d n rabin u).work, fun _ => .fresh) (t.work, σ))
    (hnames : Distinct d n t.work.store.names) {a : Chunkaddress} {hash : Fingerprint}
    (ha : OnDisk (Hashed sha1) d a hash) : OnDisk (Hashed sha1) (backupEnd t) a hash := by
  have hloads := firstLoad_sound hdisk clock n rabin u
  have hstart := indexSound_start sha1 clock d n rabin u
  have hindex := hmoves.sound hloads hstart hnames
  exact (hmoves.located hloads hstart hnames (located_start ha clock n rabin u)).backupEnd hindex.storeOk
    hnames

/-- Only the files of the bins matter to the next process. -/
theorem idle_congr {d' : Disk} (h : BinPersistence.Idle R F d) (hbvol : d'.files.bvol = d.files.bvol)
    (hrepfinger : d'.files.repfinger = d.files.repfinger) : BinPersistence.Idle R F d' := by
  obtain ⟨data, hbins⟩ := h
  obtain ⟨htables, hvolumes⟩ := extremeBinningInit_congr hbvol hrepfinger
  refine ⟨data, ?_⟩
  rw [htables]
  exact hbins.congr hvolumes

theorem idle_storeDestory {store : Store} (h : BinPersistence.Idle R F store.disk) :
    BinPersistence.Idle R F (storeDestory store) :=
  idle_congr h (storeDestory_bvol store).1 (storeDestory_bvol store).2

theorem idle_backupEnd (h : BinPersistence.Idle R F (extremeBinningFlush
      (freeCacheBin t.exbin t.work.store.disk).1 (freeCacheBin t.exbin t.work.store.disk).2)) :
    BinPersistence.Idle R F (backupEnd t) := by
  rw [backupEnd]
  exact idle_storeDestory h

/-- The bins after `free_cache_bin` and `ExtremeBinningDestroy` are those of the next process. -/
theorem BinsInOrder.backupEnd (h : BinsInOrder F t)
    (hfit : ∀ bin, t.exbin.bin_cache.lookup zeroFinger = some bin → binLength bin.fingers < 2 ^ 31) :
    ∃ F', BinPersistence.Idle {zeroFinger} F' (backupEnd t) ∧
      (∀ bin, t.exbin.bin_cache.lookup zeroFinger = some bin → F' zeroFinger = bin.fingers.lookup) ∧
      (t.exbin.bin_cache.lookup zeroFinger = none → F' zeroFinger = F zeroFinger) := by
  obtain ⟨data, hbins⟩ := h.bins
  have hcard : ({zeroFinger} : Finset Fingerprint).card = 1 := Finset.card_singleton zeroFinger
  have hlen : ∀ k bin, t.exbin.bin_cache.lookup k = some bin → binLength bin.fingers < 2 ^ 31 := by
    intro k bin hbin
    obtain ⟨-, -, mi, hmi, -⟩ := hbins.cached k bin hbin
    obtain rfl := Finset.mem_singleton.mp (hbins.keys k mi hmi).1
    exact hfit bin hbin
  obtain ⟨F', data', ws, hfreed, hcached, huncached, hempty, -⟩ :=
    hbins.freeCacheBin (by rw [hcard]; norm_num) hlen
  have hreload := hfreed.reload (by rw [hcard]; norm_num) hempty
  exact ⟨F', idle_backupEnd ⟨data', hreload⟩, hcached zeroFinger, huncached zeroFinger⟩

/-- The bins of the next process lead to chunks. -/
theorem StoreKept.bins_run (h : StoreKept sha1 d n)
    (hsound : ∀ hash a, F zeroFinger hash = some a → OnDisk (Hashed sha1) d a hash)
    (hmoves : Moves sha1 s clock (FirstLoad (dedupStart clock d n rabin u).exbin
      (dedupStart clock d n rabin u).work.store)
      ((dedupStart clock d n rabin u).work, fun _ => .fresh) (t.work, σ))
    (hkept : BinKept (dedupStart clock d n rabin u).exbin (dedupStart clock d n rabin u).work.store t σ)
    (horder : BinsInOrder F t) (hnames : Distinct d n t.work.store.names)
    (hfit : binLength t.work.fingers < 2 ^ 31) :
    ∃ F', BinPersistence.Idle {zeroFinger} F' (backupEnd t) ∧
      (∀ hash a, F' zeroFinger hash = some a → OnDisk (Hashed sha1) (backupEnd t) a hash) ∧
      (t.exbin.bin_cache.lookup zeroFinger ≠ none → F' zeroFinger = t.work.fingers.lookup) ∧
      (t.exbin.bin_cache.lookup zeroFinger = none → F' zeroFinger = F zeroFinger) := by
  have hindex := hmoves.sound (firstLoad_sound h.soundDisk clock n rabin u)
    (indexSound_start sha1 clock d n rabin u) hnames
  obtain ⟨F', hidle', hcached, huncached⟩ := horder.backupEnd fun bin hbin => by
    rw [(hkept.loaded bin hbin).1]
    exact hfit
  have hloaded : t.exbin.bin_cache.lookup zeroFinger ≠ none → F' zeroFinger = t.work.fingers.lookup := by
    intro hne
    obtain ⟨bin, hbin⟩ := Option.ne_none_iff_exists'.mp hne
    rw [hcached bin hbin, (hkept.loaded bin hbin).1]
  refine ⟨F', hidle', fun hash a ha => ?_, hloaded, huncached⟩
  by_cases hbin : t.exbin.bin_cache.lookup zeroFinger = none
  · rw [huncached hbin] at ha
    exact onDisk_backupEnd h.soundDisk hmoves hnames (hsound hash a ha)
  · rw [hloaded hbin] at ha
    exact (hindex.bin (hash, a) (horder.wf.lookup_eq_some_iff.mp ha)).backupEnd hindex.storeOk hnames

/-- The new containers have been named. -/
theorem StoreKept.named_run (h : StoreKept sha1 d n) (hstore : StoreOk (Hashed sha1) d n t.work.store)
    {name : Bytes} (hname : (backupEnd t).files.tmp name ≠ none) :
    ∃ call ∈ t.work.store.names.calls, cstr call.name = name := by
  rw [backupEnd_tmp] at hname
  obtain ⟨closed, hcalls, hold⟩ := hstore.storeDestory
  by_contra hnone
  rw [not_exists] at hnone
  have hfile := hold name fun call hcall hsame => hnone call
    ⟨by rw [hcalls]; exact List.mem_append_right _ hcall, hsame⟩
  rw [hfile] at hname
  obtain ⟨call, hcall, hsame⟩ := h.named name hname
  exact hnone call ⟨by rw [hcalls]; exact List.mem_append_left _ hcall, hsame⟩

/-- A backup keeps the store. -/
theorem StoreKept.run (h : StoreKept sha1 d n)
    (hmoves : Moves sha1 s clock (FirstLoad (dedupStart clock d n rabin u).exbin
      (dedupStart clock d n rabin u).work.store)
      ((dedupStart clock d n rabin u).work, fun _ => .fresh) (t.work, σ))
    (hbetween : ∃ paths, Between sha1 s content (dedupStart clock d n rabin u).exbin
      (dedupStart clock d n rabin u).work.store paths t σ)
    (horder : ∀ F, BinPersistence.Idle {zeroFinger} F d → BinsInOrder F t)
    (hnames : Distinct d n t.work.store.names) (hfit : binLength t.work.fingers < 2 ^ 31) :
    StoreKept sha1 (backupEnd t) t.work.store.names := by
  obtain ⟨F, hidle, hsound⟩ := h.bins
  obtain ⟨paths, hb⟩ := hbetween
  have hindex := hmoves.sound (firstLoad_sound h.soundDisk clock n rabin u)
    (indexSound_start sha1 clock d n rabin u) hnames
  obtain ⟨F', hidle', hsound', -⟩ := h.bins_run hsound hmoves hb.bins (horder F hidle) hnames hfit
  exact ⟨⟨F', hidle', hsound'⟩, fun _ => h.named_run hindex.storeOk⟩

-- ════════════════════════════════════════════════════════════════════════
-- One backup after the other
-- ════════════════════════════════════════════════════════════════════════

/-- A backup: the options, what the clock shows and the files hold, the files with the answers of
the server, and what the process finds in memory. -/
structure BackupRun where
  settings : Settings
  clock : ℕ → ℤ
  content : Bytes → Bytes
  stream : List (Bytes × Answer)
  rabin : Rabin
  u : ℤ

/-- The count of the file that the bin is loaded for is not negative, and `cfl_process` comes to all
chunks. -/
structure BackupRun.Counted (run : BackupRun) : Prop where
  bin : BinCounted run.content run.rabin run.stream
  all : AllCounted run.settings (cutItems run.content run.rabin run.stream)

/-- The process at its start, with `randomabc = 1`. -/
def BackupRun.start (run : BackupRun) (d : Disk) (n : Names) : DedupThread :=
  dedupStart run.clock d ⟨1, n.calls⟩ run.rabin run.u

/-- One backup after the other: the records of all files, the disk and the names. -/
def backupRuns (sha1 : Bytes → Fingerprint) : List BackupRun → Disk → Names →
    Option (List (List (List (Fingerprint × Chunkaddress))) × Disk × Names)
  | [], d, n => some ([], d, n)
  | run :: runs, d, n =>
    (backupClient sha1 run.settings run.clock run.content run.stream (run.start d n)).bind fun p =>
      (backupRuns sha1 runs p.2.1 p.2.2).map fun q => (p.1 :: q.1, q.2)

/-- In every backup the bin takes less than `2 ^ 31` bytes, and no name has been given twice. -/
def RunsFit (sha1 : Bytes → Fingerprint) : List BackupRun → Disk → Names → Prop
  | [], _, _ => True
  | run :: runs, d, n => ∀ records t, backupFiles sha1 run.settings run.clock run.content run.stream
      (run.start d n) = some (records, t) →
    binLength t.work.fingers < 2 ^ 31 ∧
      (t.work.store.names.calls.map fun call => cstr call.name).Nodup ∧
      RunsFit sha1 runs (backupEnd t) t.work.store.names

/-- The records of a backup name the chunks of its files, and lead to them. -/
structure RunStored (sha1 : Bytes → Fingerprint) (d : Disk) (run : BackupRun)
    (records : List (List (Fingerprint × Chunkaddress))) : Prop where
  hashes : records.map (List.map Prod.fst) =
    (cutItems run.content run.rabin run.stream).map (List.map sha1)
  stored : AllStored sha1 d records

theorem StoreKept.restart (h : StoreKept sha1 d n) (randomabc : ℤ) : StoreKept sha1 d ⟨randomabc, n.calls⟩ :=
  ⟨h.bins, h.named⟩

/-- What one backup of a sequence does. -/
structure RunKept (sha1 : Bytes → Fingerprint) (d : Disk) (run : BackupRun)
    (records : List (List (Fingerprint × Chunkaddress))) (d' : Disk) (n' : Names) : Prop where
  store : StoreKept sha1 d' n'
  kept : ∀ a hash, OnDisk (Hashed sha1) d a hash → OnDisk (Hashed sha1) d' a hash
  stored : RunStored sha1 d' run records

theorem StoreKept.backup (h : StoreKept sha1 d n) {run : BackupRun}
    (hs : run.settings.rewrite = .noRewrite ∨ run.settings.rewrite = .cflRewrite)
    (hcount : AllCounted run.settings (cutItems run.content run.rabin run.stream))
    (hfiles : backupFiles sha1 run.settings run.clock run.content run.stream (run.start d n) =
      some (records, t))
    (hfit : binLength t.work.fingers < 2 ^ 31)
    (hnames : (t.work.store.names.calls.map fun call => cstr call.name).Nodup) :
    RunKept sha1 d run records (backupEnd t) t.work.store.names := by
  have hcapping : run.settings.rewrite ≠ .cappingRewrite := by
    rcases hs with hs | hs <;> simp [hs]
  have hperfect : run.settings.rewrite ≠ .perfectRewrite := by
    rcases hs with hs | hs <;> simp [hs]
  have hstart := h.restart 1
  have hdisk := h.soundDisk
  have hbetween := between_start sha1 run.settings run.content run.clock d ⟨1, n.calls⟩ run.rabin run.u
  obtain ⟨⟨σ₀, paths, hmoves, -⟩, -⟩ := backupFiles_between hcapping hbetween hcount hfiles
  have hcalls : n.calls <+: t.work.store.names.calls :=
    List.IsPrefix.trans (List.prefix_append _ _) hmoves.calls
  have hdistinct := hstart.distinct hcalls hnames
  obtain ⟨σ, hback⟩ := backupFiles_backedUp hcapping hdisk hcount hfiles hdistinct
  refine ⟨hstart.run hback.moves hback.between (fun F hidle => ?_) hdistinct hfit,
    fun a hash => onDisk_backupEnd hdisk hback.moves hdistinct,
    hback.hashes, fun record hrecord => ?_⟩
  · exact backupFiles_inOrder hcapping hbetween (binsInOrder_start hidle _ _ _ _)
      (firstLoad_wf hidle _ _ _ _) hcount hfiles
  · rcases hback.recorded record hrecord with ⟨hlocated, -⟩ | ⟨hbad, -⟩
    · exact hlocated.backupEnd hback.index.storeOk hdistinct
    · exact absurd hbad hperfect

theorem StoreKept.ends (h : StoreKept sha1 d n) {run : BackupRun}
    (hs : run.settings.rewrite ≠ .cappingRewrite) (hcount : run.Counted) :
    ∃ records t, backupFiles sha1 run.settings run.clock run.content run.stream (run.start d n) =
      some (records, t) := by
  refine backupFiles_ends hs run.clock (between_start sha1 run.settings run.content run.clock d
    ⟨1, n.calls⟩ run.rabin run.u) (fun file_hash k => ?_) hcount.all
    fun _ => hcount.bin
  obtain ⟨bin, ex, hload, -⟩ := h.soundDisk file_hash k
  rw [dedupStart_exbin, dedupStart_store, storeInit_disk]
  exact ⟨(bin, ex), hload⟩

/-- All backups come to their end, and in the end every record of each of them leads to its
chunk. -/
theorem backupRuns_kept (h : StoreKept sha1 d n) {runs : List BackupRun}
    (hs : ∀ run ∈ runs, run.settings.rewrite = .noRewrite ∨ run.settings.rewrite = .cflRewrite)
    (hcount : ∀ run ∈ runs, run.Counted) (hfit : RunsFit sha1 runs d n) :
    ∃ results d' n', backupRuns sha1 runs d n = some (results, d', n') ∧ StoreKept sha1 d' n' ∧
      (∀ a hash, OnDisk (Hashed sha1) d a hash → OnDisk (Hashed sha1) d' a hash) ∧
      List.Forall₂ (RunStored sha1 d') runs results := by
  induction runs generalizing d n with
  | nil => exact ⟨[], d, n, rfl, h, fun _ _ ha => ha, .nil⟩
  | cons run runs ih =>
    have hrewrite := hs run List.mem_cons_self
    have hcapping : run.settings.rewrite ≠ .cappingRewrite := by
      rcases hrewrite with hs | hs <;> simp [hs]
    obtain ⟨hcounted, hcounts⟩ := List.forall_mem_cons.mp hcount
    obtain ⟨records, t, hfiles⟩ := h.ends hcapping hcounted
    obtain ⟨hlength, hnames, hrest⟩ := hfit records t hfiles
    have hrun := h.backup hrewrite hcounted.all hfiles hlength hnames
    obtain ⟨results, d', n', hruns, hstore, hkept, hstored⟩ :=
      ih hrun.store (fun run hrun => hs run (List.mem_cons_of_mem _ hrun)) hcounts hrest
    refine ⟨records :: results, d', n', ?_, hstore, fun a hash ha => hkept a hash (hrun.kept a hash ha),
      .cons ⟨hrun.stored.hashes, fun record hrecord => ?_⟩ hstored⟩
    · rw [backupRuns, backupClient, hfiles]
      dsimp only [Option.map_some, Option.bind_some]
      rw [hruns]
      rfl
    · exact hkept _ _ (hrun.stored.stored record hrecord)

end TCBackup.Client
