import TCBackup.Client.BackupClient
import TCBackup.Client.Bins

/-!
# What the records of a backup lead to

Under the policies that decide their chunks while the files come in, a record leads to its chunk
from the moment it is sent. The perfect policy decides at the end of the stream, which
`backup_client` does not signal, so a chunk that was not in the bin before is never stored.

## Main definitions

- `savedHashes` — the fingerprints of the bin on the disk
- `Recorded` — a record that leads to its chunk, or has no address
- `AllStored` — all records lead to container files
- `BackedUp` — what is known when the last file has been sent

## Main results

- `backupFiles_recorded` — all records of a backup
- `records_stored_iff` — when they all lead to container files
- `new_chunk_not_stored` — a backup where one does not
-/

namespace TCBackup.Client

open ByteFile Handoff

/-- The fingerprints of the bin that a process finds on the disk. -/
def savedHashes (d : Disk) : List Fingerprint :=
  match loadBin (extremeBinningInit d).1 (extremeBinningInit d).2 zeroFinger zeroFinger 0 with
  | some (bin, _) => bin.fingers.walk.map Prod.fst
  | none => []

/-- A record that leads to its chunk, or one of a new chunk that waits for the end of the
stream. -/
def Recorded (sha1 : Bytes → Fingerprint) (s : Settings) (saved : List Fingerprint) (store : Store)
    (record : Fingerprint × Chunkaddress) : Prop :=
  Located (Hashed sha1) store record.2 record.1 ∧ (s.rewrite = .perfectRewrite → record.1 ∈ saved) ∨
    s.rewrite = .perfectRewrite ∧ record.1 ∉ saved ∧ record.2 = noAddress

/-- Every record names a container file with its chunk. -/
def AllStored (sha1 : Bytes → Fingerprint) (d : Disk)
    (records : List (List (Fingerprint × Chunkaddress))) : Prop :=
  ∀ record ∈ records.flatten, OnDisk (Hashed sha1) d record.2 record.1

variable {sha1 : Bytes → Fingerprint} {s : Settings} {clock : ℕ → ℤ} {content : Bytes → Bytes}
  {ex₀ : ExtremeBinning} {store₀ : Store} {d₀ : Disk} {n₀ : Names} {paths : List Bytes}
  {t t' : DedupThread} {σ : ℕ → Stage} {stream : List (Bytes × Answer)}
  {records : List (List (Fingerprint × Chunkaddress))} {saved : List Fingerprint}

theorem lookup_insertAll_eq_none_iff (l : List (Fingerprint × Chunkaddress)) (n : ℕ) (hash : Fingerprint) :
    ((htableInit n : HTable 20 Chunkaddress).insertAll l).lookup hash = none ↔
      hash ∉ l.map Prod.fst := by
  have hperm := (HTable.walk_insertAll_init (l := l) n).map Prod.fst
  rw [← hperm.mem_iff]
  exact (insertAll_wf l n).lookup_eq_none_iff

/-- A bin that is not in the cache is new, or comes from its volume. -/
theorem loadBin_read {ex ex' : ExtremeBinning} {d : Disk} {k file_hash : Fingerprint} {n : ℤ}
    {bin : Bin} (hnone : ex.bin_cache.lookup k = none)
    (h : loadBin ex d k file_hash n = some (bin, ex')) :
    ex.binaddr k = 0 ∧ bin = emptyBin 0 k n.toNat ∨
      ex.binaddr k ≠ 0 ∧
        ∃ ok, readBinFromVolume d (emptyBin (ex.binaddr k) k n.toNat) = some (ok, bin) := by
  have haddr : (locationBin ex.main_table k file_hash).1 = ex.binaddr k := by
    rw [locationBin, ExtremeBinning.binaddr]
    cases ex.main_table.lookup k <;> rfl
  have hn := nonneg_of_loadBin h hnone
  rw [loadBin, hnone] at h
  dsimp only at h
  rw [newBin_of_nonneg _ k hn, Option.bind_some, haddr] at h
  split at h
  · next hzero =>
    obtain ⟨rfl, -⟩ := Prod.mk.inj (Option.some.inj h)
    exact .inl ⟨hzero, by rw [hzero]⟩
  · next hne =>
    obtain ⟨r, hread, heq⟩ := Option.map_eq_some_iff.mp h
    obtain ⟨rfl, -⟩ := Prod.mk.inj heq
    exact .inr ⟨hne, r.1, hread⟩

theorem readBin_keys {d : Disk} {k : Fingerprint} {addr n n' : ℕ} {ok ok' : Bool} {bin bin' : Bin}
    (h : readBinFromVolume d (emptyBin addr k n) = some (ok, bin))
    (h' : readBinFromVolume d (emptyBin addr k n') = some (ok', bin')) (hash : Fingerprint) :
    bin.fingers.lookup hash = none ↔ bin'.fingers.lookup hash = none := by
  have hnew : ∀ m, (emptyBin addr k m).fingers.lookup hash = none := fun m => HTable.lookup_init m hash
  have hvolume : ∀ m, (emptyBin addr k m).address = addr ∧ (emptyBin addr k m).rep_finger = k :=
    fun m => ⟨rfl, rfl⟩
  rw [readBinFromVolume, (hvolume n).1, (hvolume n).2] at h
  rw [readBinFromVolume, (hvolume n').1, (hvolume n').2] at h'
  cases hfile : d.files.bvol (levelOf addr) with
  | none =>
    rw [hfile] at h h'
    obtain ⟨-, rfl⟩ := Prod.mk.inj (Option.some.inj h)
    obtain ⟨-, rfl⟩ := Prod.mk.inj (Option.some.inj h')
    rw [hnew, hnew]
  | some file =>
    rw [hfile] at h h'
    dsimp only at h h'
    split at h
    · cases h
    · next hlength =>
      rw [if_neg hlength] at h'
      split at h
      · next hother =>
        rw [if_pos hother] at h'
        obtain ⟨-, rfl⟩ := Prod.mk.inj (Option.some.inj h)
        obtain ⟨-, rfl⟩ := Prod.mk.inj (Option.some.inj h')
        rw [hnew, hnew]
      · next hsame =>
        rw [if_neg hsame] at h'
        obtain ⟨-, rfl⟩ := Prod.mk.inj (Option.some.inj h)
        obtain ⟨-, rfl⟩ := Prod.mk.inj (Option.some.inj h')
        exact (lookup_insertAll_eq_none_iff _ n hash).trans
          (lookup_insertAll_eq_none_iff _ n' hash).symm

/-- Which fingerprints a bin from its volume has depends on the volume alone. -/
theorem loadBin_keys {ex ex₁ ex₂ : ExtremeBinning} {d : Disk} {k file_hash file_hash' : Fingerprint}
    {n n' : ℤ} {bin bin' : Bin} (hnone : ex.bin_cache.lookup k = none)
    (h : loadBin ex d k file_hash n = some (bin, ex₁))
    (h' : loadBin ex d k file_hash' n' = some (bin', ex₂)) (hash : Fingerprint) :
    bin.fingers.lookup hash = none ↔ bin'.fingers.lookup hash = none := by
  rcases loadBin_read hnone h with ⟨hzero, rfl⟩ | ⟨hne, ok, hread⟩
  · rcases loadBin_read hnone h' with ⟨-, rfl⟩ | ⟨hne, -⟩
    · exact iff_of_true (HTable.lookup_init _ hash) (HTable.lookup_init _ hash)
    · exact absurd hzero hne
  · rcases loadBin_read hnone h' with ⟨hzero, -⟩ | ⟨-, ok', hread'⟩
    · exact absurd hzero hne
    · exact readBin_keys hread hread' hash

/-- The bin that `LoadBin` returns first has the saved fingerprints. -/
theorem savedHashes_spec {disk : Disk} (hdisk : SoundDisk sha1 disk) {file_hash : Fingerprint} {n : ℤ}
    {bin : Bin} {ex : ExtremeBinning}
    (hload : loadBin (extremeBinningInit disk).1 (extremeBinningInit disk).2 zeroFinger file_hash n =
      some (bin, ex)) (hash : Fingerprint) :
    bin.fingers.lookup hash = none ↔ hash ∉ savedHashes disk := by
  have hcache : (extremeBinningInit disk).1.bin_cache.lookup zeroFinger = none := by
    rw [(extremeBinningInit_eq disk).2.1]
    exact HTable.lookup_init 100 zeroFinger
  obtain ⟨bin', ex', hload', -⟩ := hdisk zeroFinger 0
  rw [Nat.cast_zero] at hload'
  rw [loadBin_keys hcache hload hload', savedHashes, hload']
  exact (loadBin_uncached hcache hload').2.2.lookup_eq_none_iff

theorem backupFiles_cons {item : Bytes × Answer}
    (hrun : backupFiles sha1 s clock content (item :: stream) t = some (records, t')) :
    ∃ first u rest, fileDudup sha1 s clock content t item = some (first, u) ∧
      backupFiles sha1 s clock content stream u = some (rest, t') ∧ records = first :: rest := by
  rw [backupFiles] at hrun
  obtain ⟨⟨first, u⟩, hfirst, hrun⟩ := Option.bind_eq_some_iff.mp hrun
  obtain ⟨⟨rest, v⟩, hrest, heq⟩ := Option.map_eq_some_iff.mp hrun
  obtain ⟨rfl, rfl⟩ := Prod.mk.inj heq
  exact ⟨first, u, rest, hfirst, hrest, rfl⟩

/-- The thread goes from file to file, and sends one record for every chunk. -/
theorem backupFiles_between (hs : s.rewrite ≠ .cappingRewrite)
    (h : Between sha1 s content ex₀ store₀ paths t σ)
    (hcount : AllCounted s (cutItems content t.rabin stream))
    (hrun : backupFiles sha1 s clock content stream t = some (records, t')) :
    (∃ σ' paths', Moves sha1 s clock (FirstLoad ex₀ store₀) (t.work, σ) (t'.work, σ') ∧
      Between sha1 s content ex₀ store₀ paths' t' σ') ∧
      records.map (List.map Prod.fst) = (cutItems content t.rabin stream).map (List.map sha1) := by
  induction stream generalizing t σ paths records with
  | nil =>
    obtain ⟨rfl, rfl⟩ := Prod.mk.inj (Option.some.inj hrun)
    exact ⟨⟨σ, paths, Moves.refl _ _, h⟩, rfl⟩
  | cons item stream ih =>
    obtain ⟨first, u, rest, hfirst, hrest, rfl⟩ := backupFiles_cons hrun
    obtain ⟨hshort, hcount⟩ := allCounted_cons.mp hcount
    obtain ⟨σ₁, hdudup⟩ := fileDudup_dudup hs h hshort hfirst
    obtain ⟨paths₁, hb⟩ := hdudup.between
    rw [← hdudup.rabin] at hcount
    obtain ⟨⟨σ', paths', hmoves, hb'⟩, hhashes⟩ := ih hb hcount hrest
    refine ⟨⟨σ', paths', hdudup.moves.trans hmoves, hb'⟩, ?_⟩
    rw [cutItems, List.map_cons, List.map_cons, hdudup.hashes, hhashes, hdudup.rabin]

/-- Under CFL, a file with too many chunks has a record without an address. -/
theorem backupFiles_uncounted (hs : s.rewrite = .cflRewrite)
    (h : Between sha1 s content ex₀ store₀ paths t σ)
    (hlong : ∃ cut ∈ cutItems content t.rabin stream, 2 ^ 31 ≤ cut.length)
    (hrun : backupFiles sha1 s clock content stream t = some (records, t')) :
    ∃ record ∈ records.flatten, record.2 = noAddress := by
  induction stream generalizing t σ paths records with
  | nil => simp [cutItems] at hlong
  | cons item stream ih =>
    obtain ⟨first, u, rest, hfirst, hrest, rfl⟩ := backupFiles_cons hrun
    rw [List.flatten_cons]
    by_cases hitem : 2 ^ 31 ≤ (cutItem content t.rabin item).1.length
    · obtain ⟨record, hrecord, haddress⟩ := fileDudup_uncounted hs h hitem hfirst
      exact ⟨record, List.mem_append_left _ hrecord, haddress⟩
    · -- the first file that is too long comes later
      have hnot : s.rewrite ≠ .cappingRewrite := by simp [hs]
      obtain ⟨σ₁, hdudup⟩ := fileDudup_dudup hnot h (fun _ => not_le.mp hitem) hfirst
      obtain ⟨paths₁, hb⟩ := hdudup.between
      rw [cutItems, ← hdudup.rabin] at hlong
      obtain ⟨cut, hcut, hlength⟩ := hlong
      rcases List.mem_cons.mp hcut with rfl | hcut
      · exact absurd hlength hitem
      · obtain ⟨record, hrecord, haddress⟩ := ih hb ⟨cut, hcut, hlength⟩ hrest
        exact ⟨record, List.mem_append_right _ hrecord, haddress⟩

/-- The bin has the saved fingerprints as long as the perfect policy waits. -/
def SavedOnly (s : Settings) (saved : List Fingerprint) (t : DedupThread) : Prop :=
  s.rewrite = .perfectRewrite → t.exbin.bin_cache.lookup zeroFinger ≠ none →
    ∀ hash, t.work.fingers.lookup hash = none ↔ hash ∉ saved

theorem fileDudup_savedOnly {item : Bytes × Answer} {first : List (Fingerprint × Chunkaddress)}
    (hload : ∀ file_hash n bin ex, loadBin ex₀ store₀.disk zeroFinger file_hash n = some (bin, ex) →
      ∀ hash, bin.fingers.lookup hash = none ↔ hash ∉ saved)
    (h : Between sha1 s content ex₀ store₀ paths t σ) (hsaved : SavedOnly s saved t)
    (hs : s.rewrite = .perfectRewrite)
    (hrun : fileDudup sha1 s clock content t item = some (first, t')) :
    SavedOnly s saved t' ∧
      (first ≠ [] → ∀ hash, t'.work.fingers.lookup hash = none ↔ hash ∉ saved) := by
  rcases fileDudup_perfect hs h hrun with ⟨hnil, honly⟩ | ⟨file_hash, n, bin, ex, hbin, hfingers⟩
  · refine ⟨fun hs hcached => ?_, fun hne => absurd hnil hne⟩
    rw [honly.exbin] at hcached
    rw [honly.fingers]
    exact hsaved hs hcached
  · suffices hall : ∀ hash, t'.work.fingers.lookup hash = none ↔ hash ∉ saved from
      ⟨fun _ _ => hall, fun _ => hall⟩
    rw [hfingers]
    cases hcached : t.exbin.bin_cache.lookup zeroFinger with
    | some cached =>
      rw [loadBin, hcached] at hbin
      obtain ⟨rfl, -⟩ := Prod.mk.inj (Option.some.inj hbin)
      rw [(h.bins.loaded cached hcached).1]
      exact hsaved hs (hcached ▸ Option.some_ne_none cached)
    | none =>
      obtain ⟨hex, hstore, -⟩ := h.bins.unloaded hcached
      rw [hex, hstore] at hbin
      exact hload file_hash n bin ex hbin

/-- What is known of the records when the last file has been sent. -/
theorem backupFiles_recorded (hs : s.rewrite ≠ .cappingRewrite)
    (hload : ∀ file_hash n bin ex, loadBin ex₀ store₀.disk zeroFinger file_hash n = some (bin, ex) →
      ∀ hash, bin.fingers.lookup hash = none ↔ hash ∉ saved)
    (hloads : LoadsSound sha1 (FirstLoad ex₀ store₀))
    (h : Between sha1 s content ex₀ store₀ paths t σ) (hindex : IndexSound sha1 d₀ n₀ t.work σ)
    (hsaved : SavedOnly s saved t) (hcount : AllCounted s (cutItems content t.rabin stream))
    (hrun : backupFiles sha1 s clock content stream t = some (records, t'))
    (hnames : Distinct d₀ n₀ t'.work.store.names) :
    ∀ record ∈ records.flatten, Recorded sha1 s saved t'.work.store record := by
  induction stream generalizing t σ paths records with
  | nil =>
    obtain ⟨rfl, rfl⟩ := Prod.mk.inj (Option.some.inj hrun)
    simp
  | cons item stream ih =>
    obtain ⟨first, u, rest, hfirst, hrest, rfl⟩ := backupFiles_cons hrun
    obtain ⟨hshort, hcount⟩ := allCounted_cons.mp hcount
    obtain ⟨σ₁, hdudup⟩ := fileDudup_dudup hs h hshort hfirst
    obtain ⟨paths₁, hb⟩ := hdudup.between
    rw [← hdudup.rabin] at hcount
    obtain ⟨⟨σ', paths', hmoves, -⟩, -⟩ := backupFiles_between hs hb hcount hrest
    have hindex' := hdudup.moves.sound hloads hindex (hnames.mono hmoves.calls)
    have hsaved' : SavedOnly s saved u := fun hperfect =>
      (fileDudup_savedOnly hload h hsaved hperfect hfirst).1 hperfect
    intro record hrecord
    rw [List.flatten_cons, List.mem_append] at hrecord
    cases hrecord with
    | inr hlater => exact ih hb hindex' hsaved' hcount hrest record hlater
    | inl hnow =>
      have hkeys : s.rewrite = .perfectRewrite → ∀ hash, u.work.fingers.lookup hash = none ↔ hash ∉ saved :=
        fun hperfect => (fileDudup_savedOnly hload h hsaved hperfect hfirst).2
          (List.ne_nil_of_mem hnow)
      obtain ⟨r, rfl, hdecided | ⟨hperfect, hnone, haddress⟩⟩ := hdudup.sent record hnow
      · have hknown := hindex'.chunks r hdecided
        refine .inl ⟨hmoves.located hloads hindex' hnames hknown.located, fun hperfect => ?_⟩
        by_contra hnot
        exact hknown.found ((hkeys hperfect _).mpr hnot)
      · exact .inr ⟨hperfect, (hkeys hperfect _).mp hnone, haddress⟩

theorem freeBin_tmp (ex : ExtremeBinning) (d : Disk) (bin : Bin) :
    (freeBin ex d bin).2.files.tmp = d.files.tmp := by
  have hdisk : (freeBin ex d bin).2 = (writeBinToVolume ex.bin_volume_array d bin).2.2 := by
    rw [freeBin]
    dsimp only
    split
    · rfl
    · split <;> rfl
  rw [hdisk, writeBinToVolume]
  generalize raiseLevel (binLength bin.fingers) maxBinLevel (levelOf bin.address) = level
  dsimp only
  generalize (if level = levelOf bin.address then offsetOf bin.address else 0) = offset
  split <;> rfl

theorem freeCacheBin_tmp (ex : ExtremeBinning) (d : Disk) :
    (freeCacheBin ex d).2.files.tmp = d.files.tmp := by
  rw [freeCacheBin]
  generalize ex.bin_cache.walk = l
  induction l generalizing ex d with
  | nil => rfl
  | cons p l ih =>
    rw [freeAll_cons, ih, freeBin_tmp]

/-- The bins and the main table are no container files. -/
theorem backupEnd_tmp (t : DedupThread) :
    (backupEnd t).files.tmp = (storeDestory t.work.store).files.tmp := by
  have htmp : (extremeBinningFlush (freeCacheBin t.exbin t.work.store.disk).1
      (freeCacheBin t.exbin t.work.store.disk).2).files.tmp = t.work.store.disk.files.tmp := by
    rw [extremeBinningFlush_files]
    exact freeCacheBin_tmp _ _
  rw [backupEnd, storeDestory, storeDestory]
  dsimp only
  split
  · rw [writeContainer, writeContainer, Disk.write_files, Disk.write_files, Files.apply, Files.apply, htmp]
  · exact htmp

/-- What is found when the files have been sent is on disk in the end. -/
theorem Located.backupEnd {a : Chunkaddress} {hash : Fingerprint}
    (h : Located (Hashed sha1) t.work.store a hash)
    (hstore : StoreOk (Hashed sha1) d₀ n₀ t.work.store) (hnames : Distinct d₀ n₀ t.work.store.names) :
    OnDisk (Hashed sha1) (backupEnd t) a hash :=
  (h.storeDestory hstore hnames).congr rfl (congrFun (backupEnd_tmp t) _)

theorem backupClient_files {d : Disk} {n : Names}
    (hrun : backupClient sha1 s clock content stream t = some (records, d, n)) :
    ∃ t', backupFiles sha1 s clock content stream t = some (records, t') ∧ backupEnd t' = d ∧
      t'.work.store.names = n := by
  obtain ⟨⟨records', t'⟩, hfiles, heq⟩ := Option.map_eq_some_iff.mp hrun
  obtain ⟨hrecords, hend⟩ := Prod.mk.inj heq
  obtain ⟨hdisk, hnames⟩ := Prod.mk.inj hend
  exact ⟨t', hrecords ▸ hfiles, hdisk, hnames⟩

theorem cstr_noAddress : cstr noAddress = [] := cstr_fixed (Nat.zero_le 64) List.not_mem_nil

theorem firstLoad_keys {disk : Disk} (hdisk : SoundDisk sha1 disk) (clock : ℕ → ℤ) (names : Names)
    (rabin : Rabin) (u : ℤ) (file_hash : Fingerprint) (n : ℤ) (bin : Bin) (ex : ExtremeBinning)
    (hload : loadBin (dedupStart clock disk names rabin u).exbin
      (dedupStart clock disk names rabin u).work.store.disk zeroFinger file_hash n = some (bin, ex))
    (hash : Fingerprint) : bin.fingers.lookup hash = none ↔ hash ∉ savedHashes disk := by
  rw [dedupStart_exbin, dedupStart_store, storeInit_disk] at hload
  exact savedHashes_spec hdisk hload hash

/-- What is known when the last file has been sent. -/
structure BackedUp (sha1 : Bytes → Fingerprint) (s : Settings) (clock : ℕ → ℤ)
    (content : Bytes → Bytes) (disk : Disk) (names : Names) (rabin : Rabin) (u : ℤ)
    (stream : List (Bytes × Answer)) (records : List (List (Fingerprint × Chunkaddress)))
    (t : DedupThread) (σ : ℕ → Stage) : Prop where
  moves : Moves sha1 s clock (FirstLoad (dedupStart clock disk names rabin u).exbin
    (dedupStart clock disk names rabin u).work.store)
    ((dedupStart clock disk names rabin u).work, fun _ => .fresh) (t.work, σ)
  between : ∃ paths, Between sha1 s content (dedupStart clock disk names rabin u).exbin
    (dedupStart clock disk names rabin u).work.store paths t σ
  index : IndexSound sha1 disk names t.work σ
  hashes : records.map (List.map Prod.fst) = (cutItems content rabin stream).map (List.map sha1)
  recorded : ∀ record ∈ records.flatten, Recorded sha1 s (savedHashes disk) t.work.store record

theorem backupFiles_backedUp (hs : s.rewrite ≠ .cappingRewrite) {disk : Disk} {names : Names}
    {rabin : Rabin} {u : ℤ} (hdisk : SoundDisk sha1 disk)
    (hcount : AllCounted s (cutItems content rabin stream))
    (hfiles : backupFiles sha1 s clock content stream (dedupStart clock disk names rabin u) =
      some (records, t))
    (hnames : Distinct disk names t.work.store.names) :
    ∃ σ, BackedUp sha1 s clock content disk names rabin u stream records t σ := by
  have hloads := firstLoad_sound hdisk clock names rabin u
  have hstart := between_start sha1 s content clock disk names rabin u
  have hindex := indexSound_start sha1 clock disk names rabin u
  have hnone : SavedOnly s (savedHashes disk) (dedupStart clock disk names rabin u) := by
    intro _ hcached
    refine absurd ?_ hcached
    rw [dedupStart_exbin, (extremeBinningInit_eq disk).2.1]
    exact HTable.lookup_init 100 zeroFinger
  have hrecorded := backupFiles_recorded hs (firstLoad_keys hdisk clock names rabin u) hloads hstart hindex
    hnone hcount hfiles hnames
  obtain ⟨⟨σ, paths, hmoves, hb⟩, hhashes⟩ := backupFiles_between hs hstart hcount hfiles
  exact ⟨σ, hmoves, ⟨paths, hb⟩, hmoves.sound hloads hindex hnames, hhashes, hrecorded⟩

/-- All records lead to container files with their chunks, unless CFL has met a file with more
chunks than it can count or the perfect policy a chunk that was not in the bin before. -/
theorem records_stored_iff (sha1 : Bytes → Fingerprint) {s : Settings} (clock : ℕ → ℤ)
    (content : Bytes → Bytes) (hs : s.rewrite ≠ .cappingRewrite) {disk disk' : Disk} {names names' : Names}
    (rabin : Rabin) (u : ℤ) (stream : List (Bytes × Answer)) (hdisk : SoundDisk sha1 disk)
    {records : List (List (Fingerprint × Chunkaddress))}
    (hrun : backupClient sha1 s clock content stream (dedupStart clock disk names rabin u) =
      some (records, disk', names'))
    (hnames : Distinct disk names names') :
    AllStored sha1 disk' records ↔
      (s.rewrite = .cflRewrite → ∀ cut ∈ cutItems content rabin stream, cut.length < 2 ^ 31) ∧
        (s.rewrite = .perfectRewrite →
          ∀ bs ∈ (cutItems content rabin stream).flatten, sha1 bs ∈ savedHashes disk) := by
  obtain ⟨t, hfiles, rfl, rfl⟩ := backupClient_files hrun
  by_cases hcount : AllCounted s (cutItems content rabin stream)
  swap
  · refine iff_of_false (fun hall => ?_) fun hboth => hcount hboth.1
    obtain ⟨hcfl, hlong⟩ := Classical.not_imp.mp hcount
    push Not at hlong
    have hstart := between_start sha1 s content clock disk names rabin u
    obtain ⟨record, hrecord, haddress⟩ := backupFiles_uncounted hcfl hstart hlong hfiles
    have hnamed := (hall record hrecord).1
    rw [haddress] at hnamed
    exact hnamed cstr_noAddress
  refine Iff.trans ?_ (and_iff_right hcount).symm
  obtain ⟨σ, hback⟩ := backupFiles_backedUp hs hdisk hcount hfiles hnames
  have hhashes : records.flatten.map Prod.fst = (cutItems content rabin stream).flatten.map sha1 := by
    rw [List.map_flatten, List.map_flatten]
    exact congrArg List.flatten hback.hashes
  constructor
  · intro hall hperfect bs hbs
    have hmem : sha1 bs ∈ records.flatten.map Prod.fst := by
      rw [hhashes]
      exact List.mem_map_of_mem hbs
    obtain ⟨record, hrecord, hhash⟩ := List.mem_map.mp hmem
    rw [← hhash]
    rcases hback.recorded record hrecord with ⟨-, hin⟩ | ⟨-, -, haddress⟩
    · exact hin hperfect
    · have hnamed := (hall record hrecord).1
      rw [haddress] at hnamed
      exact absurd cstr_noAddress hnamed
  · intro hin record hrecord
    rcases hback.recorded record hrecord with ⟨hlocated, -⟩ | ⟨hperfect, hnot, -⟩
    · exact hlocated.backupEnd hback.index.storeOk hnames
    · have hmem : record.1 ∈ (cutItems content rabin stream).flatten.map sha1 := by
        rw [← hhashes]
        exact List.mem_map_of_mem hrecord
      obtain ⟨bs, hbs, hhash⟩ := List.mem_map.mp hmem
      exact absurd (hhash ▸ hin hperfect bs hbs) hnot

/-- One file of one chunk. -/
def oneChunk (rewrite : Rewrite) : Option (List (List (Fingerprint × Chunkaddress)) × Disk × Names) :=
  backupClient (fun _ => zeroFinger) ⟨rewrite, fun _ _ => true, fun _ => true, fun _ => true, 0, 0⟩
    (fun _ => 0) (fun _ => [1, 2, 3]) [([97], .newFile)]
    (dedupStart (fun _ => 0) .empty ⟨1, []⟩ ⟨0, 0, fun _ => 0⟩ 0)

theorem oneChunk_run {rewrite : Rewrite} (hs : rewrite = .noRewrite ∨ rewrite = .perfectRewrite) :
    ∃ records d n, oneChunk rewrite = some (records, d, n) ∧ Distinct .empty ⟨1, []⟩ n ∧
      (rewrite = .perfectRewrite → records = [[(zeroFinger, noAddress)]]) := by
  have hrun : (oneChunk rewrite).map (fun p => (p.1, p.2.2.calls)) =
      some (if rewrite = .perfectRewrite then [[(zeroFinger, noAddress)]] else
        [[(zeroFinger, (⟨0, 2⟩ : NameCall).name)]], [⟨0, 2⟩]) := by
    rcases hs with rfl | rfl
    · decide +kernel
    · decide +kernel
  obtain ⟨⟨records, d, n⟩, hone, heq⟩ := Option.map_eq_some_iff.mp hrun
  obtain ⟨hrecords, hcalls⟩ := Prod.mk.inj heq
  refine ⟨records, d, n, hone, ⟨?_, fun _ _ => rfl⟩, fun hperfect => ?_⟩
  · rw [hcalls]
    exact List.nodup_singleton _
  · rw [if_pos hperfect] at hrecords
    exact hrecords

theorem records_stored_one :
    ∃ records d n, oneChunk .noRewrite = some (records, d, n) ∧
      AllStored (fun _ => zeroFinger) d records := by
  obtain ⟨records, d, n, hrun, hnames, -⟩ := oneChunk_run (.inl rfl)
  refine ⟨records, d, n, hrun, ?_⟩
  refine (records_stored_iff (fun _ => zeroFinger) (fun _ => 0) (fun _ => [1, 2, 3])
    Rewrite.noConfusion ⟨0, 0, fun _ => 0⟩ 0 [([97], .newFile)] (soundDisk_empty _) hrun hnames).mpr ?_
  exact ⟨fun hcfl => Rewrite.noConfusion hcfl, fun hperfect => Rewrite.noConfusion hperfect⟩

/-- The only chunk of the only file is still in `dedup_buf` when the backup ends. -/
theorem new_chunk_not_stored :
    ¬ ∀ (sha1 : Bytes → Fingerprint) (s : Settings) (clock : ℕ → ℤ) (content : Bytes → Bytes)
      (disk disk' : Disk) (names names' : Names) (rabin : Rabin) (u : ℤ) (stream : List (Bytes × Answer))
      (records : List (List (Fingerprint × Chunkaddress))),
      s.rewrite ≠ .cappingRewrite → SoundDisk sha1 disk →
      backupClient sha1 s clock content stream (dedupStart clock disk names rabin u) =
        some (records, disk', names') →
      Distinct disk names names' → AllStored sha1 disk' records := by
  intro hall
  obtain ⟨records, d, n, hrun, hnames, hrecords⟩ := oneChunk_run (.inr rfl)
  have hstored := hall _ _ _ _ _ _ _ _ _ _ _ _ Rewrite.noConfusion (soundDisk_empty _) hrun hnames
    (zeroFinger, noAddress) (by simp [hrecords rfl])
  exact hstored.1 cstr_noAddress

end TCBackup.Client
