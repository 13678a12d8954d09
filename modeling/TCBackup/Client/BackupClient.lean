import TCBackup.Client.IndexSound

/-!
# A backup without threads (`client/src/handle.c`, `client/src/filededup.c`)

`backup_client` deduplicates one file after the other and sends the recipe of a file as soon as
`mark_deplicate_chunk` has returned. There is no call for the end of the stream: what a policy
keeps back then is dropped with its buffer.

## Main definitions

- `fileDudup`, `backupFiles` — one file, and all of them
- `backupClient` — a backup, up to `store_destory`
- `cutItems` — the chunks of the new files
- `AllCounted` — no file has more chunks than `cfl_process` counts
- `BinCounted` — the bin is loaded for a file whose count is not negative

## Main results

- `chunkDedup_sent` — what is known of the records of a new file
- `chunkDedup_uncounted` — a file of 2³¹ chunks, which `chunknum` cannot count
- `fileDudup_dudup`, `fileDudup_perfect` — one file
-/

namespace TCBackup.Client

open ByteFile Handoff

/-- What `update_file_recipe` sends for a chunk. -/
def recipeRecord (fc : FingerChunk) : Fingerprint × Chunkaddress := (fc.chunk_hash, fc.chunkaddress)

variable (sha1 : Bytes → Fingerprint) (s : Settings) (clock : ℕ → ℤ) (content : Bytes → Bytes)

/-- `file_dudup`: the records that are sent, and the state. Only new files are cut into chunks,
and only they have records. `file_size` is read by nothing here. The memory of a file that is
sent is taken to be intact when `tmp_container` refers to it later. -/
def fileDudup (t : DedupThread) (item : Bytes × Answer) :
    Option (List (Fingerprint × Chunkaddress) × DedupThread) :=
  match item.2 with
  | .newFile =>
    (chunkDedup sha1 s clock content { queuedFile sha1 content item.1 with is_new := .newFile } t).map
      fun q =>
        (if q.1 then q.2.1.chunks.map fun r => recipeRecord (q.2.2.work.chunk r) else [], forward q)
  | .dedupFile msgs =>
    some ([], (appendChunks (msgs.map receivedChunk)
      { queuedFile sha1 content item.1 with is_new := .dedupFile } t).2)

/-- `walk_dir`: `file_dudup` for one file after the other. -/
def backupFiles : List (Bytes × Answer) → DedupThread →
    Option (List (List (Fingerprint × Chunkaddress)) × DedupThread)
  | [], t => some ([], t)
  | item :: stream, t =>
    (fileDudup sha1 s clock content t item).bind fun p =>
      (backupFiles stream p.2).map fun q => (p.1 :: q.1, q.2)

/-- `free_cache_bin`, `ExtremeBinningDestroy` and `store_destory`. -/
def backupEnd (t : DedupThread) : Disk :=
  let freed := freeCacheBin t.exbin t.work.store.disk
  storeDestory { t.work.store with disk := extremeBinningFlush freed.1 freed.2 }

/-- `backup_client`: the records of every file, the disk and the names afterwards. -/
def backupClient (stream : List (Bytes × Answer)) (t : DedupThread) :
    Option (List (List (Fingerprint × Chunkaddress)) × Disk × Names) :=
  (backupFiles sha1 s clock content stream t).map fun p => (p.1, backupEnd p.2, p.2.work.store.names)

/-- The chunks that a file is cut into, and the hash afterwards. -/
def cutItem (rabin : Rabin) (item : Bytes × Answer) : List Bytes × Rabin :=
  match item.2 with
  | .newFile => chunkFile rabin (content item.1)
  | .dedupFile _ => ([], rabin)

/-- The chunks of every file. -/
def cutItems : Rabin → List (Bytes × Answer) → List (List Bytes)
  | _, [] => []
  | rabin, item :: stream =>
    (cutItem content rabin item).1 :: cutItems (cutItem content rabin item).2 stream

/-- `cfl_process` comes to all chunks of the files. -/
def AllCounted (s : Settings) (cuts : List (List Bytes)) : Prop :=
  s.rewrite = .cflRewrite → ∀ cut ∈ cuts, cut.length < 2 ^ 31

/-- The first file that is cut has a `chunknum` that is not negative. -/
def BinCounted (content : Bytes → Bytes) (rabin : Rabin) : List (Bytes × Answer) → Prop
  | [] => True
  | (path, .newFile) :: _ => 0 ≤ int32 (chunkFile rabin (content path)).1.length
  | (_, .dedupFile _) :: stream => BinCounted content rabin stream

variable {sha1 s clock content} {ex₀ : ExtremeBinning} {store₀ : Store} {paths : List Bytes}
  {t t' : DedupThread} {σ : ℕ → Stage} {item : Bytes × Answer} {stream : List (Bytes × Answer)}
  {records : List (Fingerprint × Chunkaddress)} {fileinfo : FileInfo ℕ} {fcs : List FingerChunk}

theorem allCounted_cons {cut : List Bytes} {cuts : List (List Bytes)} :
    AllCounted s (cut :: cuts) ↔
      (s.rewrite = .cflRewrite → cut.length < 2 ^ 31) ∧ AllCounted s cuts := by
  rw [AllCounted, AllCounted, ← forall_and]
  refine forall_congr' fun _ => ?_
  rw [List.forall_mem_cons]

theorem fingerChunks_hash (sha1 : Bytes → Fingerprint) (offset : ℕ) (l : List Bytes) :
    (fingerChunks sha1 offset l).map FingerChunk.chunk_hash = l.map sha1 := by
  induction l generalizing offset with
  | nil => rfl
  | cons bs l ih =>
    rw [fingerChunks, List.map_cons, List.map_cons, ih]

variable {segments : HTable 64 ℤ} {w : Work} {rs : List ℕ}

/-- The first pass leaves the bin alone. A chunk that it takes for new is not in the bin and has
the address that it had. -/
structure Unstored (w w' : Work) (rs : List ℕ) : Prop where
  fingers : w'.fingers = w.fingers
  others : ∀ r ∉ rs, w'.chunk r = w.chunk r
  new : ∀ r ∈ rs, (w'.chunk r).is_new = .newChunk →
    w'.found r = none ∧ (w'.chunk r).chunkaddress = (w.chunk r).chunkaddress

theorem perfectMark_unstored (fileinfo : FileInfo ℕ) (r : ℕ) (segments : HTable 64 ℤ) (w : Work) :
    Unstored w (perfectMark fileinfo r (segments, w)).2.2 [r] := by
  rw [perfectMark]
  cases hfound : w.found r with
  | none =>
    refine ⟨rfl, fun q hq => ?_, fun q hq _ => ?_⟩
    · have hne : q ≠ r := fun heq => hq (List.mem_singleton.mpr heq)
      exact (chunk_set_of_ne _ _ _ hne).trans (chunk_set_of_ne _ _ _ hne)
    · obtain rfl := List.mem_singleton.mp hq
      rw [Work.found] at hfound
      constructor
      · simp [Work.found, Work.lock, Work.markNew, hfound]
      · simp [Work.lock, Work.markNew]
  | some a =>
    refine ⟨rfl, fun q hq => ?_, fun q hq hnew => ?_⟩
    · have hne : q ≠ r := fun heq => hq (List.mem_singleton.mpr heq)
      exact (chunk_set_of_ne _ _ _ hne).trans (chunk_set_of_ne _ _ _ hne)
    · obtain rfl := List.mem_singleton.mp hq
      simp [Work.lock, Work.markDedup] at hnew

/-- The loop stops early for duplicate files only. -/
theorem perfectMarks_unstored (hfile : fileinfo.is_new ≠ .dedupFile) (hnodup : rs.Nodup)
    (segments : HTable 64 ℤ) (w : Work) :
    Unstored w (runWhile (perfectMark fileinfo) rs (segments, w)).2.2 rs := by
  induction rs generalizing segments w with
  | nil => exact ⟨rfl, fun _ _ => rfl, by simp⟩
  | cons r rs ih =>
    obtain ⟨hr, hnodup⟩ := List.nodup_cons.mp hnodup
    have hfirst := perfectMark_unstored fileinfo r segments w
    cases hmark : perfectMark fileinfo r (segments, w) with
    | mk ok q =>
      obtain ⟨segments', v⟩ := q
      have hok : ok = true := by
        have htrue : (perfectMark fileinfo r (segments, w)).1 = true := by
          rw [perfectMark]
          split
          · exact decide_eq_true hfile
          · rfl
        rwa [hmark] at htrue
      rw [hmark] at hfirst
      rw [hok] at hmark
      rw [runWhile_of_true hmark]
      have hrest := ih hnodup segments' v
      generalize (runWhile (perfectMark fileinfo) rs (segments', v)).2.2 = w' at hrest
      refine ⟨hrest.fingers.trans hfirst.fingers, fun q hq => ?_, fun q hq hnew => ?_⟩
      · obtain ⟨hne, hq⟩ := not_or.mp (mt List.mem_cons.mpr hq)
        rw [hrest.others q hq, hfirst.others q (mt List.mem_singleton.mp hne)]
      · by_cases heq : q = r
        · have hsame : w'.found r = v.found r := by
            rw [Work.found, Work.found, hrest.fingers, hrest.others r hr]
          rw [heq, hrest.others r hr] at hnew
          rw [heq, hsame, hrest.others r hr]
          exact hfirst.new r (List.mem_singleton_self r) hnew
        · have hsame := hfirst.others q (mt List.mem_singleton.mp heq)
          obtain ⟨hnone, haddress⟩ := hrest.new q (List.mem_of_ne_of_mem heq hq) hnew
          rw [hsame] at haddress
          exact ⟨hnone, haddress⟩

variable {q : Bool × FileInfo ℕ × DedupThread}

theorem forward_chunk (q : Bool × FileInfo ℕ × DedupThread) :
    (forward q).work.chunk = q.2.2.work.chunk := by
  rw [forward]
  split
  · exact push_chunk _ _
  · rfl

theorem forward_fingers (q : Bool × FileInfo ℕ × DedupThread) :
    (forward q).work.fingers = q.2.2.work.fingers := by
  rw [forward]
  split <;> rfl

theorem forward_exbin (q : Bool × FileInfo ℕ × DedupThread) : (forward q).exbin = q.2.2.exbin := by
  rw [forward]
  split <;> rfl

theorem markDeplicateChunk_rabin (s : Settings) (clock : ℕ → ℤ) (content : Bytes → Bytes)
    (fileinfo : FileInfo ℕ) (t : DedupThread) :
    (markDeplicateChunk s clock content fileinfo t).2.rabin = t.rabin := by
  rw [markDeplicateChunk]
  cases s.rewrite with
  | noRewrite => cases fileinfo.is_new <;> rfl
  | _ => rfl

theorem chunkDedup_rabin (hrun : chunkDedup sha1 s clock content fileinfo t = some q) :
    (forward q).rabin = (cutFile sha1 content fileinfo t).2.rabin ∧
      q.2.1 = (cutFile sha1 content fileinfo t).1 := by
  rw [chunkDedup] at hrun
  obtain ⟨b, -, rfl⟩ := Option.map_eq_some_iff.mp hrun
  refine ⟨?_, rfl⟩
  have hmark := markDeplicateChunk_rabin s clock content (cutFile sha1 content fileinfo t).1
    ({ (cutFile sha1 content fileinfo t).2 with exbin := b.2 }.openBin b.1)
  rw [forward]
  split
  · exact hmark
  · exact hmark

/-- Under the perfect policy the bin is only read, and new chunks have no address. -/
theorem chunkDedup_perfect (hs : s.rewrite = .perfectRewrite) (hfile : fileinfo.is_new ≠ .dedupFile)
    (h : Between sha1 s content ex₀ store₀ paths t σ) (hchunks : fileinfo.chunks = [])
    (hrun : chunkDedup sha1 s clock content fileinfo t = some q) :
    (∃ bin ex, loadBin t.exbin t.work.store.disk zeroFinger fileinfo.file_hash q.2.1.chunknum =
        some (bin, ex) ∧ (forward q).work.fingers = bin.fingers) ∧
      ∀ r ∈ q.2.1.chunks, ((forward q).work.chunk r).is_new = .newChunk →
        (forward q).work.found r = none ∧ ((forward q).work.chunk r).chunkaddress = noAddress := by
  obtain ⟨-, -, hcut, rs, hf⟩ := cutFile_spec clock (FirstLoad ex₀ store₀) h hchunks
  have hfresh := cutFile_cut clock h hchunks
  rw [chunkDedup] at hrun
  generalize cutFile sha1 content fileinfo t = p at hcut hf hfresh hrun
  obtain ⟨f, u⟩ := p
  dsimp only at hcut hf hfresh hrun
  obtain ⟨b, hload, rfl⟩ := Option.map_eq_some_iff.mp hrun
  have hhash : f.file_hash = fileinfo.file_hash := by rw [hf]
  have hnew : f.is_new ≠ .dedupFile := by
    rw [hf]
    exact hfile
  have hpass := perfectMarks_unstored hnew hcut.hand.nodup u.perfect.segments (u.openBin b.1).work
  have hwork : (markDeplicateChunk s clock content f ({ u with exbin := b.2 }.openBin b.1)).2.work =
      (runWhile (perfectMark f) f.chunks (u.perfect.segments, (u.openBin b.1).work)).2.2 := by
    rw [markDeplicateChunk, hs]
    rfl
  rw [← hwork] at hpass
  refine ⟨⟨b.1, b.2, ?_, ?_⟩, fun r hr hstatus => ?_⟩
  · rw [hcut.rep, hfresh.exbin, hfresh.store, hhash] at hload
    exact hload
  · rw [forward_fingers]
    exact hpass.fingers
  · rw [forward_chunk] at hstatus
    obtain ⟨hnone, haddress⟩ := hpass.new r hr hstatus
    rw [Work.found, forward_fingers, forward_chunk]
    refine ⟨hnone, haddress.trans ?_⟩
    have hmem : u.work.chunk r ∈ fingerChunks sha1 0 (chunkFile t.rabin (content fileinfo.file_path)).1 := by
      rw [← hfresh.chunks]
      exact List.mem_map_of_mem hr
    exact (fingerChunks_new hmem).2.1

/-- What is known of a record when it is sent. -/
def Sent (s : Settings) (w : Work) (σ : ℕ → Stage) (record : Fingerprint × Chunkaddress) : Prop :=
  ∃ r, record = recipeRecord (w.chunk r) ∧
    (Decided (σ r) (w.chunk r) ∨
      s.rewrite = .perfectRewrite ∧ w.found r = none ∧ (w.chunk r).chunkaddress = noAddress)

/-- A new file: all of its chunks are decided, but for new ones under the perfect policy. -/
theorem chunkDedup_sent (hs : s.rewrite ≠ .cappingRewrite) (hfile : fileinfo.is_new = .newFile)
    (h : Between sha1 s content ex₀ store₀ paths t σ) (hchunks : fileinfo.chunks = [])
    (hsize : fileinfo.file_size = (content fileinfo.file_path).length)
    (hcount : s.rewrite = .cflRewrite →
      (chunkFile t.rabin (content fileinfo.file_path)).1.length < 2 ^ 31)
    (hrun : chunkDedup sha1 s clock content fileinfo t = some q) :
    ∃ σ', Moves sha1 s clock (FirstLoad ex₀ store₀) (t.work, σ) ((forward q).work, σ') ∧
      Between sha1 s content ex₀ store₀ (paths ++ [fileinfo.file_path]) (forward q) σ' ∧
      q.1 = true ∧ (q.2.1.chunks.map fun r => ((forward q).work.chunk r).chunk_hash) =
        (chunkFile t.rabin (content fileinfo.file_path)).1.map sha1 ∧
      ∀ r ∈ q.2.1.chunks, Sent s (forward q).work σ' (recipeRecord ((forward q).work.chunk r)) := by
  obtain ⟨σ', hmoves, hb, hplace⟩ := chunkDedup_between h hchunks hsize (fun _ => hfile) hcount hrun
  have hfresh := cutFile_cut clock h hchunks
  obtain ⟨-, hq⟩ := chunkDedup_rabin hrun
  have hnew : q.2.1.is_new = .newFile := by
    obtain ⟨-, -, -, rs, hf⟩ := cutFile_spec clock (FirstLoad ex₀ store₀) h hchunks
    rw [hq, hf]
    exact hfile
  have hok : q.1 = true := by
    by_contra hbad
    have hmem : q.2.1 ∈ (forward q).failed := by
      rw [forward, if_neg hbad]
      exact List.mem_append_right _ (List.mem_singleton_self _)
    have hdup := (hb.ledger.failed q.2.1 hmem).2
    rw [hnew] at hdup
    cases hdup
  refine ⟨σ', hmoves, hb, hok, ?_, fun r hr => ⟨r, rfl, ?_⟩⟩
  · rw [← fingerChunks_hash sha1 0, ← hfresh.chunks, List.map_map, hq]
    exact List.map_congr_left fun r _ => (hplace r).1
  · have hgroup : q.2.1 ∈ groups (forward q).work.log := by
      rw [forward, if_pos hok, Work.push, groups_append]
      exact List.mem_append_right _ (List.mem_singleton_self _)
    have hown : ¬(s.rewrite = .noRewrite ∧ q.2.1.is_new = .dedupFile) := by
      rintro ⟨-, hdup⟩
      rw [hnew] at hdup
      cases hdup
    have hpolicy := hb.policy
    rw [PolicyHolds] at hpolicy
    rcases hb.life.published r (mem_pushedChunks.mp (mem_pushedChunks_of_file hgroup hown hr)) with
      hpending | hsettled
    · cases hrewrite : s.rewrite with
      | noRewrite =>
        rw [hrewrite] at hpolicy
        exact absurd ((hpolicy.pending r).mp hpending) (List.not_mem_nil)
      | cflRewrite =>
        rw [hrewrite] at hpolicy
        obtain ⟨p, hp, rfl⟩ := List.mem_map.mp ((hpolicy.waiting.pending r).mp hpending)
        exact .inl (.inr ⟨.inr hpending, hpolicy.dup p hp⟩)
      | perfectRewrite =>
        cases hstatus : ((forward q).work.chunk r).is_new with
        | dedupChunk => exact .inl (.inr ⟨.inr hpending, hstatus⟩)
        | newChunk =>
          have hnot : fileinfo.is_new ≠ .dedupFile := by
            rw [hfile]
            exact FileStatus.noConfusion
          exact .inr ⟨rfl, (chunkDedup_perfect hrewrite hnot h hchunks hrun).2 r hr hstatus⟩
      | cappingRewrite => exact absurd hrewrite hs
    · exact .inl (.inl hsettled)

/-- `cfl_process` does not come to some chunk of a file that is too long, which keeps the address
that it was cut with. -/
theorem chunkDedup_uncounted (hs : s.rewrite = .cflRewrite)
    (h : Between sha1 s content ex₀ store₀ paths t σ) (hchunks : fileinfo.chunks = [])
    (hlong : 2 ^ 31 ≤ (chunkFile t.rabin (content fileinfo.file_path)).1.length)
    (hrun : chunkDedup sha1 s clock content fileinfo t = some q) :
    q.1 = true ∧ ∃ r ∈ q.2.1.chunks, (q.2.2.work.chunk r).chunkaddress = noAddress := by
  obtain ⟨-, hb, hcut, -⟩ := cutFile_spec clock (FirstLoad ex₀ store₀) h hchunks
  have hfresh := cutFile_cut clock h hchunks
  have hlength := length_cutFile sha1 content hchunks t
  rw [chunkDedup] at hrun
  generalize cutFile sha1 content fileinfo t = p at hb hcut hfresh hlength hrun
  obtain ⟨f, u⟩ := p
  dsimp only at hb hcut hfresh hlength hrun
  obtain ⟨b, hload, rfl⟩ := Option.map_eq_some_iff.mp hrun
  rw [hcut.rep] at hload
  obtain ⟨hopen, -⟩ := hb.bins.openBin sha1 s clock hload
  have hpolicy : CflWaiting sha1 content u.cfl (u.openBin b.1).work σ := by
    have hwaiting : PolicyHolds sha1 s content (u.openBin b.1) σ :=
      hb.policy.congr rfl rfl rfl fun _ _ => rfl
    rw [PolicyHolds, hs] at hwaiting
    exact hwaiting
  have hsub : ∀ r ∈ f.counted, r ∈ f.chunks := fun r hr => f.counted_prefix.subset hr
  have hhand : AtHand sha1 (content f.file_path) f.counted (u.openBin b.1).work σ :=
    ⟨hcut.hand.nodup.sublist f.counted_prefix.sublist, fun r hr => hcut.hand.fresh r (hsub r hr),
      fun r hr => hcut.hand.place r (hsub r hr)⟩
  obtain ⟨σ', hsteps, -⟩ := cflProcess_steps (s := s) clock (S := (· ∈ f.counted))
    (hopen.life hb.life) hpolicy hhand fun _ hr => hr
  have hwork : (markDeplicateChunk s clock content f ({ u with exbin := b.2 }.openBin b.1)).2.work =
      (cflProcess s clock content f (u.cfl, (u.openBin b.1).work)).2 := by
    rw [markDeplicateChunk, hs]
    rfl
  have htrue : (markDeplicateChunk s clock content f ({ u with exbin := b.2 }.openBin b.1)).1 = true := by
    rw [markDeplicateChunk, hs]
  -- the first chunk behind those that are counted
  obtain ⟨rest, hrest⟩ := f.counted_prefix
  have hlt := FileInfo.length_counted_lt (hlength ▸ hlong)
  cases rest with
  | nil => rw [← hrest, List.append_nil] at hlt; exact absurd hlt (lt_irrefl _)
  | cons r rest =>
    have hr : r ∈ f.chunks := by
      rw [← hrest]
      exact List.mem_append_right _ List.mem_cons_self
    have hnot : r ∉ f.counted := fun hmem => by
      have hnodup := hcut.hand.nodup
      rw [← hrest] at hnodup
      exact List.disjoint_of_nodup_append hnodup hmem List.mem_cons_self
    refine ⟨htrue, r, hr, ?_⟩
    have hsame : (cflProcess s clock content f (u.cfl, (u.openBin b.1).work)).2.chunk r =
        u.work.chunk r := by
      cases hsteps.stage hnot with
      | inl heq => exact heq.2
      | inr hbad =>
        have hpending := hcut.hand.fresh r hr
        rw [hbad.1] at hpending
        cases hpending
    show ((markDeplicateChunk s clock content f
      ({ u with exbin := b.2 }.openBin b.1)).2.work.chunk r).chunkaddress = noAddress
    rw [hwork, hsame]
    have hmem : u.work.chunk r ∈ fingerChunks sha1 0 (chunkFile t.rabin (content fileinfo.file_path)).1 := by
      rw [← hfresh.chunks]
      exact List.mem_map_of_mem hr
    exact (fingerChunks_new hmem).2.1

/-- What `file_dudup` does. -/
structure Dudup (sha1 : Bytes → Fingerprint) (s : Settings) (clock : ℕ → ℤ)
    (content : Bytes → Bytes) (ex₀ : ExtremeBinning) (store₀ : Store) (t : DedupThread)
    (σ : ℕ → Stage) (item : Bytes × Answer) (records : List (Fingerprint × Chunkaddress))
    (t' : DedupThread) (σ' : ℕ → Stage) : Prop where
  moves : Moves sha1 s clock (FirstLoad ex₀ store₀) (t.work, σ) (t'.work, σ')
  between : ∃ paths, Between sha1 s content ex₀ store₀ paths t' σ'
  hashes : records.map Prod.fst = (cutItem content t.rabin item).1.map sha1
  rabin : t'.rabin = (cutItem content t.rabin item).2
  sent : ∀ record ∈ records, Sent s t'.work σ' record

theorem fileDudup_dudup (hs : s.rewrite ≠ .cappingRewrite)
    (h : Between sha1 s content ex₀ store₀ paths t σ)
    (hcount : s.rewrite = .cflRewrite → (cutItem content t.rabin item).1.length < 2 ^ 31)
    (hrun : fileDudup sha1 s clock content t item = some (records, t')) :
    ∃ σ', Dudup sha1 s clock content ex₀ store₀ t σ item records t' σ' := by
  obtain ⟨path, answer⟩ := item
  cases answer with
  | newFile =>
    obtain ⟨q, hq, heq⟩ := Option.map_eq_some_iff.mp hrun
    obtain ⟨hrecords, rfl⟩ := Prod.mk.inj heq
    obtain ⟨σ', hmoves, hb, hok, hhashes, hsent⟩ := chunkDedup_sent hs rfl h rfl rfl (by exact hcount) hq
    rw [if_pos hok, ← forward_chunk] at hrecords
    have hrabin : (forward q).rabin = (chunkFile t.rabin (content path)).2 :=
      (chunkDedup_rabin hq).1.trans (cutFile_cut clock h rfl).rabin
    refine ⟨σ', hmoves, ⟨_, hb⟩, ?_, hrabin, fun record hrecord => ?_⟩
    · rw [← hrecords, List.map_map]
      exact hhashes
    · rw [← hrecords] at hrecord
      obtain ⟨r, hr, rfl⟩ := List.mem_map.mp hrecord
      exact hsent r hr
  | dedupFile msgs =>
    obtain ⟨rfl, rfl⟩ := Prod.mk.inj (Option.some.inj hrun)
    have hspec := appendChunks_spec clock (FirstLoad ex₀ store₀)
      { queuedFile sha1 content path with is_new := .dedupFile } (mutex_receivedChunk msgs) h
    have honly := appendChunks_only (msgs.map receivedChunk)
      { queuedFile sha1 content path with is_new := .dedupFile } t
    exact ⟨σ, hspec.moves, ⟨_, hspec.between⟩, rfl, honly.rabin, by simp⟩

/-- The record of a chunk that `cfl_process` did not come to has no address. -/
theorem fileDudup_uncounted (hs : s.rewrite = .cflRewrite)
    (h : Between sha1 s content ex₀ store₀ paths t σ)
    (hlong : 2 ^ 31 ≤ (cutItem content t.rabin item).1.length)
    (hrun : fileDudup sha1 s clock content t item = some (records, t')) :
    ∃ record ∈ records, record.2 = noAddress := by
  obtain ⟨path, answer⟩ := item
  cases answer with
  | newFile =>
    obtain ⟨q, hq, heq⟩ := Option.map_eq_some_iff.mp hrun
    obtain ⟨hrecords, -⟩ := Prod.mk.inj heq
    obtain ⟨hok, r, hr, haddress⟩ := chunkDedup_uncounted hs h rfl (by exact hlong) hq
    rw [if_pos hok] at hrecords
    rw [← hrecords]
    exact ⟨_, List.mem_map_of_mem hr, haddress⟩
  | dedupFile msgs => exact absurd hlong (by simp [cutItem])

/-- Under the perfect policy a new file leaves the bin as it was, or loads it. -/
theorem fileDudup_perfect (hs : s.rewrite = .perfectRewrite)
    (h : Between sha1 s content ex₀ store₀ paths t σ)
    (hrun : fileDudup sha1 s clock content t item = some (records, t')) :
    records = [] ∧ OnlyChunks t t' ∨
      ∃ file_hash n bin ex, loadBin t.exbin t.work.store.disk zeroFinger file_hash n =
      some (bin, ex) ∧ t'.work.fingers = bin.fingers := by
  obtain ⟨path, answer⟩ := item
  cases answer with
  | newFile =>
    obtain ⟨q, hq, heq⟩ := Option.map_eq_some_iff.mp hrun
    obtain ⟨-, rfl⟩ := Prod.mk.inj heq
    obtain ⟨⟨bin, ex, hload, hfingers⟩, -⟩ := chunkDedup_perfect hs FileStatus.noConfusion h rfl hq
    exact .inr ⟨_, _, bin, ex, hload, hfingers⟩
  | dedupFile msgs =>
    obtain ⟨hnil, rfl⟩ := Prod.mk.inj (Option.some.inj hrun)
    exact .inl ⟨hnil.symm, appendChunks_only _ _ _⟩

end TCBackup.Client
