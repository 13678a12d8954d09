import TCBackup.Client.ChunkCuts
import TCBackup.Client.CrashRuns

/-!
# Pipelined backups under any policy

Whatever is rewritten, the bin of a pipelined backup keeps all fingerprints that it had, and in the
end it also has those of the files that were forwarded.

## Main definitions

- `Pushed` — a fingerprint of a forwarded file
- `BinGrown` — the bin still has what it had
- `Knows` — what holds between two backups

## Main results

- `Moves.grown`, `Moves.pushed` — what the thread does
- `dedupItem_grown`, `streamEnd_grown` — a file, and the end of the stream
- `Knows.backups` — all backups
-/

namespace TCBackup.Client

open ByteFile Handoff

variable {sha1 : Bytes → Fingerprint} {s : Settings} {clock : ℕ → ℤ} {content : Bytes → Bytes}
  {Loads : Store → HTable 20 Chunkaddress → Prop} {ex₀ : ExtremeBinning} {store₀ : Store}
  {paths : List Bytes} {w w' : Work} {σ σ' : ℕ → Stage} {t t' : DedupThread} {fileinfo : FileInfo ℕ}
  {F : Fingerprint → BinMap} {K : Set Fingerprint} {hash : Fingerprint} {item : Bytes × Answer}
  {stream : List (Bytes × Answer)} {q : Bool × FileInfo ℕ × DedupThread}

-- ════════════════════════════════════════════════════════════════════════
-- What the moves keep
-- ════════════════════════════════════════════════════════════════════════

/-- The bin has all these fingerprints. -/
def Has (K : Set Fingerprint) (fingers : HTable 20 Chunkaddress) : Prop :=
  ∀ hash ∈ K, fingers.lookup hash ≠ none

/-- A chunk with this fingerprint belongs to a file that was forwarded. -/
def Pushed (s : Settings) (w : Work) (hash : Fingerprint) : Prop :=
  ∃ r ∈ pushedChunks s w, (w.chunk r).chunk_hash = hash

theorem Step.grown {S : ℕ → Prop} (hs : Step sha1 clock S (w, σ) (w', σ'))
    (hchains : ChainTable.WF hashIndex w.fingers) (h : Has K w.fingers) : Has K w'.fingers := by
  generalize hp : (w, σ) = p at hs
  generalize hq : (w', σ') = q at hs
  cases hs with
  | handle _ hstep =>
    obtain ⟨rfl, rfl⟩ := Prod.mk.inj hp
    obtain ⟨rfl, rfl⟩ := Prod.mk.inj hq
    exact fun key hkey => hstep.lookup_ne_none hchains (h key hkey)

theorem Moves.grown (hm : Moves sha1 s clock Loads (w, σ) (w', σ'))
    (hloads : ∀ store fingers, Loads store fingers → Has K fingers) (hlife : Life (ownChunks s) w σ)
    (h : Has K w.fingers) : Has K w'.fingers := by
  refine (Moves.induct (P := fun v τ => Life (ownChunks s) v τ ∧ Has K v.fingers) ?_ hm ⟨hlife, h⟩).2
  rintro v τ v' τ' ⟨hv, hhas⟩ hmove
  refine ⟨hv.move hmove, ?_⟩
  cases hmove with
  | step hs => exact hs.grown hv.chains hhas
  | load _ _ hload => exact hloads _ _ hload
  | _ => exact hhas

theorem Moves.pushed (hm : Moves sha1 s clock Loads (w, σ) (w', σ')) (hlife : Life (ownChunks s) w σ)
    (h : Pushed s w hash) : Pushed s w' hash := by
  refine (Moves.induct (P := fun v τ => Life (ownChunks s) v τ ∧ Pushed s v hash) ?_ hm ⟨hlife, h⟩).2
  rintro v τ v' τ' ⟨hv, r, hr, hhash⟩ hmove
  refine ⟨hv.move hmove, ?_⟩
  cases hmove with
  | step hs =>
    refine ⟨r, ?_, (hs.at r).1.1.trans hhash⟩
    rwa [pushedChunks, hs.groups]
  | @alloc _ _ r' fc hfresh hfc =>
    have hne : r ≠ r' := by
      rintro rfl
      have hstage := hv.published r (mem_pushedChunks.mp hr)
      simp [hfresh] at hstage
    refine ⟨r, ?_, ?_⟩
    · rwa [pushedChunks, set_log, groups_append, groups_set, List.append_nil]
    · rwa [chunk_set, Function.update_of_ne hne]
  | push =>
    refine ⟨r, ?_, ?_⟩
    · rw [pushedChunks_push]
      exact List.mem_append_left _ hr
    · rwa [push_chunk]
  | drop => exact ⟨r, hr, hhash⟩
  | load => exact ⟨r, hr, hhash⟩

-- ════════════════════════════════════════════════════════════════════════
-- One file
-- ════════════════════════════════════════════════════════════════════════

/-- What `chunk_dedup` does: the chunks, the bin, and what the policy does with them. -/
structure Deduped (sha1 : Bytes → Fingerprint) (s : Settings) (clock : ℕ → ℤ) (content : Bytes → Bytes)
    (ex₀ : ExtremeBinning) (store₀ : Store) (t : DedupThread) (σ : ℕ → Stage) (fileinfo f : FileInfo ℕ)
    (u : DedupThread) (bin : Bin) (ex : ExtremeBinning) (m : Bool × DedupThread) (σ' : ℕ → Stage) :
    Prop where
  cut : CutFile sha1 content fileinfo t (f, u)
  file : ∃ rs, f = { fileinfo with chunks := rs, rep_finger := zeroFinger }
  load : loadBin t.exbin t.work.store.disk zeroFinger f.file_hash f.chunknum = some (bin, ex)
  open_moves : Moves sha1 s clock (FirstLoad ex₀ store₀) (t.work, σ) ((u.openBin bin).work, σ)
  nodup : f.chunks.Nodup
  mark : m = markDeplicateChunk s clock content f ({ u with exbin := ex }.openBin bin)
  marked : MarkSpec sha1 s clock content (FirstLoad ex₀ store₀) f ({ u with exbin := ex }.openBin bin) σ m σ'

theorem chunkDedup_deduped (h : Between sha1 s content ex₀ store₀ paths t σ) (hchunks : fileinfo.chunks = [])
    (hnew : s.rewrite = .noRewrite → fileinfo.is_new = .newFile)
    (hcount : s.rewrite = .cflRewrite → FitsChunknum (content fileinfo.file_path))
    (hrun : chunkDedup sha1 s clock content fileinfo t = some q) :
    ∃ f u bin ex m σ', q = (m.1, f, m.2.closeBin bin) ∧
      Deduped sha1 s clock content ex₀ store₀ t σ fileinfo f u bin ex m σ' := by
  obtain ⟨hcutmoves, hb, hcut, hfile⟩ := cutFile_spec clock (FirstLoad ex₀ store₀) h hchunks
  have hfresh := cutFile_cut clock h hchunks
  have hlength := length_cutFile sha1 content hchunks t
  rw [chunkDedup] at hrun
  generalize cutFile sha1 content fileinfo t = p at hcutmoves hb hcut hfile hfresh hlength hrun
  obtain ⟨f, u⟩ := p
  dsimp only at hcutmoves hb hcut hfile hlength hrun
  obtain ⟨⟨bin, ex⟩, hload, rfl⟩ := Option.map_eq_some_iff.mp hrun
  dsimp only at hload ⊢
  rw [hcut.rep] at hload
  obtain ⟨hopen, -⟩ := hb.bins.openBin sha1 s clock hload
  have hmoves := hcutmoves.trans hopen
  have hpolicy : PolicyHolds sha1 s content ({ u with exbin := ex }.openBin bin) σ :=
    hb.policy.congr rfl rfl rfl fun _ _ => rfl
  have hhand : AtHand sha1 (content f.file_path) f.chunks ({ u with exbin := ex }.openBin bin).work σ :=
    ⟨hcut.hand.nodup, hcut.hand.fresh, hcut.hand.place⟩
  have hrow : InRow ({ u with exbin := ex }.openBin bin).work 0 f.chunks :=
    hcut.row.samePlace fun _ _ => ⟨rfl, rfl, rfl⟩
  have hisnew : f.is_new = fileinfo.is_new := by
    obtain ⟨rs, rfl⟩ := hfile
    rfl
  have hlife : Life (ownChunks s) ({ u with exbin := ex }.openBin bin).work σ := hmoves.life h.life
  obtain ⟨σ', hmark⟩ := markDeplicateChunk_spec clock (FirstLoad ex₀ store₀) hlife hpolicy hhand hrow
    (fun hs => hisnew.trans (hnew hs)) fun hs => hlength ▸ hcount hs t.rabin
  rw [hfresh.exbin, hfresh.store] at hload
  exact ⟨f, u, bin, ex, _, σ', rfl, hfresh, hfile, hload, hmoves, hcut.hand.nodup, rfl, hmark⟩

/-- The chunks of a file whose policy does not give it up are pushed. -/
theorem chunkDedup_pushed (h : Between sha1 s content ex₀ store₀ paths t σ) (hchunks : fileinfo.chunks = [])
    (hnew : s.rewrite = .noRewrite → fileinfo.is_new = .newFile)
    (hkept : s.rewrite = .perfectRewrite → fileinfo.is_new ≠ .dedupFile)
    (hcount : FitsChunknum (content fileinfo.file_path))
    (hrun : chunkDedup sha1 s clock content fileinfo t = some q) {bs : Bytes}
    (hbs : bs ∈ chunksOf (content fileinfo.file_path)) : Pushed s (forward q).work (sha1 bs) := by
  obtain ⟨f, u, bin, ex, m, σ', rfl, hdone⟩ := chunkDedup_deduped h hchunks hnew (fun _ => hcount) hrun
  obtain ⟨rs, hf⟩ := hdone.file
  have hisnew : f.is_new = fileinfo.is_new := by rw [hf]
  have hok : m.1 = true := by
    by_contra hfalse
    obtain ⟨hs, hdup⟩ := hdone.marked.error (Bool.eq_false_iff.mpr hfalse)
    rw [hisnew] at hdup
    exact hkept hs hdup
  have hhash : sha1 bs ∈ f.chunks.map fun r => (u.work.chunk r).chunk_hash := by
    have hall := congrArg (List.map FingerChunk.chunk_hash) hdone.cut.chunks
    rw [List.map_map, fingerChunks_hash, chunkFile_eq_chunksOf] at hall
    exact hall ▸ List.mem_map_of_mem hbs
  obtain ⟨r, hr, hhash⟩ := List.mem_map.mp hhash
  have hown : ownChunks s f = f.chunks := by
    refine if_neg ?_
    rintro ⟨hs, hdup⟩
    rw [hisnew, hnew hs] at hdup
    cases hdup
  rw [forward, if_pos hok]
  refine ⟨r, ?_, ?_⟩
  · rw [pushedChunks_push, hown]
    exact List.mem_append_right _ hr
  · rw [push_chunk]
    exact (hdone.marked.place r).1.trans hhash

/-- What the bin had on the disk is in the bin in memory. -/
structure BinGrown (F : Fingerprint → BinMap) (t : DedupThread) : Prop where
  order : BinsInOrder F t
  grown : t.exbin.bin_cache.lookup zeroFinger ≠ none → Has {hash | F zeroFinger hash ≠ none} t.work.fingers

/-- The bin that comes from its volume is well formed, and has what it had. -/
def LoadsAll (F : Fingerprint → BinMap) (ex₀ : ExtremeBinning) (store₀ : Store) : Prop :=
  ∀ store fingers, FirstLoad ex₀ store₀ store fingers →
    fingers.WF ∧ Has {hash | F zeroFinger hash ≠ none} fingers

theorem chunkDedup_grown (h : Between sha1 s content ex₀ store₀ paths t σ) (hgrown : BinGrown F t)
    (hloads : LoadsAll F ex₀ store₀) (hchunks : fileinfo.chunks = [])
    (hsize : fileinfo.file_size = (content fileinfo.file_path).length)
    (hnew : s.rewrite = .noRewrite → fileinfo.is_new = .newFile)
    (hcount : FitsChunknum (content fileinfo.file_path))
    (hrun : chunkDedup sha1 s clock content fileinfo t = some q) : BinGrown F (forward q) := by
  refine ⟨chunkDedup_inOrder h hgrown.order (fun store fingers hload => (hloads _ _ hload).1) hchunks hsize
    hnew (fun _ => hcount t.rabin) hrun, fun _ => ?_⟩
  obtain ⟨f, u, bin, ex, m, σ', rfl, hdone⟩ := chunkDedup_deduped h hchunks hnew (fun _ => hcount) hrun
  have hopened : Has {hash | F zeroFinger hash ≠ none} (u.openBin bin).work.fingers := by
    obtain ⟨data, hbins⟩ := hgrown.order.bins
    obtain ⟨bin', ex', hload, -, -, hfound⟩ :=
      hbins.loadBin (Finset.mem_singleton_self zeroFinger) f.file_hash (nonneg_of_loadBin hdone.load)
    obtain ⟨rfl, rfl⟩ := Prod.mk.inj (Option.some.inj (hdone.load.symm.trans hload))
    rcases hfound with hcached | ⟨-, hlookup⟩
    · have hold := hgrown.grown (by rw [hcached]; exact Option.some_ne_none _)
      rw [← (h.bins.loaded bin hcached).1] at hold
      exact hold
    · intro key hkey
      show bin.fingers.lookup key ≠ none
      rw [hlookup]
      exact hkey
  have hmoves : Moves sha1 s clock (FirstLoad ex₀ store₀) ((u.openBin bin).work, σ) (m.2.work, σ') :=
    hdone.marked.moves
  have hgrow := hmoves.grown (fun store fingers hload => (hloads _ _ hload).2)
    (hdone.open_moves.life h.life) hopened
  rw [forward_fingers]
  exact hgrow

/-- Only the bins and the store matter. -/
theorem BinGrown.congr (h : BinGrown F t) (hexbin : t'.exbin = t.exbin)
    (hfingers : t'.work.fingers = t.work.fingers) (hstore : t'.work.store = t.work.store) :
    BinGrown F t' := by
  refine ⟨⟨?_, ?_⟩, fun hcached => ?_⟩
  · rw [hexbin, hstore]
    exact h.order.bins
  · rw [hfingers]
    exact h.order.wf
  · rw [hexbin] at hcached
    rw [hfingers]
    exact h.grown hcached

/-- A file of which all chunks reach the bin, if not at once then at the end of the stream. -/
def Forwarded (s : Settings) (answer : Answer) : Prop :=
  answer = .newFile ∨ s.rewrite = .cflRewrite ∨ s.rewrite = .cappingRewrite

/-- What a file leaves. -/
structure ItemKept (sha1 : Bytes → Fingerprint) (s : Settings) (content : Bytes → Bytes)
    (F : Fingerprint → BinMap) (item : Bytes × Answer) (t' : DedupThread) : Prop where
  grown : BinGrown F t'
  pushed : Forwarded s item.2 → ∀ bs ∈ chunksOf (content item.1), Pushed s t'.work (sha1 bs)

theorem dedupItem_kept (h : Between sha1 s content ex₀ store₀ paths t σ) (hgrown : BinGrown F t)
    (hloads : LoadsAll F ex₀ store₀) (hcount : FitsChunknum (content item.1))
    (hrun : dedupItem sha1 s clock content t item = some t') :
    ItemKept sha1 s content F item t' := by
  obtain ⟨path, answer⟩ := item
  rw [dedupItem] at hrun
  cases answer with
  | newFile =>
    obtain ⟨q, hq, rfl⟩ := Option.map_eq_some_iff.mp hrun
    exact ⟨chunkDedup_grown h hgrown hloads rfl rfl (fun _ => rfl) hcount hq,
      fun _ bs hbs => chunkDedup_pushed h rfl (fun _ => rfl) (by simp) hcount hq hbs⟩
  | dedupFile msgs =>
    dsimp only at hrun
    have hspec := appendChunks_spec clock (FirstLoad ex₀ store₀)
      { queuedFile sha1 content path with is_new := .dedupFile } (mutex_receivedChunk msgs) h
    have honly := appendChunks_only (msgs.map receivedChunk)
      { queuedFile sha1 content path with is_new := .dedupFile } t
    generalize appendChunks (msgs.map receivedChunk)
      { queuedFile sha1 content path with is_new := .dedupFile } t = p at hspec honly hrun
    have hsame := hgrown.congr honly.exbin honly.fingers honly.store
    by_cases hs : s.rewrite = .noRewrite
    · rw [if_pos hs] at hrun
      obtain rfl := Option.some.inj hrun
      refine ⟨hsame.congr rfl rfl rfl, ?_⟩
      rintro (hbad | hbad | hbad)
      · cases hbad
      · simp [hs] at hbad
      · simp [hs] at hbad
    · rw [if_neg hs] at hrun
      obtain ⟨q, hq, rfl⟩ := Option.map_eq_some_iff.mp hrun
      have hchunks : ({ p.1 with chunks := [] } : FileInfo ℕ).chunks = [] := rfl
      have hpath : p.1.file_path = path := by
        rw [hspec.file]
        rfl
      have hsize : p.1.file_size = (content p.1.file_path).length := by
        rw [hpath, hspec.file]
        rfl
      have hcount' : FitsChunknum (content p.1.file_path) := by rwa [hpath]
      have hnew : s.rewrite = .noRewrite → p.1.is_new = .newFile := fun hno => absurd hno hs
      refine ⟨chunkDedup_grown hspec.between hsame hloads hchunks hsize hnew hcount' hq,
        fun hforwarded bs hbs => ?_⟩
      refine chunkDedup_pushed hspec.between hchunks hnew (fun hperfect => ?_) hcount' hq ?_
      · rcases hforwarded with hbad | hbad | hbad
        · cases hbad
        · simp [hperfect] at hbad
        · simp [hperfect] at hbad
      · show bs ∈ chunksOf (content p.1.file_path)
        rwa [hpath]

-- ════════════════════════════════════════════════════════════════════════
-- The whole stream
-- ════════════════════════════════════════════════════════════════════════

theorem dedupItems_kept (h : Between sha1 s content ex₀ store₀ paths t σ) (hgrown : BinGrown F t)
    (hloads : LoadsAll F ex₀ store₀) (hcount : ∀ item ∈ stream, FitsChunknum (content item.1))
    (hrun : stream.foldlM (dedupItem sha1 s clock content) t = some t') :
    BinGrown F t' ∧ ∀ item ∈ stream, Forwarded s item.2 →
      ∀ bs ∈ chunksOf (content item.1), Pushed s t'.work (sha1 bs) := by
  induction stream generalizing t σ paths with
  | nil =>
    obtain rfl := Option.some.inj hrun
    exact ⟨hgrown, by simp⟩
  | cons item stream ih =>
    rw [List.foldlM_cons] at hrun
    obtain ⟨v, hfirst, hrest⟩ := Option.bind_eq_some_iff.mp hrun
    obtain ⟨hitem, hitems⟩ := List.forall_mem_cons.mp hcount
    obtain ⟨σ₁, -, hb⟩ := dedupItem_between h (fun _ => hitem) hfirst
    have hkept := dedupItem_kept h hgrown hloads hitem hfirst
    obtain ⟨hgrown', hpushed⟩ := ih hb hkept.grown hitems hrest
    obtain ⟨σ', hmoves, -⟩ := dedupItems_between hb (fun _ => hitems) hrest
    refine ⟨hgrown', fun x hx hforwarded bs hbs => ?_⟩
    rcases List.mem_cons.mp hx with rfl | hx
    · exact hmoves.pushed hb.life (hkept.pushed hforwarded bs hbs)
    · exact hpushed x hx hforwarded bs hbs

/-- The flush at the end has the bin in its hands. -/
theorem streamEnd_closed (hrun : streamEnd s clock content t = some t') :
    t' = t ∨ ∃ (u : DedupThread) (bin : Bin), t' = u.closeBin bin ∧ u.exbin = t.exbin ∧
      t.exbin.bin_cache.lookup zeroFinger = some bin := by
  rw [streamEnd] at hrun
  cases hs : s.rewrite with
  | noRewrite =>
    rw [hs] at hrun
    exact .inl (Option.some.inj hrun).symm
  | cflRewrite =>
    rw [hs] at hrun
    dsimp only at hrun
    split at hrun
    · exact .inl (Option.some.inj hrun).symm
    · obtain ⟨bin, hbin, rfl⟩ := Option.map_eq_some_iff.mp hrun
      exact .inr ⟨_, bin, rfl, rfl, hbin⟩
  | perfectRewrite =>
    rw [hs] at hrun
    dsimp only at hrun
    split at hrun
    · exact .inl (Option.some.inj hrun).symm
    · obtain ⟨bin, hbin, rfl⟩ := Option.map_eq_some_iff.mp hrun
      exact .inr ⟨_, bin, rfl, rfl, hbin⟩
  | cappingRewrite =>
    rw [hs] at hrun
    dsimp only at hrun
    obtain ⟨bin, hbin, rfl⟩ := Option.map_eq_some_iff.mp hrun
    exact .inr ⟨_, bin, rfl, rfl, hbin⟩

theorem streamEnd_grown (h : Between sha1 s content ex₀ store₀ paths t σ) (hgrown : BinGrown F t)
    (hloads : LoadsAll F ex₀ store₀) (hshort : s.rewrite = .perfectRewrite → ShortFiles t)
    (hrun : streamEnd s clock content t = some t') : BinGrown F t' := by
  obtain ⟨σ', hmoves, -⟩ := streamEnd_moves h hshort hrun
  rcases streamEnd_closed hrun with rfl | ⟨u, bin, rfl, hexbin, hbin⟩
  · exact hgrown
  · obtain ⟨data, hbins⟩ := hgrown.order.bins
    have horder := hmoves.orderly (fun store fingers hload => (hloads _ _ hload).1) ⟨hgrown.order.wf, rfl⟩
    have hrep : ({ bin with fingers := u.work.fingers } : Bin).rep_finger = bin.rep_finger := rfl
    have hset := hbins.setBin hbin hrep rfl horder.wf
    rw [← hexbin] at hset
    have hhas := hmoves.grown (fun store fingers hload => (hloads _ _ hload).2) h.life
      (hgrown.grown (by rw [hbin]; exact Option.some_ne_none _))
    exact ⟨⟨⟨data, hset.1.congr horder.bvol⟩, horder.wf⟩, fun _ => hhas⟩

-- ════════════════════════════════════════════════════════════════════════
-- One backup
-- ════════════════════════════════════════════════════════════════════════

variable {d : Disk} {n : Names} {run : BackupRun} {runs : List BackupRun}

theorem loadsAll_start (hidle : BinPersistence.Idle {zeroFinger} F d) (clock : ℕ → ℤ) (n : Names)
    (rabin : Rabin) (u : ℤ) :
    LoadsAll F (dedupStart clock d n rabin u).exbin (dedupStart clock d n rabin u).work.store := by
  intro store fingers hload
  refine ⟨firstLoad_wf hidle clock n rabin u store fingers hload, ?_⟩
  obtain ⟨-, file_hash, k, bin, ex, hload, rfl⟩ := hload
  obtain ⟨data, hbins⟩ := hidle
  rw [dedupStart_exbin, dedupStart_store, storeInit_disk] at hload
  obtain ⟨bin', ex', hload', -, -, hfound⟩ :=
    hbins.loadBin (Finset.mem_singleton_self zeroFinger) file_hash (nonneg_of_loadBin hload)
  obtain ⟨rfl, rfl⟩ := Prod.mk.inj (Option.some.inj (hload.symm.trans hload'))
  rcases hfound with hbad | ⟨-, hlookup⟩
  · rw [(extremeBinningInit_eq d).2.1, HTable.lookup_init] at hbad
    cases hbad
  · intro key hkey
    rw [hlookup]
    exact hkey

theorem binGrown_start (hidle : BinPersistence.Idle {zeroFinger} F d) (clock : ℕ → ℤ) (n : Names)
    (rabin : Rabin) (u : ℤ) : BinGrown F (dedupStart clock d n rabin u) := by
  refine ⟨binsInOrder_start hidle clock n rabin u, fun hcached => ?_⟩
  rw [dedupStart_exbin, (extremeBinningInit_eq d).2.1, HTable.lookup_init] at hcached
  exact absurd rfl hcached

/-- The main table and a container can be written in any order. -/
theorem flush_storeDestory (ex : ExtremeBinning) (store : Store) :
    (extremeBinningFlush ex (storeDestory store)).files =
      (storeDestory { store with disk := extremeBinningFlush ex store.disk }).files := by
  rw [storeDestory, storeDestory]
  dsimp only
  split
  · rw [extremeBinningFlush_files, writeContainer, writeContainer, Disk.write_files, Disk.write_files,
      extremeBinningFlush_files]
    rfl
  · rfl

/-- Both clients leave the same files. -/
theorem finish_files (driver : Driver) (t : DedupThread) : (driver.finish t).files = (backupEnd t).files := by
  cases driver with
  | backupClient => rfl
  | pipelineBackup =>
    rw [Driver.finish, backupEnd]
    dsimp only
    rw [flush_storeDestory]

/-- Between two backups: the bin that the next one finds has all these fingerprints and leads to
chunks, and all containers have been named. -/
structure Knows (sha1 : Bytes → Fingerprint) (K : Set Fingerprint) (d : Disk) (n : Names) : Prop where
  bins : ∃ F, BinPersistence.Idle {zeroFinger} F d ∧
    (∀ hash a, F zeroFinger hash = some a → OnDisk (Hashed sha1) d a hash) ∧
    ∀ hash ∈ K, F zeroFinger hash ≠ none
  named : ∀ name, d.files.tmp name ≠ none → ∃ call ∈ n.calls, cstr call.name = name

theorem Knows.storeKept (h : Knows sha1 K d n) : StoreKept sha1 d n := by
  obtain ⟨F, hidle, hsound, -⟩ := h.bins
  exact ⟨⟨F, hidle, hsound⟩, h.named⟩

theorem knows_empty (sha1 : Bytes → Fingerprint) : Knows sha1 ∅ .empty ⟨1, []⟩ := by
  obtain ⟨⟨F, hidle, hsound⟩, hnamed⟩ := storeKept_empty sha1
  exact ⟨⟨F, hidle, hsound, by simp⟩, hnamed⟩

/-- The fingerprints of the forwarded files. -/
def BackupRun.hashes (sha1 : Bytes → Fingerprint) (run : BackupRun) : Set Fingerprint :=
  {hash | ∃ item ∈ run.stream, Forwarded run.settings item.2 ∧
    ∃ bs ∈ chunksOf (run.content item.1), sha1 bs = hash}

/-- What a pushed chunk says about the bin in the end. -/
theorem Pushed.found (h : Pushed s t.work hash) (hended : Ended s content ex₀ store₀ paths t σ)
    {d₀ : Disk} {n₀ : Names} (hindex : IndexSound sha1 d₀ n₀ t.work σ) :
    t.exbin.bin_cache.lookup zeroFinger ≠ none ∧ t.work.fingers.lookup hash ≠ none := by
  obtain ⟨r, hr, rfl⟩ := h
  have hsettled := (hended.life.published r (mem_pushedChunks.mp hr)).resolve_left (hended.decided r)
  refine ⟨fun hnone => ?_, (hindex.chunks r (.inl hsettled)).found⟩
  have hfresh := (hended.bins.unloaded hnone).2.2 r
  simp [hsettled] at hfresh

theorem Knows.backup (h : Knows sha1 K d n)
    (hcount : ∀ item ∈ run.stream, FitsChunknum (run.content item.1)) (hfiles : driverFiles sha1 .pipelineBackup run d n = some t)
    (hfit : binLength t.work.fingers < 2 ^ 31)
    (hnames : (t.work.store.names.calls.map fun call => cstr call.name).Nodup) :
    Knows sha1 (K ∪ run.hashes sha1) (Driver.finish .pipelineBackup t) t.work.store.names := by
  obtain ⟨F, hidle, hsound, hknown⟩ := h.bins
  have hstart := h.storeKept.restart 1
  have hrun : chunkDedupModule sha1 run.settings run.clock run.content run.stream
      (dedupStart run.clock d ⟨1, n.calls⟩ run.rabin run.u) = some t := hfiles
  obtain ⟨v, hv, hend⟩ := Option.bind_eq_some_iff.mp hrun
  have hbetween := between_start sha1 run.settings run.content run.clock d ⟨1, n.calls⟩ run.rabin run.u
  have hloads := loadsAll_start hidle run.clock ⟨1, n.calls⟩ run.rabin run.u
  obtain ⟨σ₁, hfirst, hb⟩ := dedupItems_between hbetween (fun _ => hcount) hv
  obtain ⟨hgrown, hpushed⟩ := dedupItems_kept hbetween
    (binGrown_start hidle run.clock ⟨1, n.calls⟩ run.rabin run.u) hloads hcount hv
  have hshort := dedupItems_short hcount hv fun f hf => absurd hf List.not_mem_nil
  obtain ⟨σ, hlast, hended⟩ := streamEnd_moves hb (fun _ => hshort) hend
  have hgrown' := streamEnd_grown hb hgrown hloads (fun _ => hshort) hend
  have hmoves := hfirst.trans hlast
  have hdistinct := hstart.distinct (List.IsPrefix.trans (List.prefix_append _ _) hmoves.calls) hnames
  have hindex := hmoves.sound (firstLoad_sound hstart.soundDisk run.clock ⟨1, n.calls⟩ run.rabin run.u)
    (indexSound_start sha1 run.clock d ⟨1, n.calls⟩ run.rabin run.u) hdistinct
  obtain ⟨F', hidle', hsound', hloaded, hunloaded⟩ :=
    hstart.bins_run hsound hmoves hended.bins hgrown'.order hdistinct hfit
  have hsame := finish_files .pipelineBackup t
  refine ⟨⟨F', idle_congr hidle' (congrArg Files.bvol hsame) (congrArg Files.repfinger hsame),
    fun key a ha => (hsound' key a ha).congr rfl (congrFun (congrArg Files.tmp hsame) _), ?_⟩,
    fun name hname => hstart.named_run hindex.storeOk (by rwa [← hsame])⟩
  rintro key (hold | ⟨item, hitem, hforwarded, bs, hbs, rfl⟩)
  · by_cases hcached : t.exbin.bin_cache.lookup zeroFinger = none
    · rw [hunloaded hcached]
      exact hknown key hold
    · rw [hloaded hcached]
      exact hgrown'.grown hcached key (hknown key hold)
  · obtain ⟨hcached, hfound⟩ := (hlast.pushed hb.life (hpushed item hitem hforwarded bs hbs)).found hended hindex
    rw [hloaded hcached]
    exact hfound

theorem binCounted_of_fits {rabin : Rabin} (h : ∀ item ∈ stream, FitsChunknum (content item.1)) :
    BinCounted content rabin stream := by
  induction stream with
  | nil => trivial
  | cons item stream ih =>
    obtain ⟨hitem, hitems⟩ := List.forall_mem_cons.mp h
    obtain ⟨path, answer⟩ := item
    cases answer with
    | newFile => exact hitem.nonneg rabin
    | dedupFile msgs => exact ih hitems

/-- Only `capping_rewrite` needs a bin at the end of the stream. -/
theorem Knows.ends (h : Knows sha1 K d n)
    (hcount : ∀ item ∈ run.stream, FitsChunknum (run.content item.1))
    (hstream : run.settings.rewrite = .cappingRewrite → run.stream ≠ []) :
    ∃ t, driverFiles sha1 .pipelineBackup run d n = some t := by
  have hbetween := between_start sha1 run.settings run.content run.clock d ⟨1, n.calls⟩ run.rabin run.u
  have hload : ∀ file_hash (k : ℕ), ∃ b, loadBin (dedupStart run.clock d ⟨1, n.calls⟩ run.rabin run.u).exbin
      (dedupStart run.clock d ⟨1, n.calls⟩ run.rabin run.u).work.store.disk zeroFinger file_hash k =
        some b := by
    intro file_hash k
    obtain ⟨bin, ex, hload, -⟩ := h.storeKept.soundDisk file_hash k
    rw [dedupStart_exbin, dedupStart_store, storeInit_disk]
    exact ⟨(bin, ex), hload⟩
  by_cases hs : run.settings.rewrite = .noRewrite
  · obtain ⟨t, hrun⟩ := Driver.items_end .pipelineBackup hs run.clock hbetween hload
      fun _ => binCounted_of_fits hcount
    exact ⟨t, (Driver.files_eq hs).trans hrun⟩
  · obtain ⟨v, hv, hlookup⟩ := dedupItems_ends run.clock hs hbetween hload hcount
    obtain ⟨σ₁, -, hb⟩ := dedupItems_between hbetween (fun _ => hcount) hv
    suffices hend : ∃ t, streamEnd run.settings run.clock run.content v = some t by
      obtain ⟨t, hend⟩ := hend
      refine ⟨t, ?_⟩
      rw [driverFiles, Driver.files, BackupRun.start, chunkDedupModule, hv]
      exact hend
    by_cases hnil : run.stream = []
    · rw [hnil] at hv
      obtain rfl := Option.some.inj hv
      rw [streamEnd]
      cases hpolicy : run.settings.rewrite with
      | cappingRewrite => exact absurd hnil (hstream hpolicy)
      | _ => exact ⟨_, rfl⟩
    · obtain ⟨t, hend, -⟩ := streamEnd_ends run.settings run.clock run.content hb.bins (hlookup (.inl hnil))
      exact ⟨t, hend⟩

-- ════════════════════════════════════════════════════════════════════════
-- One backup after the other
-- ════════════════════════════════════════════════════════════════════════

/-- All backups by the client with threads. -/
def pipelined (runs : List BackupRun) : List (Driver × BackupRun) := runs.map (.pipelineBackup, ·)

/-- The bin has the fingerprints of all backups. -/
theorem Knows.backups (h : Knows sha1 K d n)
    (hcount : ∀ run ∈ runs, ∀ item ∈ run.stream, FitsChunknum (run.content item.1))
    (hstream : ∀ run ∈ runs, run.settings.rewrite = .cappingRewrite → run.stream ≠ [])
    (hfit : DriverRunsFit sha1 (pipelined runs) d n) :
    ∃ d' n', driverRuns sha1 (pipelined runs) d n = some (d', n') ∧
      Knows sha1 (K ∪ {hash | ∃ run ∈ runs, hash ∈ run.hashes sha1}) d' n' := by
  induction runs generalizing K d n with
  | nil => exact ⟨d, n, rfl, by simpa using h⟩
  | cons run runs ih =>
    obtain ⟨hitems, hlater⟩ := List.forall_mem_cons.mp hcount
    obtain ⟨t, hfiles⟩ := h.ends hitems (hstream run List.mem_cons_self)
    obtain ⟨hlength, hnames, hrest⟩ := hfit t hfiles
    obtain ⟨d', n', hruns, hknows⟩ := ih (h.backup hitems hfiles hlength hnames) hlater
      (fun r hr => hstream r (List.mem_cons_of_mem _ hr)) hrest
    refine ⟨d', n', ?_, ?_⟩
    · rw [pipelined, List.map_cons, driverRuns, hfiles]
      exact hruns
    · have hset : K ∪ {hash | ∃ r ∈ run :: runs, hash ∈ r.hashes sha1} =
          K ∪ run.hashes sha1 ∪ {hash | ∃ r ∈ runs, hash ∈ r.hashes sha1} := by
        ext hash
        simp [or_assoc]
      rw [hset]
      exact hknows

end TCBackup.Client
