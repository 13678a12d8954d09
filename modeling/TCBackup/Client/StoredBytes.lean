import TCBackup.Client.BackupRuns

/-!
# The bytes in the containers

Without rewriting, containers hold nothing but chunks that were cut from the files.

## Main definitions

- `FilesHold`, `StoreHolds` — what container files and the store hold

## Main results

- `markNewFile_holds` — the chunks of one file
- `backupRuns_hold` — all backups
-/

namespace TCBackup.Client

open ByteFile Handoff

/-- Container files hold nothing but data from `M`. -/
def FilesHold (M : Set Bytes) (d : Disk) : Prop :=
  ∀ a hash data, fetch d a hash = some data → data ∈ M

/-- Neither does the open container. -/
structure StoreHolds (M : Set Bytes) (s : Store) : Prop where
  files : FilesHold M s.disk
  opened : ∃ l, Packed s.container l ∧ ∀ chunk ∈ l, chunk.data ∈ M

variable {M : Set Bytes} {d d' : Disk} {c : Container} {l : List Chunk} {store : Store} {chunk : Chunk}

theorem FilesHold.congr (h : FilesHold M d) (htmp : d'.files.tmp = d.files.tmp) : FilesHold M d' := by
  intro a hash data hfetch
  rw [fetch_congr rfl (congrFun htmp _)] at hfetch
  exact h a hash data hfetch

theorem filesHold_empty (M : Set Bytes) : FilesHold M .empty := by
  intro a hash data hfetch
  rw [fetch, loadContainer, readContainer] at hfetch
  cases hfetch

/-- The chunks in the file of a container are those of the container. -/
theorem Packed.fetch_mem (h : Packed c l) {a : Chunkaddress} {hash : Fingerprint} {data : Bytes}
    (hname : cstr a = cstr c.name) (hfetch : fetch (writeContainer d c) a hash = some data) :
    ∃ chunk ∈ l, chunk.data = data := by
  obtain ⟨c', hread, hpacked⟩ := h.of_read d c.name
  rw [fetch_congr hname rfl, fetch, loadContainer, hread] at hfetch
  dsimp only at hfetch
  rw [Option.bind_some] at hfetch
  by_cases hin : ∃ chunk ∈ l, chunk.hash = hash
  · obtain ⟨chunk, hchunk, hhash⟩ := hin
    have hreq : (⟨0, hash, c.name, []⟩ : Chunk).hash = chunk.hash := hhash.symm
    obtain ⟨first, hfirst, -, hfound⟩ := hpacked.read_some hchunk hreq
    rw [hfound] at hfetch
    exact ⟨first, hfirst, Option.some.inj hfetch⟩
  · rw [hpacked.read_none fun chunk hchunk hhash => hin ⟨chunk, hchunk, hhash⟩] at hfetch
    cases hfetch

theorem FilesHold.write (h : FilesHold M d) (hpacked : Packed c l) (hl : ∀ chunk ∈ l, chunk.data ∈ M) :
    FilesHold M (writeContainer d c) := by
  intro a hash data hfetch
  by_cases hname : cstr a = cstr c.name
  · obtain ⟨chunk, hchunk, rfl⟩ := hpacked.fetch_mem hname hfetch
    exact hl chunk hchunk
  · have hfile : (writeContainer d c).files.tmp (cstr a) = d.files.tmp (cstr a) := by
      rw [writeContainer, Disk.write_files]
      exact Function.update_of_ne hname _ _
    rw [fetch_congr rfl hfile] at hfetch
    exact h a hash data hfetch

theorem StoreHolds.place (hpacked : Packed c l) (hl : ∀ chunk ∈ l, chunk.data ∈ M)
    (hsized : chunk.Sized) (hdata : chunk.data ∈ M) (hroom : containerFull c chunk.length = false) :
    ∃ l', Packed (placeChunk c chunk) l' ∧ ∀ chunk ∈ l', chunk.data ∈ M := by
  refine ⟨l ++ [chunk], hpacked.append hsized hroom, fun x hx => ?_⟩
  cases List.mem_append.mp hx with
  | inl hold => exact hl x hold
  | inr hnew => rwa [List.mem_singleton.mp hnew]

/-- A chunk from `M` is stored. -/
theorem StoreHolds.storeChunk (h : StoreHolds M store) (clock : ℕ → ℤ) (hsized : chunk.Sized)
    (hdata : chunk.data ∈ M) : StoreHolds M (storeChunk clock store chunk).2 := by
  obtain ⟨l, hpacked, hl⟩ := h.opened
  cases hfull : containerFull store.container chunk.length with
  | false =>
    rw [storeChunk_room clock hfull]
    exact ⟨h.files, StoreHolds.place hpacked hl hsized hdata hfull⟩
  | true =>
    have hfresh := packed_initContainer clock store.names
    have hroom := hfresh.room_of_nil hsized
    rw [storeChunk_full clock hfull, appendChunkToContainer, hroom]
    exact ⟨h.files.write hpacked hl, StoreHolds.place hfresh (by simp) hsized hdata hroom⟩

theorem StoreHolds.storeDestory (h : StoreHolds M store) : FilesHold M (storeDestory store) := by
  obtain ⟨l, hpacked, hl⟩ := h.opened
  rw [Client.storeDestory]
  split
  · exact h.files.write hpacked hl
  · exact h.files

theorem StoreHolds.init (h : FilesHold M d) (clock : ℕ → ℤ) (n : Names) :
    StoreHolds M (storeInit clock d n) :=
  ⟨h, [], packed_initContainer clock n, by simp⟩

variable {sha1 : Bytes → Fingerprint} {s : Settings} {clock : ℕ → ℤ} {content : Bytes → Bytes}
  {w : Work} {rs : List ℕ} {r : ℕ} {front : Bytes} {pieces : List Bytes}

theorem markChunk_others (clock : ℕ → ℤ) (file : Bytes) (size : ℕ) (w : Work) {q : ℕ} (hq : q ≠ r) :
    (markChunk clock file size r w).chunk q = w.chunk q := by
  rw [markChunk]
  cases w.found r with
  | some a => exact chunk_set_of_ne _ _ _ hq
  | none =>
    dsimp only
    rw [storeNew, insertMeta_chunk, write_chunk_of_ne _ _ _ _ _ hq]
    exact chunk_set_of_ne _ _ _ hq

theorem markChunk_holds (clock : ℕ → ℤ) {file bs : Bytes} {size : ℕ} (hbs : IsChunk bs) (hM : bs ∈ M)
    (hlen : (w.chunk r).chunklen = bs.length) (hread : readAt file size bs.length = bs)
    (h : StoreHolds M w.store) : StoreHolds M (markChunk clock file size r w).store := by
  rw [markChunk]
  cases w.found r with
  | some a => exact h
  | none =>
    have hchunk : (w.markNew r).chunk r = { w.chunk r with is_new := .newChunk } := chunk_set_self _ _ _
    have hdata : (chunkFrom file size ((w.markNew r).chunk r)).data = bs := by
      rw [hchunk, chunkFrom, hlen, hread]
    have hsized : (chunkFrom file size ((w.markNew r).chunk r)).Sized := by
      refine ⟨?_, ?_⟩
      · rw [hdata, hchunk, chunkFrom, hlen]
      · rw [hchunk, chunkFrom, hlen]
        exact hbs.2
    dsimp only
    rw [storeNew, insertMeta_store, write_store]
    exact StoreHolds.storeChunk h clock hsized (hdata ▸ hM)

/-- The chunks of a new file are stored as they were cut. -/
theorem markNewFile_holds (clock : ℕ → ℤ) (hnodup : rs.Nodup) (hpieces : ∀ c ∈ pieces, IsChunk c)
    (hM : ∀ c ∈ pieces, c ∈ M) (hrow : rs.map w.chunk = fingerChunks sha1 front.length pieces)
    (h : StoreHolds M w.store) :
    StoreHolds M (markNewFile clock (front ++ pieces.flatten) front.length rs w).store := by
  induction rs generalizing front pieces w with
  | nil => exact h
  | cons r rs ih =>
    obtain ⟨hr, hnodup⟩ := List.nodup_cons.mp hnodup
    cases pieces with
    | nil => simp [fingerChunks] at hrow
    | cons bs pieces =>
      rw [List.map_cons, fingerChunks] at hrow
      obtain ⟨hfirst, hrest⟩ := List.cons_eq_cons.mp hrow
      have hlen : (w.chunk r).chunklen = bs.length := by rw [hfirst]
      have hread : readAt (front ++ (bs :: pieces).flatten) front.length bs.length = bs := by
        rw [List.flatten_cons, readAt, List.drop_left, List.take_left]
      have hmark := markChunk_holds clock (hpieces bs List.mem_cons_self) (hM bs List.mem_cons_self) hlen
        hread h
      have hsame : rs.map (markChunk clock (front ++ (bs :: pieces).flatten) front.length r w).chunk =
          fingerChunks sha1 (front ++ bs).length pieces := by
        rw [List.length_append, ← hrest]
        apply List.map_congr_left
        intro q hq
        exact markChunk_others clock _ _ w fun heq => hr (heq ▸ hq)
      have hnext := ih hnodup (fun c hc => hpieces c (List.mem_cons_of_mem _ hc))
        (fun c hc => hM c (List.mem_cons_of_mem _ hc)) hsame hmark
      rw [List.append_assoc, ← List.flatten_cons, List.length_append] at hnext
      rw [markNewFile, hlen]
      exact hnext

variable {ex₀ : ExtremeBinning} {store₀ : Store} {paths : List Bytes} {t t' : DedupThread}
  {σ : ℕ → Stage} {fileinfo : FileInfo ℕ} {item : Bytes × Answer} {stream : List (Bytes × Answer)}
  {q : Bool × FileInfo ℕ × DedupThread}

theorem forward_store (q : Bool × FileInfo ℕ × DedupThread) :
    (forward q).work.store = q.2.2.work.store := by
  rw [forward]
  split <;> rfl

theorem chunkDedup_holds (hs : s.rewrite = .noRewrite) (hfile : fileinfo.is_new = .newFile)
    (h : Between sha1 s content ex₀ store₀ paths t σ) (hchunks : fileinfo.chunks = [])
    (hM : ∀ bs ∈ (chunkFile t.rabin (content fileinfo.file_path)).1, bs ∈ M)
    (hrun : chunkDedup sha1 s clock content fileinfo t = some q) (hstore : StoreHolds M t.work.store) :
    StoreHolds M (forward q).work.store := by
  obtain ⟨-, -, hcut, rs, hf⟩ := cutFile_spec clock (FirstLoad ex₀ store₀) h hchunks
  have hfresh := cutFile_cut clock h hchunks
  rw [chunkDedup] at hrun
  generalize cutFile sha1 content fileinfo t = p at hcut hf hfresh hrun
  obtain ⟨f, u⟩ := p
  dsimp only at hcut hf hfresh hrun
  obtain ⟨b, -, rfl⟩ := Option.map_eq_some_iff.mp hrun
  have hnew : f.is_new = .newFile := by
    rw [hf]
    exact hfile
  have hpath : f.file_path = fileinfo.file_path := by rw [hf]
  have hmark : (markDeplicateChunk s clock content f ({ u with exbin := b.2 }.openBin b.1)).2.work =
      markNewFile clock (content fileinfo.file_path) 0 f.chunks (u.openBin b.1).work := by
    rw [markDeplicateChunk, hs]
    dsimp only
    rw [hnew, hpath]
    rfl
  have hopened : StoreHolds M (u.openBin b.1).work.store := by
    show StoreHolds M u.work.store
    rw [hfresh.store]
    exact hstore
  have hrow : f.chunks.map (u.openBin b.1).work.chunk =
      fingerChunks sha1 ([] : Bytes).length (chunkFile t.rabin (content fileinfo.file_path)).1 :=
    hfresh.chunks
  have hfinal := markNewFile_holds clock hcut.hand.nodup (fun c hc => isChunk_chunkFile hc) hM hrow hopened
  rw [chunkFile_flatten, List.nil_append, List.length_nil, ← hmark] at hfinal
  rw [forward_store]
  exact hfinal

theorem fileDudup_holds (hs : s.rewrite = .noRewrite)
    (h : Between sha1 s content ex₀ store₀ paths t σ) {sent : List (Fingerprint × Chunkaddress)}
    (hM : ∀ bs ∈ (cutItem content t.rabin item).1, bs ∈ M)
    (hrun : fileDudup sha1 s clock content t item = some (sent, t')) (hstore : StoreHolds M t.work.store) :
    StoreHolds M t'.work.store := by
  obtain ⟨path, answer⟩ := item
  cases answer with
  | newFile =>
    obtain ⟨q, hq, heq⟩ := Option.map_eq_some_iff.mp hrun
    obtain ⟨-, rfl⟩ := Prod.mk.inj heq
    refine chunkDedup_holds hs rfl h rfl ?_ hq hstore
    exact hM
  | dedupFile msgs =>
    obtain ⟨-, rfl⟩ := Prod.mk.inj (Option.some.inj hrun)
    have honly := appendChunks_only (msgs.map receivedChunk)
      { queuedFile sha1 content path with is_new := .dedupFile } t
    rw [honly.store]
    exact hstore

theorem backupFiles_holds (hs : s.rewrite = .noRewrite)
    (h : Between sha1 s content ex₀ store₀ paths t σ)
    {records : List (List (Fingerprint × Chunkaddress))}
    (hM : ∀ bs ∈ (cutItems content t.rabin stream).flatten, bs ∈ M)
    (hrun : backupFiles sha1 s clock content stream t = some (records, t'))
    (hstore : StoreHolds M t.work.store) : StoreHolds M t'.work.store := by
  induction stream generalizing t σ paths records with
  | nil =>
    obtain ⟨-, rfl⟩ := Prod.mk.inj (Option.some.inj hrun)
    exact hstore
  | cons item stream ih =>
    obtain ⟨first, u, rest, hfirst, hrest, -⟩ := backupFiles_cons hrun
    obtain ⟨σ₁, hdudup⟩ := fileDudup_dudup (by simp [hs]) h (by simp [hs]) hfirst
    obtain ⟨paths₁, hb⟩ := hdudup.between
    rw [cutItems, List.flatten_cons, ← hdudup.rabin] at hM
    have hnow := fileDudup_holds hs h (fun bs hbs => hM bs (List.mem_append_left _ hbs)) hfirst hstore
    exact ih hb (fun bs hbs => hM bs (List.mem_append_right _ hbs)) hrest hnow

variable {n : Names} {run : BackupRun} {runs : List BackupRun}

/-- A backup leaves nothing else on the disk. -/
theorem FilesHold.backup (h : FilesHold M d) (hs : run.settings.rewrite = .noRewrite)
    (hM : ∀ bs ∈ (cutItems run.content run.rabin run.stream).flatten, bs ∈ M)
    {records : List (List (Fingerprint × Chunkaddress))}
    (hfiles : backupFiles sha1 run.settings run.clock run.content run.stream (run.start d n) =
      some (records, t)) : FilesHold M (backupEnd t) := by
  have hstart : StoreHolds M (run.start d n).work.store := by
    rw [BackupRun.start, dedupStart_store]
    exact .init (h.congr (tmp_extremeBinningInit d)) _ _
  have hend := backupFiles_holds hs (between_start sha1 run.settings run.content run.clock d ⟨1, n.calls⟩
    run.rabin run.u) hM hfiles hstart
  exact hend.storeDestory.congr (backupEnd_tmp t)

theorem backupRuns_hold (h : FilesHold M d) (hs : ∀ run ∈ runs, run.settings.rewrite = .noRewrite)
    (hM : ∀ run ∈ runs, ∀ bs ∈ (cutItems run.content run.rabin run.stream).flatten, bs ∈ M)
    {results : List (List (List (Fingerprint × Chunkaddress)))} {n' : Names}
    (hruns : backupRuns sha1 runs d n = some (results, d', n')) : FilesHold M d' := by
  induction runs generalizing d n results with
  | nil =>
    obtain ⟨-, heq⟩ := Prod.mk.inj (Option.some.inj hruns)
    obtain ⟨rfl, -⟩ := Prod.mk.inj heq
    exact h
  | cons run runs ih =>
    rw [backupRuns] at hruns
    obtain ⟨⟨records, d₁, n₁⟩, hfirst, hrest⟩ := Option.bind_eq_some_iff.mp hruns
    obtain ⟨⟨rest, d₂, n₂⟩, hlater, heq⟩ := Option.map_eq_some_iff.mp hrest
    dsimp only at hlater
    obtain ⟨-, hends⟩ := Prod.mk.inj heq
    obtain ⟨rfl, rfl⟩ := Prod.mk.inj hends
    obtain ⟨t, hfiles, rfl, rfl⟩ := backupClient_files hfirst
    have hnow := h.backup (hs run List.mem_cons_self) (hM run List.mem_cons_self) hfiles
    exact ih hnow (fun run hrun => hs run (List.mem_cons_of_mem _ hrun))
      (fun run hrun => hM run (List.mem_cons_of_mem _ hrun)) hlater

end TCBackup.Client
