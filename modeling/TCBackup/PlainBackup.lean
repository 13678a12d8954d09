import TCBackup.Client.RoundTrip
import TCBackup.Pipeline.RecipeTransport
import TCBackup.Pipeline.StatusAgreement
import TCBackup.ReceiveBuffers
import TCBackup.Restore.Pairing
import TCBackup.Server.IndexInserts
import TCBackup.Server.NewBackup

/-!
# The plain backup, client and server together

For every file `file_dudup` sends the hash, reads the answer of `new_backup`, deduplicates a new
file and sends its records. The server indexes the recipe of a new file before the next hash
arrives.

## Main definitions

- `backupFile`, `backupPaths` — one file, and the files of a backup
- `Served` — what holds of the tables of the server between two messages

## Main results

- `Served.ask`, `Asked.tell` — the two rounds of a file
- `backupPaths_served` — all files
-/

namespace TCBackup.PlainBackup

open ByteFile Client Pipeline
open Server (Shared FileRow recipeBytes dedupResult sendChunkInfo fileDedupMark)
open Server.NewBackup (Messages Calls State fileHash fileRecipe)
open RecipeTransport (deliveries)
open StatusAgreement (isNewFile)

-- ════════════════════════════════════════════════════════════════════════
-- The messages
-- ════════════════════════════════════════════════════════════════════════

/-- The calls of a round where everything succeeds, and the database takes both rows. No other client
is served meanwhile. -/
def smooth : Calls := ⟨id, true, .ok, true, true⟩

/-- `FILE_HASH` is 1. -/
def hashMessages (hash : Fingerprint) : Messages :=
  ⟨bnetSent (intNumeral 1), bnetSent hash.toList, fun _ => .error⟩

/-- `FILE_RECIPE` is 2. Only a new file has records. -/
def recipeMessages (chunknum : ℤ) (file_path : Bytes) (records : List (Fingerprint × Chunkaddress)) :
    Messages :=
  ⟨bnetSent (intNumeral 2), bnetSent (updateAttrMsg chunknum file_path),
    deliveries (records.map fun record => record.1.toList ++ record.2.toList)⟩

/-- `recv_deplicate_chunk` for a file that the server knows. -/
def receiveChunks (msgs : List Bytes) : FileStatus → Option Answer
  | .newFile => some .newFile
  | .dedupFile =>
    match msgs with
    | [] => none
    | count :: chunks => some (.dedupFile (chunks.take (chunkCount ((bnetSent count).into []))))
  | .unset => none

/-- `is_new_file`, and what follows it. -/
def receiveAnswer : List Bytes → Option Answer
  | [] => none
  | status :: msgs => (isNewFile (bnetSent status)).bind (receiveChunks msgs)

/-- `chunknum` of a file whose records are sent, or whose chunks were received. -/
def chunknumOf (records : List (Fingerprint × Chunkaddress)) : Answer → ℕ
  | .newFile => records.length
  | .dedupFile msgs => msgs.length

-- ════════════════════════════════════════════════════════════════════════
-- The files
-- ════════════════════════════════════════════════════════════════════════

section Files

variable (sha1 : Bytes → Fingerprint) (s : Settings) (clock : ℕ → ℤ) (content : Bytes → Bytes)

/-- What a file has come to: the answer, the records, and the two sides afterwards. -/
structure FileDone where
  answer : Answer
  records : List (Fingerprint × Chunkaddress)
  thread : DedupThread
  server : State

/-- `file_dudup`, and the rounds of `new_backup` that it meets. `none` where one of the two leaves
its loop. -/
def backupFile (path : Bytes) (t : DedupThread) (server : State) : Option FileDone :=
  match Server.NewBackup.round server (hashMessages (sha1 (content path))) smooth with
  | (_, some _) => none
  | (asked, none) =>
    (receiveAnswer (asked.sent.drop server.sent.length)).bind fun answer =>
      (fileDudup sha1 s clock content t (path, answer)).bind fun p =>
        match Server.NewBackup.round asked (recipeMessages (int32 (chunknumOf p.1 answer)) path p.1) smooth with
        | (_, some _) => none
        | (told, none) => some ⟨answer, p.1, p.2, told⟩

/-- What the files of a backup have come to: the answers, the records of every file, and the two
sides afterwards. -/
structure PathsDone where
  answers : List Answer
  records : List (List (Fingerprint × Chunkaddress))
  thread : DedupThread
  server : State

/-- `walk_dir`: one file after the other. -/
def backupPaths : List Bytes → DedupThread → State → Option PathsDone
  | [], t, server => some ⟨[], [], t, server⟩
  | path :: paths, t, server =>
    (backupFile sha1 s clock content path t server).bind fun first =>
      (backupPaths paths first.thread first.server).map fun rest =>
        ⟨first.answer :: rest.answers, first.records :: rest.records, rest.thread, rest.server⟩

end Files

-- ════════════════════════════════════════════════════════════════════════
-- The tables of the server
-- ════════════════════════════════════════════════════════════════════════

/-- A recipe as the server keeps it. -/
def recipeOf (records : List (Fingerprint × Chunkaddress)) : List Server.FingerChunk :=
  records.map fun record => ⟨record.1, record.2⟩

/-- The index leads to the recipes that have `arrived`, and nobody has the mutex of the volume. -/
structure Served (arrived : List (Fingerprint × List Server.FingerChunk)) (s : Shared) : Prop where
  table : s.mem_index.WF
  free : s.volume.rv.mutex = false
  recipes : ∀ hash offset, s.mem_index.find hash = some offset →
    Server.IndexInserts.Stored arrived s.volume hash offset
  known : ∀ p ∈ arrived, s.mem_index.find p.1 ≠ none
  short : ∀ p ∈ arrived, p.2.length < 2 ^ 31

variable {arrived : List (Fingerprint × List Server.FingerChunk)} {server asked : State}
  {s : Shared} {hash : Fingerprint} {path : Bytes} {records : List (Fingerprint × Chunkaddress)}
  {rp : Server.Recipe}

theorem length_hash (hash : Fingerprint) : hash.toList.length = 20 := hash.toList_length

/-- A string at the front of a buffer. -/
theorem cstring_writeAt {word : Bytes} (h : 0 ∉ word) (buf : Bytes) :
    cstring (writeAt buf 0 (word ++ [0])) = word := by
  have hne : ∀ c ∈ word, decide (c ≠ 0) = true := by
    intro c hc
    rw [decide_eq_true_eq]
    rintro rfl
    exact h hc
  rw [cstring, writeAt, List.take_zero, Nat.zero_sub, List.replicate_zero, List.nil_append,
    List.nil_append, List.append_assoc, List.takeWhile_append_of_pos hne]
  simp

/-- The type of a message is scanned as it was printed. -/
theorem kindOf_type {n : ℕ} (hn : n < 2 ^ 31) (buf : Bytes) :
    Server.NewBackup.kindOf ((Delivery.whole (intNumeral n)).into buf) =
      if n = 1 then .fileHash else if n = 2 then .fileRecipe else .other := by
  have hscan := scanInt_intNumeral_append (n : ℤ) (s := []) (by simp)
  rw [List.append_nil] at hscan
  rw [Server.NewBackup.kindOf, Delivery.whole, Delivery.into,
    cstring_writeAt (zero_notMem_intNumeral _), hscan]
  dsimp only
  rw [Server.storedInt_eq (by omega) (by omega)]
  norm_cast

theorem round_hash (server : State) (hash : Fingerprint) :
    Server.NewBackup.round server (hashMessages hash) smooth =
      fileHash { server with buf := (bnetSent (intNumeral 1)).into server.buf } (hashMessages hash)
        smooth := by
  have hsent : bnetSent (intNumeral 1) = .whole (intNumeral (1 : ℕ)) := by decide +kernel
  rw [Server.NewBackup.round, hashMessages, smooth]
  dsimp only
  rw [if_neg (by decide +kernel), if_neg (by decide +kernel), hsent, kindOf_type (by decide), if_pos rfl]
  rfl

theorem round_recipe (server : State) (chunknum : ℤ) :
    Server.NewBackup.round server (recipeMessages chunknum path records) smooth =
      fileRecipe { server with buf := (bnetSent (intNumeral 2)).into server.buf }
        (recipeMessages chunknum path records) smooth := by
  have hsent : bnetSent (intNumeral 2) = .whole (intNumeral (2 : ℕ)) := by decide +kernel
  rw [Server.NewBackup.round, recipeMessages, smooth]
  dsimp only
  rw [if_neg (by decide +kernel), if_neg (by decide +kernel), hsent,
    kindOf_type (by decide), if_neg (by decide), if_pos rfl]
  rfl

/-- What the server knows after the round of a hash. -/
structure Asked (arrived : List (Fingerprint × List Server.FingerChunk)) (server : State)
    (hash : Fingerprint) (asked : State) (rp : Server.Recipe) : Prop where
  pointer : asked.rp = .live true rp
  file_hash : rp.file_hash = hash
  served : Served arrived asked.shared
  find : ∀ hash, asked.shared.mem_index.find hash = server.shared.mem_index.find hash
  job_id : asked.job_id = true
  file_rows : asked.file_rows = server.file_rows
  answer : server.shared.mem_index.find hash = none ∧ rp.is_new = .newFile ∧ rp.chunks = [] ∧
      asked.sent = server.sent ++ [dedupResult .newFile] ∨
    (hash, rp.chunks) ∈ arrived ∧ rp.is_new = .dedupFile ∧
      asked.sent = server.sent ++ dedupResult .dedupFile :: sendChunkInfo rp

/-- A recipe lies in the volume as it was written. -/
theorem Served.chunksAt (h : Served arrived s) {offset : ℕ} (hfind : s.mem_index.find hash = some offset) :
    (hash, Server.chunksAt s.volume.file offset) ∈ arrived := by
  obtain ⟨chunks, hmem, -, hread⟩ := h.recipes hash offset hfind
  rw [Server.chunksAt_of_readAt (h.short _ hmem) hread]
  exact hmem

theorem Served.looked (h : Served arrived s) (hash : Fingerprint) :
    Served arrived { s with mem_index := Server.hashIndex s.mem_index hash } where
  table := Server.hashIndex_wf h.table hash
  free := h.free
  recipes := fun hash' offset hfind => by
    rw [Server.hashIndex_find _ h.table] at hfind
    exact h.recipes hash' offset hfind
  known := fun p hp => by
    rw [Server.hashIndex_find _ h.table]
    exact h.known p hp
  short := h.short

/-- The round of a hash. -/
theorem Served.ask (h : Served arrived server.shared) (hjob : server.job_id = true) (hash : Fingerprint) :
    ∃ asked rp, Server.NewBackup.round server (hashMessages hash) smooth = (asked, none) ∧
      Asked arrived server hash asked rp := by
  have hmsg : bnetSent hash.toList = .whole hash.toList :=
    bnetSent_eq (by rw [length_hash]; decide) (by rw [length_hash]; decide)
  have hlen : (hashMessages hash).len = 20 := by
    rw [Messages.len, hashMessages, hmsg, Delivery.whole, length_hash]
    rfl
  have hread : fixed 20 (readAt ((hashMessages hash).msg.into []) 0 (hashMessages hash).len.toNat) =
      hash := by
    rw [hlen, hashMessages, hmsg, Delivery.whole, Delivery.into, writeAt_nil]
    exact (congrArg (fixed 20) (readAt_front (length_hash hash))).trans (fixed_toList hash)
  have hclean : Server.NewBackup.hashClean (hashMessages hash).msg = true := by
    rw [hashMessages, hmsg, Delivery.whole, Server.NewBackup.hashClean, length_hash]
    rfl
  have hlookup : Server.indexLookup server.shared.mem_index hash =
      (server.shared.mem_index.find hash, Server.hashIndex server.shared.mem_index hash) := rfl
  have hfind := Server.hashIndex_find server.shared.mem_index h.table hash
  have hhash : (Server.recipeNew hash).file_hash = hash := rfl
  rw [round_hash, fileHash, if_neg (by rw [hlen]; decide), hread, hclean]
  dsimp only
  rw [fileDedupMark, hhash, hlookup]
  cases hfound : server.shared.mem_index.find hash with
  | none =>
    exact ⟨_, _, rfl, rfl, rfl, h.looked hash, hfind, hjob, rfl, .inl ⟨hfound, rfl, rfl, rfl⟩⟩
  | some offset =>
    have hmem := h.chunksAt hfound
    dsimp only
    rw [Server.readRecipeFromVol, h.free, smooth, if_neg (by decide), if_pos rfl,
      Server.foldl_recipeAppendFingerchunk]
    exact ⟨_, _, rfl, rfl, rfl, h.looked hash, hfind, hjob, rfl, .inr ⟨hmem, rfl, rfl⟩⟩

-- ════════════════════════════════════════════════════════════════════════
-- The round of the recipe
-- ════════════════════════════════════════════════════════════════════════

/-- Paths that get through: `UPDATEATTR` is scanned as it was printed, with its count goes into the
256 bytes of `msg`, and neither a quote nor a backslash ends the string of the row. -/
structure Sendable (path : Bytes) : Prop extends Scannable path where
  fits : path.length < 216
  quote : 39 ∉ path
  backslash : 92 ∉ path

/-- What the server knows after the round of a recipe. -/
structure Told (arrived : List (Fingerprint × List Server.FingerChunk)) (path : Bytes)
    (hash : Fingerprint) (asked told : State) : Prop where
  served : Served arrived told.shared
  job_id : told.job_id = true
  file_rows : told.file_rows = asked.file_rows ++ [(path, hash)]

/-- The command of a file with `n` chunks fits an `int`. -/
theorem Sendable.length_updateAttrMsg (h : Sendable path) {n : ℕ} (hn : n < 2 ^ 31) :
    0 < (updateAttrMsg n path).length ∧ (updateAttrMsg n path).length < 2 ^ 31 := by
  have hlength := ReceiveBuffers.length_updateAttrMsg n path
  have hnumeral := @ReceiveBuffers.length_intNumeral_int n (by omega) (by omega)
  have hpath := h.short
  omega

/-- `UPDATEATTR` is scanned as it was printed. -/
theorem scan_recipeMessages (hpath : Sendable path) {n : ℕ} (hn : n < 2 ^ 31)
    (records : List (Fingerprint × Chunkaddress)) :
    scanUpdateAttr (cstring ((recipeMessages n path records).msg.into [])) = (some (n : ℤ), some path) := by
  obtain ⟨hpos, hlength⟩ := hpath.length_updateAttrMsg hn
  rw [recipeMessages, bnetSent_eq hpos hlength, hpath.scan]

/-- The records arrive one by one. -/
theorem recipe_received (chunknum : ℤ) (path : Bytes) (hrp : rp.chunks = []) :
    (Server.recvDeplicateChunk (recipeMessages chunknum path records).next 0 records.length rp).2.chunks =
      recipeOf records := by
  have hnext : ∀ j fc, (recipeOf records)[j]? = some fc →
      (recipeMessages chunknum path records).next (0 + j) = .whole fc.bytes := by
    intro j fc hj
    rw [recipeOf, List.getElem?_map] at hj
    obtain ⟨record, hrecord, rfl⟩ := Option.map_eq_some_iff.mp hj
    change deliveries _ (0 + j) = _
    rw [RecipeTransport.deliveries, Nat.zero_add, List.getElem?_map, hrecord]
    rfl
  have hchunks := @RecipeTransport.recvDeplicateChunk_eq _ _ 0 rp hnext
  rw [hrp, List.nil_append, recipeOf, List.length_map] at hchunks
  exact hchunks

/-- A recipe is written and indexed. -/
theorem Served.store (h : Served arrived s) (hnew : s.mem_index.find rp.file_hash = none)
    (hshort : rp.chunks.length < 2 ^ 31) :
    ∃ volume, Server.writeRecipeToVol .ok rp s.volume = some (some s.volume.rv.volume_length, volume) ∧
      Served (arrived ++ [(rp.file_hash, rp.chunks)])
        ⟨Server.indexInsert s.mem_index rp.file_hash s.volume.rv.volume_length, volume⟩ := by
  have hwrite := Server.writeRecipeToVol_full h.free (Server.VolIO.ok_full rp)
  have hkeeps := Server.IndexInserts.writeRecipeToVol_keeps hwrite
  have hfind := Server.find_htableInsert h.table rp.file_hash s.volume.rv.volume_length
  refine ⟨_, hwrite, ?_⟩
  rw [Server.indexInsert_eq]
  refine ⟨Server.htableInsert_wf h.table _ _, h.free, fun hash offset hoffset => ?_, fun p hp => ?_,
    fun p hp => ?_⟩
  · dsimp only at hoffset
    rw [hfind] at hoffset
    split at hoffset
    · next hsame =>
      obtain rfl := Option.some.inj hoffset
      refine ⟨rp.chunks, ?_, ?_, ?_⟩
      · rw [hsame.1]
        exact List.mem_append_right _ (List.mem_singleton_self _)
      · dsimp only
        omega
      · dsimp only
        rw [← Server.length_recipeBytes]
        exact readAt_writeAt_self _ _ _
    · exact (h.recipes hash offset hoffset).mono (List.subset_append_left _ _) hkeeps
  · dsimp only
    rw [hfind]
    split
    · exact Option.some_ne_none _
    · next hother =>
      rcases List.mem_append.mp hp with hold | hone
      · exact h.known p hold
      · rw [List.mem_singleton.mp hone] at hother
        exact absurd ⟨rfl, hnew⟩ hother
  · rcases List.mem_append.mp hp with hold | hone
    · exact h.short p hold
    · rw [List.mem_singleton.mp hone]
      exact hshort

/-- A recipe is told, once its command is scanned. -/
theorem fileRecipe_scanned {m : Messages} {c : Calls} {received : Bool} {chunknum : ℤ}
    (hpointer : asked.rp = .live received rp)
    (hscan : scanUpdateAttr (cstring (m.msg.into [])) = (some chunknum, some path))
    (hint : Server.storedInt chunknum = chunknum) (hshort : path.length < 256) {stored complete : Bool} {shared : Shared}
    (hstore : Server.NewBackup.storeRecipe m c chunknum { rp with filename := path } asked.shared =
      some (stored, complete, shared)) :
    ∃ told, fileRecipe asked m c = (told, none) ∧ told.shared = shared ∧ told.job_id = asked.job_id ∧
      told.file_rows = if Server.NewBackup.insertRecordIntoFile asked.job_id c then
        asked.file_rows ++ [(path, rp.file_hash)] else asked.file_rows := by
  have hroom : ¬256 ≤ ((some path).getD []).length := not_le.mpr hshort
  rw [fileRecipe, hpointer]
  dsimp only
  rw [hscan]
  dsimp only
  rw [if_neg hroom]
  dsimp only [Option.map_some, Option.getD_some]
  rw [hint, hstore]
  exact ⟨_, rfl, rfl, rfl, rfl⟩

theorem Asked.fileRecipe (h : Asked arrived server hash asked rp) (hpath : Sendable path) {n : ℕ}
    (hn : n < 2 ^ 31) {stored complete : Bool} {shared : Shared}
    (hstore : Server.NewBackup.storeRecipe (recipeMessages n path records) smooth n
      { rp with filename := path } asked.shared = some (stored, complete, shared)) :
    ∃ told, Server.NewBackup.round asked (recipeMessages n path records) smooth = (told, none) ∧
      told.shared = shared ∧ told.job_id = true ∧ told.file_rows = asked.file_rows ++ [(path, hash)] := by
  have hscan := scan_recipeMessages hpath hn records
  obtain ⟨read, hread⟩ : ∃ read : State,
      read = { asked with buf := (bnetSent (intNumeral 2)).into asked.buf } := ⟨_, rfl⟩
  have hpointer : read.rp = .live true rp := by
    rw [hread]
    exact h.pointer
  have hjob : read.job_id = true := by
    rw [hread]
    exact h.job_id
  have hrows : read.file_rows = asked.file_rows := by rw [hread]
  have hshared : read.shared = asked.shared := by rw [hread]
  rw [← hshared] at hstore
  have hint : Server.storedInt (n : ℤ) = n := Server.storedInt_eq (by omega) (by omega)
  obtain ⟨told, hround, hserved, hkept, hfiles⟩ := fileRecipe_scanned hpointer hscan hint hpath.short hstore
  rw [round_recipe, ← hread]
  refine ⟨told, hround, hserved, hkept.trans hjob, ?_⟩
  rw [hfiles, hjob, smooth, hrows, h.file_hash]
  rfl

/-- The recipe of a new file is indexed. -/
theorem Asked.tell_new (h : Asked arrived server hash asked rp) (hpath : Sendable path)
    (hnew : rp.is_new = .newFile) (hrp : rp.chunks = []) (hfind : server.shared.mem_index.find hash = none)
    (hshort : records.length < 2 ^ 31) :
    ∃ told, Server.NewBackup.round asked (recipeMessages records.length path records) smooth =
      (told, none) ∧ Told (arrived ++ [(hash, recipeOf records)]) path hash asked told := by
  obtain ⟨rp', hrp'⟩ : ∃ rp', rp' = (Server.recvDeplicateChunk
      (recipeMessages records.length path records).next 0 records.length
      { rp with filename := path }).2 := ⟨_, rfl⟩
  have hchunks : rp'.chunks = recipeOf records := by
    rw [hrp']
    exact recipe_received _ _ hrp
  have hhash : rp'.file_hash = hash := by
    rw [hrp', Server.IndexInserts.recvDeplicateChunk_file_hash]
    exact h.file_hash
  have hlen : rp'.chunks.length < 2 ^ 31 := by
    rw [hchunks, recipeOf, List.length_map]
    exact hshort
  obtain ⟨volume, hwrite, hserved⟩ := h.served.store (by rw [hhash, h.find, hfind]) hlen
  obtain ⟨complete, hstore⟩ : ∃ complete, Server.NewBackup.storeRecipe
      (recipeMessages records.length path records) smooth records.length
      { rp with filename := path } asked.shared = some (true, complete,
        ⟨Server.indexInsert asked.shared.mem_index rp'.file_hash asked.shared.volume.rv.volume_length,
          volume⟩) := by
    have hdone : (Server.recvDeplicateChunk (recipeMessages records.length path records).next 0
        (records.length : ℤ).toNat { rp with filename := path }).2 = rp' := by
      rw [Int.toNat_natCast, hrp']
    rw [Server.NewBackup.storeRecipe, if_pos hnew]
    generalize Server.recvDeplicateChunk (recipeMessages records.length path records).next 0
      (records.length : ℤ).toNat { rp with filename := path } = p at hdone
    obtain ⟨ok, rp''⟩ := p
    obtain rfl : rp'' = rp' := hdone
    dsimp only [smooth]
    rw [hwrite]
    exact ⟨_, rfl⟩
  obtain ⟨told, hround, hshared, hjob, hrows⟩ := h.fileRecipe hpath hshort hstore
  refine ⟨told, hround, ?_, hjob, hrows⟩
  rw [hshared, ← hhash, ← hchunks]
  exact hserved

/-- A known file leaves the tables alone. -/
theorem Asked.tell_known (h : Asked arrived server hash asked rp) (hpath : Sendable path)
    (hknown : rp.is_new = .dedupFile) {n : ℕ} (hn : n < 2 ^ 31) :
    ∃ told, Server.NewBackup.round asked (recipeMessages n path []) smooth = (told, none) ∧
      Told arrived path hash asked told := by
  have hstore : Server.NewBackup.storeRecipe (recipeMessages n path []) smooth n
      { rp with filename := path } asked.shared = some (true, true, asked.shared) :=
    if_neg (by rw [hknown]; decide)
  obtain ⟨told, hround, hshared, hjob, hrows⟩ := h.fileRecipe hpath hn hstore
  exact ⟨told, hround, hshared ▸ h.served, hjob, hrows⟩

-- ════════════════════════════════════════════════════════════════════════
-- One file
-- ════════════════════════════════════════════════════════════════════════

variable {sha1 : Bytes → Fingerprint} {st : Settings} {clock : ℕ → ℤ} {content : Bytes → Bytes}
  {ex₀ : ExtremeBinning} {store₀ : Store} {seen paths : List Bytes} {t t' : DedupThread} {σ : ℕ → Stage}

theorem receiveAnswer_cons {status : Bytes} {is_new : FileStatus}
    (h : isNewFile (bnetSent status) = some is_new) (msgs : List Bytes) :
    receiveAnswer (status :: msgs) = receiveChunks msgs is_new := by
  rw [receiveAnswer, h, Option.bind_some]

/-- All chunks of a known file are received. -/
theorem receiveChunks_known (hshort : rp.chunks.length < 2 ^ 31) :
    receiveChunks (sendChunkInfo rp) .dedupFile =
      some (.dedupFile (rp.chunks.map Server.FingerChunk.bytes)) := by
  have hcount : bnetSent (intBytes 8 rp.chunknum) = .whole (intBytes 8 rp.chunknum) :=
    bnetSent_eq (by simp) (by rw [length_intBytes]; decide)
  rw [sendChunkInfo, receiveChunks, hcount, Server.Recipe.chunknum,
    Restore.Pairing.chunkCount_number hshort, ← List.length_map, List.take_length]

/-- What a file of a backup has come to. -/
structure FileServed (sha1 : Bytes → Fingerprint) (st : Settings) (clock : ℕ → ℤ)
    (content : Bytes → Bytes) (arrived : List (Fingerprint × List Server.FingerChunk)) (path : Bytes)
    (t : DedupThread) (server : State) (done : FileDone)
    (fresh : List (Fingerprint × List Server.FingerChunk)) : Prop where
  dudup : fileDudup sha1 st clock content t (path, done.answer) = some (done.records, done.thread)
  served : Served (arrived ++ fresh) done.server.shared
  job_id : done.server.job_id = true
  known : ∃ chunks, (sha1 (content path), chunks) ∈ arrived ++ fresh
  file_rows : done.server.file_rows = server.file_rows ++ [(path, sha1 (content path))]
  fresh : ∀ p ∈ fresh, done.answer = .newFile ∧ p = (sha1 (content path), recipeOf done.records)

/-- A known file is not cut at all. -/
theorem length_cutItem {rabin : Rabin} (h : (chunkFile rabin (content path)).1.length < 2 ^ 31) (answer : Answer) :
    (cutItem content rabin (path, answer)).1.length < 2 ^ 31 := by
  cases answer with
  | newFile => exact h
  | dedupFile msgs => exact Nat.two_pow_pos 31

theorem fileDudup_ends (clock : ℕ → ℤ) (hs : st.rewrite ≠ .cappingRewrite)
    (h : Between sha1 st content ex₀ store₀ seen t σ)
    (hload : ∀ file_hash (n : ℕ), ∃ b, loadBin ex₀ store₀.disk zeroFinger file_hash n = some b)
    {item : Bytes × Answer} (hcount : (cutItem content t.rabin item).1.length < 2 ^ 31) :
    ∃ sent t', fileDudup sha1 st clock content t item = some (sent, t') := by
  have hall : AllCounted st (cutItems content t.rabin [item]) :=
    fun _ => List.forall_mem_singleton.mpr hcount
  have hbin : BinCounted content t.rabin [item] := by
    obtain ⟨path, answer⟩ := item
    cases answer with
    | newFile =>
      change 0 ≤ int32 (cutItem content t.rabin (path, .newFile)).1.length
      rw [int32_eq (by omega) (by omega)]
      exact Int.natCast_nonneg _
    | dedupFile msgs => trivial
  obtain ⟨records, t', hrun⟩ := backupFiles_ends hs clock h hload hall fun _ => hbin
  obtain ⟨first, u, rest, hfirst, -⟩ := backupFiles_cons hrun
  exact ⟨first, u, hfirst⟩

/-- One file: either side comes to the end of it. -/
theorem backupFile_served (clock : ℕ → ℤ) (hs : st.rewrite ≠ .cappingRewrite)
    (h : Between sha1 st content ex₀ store₀ seen t σ)
    (hload : ∀ file_hash (n : ℕ), ∃ b, loadBin ex₀ store₀.disk zeroFinger file_hash n = some b)
    (hserved : Served arrived server.shared) (hjob : server.job_id = true) (hpath : Sendable path)
    (hcount : (chunkFile t.rabin (content path)).1.length < 2 ^ 31) :
    ∃ done fresh, backupFile sha1 st clock content path t server = some done ∧
      FileServed sha1 st clock content arrived path t server done fresh := by
  obtain ⟨asked, rp, hround, hasked⟩ := hserved.ask hjob (sha1 (content path))
  rcases hasked.answer with ⟨hfind, hnew, hrp, hsent⟩ | ⟨hmem, hknown, hsent⟩
  · have hanswer : receiveAnswer (asked.sent.drop server.sent.length) = some .newFile := by
      rw [hsent, List.drop_left, receiveAnswer_cons StatusAgreement.read_newFile.1, receiveChunks]
    obtain ⟨sent, t', hdudup⟩ := fileDudup_ends clock hs h hload (length_cutItem hcount .newFile)
    obtain ⟨σ', hdone⟩ := fileDudup_dudup hs h (fun _ => length_cutItem hcount .newFile) hdudup
    have hlength : sent.length < 2 ^ 31 := by
      have hhashes := congrArg List.length hdone.hashes
      rw [List.length_map, List.length_map] at hhashes
      rw [hhashes]
      exact hcount
    obtain ⟨told, htell, htold⟩ := hasked.tell_new hpath hnew hrp hfind hlength
    have hint : int32 ((chunknumOf sent .newFile : ℕ) : ℤ) = sent.length :=
      int32_eq (by rw [chunknumOf]; omega) (by rw [chunknumOf]; omega)
    refine ⟨⟨.newFile, sent, t', told⟩, [(sha1 (content path), recipeOf sent)], ?_, hdudup, htold.served,
      htold.job_id, ⟨_, List.mem_append_right _ (List.mem_singleton_self _)⟩, ?_, fun p hp => ?_⟩
    · rw [backupFile, hround]
      dsimp only
      rw [hanswer, Option.bind_some, hdudup, Option.bind_some]
      dsimp only
      rw [hint, htell]
    · rw [htold.file_rows, hasked.file_rows]
    · exact ⟨rfl, List.mem_singleton.mp hp⟩
  · have hshort : rp.chunks.length < 2 ^ 31 := hserved.short _ hmem
    have hanswer : receiveAnswer (asked.sent.drop server.sent.length) =
        some (.dedupFile (rp.chunks.map Server.FingerChunk.bytes)) := by
      rw [hsent, List.drop_left, receiveAnswer_cons StatusAgreement.read_dedupFile.1,
        receiveChunks_known hshort]
    obtain ⟨sent, t', hdudup⟩ := fileDudup_ends clock hs h hload
      (length_cutItem hcount (.dedupFile (rp.chunks.map Server.FingerChunk.bytes)))
    obtain rfl : sent = [] := (Prod.mk.inj (Option.some.inj hdudup)).1.symm
    obtain ⟨told, htell, htold⟩ := hasked.tell_known hpath hknown hshort
    have hint : int32 ((chunknumOf [] (.dedupFile (rp.chunks.map Server.FingerChunk.bytes)) : ℕ) : ℤ) =
        rp.chunks.length := by
      rw [chunknumOf, List.length_map]
      exact int32_eq (by omega) (by omega)
    refine ⟨⟨_, [], t', told⟩, [], ?_, hdudup, ?_, htold.job_id, ⟨rp.chunks, ?_⟩, ?_, by simp⟩
    · rw [backupFile, hround]
      dsimp only
      rw [hanswer, Option.bind_some, hdudup, Option.bind_some]
      dsimp only
      rw [hint, htell]
    · rw [List.append_nil]
      exact htold.served
    · rw [List.append_nil]
      exact hmem
    · rw [htold.file_rows, hasked.file_rows]

-- ════════════════════════════════════════════════════════════════════════
-- All files
-- ════════════════════════════════════════════════════════════════════════

/-- What the files of a backup have come to: the client has done what it does for the answers that it
got, and the recipes of the new files have arrived. -/
structure PathsServed (sha1 : Bytes → Fingerprint) (st : Settings) (clock : ℕ → ℤ)
    (content : Bytes → Bytes) (arrived : List (Fingerprint × List Server.FingerChunk))
    (paths : List Bytes) (t : DedupThread) (server : State) (done : PathsDone)
    (fresh : List (Fingerprint × List Server.FingerChunk)) : Prop where
  files : backupFiles sha1 st clock content (paths.zip done.answers) t = some (done.records, done.thread)
  answers : done.answers.length = paths.length
  served : Served (arrived ++ fresh) done.server.shared
  known : ∀ path ∈ paths, ∃ chunks, (sha1 (content path), chunks) ∈ arrived ++ fresh
  file_rows : done.server.file_rows = server.file_rows ++ paths.map fun path => (path, sha1 (content path))
  fresh : ∀ p ∈ fresh, ∃ path records, ((path, Answer.newFile), records) ∈
    (paths.zip done.answers).zip done.records ∧ p = (sha1 (content path), recipeOf records)

theorem backupPaths_served (clock : ℕ → ℤ) (hs : st.rewrite ≠ .cappingRewrite)
    (h : Between sha1 st content ex₀ store₀ seen t σ)
    (hload : ∀ file_hash (n : ℕ), ∃ b, loadBin ex₀ store₀.disk zeroFinger file_hash n = some b)
    (hserved : Served arrived server.shared) (hjob : server.job_id = true) (hpaths : ∀ path ∈ paths, Sendable path)
    (hcount : ∀ path ∈ paths, ∀ rabin, (chunkFile rabin (content path)).1.length < 2 ^ 31) :
    ∃ done fresh, backupPaths sha1 st clock content paths t server = some done ∧
      PathsServed sha1 st clock content arrived paths t server done fresh := by
  induction paths generalizing seen t σ server arrived with
  | nil => exact ⟨⟨[], [], t, server⟩, [], rfl, rfl, rfl, by simpa using hserved, by simp, by simp, by simp⟩
  | cons path paths ih =>
    obtain ⟨first, fresh₁, hfirst, hfile⟩ := backupFile_served clock hs h hload hserved hjob
      (hpaths path List.mem_cons_self) (hcount path List.mem_cons_self _)
    have hfew := length_cutItem (hcount path List.mem_cons_self t.rabin) first.answer
    obtain ⟨σ', hdone⟩ := fileDudup_dudup hs h (fun _ => hfew) hfile.dudup
    obtain ⟨seen', hb⟩ := hdone.between
    obtain ⟨rest, fresh₂, hrest, hall⟩ := ih hb hfile.served hfile.job_id
      (fun p hp => hpaths p (List.mem_cons_of_mem _ hp)) fun p hp => hcount p (List.mem_cons_of_mem _ hp)
    refine ⟨⟨first.answer :: rest.answers, first.records :: rest.records, rest.thread, rest.server⟩,
      fresh₁ ++ fresh₂, ?_, ?_, ?_, ?_, fun p hp => ?_, ?_, fun p hp => ?_⟩
    · rw [backupPaths, hfirst, Option.bind_some, hrest]
      rfl
    · rw [List.zip_cons_cons, backupFiles, hfile.dudup, Option.bind_some]
      dsimp only
      rw [hall.files]
      rfl
    · simp [hall.answers]
    · rw [← List.append_assoc]
      exact hall.served
    · rw [← List.append_assoc]
      rcases List.mem_cons.mp hp with rfl | hp
      · obtain ⟨chunks, hmem⟩ := hfile.known
        exact ⟨chunks, List.mem_append_left _ hmem⟩
      · exact hall.known p hp
    · rw [hall.file_rows, hfile.file_rows, List.map_cons, List.append_assoc, List.singleton_append]
    · rcases List.mem_append.mp hp with hp | hp
      · obtain ⟨hanswer, rfl⟩ := hfile.fresh p hp
        exact ⟨path, first.records, by simp [hanswer], rfl⟩
      · obtain ⟨path', records, hmem, rfl⟩ := hall.fresh p hp
        exact ⟨path', records, List.mem_cons_of_mem _ hmem, rfl⟩

end TCBackup.PlainBackup
