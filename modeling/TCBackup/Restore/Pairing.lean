import TCBackup.Client.Restore
import TCBackup.Server.Restore

/-!
# Files and recipes of a restore

The server sends the list of the files of a job and then their recipes, the client pairs
them by position only. Both lengths of the list, the number of files and the number of
bytes, are `int`s, and a recipe that cannot be read is sent as one without chunks.

## Main definitions

- `storedRecipe`, `restoredFile` — a file as it is stored
- `Paired` — the client pushes the files of the job with their chunks
- `Readable` — the server can open the recipe volume where it matters
-/

namespace TCBackup.Restore.Pairing

open ByteFile Server Client

/-- The chunks that the index and the recipe volume have for a file. -/
def storedRecipe (s : Shared) (hash : Fingerprint) : List Server.FingerChunk :=
  match s.mem_index.find hash with
  | none => []
  | some offset => chunksAt s.volume.file offset

/-- A chunk as the client names it. -/
def clientChunk (fc : Server.FingerChunk) : Client.FingerChunk :=
  { fingerchunkNew with chunk_hash := fc.chunk_hash, chunkaddress := fc.chunk_address }

/-- A file of the list, before its chunks are received. -/
def listedFile (row : FileRow) : RestoreFile :=
  { (fileNew : RestoreFile) with file_hash := row.HashCode, file_path := row.FilePath }

def restoredFile (s : Shared) (row : FileRow) : RestoreFile :=
  { listedFile row with chunks := (storedRecipe s row.HashCode).map clientChunk }

/-- The client pushes the files of the job, in the order of the server, each with the
chunks of its recipe. -/
def Paired (opened : ℕ → Bool) (chunknum : ℕ → ℤ) (s : Shared) (rows : List FileRow) : Prop :=
  getFiles chunknum (restore opened rows s) = .ok (rows.map (restoredFile s))

/-- The recipe volume can be opened for every file, from the `i`-th on, except perhaps for
the last one if that has no chunks. -/
def Readable (opened : ℕ → Bool) (s : Shared) : ℕ → List FileRow → Prop
  | _, [] => True
  | i, row :: rows =>
    (opened i = true ∨ rows = [] ∧ storedRecipe s row.HashCode = []) ∧
      Readable opened s (i + 1) rows

/-- Rows of the database: paths are shorter than `FILE_NAME_LEN`, and end at their NUL. -/
def Row (row : FileRow) : Prop := row.FilePath.length < 256 ∧ 0 ∉ row.FilePath

-- ════════════════════════════════════════════════════════════════════════
-- The list of files
-- ════════════════════════════════════════════════════════════════════════

theorem cstring_path {path : Bytes} (h : 0 ∉ path) : cstring path = path := by
  rw [cstring, List.takeWhile_eq_self_iff]
  intro c hc
  simp only [ne_eq, decide_eq_true_eq]
  rintro rfl
  exact h hc

/-- One entry of the list. -/
theorem decodeFiles_cons {row : FileRow} (h : Row row) (front rest : Bytes) (i : ℕ)
    (filelist : List RestoreFile) :
    decodeFiles (front ++ (jobFile row ++ rest)) (i + 1) front.length filelist =
      decodeFiles (front ++ (jobFile row ++ rest)) i (front ++ jobFile row).length
        (listedFile row :: filelist) := by
  have hlen := length_jobFile row
  have hint : intOf (readAt (front ++ (jobFile row ++ rest)) front.length 4) =
      20 + row.FilePath.length := by
    rw [readAt_skip (show front.length = front.length + 0 from rfl), intOf_jobFile h.1]
  have hhash : readAt (front ++ (jobFile row ++ rest)) (front.length + 4) 20 =
      row.HashCode.toList := by
    rw [readAt_skip rfl, readAt_jobFile_hash]
  have hsub : (20 + (row.FilePath.length : ℤ)).toNat - 20 = row.FilePath.length := by omega
  have hpath : readAt (front ++ (jobFile row ++ rest)) (front.length + 24) row.FilePath.length =
      row.FilePath := by
    rw [readAt_skip rfl, readAt_jobFile_path]
  have hroom : front.length + 24 + row.FilePath.length ≤
      (front ++ (jobFile row ++ rest)).length := by
    rw [List.length_append, List.length_append, hlen]
    omega
  have hnext : front.length + 4 + (20 + (row.FilePath.length : ℤ)).toNat =
      (front ++ jobFile row).length := by
    rw [List.length_append, hlen]
    omega
  have hbound := h.1
  rw [decodeFiles, hint, if_pos ⟨by omega, by omega, by omega, by omega⟩, hhash, hsub, hpath,
    hnext, cstring_path h.2, fixed_toList]
  rfl

/-- The list is decoded back to front. -/
theorem decodeFiles_eq {rows : List FileRow} (h : ∀ row ∈ rows, Row row) (front : Bytes)
    (filelist : List RestoreFile) :
    decodeFiles (front ++ listBytes rows) rows.length front.length filelist =
      some ((rows.map listedFile).reverse ++ filelist) := by
  induction rows generalizing front filelist with
  | nil => rfl
  | cons row rows ih =>
    have hrest := ih (fun r hr => h r (List.mem_cons_of_mem _ hr)) (front ++ jobFile row)
      (listedFile row :: filelist)
    rw [List.append_assoc] at hrest
    rw [listBytes_cons, List.length_cons, decodeFiles_cons (h row (by simp)), hrest]
    simp

/-- A list that was cut is not decoded. -/
theorem decodeFiles_cut {rows : List FileRow} (h : ∀ row ∈ rows, Row row) {front : Bytes}
    {filelist decoded : List RestoreFile} {m : ℕ}
    (hdec : decodeFiles ((front ++ listBytes rows).take m) rows.length front.length filelist =
      some decoded) (hfront : front.length ≤ m) : (front ++ listBytes rows).length ≤ m := by
  induction rows generalizing front filelist with
  | nil => simpa [listBytes] using hfront
  | cons row rows ih =>
    have hrow := (h row (by simp)).1
    have hlen := length_jobFile row
    rw [listBytes_cons] at hdec ⊢
    rw [List.length_cons, decodeFiles] at hdec
    dsimp only at hdec
    split at hdec
    · next hinside =>
      obtain ⟨hcount, -, -, hentry⟩ := hinside
      have hm : ((front ++ (jobFile row ++ listBytes rows)).take m).length ≤ m :=
        List.length_take_le _ _
      have hread : readAt ((front ++ (jobFile row ++ listBytes rows)).take m) front.length 4 =
          readAt (front ++ (jobFile row ++ listBytes rows)) front.length 4 := by
        conv_rhs => rw [← List.take_append_drop m (front ++ (jobFile row ++ listBytes rows))]
        rw [readAt_append_left hcount]
      have hint : intOf (readAt ((front ++ (jobFile row ++ listBytes rows)).take m)
          front.length 4) = 20 + row.FilePath.length := by
        rw [hread, readAt_skip (show front.length = front.length + 0 from rfl), intOf_jobFile hrow]
      rw [hint] at hdec hentry
      have hnext : front.length + 4 + (20 + (row.FilePath.length : ℤ)).toNat =
          (front ++ jobFile row).length := by
        rw [List.length_append, hlen]
        omega
      rw [hnext] at hdec hentry
      rw [← List.append_assoc] at hdec ⊢
      exact ih (fun r hr => h r (List.mem_cons_of_mem _ hr)) hdec (by omega)
    · simp at hdec

/-- The number of files in front of the list. -/
theorem intOf_number (num : ℤ) :
    intOf (readAt ((Delivery.whole (intBytes 4 num)).into (List.replicate 256 0)) 0 4) =
      int32 num := by
  have hread : readAt ((Delivery.whole (intBytes 4 num)).into (List.replicate 256 0)) 0 4 =
      intBytes 4 num := by
    have hinside : readAt (writeAt (List.replicate 256 0) 0 (intBytes 4 num ++ [0])) (0 + 0) 4 =
        readAt (intBytes 4 num ++ [0]) 0 4 := readAt_writeAt_inside (by simp)
    exact hinside.trans (readAt_front (length_intBytes _ _))
  rw [hread, intOf_intBytes, int32]
  rfl

theorem bnetSent_number (num : ℤ) : bnetSent (intBytes 4 num) = .whole (intBytes 4 num) :=
  bnetSent_eq (by simp) (by simp)

/-- What the client makes of a number of files and a list that arrive. -/
theorem recvFileList_number (num : ℤ) (d : Delivery) (rest : List Delivery) (closed : Bool) :
    recvFileList ⟨.whole (intBytes 4 num) :: d :: rest, closed⟩ =
      if d.stored ≤ listSize (int32 num) then
        if d.ret ≤ 0 then .error .failure
        else
          match decodeFiles d.bytes (int32 num).toNat 0 [] with
          | none => .error .stuck
          | some filelist => .ok (filelist, ⟨rest, closed⟩)
      else .error .stuck := by
  have hstored : (Delivery.whole (intBytes 4 num)).stored = 5 := by
    rw [Delivery.whole, Delivery.stored, length_intBytes]
  have hret : (Delivery.whole (intBytes 4 num)).ret = 4 := by
    rw [Delivery.whole, Delivery.ret, length_intBytes]
    rfl
  have hcount : recvInto 256 ⟨.whole (intBytes 4 num) :: d :: rest, closed⟩ =
      .ok (.whole (intBytes 4 num), ⟨d :: rest, closed⟩) := by
    rw [recvInto, recv]
    dsimp only
    rw [hstored, if_pos (by decide)]
  rw [recvFileList, hcount]
  dsimp only
  rw [hret, if_neg (by decide), intOf_number, recvInto, recv]
  dsimp only
  by_cases hroom : d.stored ≤ listSize (int32 num)
  · rewrite [if_pos hroom, if_pos hroom]
    rfl
  · rw [if_neg hroom, if_neg hroom]

-- ════════════════════════════════════════════════════════════════════════
-- How many files are pushed
-- ════════════════════════════════════════════════════════════════════════

theorem length_decodeFiles {buf : Bytes} {i p : ℕ} {filelist decoded : List RestoreFile}
    (h : decodeFiles buf i p filelist = some decoded) : decoded.length = i + filelist.length := by
  induction i generalizing p filelist with
  | zero =>
    obtain rfl := Option.some.inj h
    exact (Nat.zero_add _).symm
  | succ i ih =>
    rw [decodeFiles] at h
    dsimp only at h
    split at h
    · have hlen := ih h
      rw [dlistInsert, List.length_cons] at hlen
      omega
    · simp at h

theorem length_recvFileList {conn conn' : Incoming} {filelist : List RestoreFile}
    (h : recvFileList conn = .ok (filelist, conn')) : filelist.length < 2 ^ 31 := by
  rw [recvFileList] at h
  split at h
  · simp at h
  · next d conn₁ hd =>
    split at h
    · simp at h
    · dsimp only at h
      split at h
      · simp at h
      · split at h
        · simp at h
        · split at h
          · simp at h
          · next decoded hdec =>
            obtain ⟨rfl, -⟩ := Prod.mk.inj (Except.ok.inj h)
            have hlen := length_decodeFiles hdec
            have hcount : (readAt (d.into (List.replicate 256 0)) 0 4).length ≤ 4 :=
              List.length_take_le _ _
            have hlt : (intOf (readAt (d.into (List.replicate 256 0)) 0 4)).toNat < 2 ^ 31 := by
              by_cases hnil : readAt (d.into (List.replicate 256 0)) 0 4 = []
              · rw [hnil]
                decide
              · have hbound := intOf_lt hnil
                have hpow : 256 ^ (readAt (d.into (List.replicate 256 0)) 0 4).length ≤ 256 ^ 4 :=
                  Nat.pow_le_pow_right (by decide) hcount
                omega
            rw [hlen, List.length_nil]
            exact hlt

theorem length_pushFiles {chunknum : ℕ → ℤ} {n : ℕ} {filelist pool : List RestoreFile}
    {conn : Incoming} (h : pushFiles chunknum n filelist conn = .ok pool) : pool.length = n := by
  induction n generalizing filelist conn pool with
  | zero =>
    obtain rfl := Except.ok.inj h
    rfl
  | succ n ih =>
    rw [pushFiles] at h
    split at h
    · simp at h
    · split at h
      · simp at h
      · split at h
        · simp at h
        · next hrest =>
          obtain rfl := Except.ok.inj h
          rw [List.length_cons, ih hrest]

/-- The number of files of a job has to fit an `int`. -/
theorem length_getFiles {chunknum : ℕ → ℤ} {conn : Incoming} {pool : List RestoreFile}
    (h : getFiles chunknum conn = .ok pool) : pool.length < 2 ^ 31 := by
  rw [getFiles] at h
  split at h
  · simp at h
  · next hlist =>
    rw [length_pushFiles h]
    exact length_recvFileList hlist

-- ════════════════════════════════════════════════════════════════════════
-- One recipe
-- ════════════════════════════════════════════════════════════════════════

theorem receivedChunk_bytes (fc : Server.FingerChunk) :
    receivedChunk ((Delivery.whole fc.bytes).into []) = clientChunk fc := by
  have hinto : (Delivery.whole fc.bytes).into [] = fc.bytes ++ [0] := writeAt_nil _
  have hlen := FingerChunk.length_bytes fc
  have hof := fingerChunkOf_bytes fc
  have h1 : readAt (fc.bytes ++ [0]) 0 20 = readAt fc.bytes 0 20 := readAt_append_left (by omega)
  have h2 : readAt (fc.bytes ++ [0]) 20 64 = readAt fc.bytes 20 64 := readAt_append_left (by omega)
  obtain ⟨hhash, haddr⟩ := Server.FingerChunk.mk.inj hof
  rw [hinto, receivedChunk, h1, h2, hhash, haddr, clientChunk]

theorem recvChunks_eq (fcs : List Server.FingerChunk) (fileinfo : RestoreFile)
    (rest : List Delivery) (closed : Bool) :
    recvChunks fcs.length fileinfo ⟨fcs.map (fun fc => .whole fc.bytes) ++ rest, closed⟩ =
      .ok (true, { fileinfo with chunks := fileinfo.chunks ++ fcs.map clientChunk },
        ⟨rest, closed⟩) := by
  induction fcs generalizing fileinfo with
  | nil => simp [recvChunks]
  | cons fc fcs ih =>
    have hstored : (Delivery.whole fc.bytes).stored = 85 := by
      rw [Delivery.whole, Delivery.stored, FingerChunk.length_bytes]
    have hret : (Delivery.whole fc.bytes).ret = 84 := by
      rw [Delivery.whole, Delivery.ret, FingerChunk.length_bytes]
      rfl
    rw [List.length_cons, recvChunks, List.map_cons, List.cons_append, recvInto, recv]
    dsimp only
    rw [hstored, if_pos (le_refl _)]
    dsimp only
    rw [hret, if_neg (by decide), receivedChunk_bytes, ih, fileAppendFingerchunk]
    simp

theorem chunkCount_number {n : ℕ} (h : n < 2 ^ 31) (buf : Bytes) :
    chunkCount ((Delivery.whole (intBytes 8 n)).into buf) = n := by
  have hlow : readAt (intBytes 8 n) 0 4 = intBytes 4 n := by
    rw [intBytes_natCast (by omega), intBytes_natCast (by omega)]
    exact readAt_leBytes 4 4 n
  have hread : readAt ((Delivery.whole (intBytes 8 n)).into buf) 0 4 = intBytes 4 n := by
    have hinside : readAt (writeAt buf 0 (intBytes 8 n ++ [0])) (0 + 0) 4 =
        readAt (intBytes 8 n ++ [0]) 0 4 := readAt_writeAt_inside (by simp)
    have hleft : readAt (intBytes 8 n ++ [0]) 0 4 = readAt (intBytes 8 n) 0 4 :=
      readAt_append_left (by simp)
    exact hinside.trans (hleft.trans hlow)
  rw [chunkCount, hread, intOf_intBytes_natCast (by omega), Int.toNat_natCast]

/-- A recipe is received as it was sent. -/
theorem recvDeplicateChunk_eq {rp : Recipe} (h : rp.chunks.length < 2 ^ 31) (chunknum : ℤ)
    (fileinfo : RestoreFile) (rest : List Delivery) (closed : Bool) :
    Client.recvDeplicateChunk chunknum fileinfo ⟨(sendChunkInfo rp).map bnetSent ++ rest, closed⟩ =
      .ok (true, { fileinfo with chunks := fileinfo.chunks ++ rp.chunks.map clientChunk },
        ⟨rest, closed⟩) := by
  have hsent : (sendChunkInfo rp).map bnetSent =
      .whole (intBytes 8 rp.chunknum) :: rp.chunks.map (fun fc => .whole fc.bytes) := by
    have hcount : bnetSent (intBytes 8 rp.chunknum) = .whole (intBytes 8 rp.chunknum) :=
      bnetSent_eq (by simp) (by rw [length_intBytes]; decide)
    have hchunk : ∀ fc : Server.FingerChunk, bnetSent fc.bytes = .whole fc.bytes := fun fc =>
      bnetSent_eq (by simp) (by rw [FingerChunk.length_bytes]; decide)
    have hchunks : rp.chunks.map (bnetSent ∘ FingerChunk.bytes) =
        rp.chunks.map fun fc => .whole fc.bytes :=
      List.map_congr_left fun fc _ => by rw [Function.comp_apply, hchunk]
    rw [sendChunkInfo, List.map_cons, hcount, List.map_map, hchunks]
  have hret : (Delivery.whole (intBytes 8 rp.chunknum)).ret = 8 := by
    rw [Delivery.whole, Delivery.ret, length_intBytes]
    rfl
  have hstored : (Delivery.whole (intBytes 8 rp.chunknum)).stored = countRoom := by
    rw [Delivery.whole, Delivery.stored, length_intBytes]
    rfl
  rw [hsent, List.cons_append, Client.recvDeplicateChunk, recvInto, recv]
  dsimp only
  rw [if_pos hstored.le]
  dsimp only
  rw [hret, if_neg (by decide), Recipe.chunknum, chunkCount_number h, recvChunks_eq]

-- ════════════════════════════════════════════════════════════════════════
-- The recipes of all files
-- ════════════════════════════════════════════════════════════════════════

theorem length_chunksAt (file : Bytes) (offset : ℕ) : (chunksAt file offset).length < 2 ^ 31 := by
  rw [chunksAt]
  split
  · next hlen =>
    have hlt := intOf_lt (List.ne_nil_of_length_eq_add_one hlen)
    rw [length_readRecords]
    rw [hlen] at hlt
    omega
  · simp

theorem length_storedRecipe (s : Shared) (hash : Fingerprint) :
    (storedRecipe s hash).length < 2 ^ 31 := by
  rw [storedRecipe]
  split
  · simp
  · exact length_chunksAt _ _

/-- The tables after a lookup. -/
def looked (s : Shared) (hash : Fingerprint) (mutex : Bool) : Shared :=
  ⟨hashIndex s.mem_index hash, { s.volume with rv := { s.volume.rv with mutex := mutex } }⟩

theorem storedRecipe_looked {s : Shared} (h : s.mem_index.WF) (hash : Fingerprint) (mutex : Bool)
    (hash' : Fingerprint) : storedRecipe (looked s hash mutex) hash' = storedRecipe s hash' := by
  rw [storedRecipe, storedRecipe, looked, hashIndex_find _ h]

theorem restoredFile_looked {s : Shared} (h : s.mem_index.WF) (hash : Fingerprint) (mutex : Bool)
    (rows : List FileRow) :
    rows.map (restoredFile (looked s hash mutex)) = rows.map (restoredFile s) :=
  List.map_congr_left fun row _ => by rw [restoredFile, restoredFile, storedRecipe_looked h]

variable {s : Shared} {rp : Recipe} {offset : ℕ}

/-- `get_file_info` of a known hash when the mutex is free. -/
theorem getFileInfo_free (hfind : s.mem_index.find rp.file_hash = some offset)
    (hfree : s.volume.rv.mutex = false) (opened : Bool) :
    getFileInfo opened rp s = some (opened,
      if opened then { rp with chunks := rp.chunks ++ chunksAt s.volume.file offset } else rp,
      looked s rp.file_hash !opened) := by
  have hlookup : indexLookup s.mem_index rp.file_hash =
      (some offset, hashIndex s.mem_index rp.file_hash) := by
    rw [← hfind]
    rfl
  rw [getFileInfo, hlookup]
  dsimp only
  rw [readRecipeFromVol, hfree]
  cases opened
  · rfl
  · simp only [Bool.false_eq_true, if_false, if_true, foldl_recipeAppendFingerchunk]
    rw [looked, Bool.not_true, ← hfree]

theorem getFileInfo_held (hfind : s.mem_index.find rp.file_hash = some offset)
    (hheld : s.volume.rv.mutex = true) (opened : Bool) : getFileInfo opened rp s = none := by
  have hlookup : indexLookup s.mem_index rp.file_hash =
      (some offset, hashIndex s.mem_index rp.file_hash) := by
    rw [← hfind]
    rfl
  rw [getFileInfo, hlookup]
  dsimp only
  rw [readRecipeFromVol, hheld, if_pos rfl]

/-- The hash that `restore` takes from an element of the queue. -/
theorem fixed_jobFile (row : FileRow) : fixed 20 (readAt (jobFile row) 4 20) = row.HashCode := by
  have hread := readAt_jobFile_hash row []
  rw [List.append_nil] at hread
  rw [hread, fixed_toList]

theorem dlistDeleteTail_reverse {α : Type*} (x : α) (xs : List α) :
    dlistDeleteTail (x :: xs).reverse = some (x, xs.reverse) := by
  rw [dlistDeleteTail, List.reverse_cons, List.getLast?_concat, List.dropLast_concat]
  rfl

/-- The first file of the list is the first to be drained. -/
theorem pushFiles_reverse (chunknum : ℕ → ℤ) {fileinfo fileinfo' : RestoreFile} {ok : Bool}
    {files : List RestoreFile} {conn conn' : Incoming} (n : ℕ)
    (h : Client.recvDeplicateChunk (chunknum n) fileinfo conn = .ok (ok, fileinfo', conn')) :
    pushFiles chunknum (n + 1) (fileinfo :: files).reverse conn =
      match pushFiles chunknum n files.reverse conn' with
      | .error e => .error e
      | .ok pool => .ok (fileinfo' :: pool) := by
  rw [pushFiles, dlistDeleteTail_reverse]
  dsimp only
  rewrite [h]
  rfl

/-- What the client pushes while the server goes through the queue. -/
def pushed (opened : ℕ → Bool) (chunknum : ℕ → ℤ) (s : Shared) (i : ℕ) (rows : List FileRow) :
    Except Stop (List RestoreFile) :=
  let (msgs, last) := restoreFiles opened i rows.length (rows.map jobFile) s
  pushFiles chunknum rows.length (rows.map listedFile).reverse ⟨msgs.map bnetSent, last.isSome⟩

theorem pushed_held {row : FileRow} {rows : List FileRow} {i : ℕ} {opened : ℕ → Bool}
    {chunknum : ℕ → ℤ} (hfind : s.mem_index.find row.HashCode = some offset)
    (hheld : s.volume.rv.mutex = true) :
    pushed opened chunknum s i (row :: rows) = .error .stuck := by
  have hwait : getFileInfo (opened i) (recipeNew row.HashCode) s = none :=
    getFileInfo_held hfind hheld _
  rw [pushed, List.length_cons, List.map_cons, List.map_cons, restoreFiles, fixed_jobFile, hwait]
  dsimp only
  rw [pushFiles, dlistDeleteTail_reverse]
  rfl

/-- One more file is pushed, with the recipe that the server sends. -/
theorem pushed_step {row : FileRow} {rows : List FileRow} {i : ℕ} {opened : ℕ → Bool}
    {chunknum : ℕ → ℤ} {ok : Bool} {s' : Shared}
    (hinfo : getFileInfo (opened i) (recipeNew row.HashCode) s = some (ok, rp, s'))
    (hshort : rp.chunks.length < 2 ^ 31) :
    pushed opened chunknum s i (row :: rows) =
      match pushed opened chunknum s' (i + 1) rows with
      | .error e => .error e
      | .ok pool => .ok ({ listedFile row with chunks := rp.chunks.map clientChunk } :: pool) := by
  rw [pushed, List.length_cons, List.map_cons, List.map_cons, restoreFiles, fixed_jobFile, hinfo]
  dsimp only
  rw [List.map_append, pushFiles_reverse _ _ (recvDeplicateChunk_eq hshort _ _ _ _)]
  rfl

/-- A file with a known hash is pushed with its recipe if the volume could be opened. -/
theorem pushed_free {row : FileRow} {rows : List FileRow} {i : ℕ} {opened : ℕ → Bool}
    {chunknum : ℕ → ℤ} (hfind : s.mem_index.find row.HashCode = some offset)
    (hfree : s.volume.rv.mutex = false) :
    pushed opened chunknum s i (row :: rows) =
      match pushed opened chunknum (looked s row.HashCode !opened i) (i + 1) rows with
      | .error e => .error e
      | .ok pool =>
        .ok ((if opened i then restoredFile s row else listedFile row) :: pool) := by
  have hrecipe : s.mem_index.find (recipeNew row.HashCode).file_hash = some offset := hfind
  have hinfo := getFileInfo_free hrecipe hfree (opened i)
  generalize hrp : (if opened i then { recipeNew row.HashCode with
      chunks := (recipeNew row.HashCode).chunks ++ chunksAt s.volume.file offset }
      else recipeNew row.HashCode) = rp at hinfo
  have hchunks : rp.chunks = if opened i then storedRecipe s row.HashCode else [] := by
    rw [storedRecipe, hfind, ← hrp]
    split <;> rfl
  have hshort : rp.chunks.length < 2 ^ 31 := by
    rw [hchunks]
    split
    · exact length_storedRecipe _ _
    · simp
  have hfile : { listedFile row with chunks := rp.chunks.map clientChunk } =
      if opened i then restoredFile s row else listedFile row := by
    rw [hchunks]
    split
    · rfl
    · rfl
  rw [pushed_step hinfo hshort, hfile]
  rfl

/-- A file that was not read is restored without its chunks. -/
theorem listedFile_eq_iff (row : FileRow) :
    listedFile row = restoredFile s row ↔ storedRecipe s row.HashCode = [] := by
  constructor
  · intro h
    have hchunks := congrArg (fun f : RestoreFile => f.chunks) h
    exact List.map_eq_nil_iff.mp hchunks.symm
  · intro h
    rw [restoredFile, h]
    rfl

theorem readable_looked (hwf : s.mem_index.WF) (opened : ℕ → Bool) (hash : Fingerprint)
    (mutex : Bool) (i : ℕ) (rows : List FileRow) :
    Readable opened (looked s hash mutex) i rows ↔ Readable opened s i rows := by
  induction rows generalizing i with
  | nil => exact Iff.rfl
  | cons row rows ih => rw [Readable, Readable, storedRecipe_looked hwf, ih]

theorem match_cons_iff {x : Except Stop (List RestoreFile)} {f g : RestoreFile}
    {rest : List RestoreFile} :
    (match x with
      | .error e => .error e
      | .ok pool => .ok (f :: pool) : Except Stop (List RestoreFile)) = .ok (g :: rest) ↔
      f = g ∧ x = .ok rest := by
  cases x <;> simp

/-- The recipes are paired with their files exactly when they can be read. -/
theorem pushed_iff {opened : ℕ → Bool} {chunknum : ℕ → ℤ} {rows : List FileRow} {i : ℕ}
    (hwf : s.mem_index.WF) (hfree : s.volume.rv.mutex = false)
    (hfind : ∀ row ∈ rows, ∃ offset, s.mem_index.find row.HashCode = some offset) :
    pushed opened chunknum s i rows = .ok (rows.map (restoredFile s)) ↔
      Readable opened s i rows := by
  induction rows generalizing s i with
  | nil => exact iff_of_true rfl trivial
  | cons row rows ih =>
    obtain ⟨offset, hrow⟩ := hfind row (by simp)
    have hknown : ∀ mutex, ∀ r ∈ rows, ∃ o,
        (looked s row.HashCode mutex).mem_index.find r.HashCode = some o := by
      intro mutex r hr
      rw [looked, hashIndex_find _ hwf]
      exact hfind r (List.mem_cons_of_mem _ hr)
    rw [pushed_free hrow hfree, Readable, List.map_cons, match_cons_iff]
    cases hopened : opened i with
    | true =>
      have hrest := ih (hashIndex_wf hwf row.HashCode) rfl (hknown false) (i := i + 1)
      rw [restoredFile_looked hwf, readable_looked hwf] at hrest
      simp only [Bool.not_true, if_true, true_and, true_or]
      exact hrest
    | false =>
      simp only [Bool.false_eq_true, if_false, Bool.not_false, false_or]
      rw [listedFile_eq_iff]
      cases rows with
      | nil =>
        rw [Readable]
        simp only [true_and, and_true]
        exact and_iff_left rfl
      | cons r rows =>
        obtain ⟨o, hr⟩ := hknown true r (by simp)
        rw [pushed_held hr rfl]
        simp

-- ════════════════════════════════════════════════════════════════════════
-- The whole exchange
-- ════════════════════════════════════════════════════════════════════════

theorem listSize_number {n : ℕ} : listSize n = 280 * n := by
  rw [listSize]
  omega

theorem sendJobInfo_eq {rows : List FileRow} (h : ∀ row ∈ rows, Row row)
    (hnum : rows.length < 2 ^ 31) :
    sendJobInfo (rows.map jobFile) = some (listBytes rows, rows.map jobFile) := by
  have hshort : ∀ row ∈ rows, row.FilePath.length < 256 := fun row hrow => (h row hrow).1
  have hlen := length_listBytes_le hshort
  have hint : int32 (rows.length : ℤ) = rows.length := int32_eq (by omega) (by omega)
  have hroom : ([] : Bytes).length + (listBytes rows).length ≤ 280 * rows.length + 1 := by
    rw [List.length_nil]
    omega
  have hpack := packItems_eq hshort [] [] hroom
  rw [List.append_nil, List.nil_append, List.nil_append] at hpack
  rw [sendJobInfo, List.length_map, hint, listSize_number, Int.toNat_natCast, hpack]

/-- The client decodes a list that arrives as it was sent. -/
theorem recvFileList_short {rows : List FileRow} {rest : List Delivery} {closed : Bool}
    (hne : rows ≠ []) (h : ∀ row ∈ rows, Row row) (hlen : (listBytes rows).length < 2 ^ 31) :
    recvFileList ⟨.whole (intBytes 4 rows.length) :: .whole (listBytes rows) :: rest, closed⟩ =
      .ok ((rows.map listedFile).reverse, ⟨rest, closed⟩) := by
  have hpos := List.length_pos_iff.mpr hne
  have hlow := length_le_listBytes rows
  have hhigh := length_listBytes_le fun row hrow => (h row hrow).1
  have hint : int32 (rows.length : ℤ) = rows.length := int32_eq (by omega) (by omega)
  have hstored : (Delivery.whole (listBytes rows)).stored ≤ 280 * rows.length := by
    rw [Delivery.whole, Delivery.stored]
    omega
  have hret : ¬(Delivery.whole (listBytes rows)).ret ≤ 0 := by
    rw [Delivery.whole, Delivery.ret]
    omega
  have hdec := decodeFiles_eq h [] []
  rw [List.nil_append, List.append_nil, List.length_nil] at hdec
  rw [recvFileList_number, hint, listSize_number, if_pos hstored, if_neg hret, Int.toNat_natCast,
    Delivery.whole, Delivery.bytes, hdec]

theorem getFiles_short {chunknum : ℕ → ℤ} {rows : List FileRow} {rest : List Delivery}
    {closed : Bool} (hne : rows ≠ []) (h : ∀ row ∈ rows, Row row)
    (hlen : (listBytes rows).length < 2 ^ 31) :
    getFiles chunknum ⟨.whole (intBytes 4 rows.length) :: .whole (listBytes rows) :: rest, closed⟩ =
      pushFiles chunknum rows.length (rows.map listedFile).reverse ⟨rest, closed⟩ := by
  rw [getFiles, recvFileList_short hne h hlen]
  dsimp only
  rw [List.length_reverse, List.length_map]

/-- The client does not decode a list of which only a part arrives. -/
theorem recvFileList_cut {rows : List FileRow} {d : Delivery} {rest : List Delivery} {closed : Bool}
    (h : ∀ row ∈ rows, Row row) (hnum : rows.length < 2 ^ 31)
    (hd : d.ret ≤ 0 ∨ ∃ m < (listBytes rows).length, d.bytes = (listBytes rows).take m)
    (result : List RestoreFile × Incoming) :
    recvFileList ⟨.whole (intBytes 4 rows.length) :: d :: rest, closed⟩ ≠ .ok result := by
  have hint : int32 (rows.length : ℤ) = rows.length := int32_eq (by omega) (by omega)
  intro hlist
  rw [recvFileList_number, hint, Int.toNat_natCast] at hlist
  split at hlist
  · split at hlist
    · simp at hlist
    · next hret =>
      obtain ⟨m, hm, hbytes⟩ := hd.resolve_left hret
      split at hlist
      · simp at hlist
      · next decoded hdec =>
        rw [hbytes, ← List.nil_append (listBytes rows), ← @List.length_nil UInt8] at hdec
        have hcut := decodeFiles_cut h hdec (by rw [List.length_nil]; exact Nat.zero_le _)
        rw [List.nil_append] at hcut
        omega
  · simp at hlist

/-- A list whose length does not fit an `int` arrives in part or not at all. -/
theorem bnetSent_long {msg : Bytes} (hlen : 2 ^ 31 ≤ msg.length) :
    (bnetSent msg).ret ≤ 0 ∨ ∃ m < msg.length, (bnetSent msg).bytes = msg.take m := by
  have hlt := int32_lt msg.length
  rw [bnetSent]
  by_cases hle : int32 (msg.length : ℤ) ≤ 0
  · rw [if_pos hle]
    exact .inl hle
  · rw [if_neg hle]
    refine .inr ⟨(int32 msg.length).toNat, by omega, ?_⟩
    rw [Delivery.whole, Delivery.bytes]

theorem getFiles_long {chunknum : ℕ → ℤ} {rows : List FileRow} {rest : List Delivery}
    {closed : Bool} (h : ∀ row ∈ rows, Row row) (hnum : rows.length < 2 ^ 31)
    (hlen : 2 ^ 31 ≤ (listBytes rows).length) (pool : List RestoreFile) :
    getFiles chunknum ⟨.whole (intBytes 4 rows.length) :: bnetSent (listBytes rows) :: rest,
      closed⟩ ≠ .ok pool := by
  rw [getFiles]
  split
  · simp
  · next hlist => exact absurd hlist (recvFileList_cut h hnum (bnetSent_long hlen) _)

theorem restore_eq {opened : ℕ → Bool} {rows : List FileRow} (hne : rows ≠ [])
    (h : ∀ row ∈ rows, Row row) (hnum : rows.length < 2 ^ 31) :
    restore opened rows s = sendRecipes opened (.whole (intBytes 4 rows.length)) s (listBytes rows)
      (rows.map jobFile) := by
  have hqueue : rows.map jobFile ≠ [] := by simpa using hne
  have hint : int32 (rows.length : ℤ) = rows.length := int32_eq (by omega) (by omega)
  rw [restore, if_neg hqueue, sendJobInfo_eq h hnum, Option.elim_some, List.length_map, hint,
    bnetSent_number]

/-- What the server sends for a list that fits an `int`. -/
theorem restore_short {opened : ℕ → Bool} {rows : List FileRow} (hne : rows ≠ [])
    (h : ∀ row ∈ rows, Row row) (hlen : (listBytes rows).length < 2 ^ 31) :
    restore opened rows s =
      ⟨.whole (intBytes 4 rows.length) :: .whole (listBytes rows) ::
        (restoreFiles opened 0 rows.length (rows.map jobFile) s).1.map bnetSent,
        (restoreFiles opened 0 rows.length (rows.map jobFile) s).2.isSome⟩ := by
  have hpos := List.length_pos_iff.mpr hne
  have hlow := length_le_listBytes rows
  have hint : int32 (rows.length : ℤ) = rows.length := int32_eq (by omega) (by omega)
  have hlist : int32 ((listBytes rows).length : ℤ) = (listBytes rows).length :=
    int32_eq (by omega) (by omega)
  have hnonzero : ¬((listBytes rows).length : ℤ) = 0 := by omega
  rw [restore_eq hne h (by omega), sendRecipes, hlist, if_neg hnonzero, List.length_map, hint,
    bnetSent_eq (by omega) hlen, Int.toNat_natCast]

/-- The start of what the server sends. -/
theorem restore_start {opened : ℕ → Bool} {rows : List FileRow} (hne : rows ≠ [])
    (h : ∀ row ∈ rows, Row row) (hnum : rows.length < 2 ^ 31) :
    ∃ rest closed, restore opened rows s =
      ⟨.whole (intBytes 4 rows.length) :: bnetSent (listBytes rows) :: rest, closed⟩ := by
  rw [restore_eq hne h hnum, sendRecipes]
  by_cases hzero : int32 ((listBytes rows).length : ℤ) = 0
  · exact ⟨_, _, if_pos hzero⟩
  · exact ⟨_, _, if_neg hzero⟩

theorem paired_short {opened : ℕ → Bool} {chunknum : ℕ → ℤ} {rows : List FileRow} (hne : rows ≠ [])
    (h : ∀ row ∈ rows, Row row) (hlen : (listBytes rows).length < 2 ^ 31) :
    Paired opened chunknum s rows ↔
      pushed opened chunknum s 0 rows = .ok (rows.map (restoredFile s)) := by
  rw [Paired, restore_short hne h hlen, getFiles_short hne h hlen, pushed]

theorem not_paired_long {opened : ℕ → Bool} {chunknum : ℕ → ℤ} {rows : List FileRow}
    (hne : rows ≠ []) (h : ∀ row ∈ rows, Row row) (hlen : 2 ^ 31 ≤ (listBytes rows).length) :
    ¬Paired opened chunknum s rows := by
  intro hpaired
  have hnum := length_getFiles hpaired
  rw [List.length_map] at hnum
  rw [Paired] at hpaired
  obtain ⟨rest, closed, hrestore⟩ : ∃ rest closed, restore opened rows s =
      ⟨.whole (intBytes 4 rows.length) :: bnetSent (listBytes rows) :: rest, closed⟩ :=
    restore_start hne h hnum
  rw [hrestore] at hpaired
  exact getFiles_long h hnum hlen _ hpaired

/-- Files and recipes are paired exactly when the list fits an `int` and the recipes can
be read. -/
theorem paired_iff (opened : ℕ → Bool) (chunknum : ℕ → ℤ) {s : Shared} {rows : List FileRow}
    (hne : rows ≠ []) (hrows : ∀ row ∈ rows, Row row) (hwf : s.mem_index.WF)
    (hfind : ∀ row ∈ rows, ∃ offset, s.mem_index.find row.HashCode = some offset) :
    Paired opened chunknum s rows ↔
      (listBytes rows).length < 2 ^ 31 ∧ s.volume.rv.mutex = false ∧ Readable opened s 0 rows := by
  by_cases hlen : (listBytes rows).length < 2 ^ 31
  · rw [paired_short hne hrows hlen]
    by_cases hfree : s.volume.rv.mutex = false
    · rw [pushed_iff hwf hfree hfind]
      exact ⟨fun h => ⟨hlen, hfree, h⟩, fun h => h.2.2⟩
    · obtain ⟨row, rows, rfl⟩ := List.exists_cons_of_ne_nil hne
      obtain ⟨offset, hrow⟩ := hfind row (by simp)
      rw [pushed_held hrow (by simpa using hfree)]
      simp [hfree]
  · have hlong : ¬Paired opened chunknum s rows := not_paired_long hne hrows (not_lt.mp hlen)
    exact ⟨fun h => absurd h hlong, fun h => absurd h.1 hlen⟩

-- ════════════════════════════════════════════════════════════════════════
-- Jobs
-- ════════════════════════════════════════════════════════════════════════

/-- A file `/a`. -/
def oneRow : FileRow := ⟨zeroFinger, [47, 97]⟩

/-- A server that knows the hash of the file. -/
def oneShared : Shared :=
  ⟨htableInsert (htableInit 4) oneRow.HashCode 16, recipeVolumeInit []⟩

theorem oneShared_wf : oneShared.mem_index.WF := htableInsert_wf (htableInit_wf 4) _ _

theorem oneShared_find : oneShared.mem_index.find oneRow.HashCode = some 16 := by
  rw [oneShared, find_htableInsert (htableInit_wf 4), if_pos ⟨rfl, htableInit_find 4 _⟩]

theorem oneRow_row : Row oneRow := ⟨by decide, by decide⟩

/-- Files `/a` and `/b`. -/
def twoRows : List FileRow := [oneRow, ⟨fixed 20 [1], [47, 98]⟩]

/-- A chunk in the container `A`. -/
def chunkOf (hash : UInt8) : Server.FingerChunk := ⟨fixed 20 [hash], fixed 64 [65]⟩

/-- A server with the recipes of both files, of one and of two chunks. -/
def twoShared : Shared where
  mem_index := htableInsert (htableInsert (htableInit 4) zeroFinger 16) (fixed 20 [1]) 104
  volume := recipeVolumeInit (volumeHeader ⟨2, 276, false⟩ ++
    (intBytes 4 1 ++ (chunkOf 2).bytes ++ (intBytes 4 2 ++ (chunkOf 3).bytes ++ (chunkOf 4).bytes)))

theorem twoShared_wf : twoShared.mem_index.WF := by
  have hfirst := htableInsert_wf (htableInit_wf (α := ℕ) 4) zeroFinger 16
  have hsecond := htableInsert_wf hfirst (fixed 20 [1]) 104
  exact hsecond

theorem twoShared_find : twoShared.mem_index.find zeroFinger = some 16 ∧
    twoShared.mem_index.find (fixed 20 [1]) = some 104 := by
  have hother : ¬(fixed 20 [1] : Fingerprint) = zeroFinger := by decide
  have hfirst := find_htableInsert (htableInit_wf (α := ℕ) 4) zeroFinger 16
  have hsecond := find_htableInsert (htableInsert_wf (htableInit_wf (α := ℕ) 4) zeroFinger 16) (fixed 20 [1])
    104
  rw [twoShared]
  dsimp only
  rw [hsecond, hsecond, hfirst, hfirst]
  simp [htableInit_find, hother, Ne.symm hother]

theorem twoRows_row : ∀ row ∈ twoRows, Row row := by
  simp [twoRows, Row, oneRow]

theorem twoRows_known : ∀ row ∈ twoRows, ∃ offset, twoShared.mem_index.find row.HashCode = some offset := by
  simp only [twoRows, List.forall_mem_cons]
  exact ⟨⟨16, twoShared_find.1⟩, ⟨104, twoShared_find.2⟩, by simp⟩

theorem twoRows_recipes : twoRows.map (fun row => storedRecipe twoShared row.HashCode) =
    [[chunkOf 2], [chunkOf 3, chunkOf 4]] := by
  simp only [twoRows, oneRow, List.map_cons, List.map_nil, storedRecipe, twoShared_find.1, twoShared_find.2]
  decide +kernel

theorem paired_iff_two : (twoRows.map fun row => (restoredFile twoShared row).chunks.length) = [1, 2] ∧
    Paired (fun _ => true) (fun _ => 0) twoShared twoRows := by
  refine ⟨?_, (paired_iff (fun _ => true) (fun _ => 0) (List.cons_ne_nil _ _) twoRows_row twoShared_wf
    twoRows_known).mpr ⟨by decide, by decide +kernel, .inl rfl, .inl rfl, trivial⟩⟩
  have hrecipes := congrArg (List.map List.length) twoRows_recipes
  rw [List.map_map] at hrecipes
  simpa [restoredFile, Function.comp_def] using hrecipes

/-- A job with many files. -/
theorem not_paired_many {n : ℕ} (hn : 2 ^ 27 ≤ n) :
    ¬Paired (fun _ => true) (fun _ => 0) oneShared (List.replicate n oneRow) := by
  have hne : List.replicate n oneRow ≠ [] := by
    rw [ne_eq, List.replicate_eq_nil_iff]
    omega
  have hrows : ∀ row ∈ List.replicate n oneRow, Row row := by
    intro row hrow
    rw [List.eq_of_mem_replicate hrow]
    exact oneRow_row
  have hlow := length_le_listBytes (List.replicate n oneRow)
  rw [List.length_replicate] at hlow
  exact not_paired_long hne hrows (by omega)

theorem many_files_not_paired : ¬ ∀ chunknum s rows, rows ≠ [] → (∀ row ∈ rows, Row row) →
    s.mem_index.WF → (∀ row ∈ rows, ∃ offset, s.mem_index.find row.HashCode = some offset) →
    s.volume.rv.mutex = false → Paired (fun _ => true) chunknum s rows := by
  intro h
  obtain ⟨n, hn⟩ : ∃ n, n = 2 ^ 27 := ⟨_, rfl⟩
  refine not_paired_many hn.ge (h (fun _ => 0) oneShared (List.replicate n oneRow) ?_ ?_
    oneShared_wf ?_ rfl)
  · rw [ne_eq, List.replicate_eq_nil_iff]
    omega
  · intro row hrow
    rw [List.eq_of_mem_replicate hrow]
    exact oneRow_row
  · intro row hrow
    rw [List.eq_of_mem_replicate hrow]
    exact ⟨16, oneShared_find⟩

end TCBackup.Restore.Pairing
