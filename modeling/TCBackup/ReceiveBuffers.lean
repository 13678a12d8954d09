import TCBackup.Pipeline.RecipeTransport
import TCBackup.Server.NewBackup
import TCBackup.Server.Restore

/-!
# Buffers of the exchanges

Every message of a backup, list, delete or restore exchange, with the buffer that it is
printed to, if it is, and the buffer of the `bnet_recv` that consumes it. `bnet_recv`
stores a NUL behind the message.

## Main definitions

- `Message` — the kinds of messages with all that their lengths depend on
- `Message.sent`, `Message.room`, `Message.printed` — the three sides of a message
- `Message.Fits` — it stays inside the buffers
- `Message.Short` — when it does
-/

namespace TCBackup.ReceiveBuffers

open ByteFile

/-- The two pairs of drivers of a backup. -/
inductive Driver
  | plain
  | pipelined
  deriving DecidableEq

/-- A row of `db_get_job_list`. -/
structure JobRow where
  JobId : ℤ
  FileSet : Bytes

inductive Message
  -- from the client
  | backup (path : Bytes)
  | hashType
  | fileHash (driver : Driver) (hash : Fingerprint)
  | recipeType
  | updateAttr (driver : Driver) (chunknum : ℤ) (path : Bytes)
  | recipeChunk (fc : Client.FingerChunk)
  | recipe (last_chunknum : ℤ) (fileinfo : Client.FileInfo Client.FingerChunk)
  | listJobs
  | deleteJob (job_id : ℤ)
  | restoreJob (id : ℤ)
  -- from the server
  | dedupResult (is_new : FileStatus)
  | chunkCount (rp : Server.Recipe)
  | chunk (fc : Server.FingerChunk)
  | attrResult (result : Bool)
  | backupResult (result : Bool)
  | number (num : ℤ)
  | listNone
  | jobList (jobs : List JobRow)
  | deleteResult (result : Bool)
  | fileList (rows : List Server.FileRow)

/-- `list_cmd` -/
def listCommand : Bytes := [76, 73, 83, 84]

/-- `list_none` -/
def listNone : Bytes := [78, 79, 32, 74, 79, 66, 32, 65, 86, 65, 73, 76, 65, 66, 76, 69]

/-- `sprintf(buf, delete_cmd, job_id)` -/
def deleteMsg (job_id : ℤ) : Bytes :=
  [68, 69, 76, 69, 32, 106, 111, 98, 105, 100, 61] ++ intNumeral job_id

/-- `sprintf(buf, restore_cmd, id)` -/
def restoreMsg (id : ℤ) : Bytes :=
  [82, 69, 83, 84, 32, 106, 111, 98, 105, 100, 61] ++ intNumeral id

/-- `delete_ok` -/
def deleteOk : Bytes :=
  [54, 48, 48, 49, 32, 100, 101, 108, 101, 116, 32, 106, 111, 98, 32, 115, 117, 99, 99, 101, 115,
    115]

/-- `delete_fail` -/
def deleteFail : Bytes :=
  [54, 48, 48, 50, 32, 100, 101, 108, 101, 116, 32, 106, 111, 98, 32, 101, 114, 114, 111, 114]

/-- `sprintf(tmp, list_jobinfo, JobId, FileSet)` -/
def jobInfo (job : JobRow) : Bytes :=
  [74, 111, 98, 73, 100, 61] ++ intNumeral job.JobId ++
    ([32, 70, 105, 108, 101, 83, 101, 116, 61] ++ job.FileSet)

/-- What `db_get_job_list` queues for a row: the length of the string and the string. -/
def jobEntry (job : JobRow) : Bytes := intBytes 4 (jobInfo job).length ++ jobInfo job

/-- The size of the recipe buffers after a recipe of at most `last_chunknum` chunks. Both
programs enlarge theirs for a longer one. -/
def recipeBuffer (last_chunknum chunknum : ℤ) : ℕ :=
  (Pipeline.RecipeTransport.bufferSize (max last_chunknum chunknum)).toNat

/-- The message; a recipe is only sent if the client can pack it in its buffer. -/
def Message.payload : Message → Option Bytes
  | backup path => some (backupMsg path)
  | hashType => some (numeral 10 1)
  | fileHash _ hash => some hash.toList
  | recipeType => some (numeral 10 2)
  | updateAttr _ chunknum path => some (updateAttrMsg chunknum path)
  | recipeChunk fc => some (fc.chunk_hash.toList ++ fc.chunkaddress.toList)
  | recipe last_chunknum fileinfo =>
    if (Client.recipeMsg fileinfo).length ≤ recipeBuffer last_chunknum fileinfo.chunknum then
      some (Client.recipeMsg fileinfo)
    else none
  | listJobs => some listCommand
  | deleteJob job_id => some (deleteMsg job_id)
  | restoreJob id => some (restoreMsg id)
  | dedupResult is_new => some (Server.dedupResult is_new)
  | chunkCount rp => some (intBytes 8 rp.chunknum)
  | chunk fc => some fc.bytes
  | attrResult result =>
    some (if result then Server.NewBackup.updateattrOk else Server.NewBackup.updateattrFail)
  | backupResult result =>
    some (if result then Server.NewBackup.backupOk else Server.NewBackup.backupFail)
  | number num => some (intBytes 4 num)
  | listNone => some ReceiveBuffers.listNone
  | jobList jobs => some (jobs.flatMap jobEntry)
  | deleteResult result => some (if result then deleteOk else deleteFail)
  | fileList rows => some (Server.listBytes rows)

/-- What arrives of it. -/
def Message.sent (m : Message) : Option Delivery := m.payload.map bnetSent

/-- The destination of the `bnet_recv` that consumes the message. -/
def Message.room : Message → ℕ
  -- `msg` of `handle_client_request`
  | backup _ | listJobs | deleteJob _ | restoreJob _ => 255
  -- `buf` of `new_backup`
  | hashType | recipeType | fileHash .plain _ | updateAttr .plain _ _ => 64 * 1024
  -- `buf` of the server's `recv_deplicate_chunk`
  | recipeChunk _ => 20 + 64 + 1
  -- `buf` of `file_dedup_module`
  | fileHash .pipelined _ => 256
  -- `msg` and `buf` of the server's `update_recipe_module`
  | updateAttr .pipelined _ _ => 256 + 128
  | recipe last_chunknum fileinfo => recipeBuffer last_chunknum fileinfo.chunknum
  -- `buf` of `is_new_file` and of `chunk_dedup_module`
  | dedupResult _ => 256
  -- `chunknum` and `buf` of the client's `recv_deplicate_chunk`
  | chunkCount _ => 4
  | chunk _ => 20 + 64 + 1
  -- `msg` of `update_file_recipe` and of `recive_result_module`
  | attrResult _ => 256
  -- `buf` of `backup_client`, `list_client`, `recv_file_list`, `delete_client`
  | backupResult _ | number _ | listNone | deleteResult _ => 256
  -- `joblist_buf` and `fileinfo_buf`, for the number that was sent before
  | jobList jobs => (int32 jobs.length * (32 + 256 + 4)).toNat
  | fileList rows => listSize (int32 rows.length)

/-- The calls of `sprintf` that make the message: how many bytes each writes, with its NUL,
and the size of its buffer. -/
def Message.printed : Message → List (ℕ × ℕ)
  | backup path => [((backupMsg path).length + 1, 256)]
  | updateAttr .plain chunknum path => [((updateAttrMsg chunknum path).length + 1, 256)]
  | updateAttr .pipelined chunknum path => [((updateAttrMsg chunknum path).length + 1, 256 + 128)]
  | deleteJob job_id => [((deleteMsg job_id).length + 1, 256)]
  | restoreJob id => [((restoreMsg id).length + 1, 256)]
  | dedupResult _ => [(3, 256)]
  | jobList jobs => jobs.map fun job => ((jobInfo job).length + 1, 4 + 32 + 256)
  | _ => []

/-- The message and its NUL fit the destination, and no `sprintf` leaves its buffer. -/
def Message.Fits (m : Message) : Prop :=
  (∀ d, m.sent = some d → d.stored ≤ m.room) ∧ ∀ p ∈ m.printed, p.1 ≤ p.2

/-- Valid inputs: paths of at most 255 bytes, and numbers in the range of their types. -/
def Message.Valid : Message → Prop
  | backup path => path.length ≤ 255
  | updateAttr _ chunknum path => -2 ^ 31 ≤ chunknum ∧ chunknum < 2 ^ 31 ∧ path.length ≤ 255
  | deleteJob job_id => -2 ^ 31 ≤ job_id ∧ job_id < 2 ^ 31
  | restoreJob id => -2 ^ 31 ≤ id ∧ id < 2 ^ 31
  | jobList jobs => jobs ≠ [] ∧ jobs.length < 2 ^ 31 ∧
      ∀ job ∈ jobs, -2 ^ 63 ≤ job.JobId ∧ job.JobId < 2 ^ 63 ∧ job.FileSet.length ≤ 255
  | fileList rows => rows ≠ [] ∧ rows.length < 2 ^ 31 ∧ ∀ row ∈ rows, row.FilePath.length ≤ 255
  | _ => True

/-- The paths of commands are short, the entries of a job list have less than 292 bytes on
the average, or so many that their length is no `int`, and no number of chunks is sent. -/
def Message.Short : Message → Prop
  | backup path => path.length ≤ 241
  | updateAttr .plain chunknum path => (intNumeral chunknum).length + path.length ≤ 225
  | chunkCount _ => False
  | jobList jobs => (jobs.flatMap jobEntry).length < 292 * jobs.length ∨
      2 ^ 31 ≤ (jobs.flatMap jobEntry).length
  | _ => True

theorem length_backupMsg (path : Bytes) : (backupMsg path).length = 13 + path.length := by
  simp [backupMsg, backCommand, backFileset]
  omega

theorem length_updateAttrMsg (chunknum : ℤ) (path : Bytes) :
    (updateAttrMsg chunknum path).length = 30 + (intNumeral chunknum).length + path.length := by
  simp [updateAttrMsg, attrCommand, attrChunknum, attrFilepath]
  omega

theorem length_intNumeral_le {x : ℤ} {k : ℕ} (h : x.natAbs < 10 ^ k) (hk : 0 < k) :
    (intNumeral x).length ≤ k + 1 := by
  have hnum := length_numeral_le (by decide) h hk
  rw [intNumeral]
  split
  · rw [List.length_cons]
    omega
  · omega

/-- An `int` has at most ten digits and a sign. -/
theorem length_intNumeral_int {x : ℤ} (hlow : -2 ^ 31 ≤ x) (hhigh : x < 2 ^ 31) :
    (intNumeral x).length ≤ 11 := length_intNumeral_le (by omega) (by decide)

theorem length_jobInfo (job : JobRow) :
    (jobInfo job).length = 15 + (intNumeral job.JobId).length + job.FileSet.length := by
  simp [jobInfo]
  omega

theorem length_jobEntry (job : JobRow) : (jobEntry job).length = 4 + (jobInfo job).length := by
  rw [jobEntry, List.length_append, length_intBytes]

theorem length_jobInfo_le {job : JobRow} (hlow : -2 ^ 63 ≤ job.JobId) (hhigh : job.JobId < 2 ^ 63)
    (hset : job.FileSet.length ≤ 255) : (jobInfo job).length ≤ 290 := by
  have hid : (intNumeral job.JobId).length ≤ 20 := length_intNumeral_le (by omega) (by decide)
  rw [length_jobInfo]
  omega

theorem length_jobList_le {jobs : List JobRow} (h : ∀ job ∈ jobs, (jobInfo job).length ≤ 290) :
    (jobs.flatMap jobEntry).length ≤ 294 * jobs.length := by
  induction jobs with
  | nil => simp
  | cons job jobs ih =>
    have hjob := h job (by simp)
    have hrest := ih fun j hj => h j (List.mem_cons_of_mem _ hj)
    rw [List.flatMap_cons, List.length_append, length_jobEntry, List.length_cons]
    omega

theorem length_recipeMsg (fileinfo : Client.FileInfo Client.FingerChunk) :
    (Client.recipeMsg fileinfo).length = 20 + 84 * fileinfo.chunks.length := by
  have hmsg : Client.recipeMsg fileinfo =
      fileinfo.file_hash.toList ++ Pipeline.RecipeTransport.chunkBytes fileinfo.chunks := rfl
  rw [hmsg, List.length_append, List.Vector.toList_length,
    Pipeline.RecipeTransport.length_chunkBytes]

theorem int32_emod_four (x : ℤ) : int32 x % 4 = x % 4 := by
  have h := int32_emod x
  omega

/-- The size of a recipe buffer is odd even after an overflow, the length of a recipe is
not, so that one byte is left behind a recipe that fits. -/
theorem length_recipeBuffer {last_chunknum chunknum : ℤ} {n : ℕ}
    (h : 20 + 84 * n ≤ recipeBuffer last_chunknum chunknum) :
    20 + 84 * n + 1 ≤ recipeBuffer last_chunknum chunknum := by
  have hmod : ∀ c, Pipeline.RecipeTransport.bufferSize c % 4 = 1 := by
    intro c
    have h1 := int32_emod_four (c * 84)
    have h2 := int32_emod_four (20 + int32 (c * 84))
    have h3 := int32_emod_four (int32 (20 + int32 (c * 84)) + 1)
    rw [Pipeline.RecipeTransport.bufferSize]
    omega
  have hsize := hmod (max last_chunknum chunknum)
  rw [recipeBuffer] at h ⊢
  omega

theorem stored_bnetSent_le (msg : Bytes) : (bnetSent msg).stored ≤ msg.length + 1 := by
  rw [bnetSent]
  split
  · exact Nat.zero_le _
  · rw [Delivery.whole, Delivery.stored, List.length_take]
    omega

variable {m : Message}

theorem received_of_le (msg : Bytes) (hmsg : m.payload = some msg) (h : msg.length + 1 ≤ m.room) :
    ∀ d, m.sent = some d → d.stored ≤ m.room := by
  intro d hd
  rw [Message.sent, hmsg, Option.map_some] at hd
  obtain rfl := Option.some.inj hd
  exact (stored_bnetSent_le msg).trans h

theorem received_iff (msg : Bytes) (hmsg : m.payload = some msg) (hpos : 0 < msg.length)
    (hlen : msg.length < 2 ^ 31) :
    (∀ d, m.sent = some d → d.stored ≤ m.room) ↔ msg.length + 1 ≤ m.room := by
  refine ⟨fun h => ?_, received_of_le msg hmsg⟩
  have hd := h (.whole msg) (by rw [Message.sent, hmsg, Option.map_some, bnetSent_eq hpos hlen])
  exact hd

/-- A message that is not printed. -/
theorem fits_of_le (msg : Bytes) (hmsg : m.payload = some msg) (h : msg.length + 1 ≤ m.room)
    (hprinted : m.printed = []) : m.Fits :=
  ⟨received_of_le msg hmsg h, by simp [hprinted]⟩

theorem backup_fits_iff {path : Bytes} (h : path.length ≤ 255) :
    (Message.backup path).Fits ↔ path.length ≤ 241 := by
  have hlen := length_backupMsg path
  rw [Message.Fits, received_iff (backupMsg path) rfl (by omega) (by omega), hlen]
  simp only [Message.room, Message.printed, List.mem_singleton, forall_eq, hlen]
  omega

theorem updateAttr_plain_fits_iff {chunknum : ℤ} {path : Bytes} (hlow : -2 ^ 31 ≤ chunknum)
    (hhigh : chunknum < 2 ^ 31) (h : path.length ≤ 255) :
    (Message.updateAttr .plain chunknum path).Fits ↔
      (intNumeral chunknum).length + path.length ≤ 225 := by
  have hlen := length_updateAttrMsg chunknum path
  have hnum := length_intNumeral_int hlow hhigh
  rw [Message.Fits, received_iff (updateAttrMsg chunknum path) rfl (by omega) (by omega), hlen]
  simp only [Message.room, Message.printed, List.mem_singleton, forall_eq, hlen]
  omega

theorem updateAttr_pipelined_fits {chunknum : ℤ} {path : Bytes} (hlow : -2 ^ 31 ≤ chunknum)
    (hhigh : chunknum < 2 ^ 31) (h : path.length ≤ 255) :
    (Message.updateAttr .pipelined chunknum path).Fits := by
  have hlen := length_updateAttrMsg chunknum path
  have hnum := length_intNumeral_int hlow hhigh
  refine ⟨received_of_le (updateAttrMsg chunknum path) rfl ?_, ?_⟩
  · rw [hlen, Message.room]
    omega
  · simp only [Message.printed, List.mem_singleton, forall_eq, hlen]
    omega

theorem deleteJob_fits {job_id : ℤ} (hlow : -2 ^ 31 ≤ job_id) (hhigh : job_id < 2 ^ 31) :
    (Message.deleteJob job_id).Fits := by
  have hnum := length_intNumeral_int hlow hhigh
  have hlen : (deleteMsg job_id).length = 11 + (intNumeral job_id).length := by
    simp [deleteMsg]
    omega
  refine ⟨received_of_le (deleteMsg job_id) rfl ?_, ?_⟩
  · rw [hlen, Message.room]
    omega
  · simp only [Message.printed, List.mem_singleton, forall_eq, hlen]
    omega

theorem restoreJob_fits {id : ℤ} (hlow : -2 ^ 31 ≤ id) (hhigh : id < 2 ^ 31) :
    (Message.restoreJob id).Fits := by
  have hnum := length_intNumeral_int hlow hhigh
  have hlen : (restoreMsg id).length = 11 + (intNumeral id).length := by
    simp [restoreMsg]
    omega
  refine ⟨received_of_le (restoreMsg id) rfl ?_, ?_⟩
  · rw [hlen, Message.room]
    omega
  · simp only [Message.printed, List.mem_singleton, forall_eq, hlen]
    omega

theorem dedupResult_fits (is_new : FileStatus) : (Message.dedupResult is_new).Fits := by
  refine ⟨received_of_le (Server.dedupResult is_new) rfl ?_, by simp [Message.printed]⟩
  cases is_new
  · decide
  · decide
  · decide

/-- A recipe that the client can pack fits the buffer of the server. -/
theorem recipe_fits (last_chunknum : ℤ) (fileinfo : Client.FileInfo Client.FingerChunk) :
    (Message.recipe last_chunknum fileinfo).Fits := by
  have hlen := length_recipeMsg fileinfo
  refine ⟨fun d hd => ?_, by simp [Message.printed]⟩
  rw [Message.sent, Message.payload] at hd
  split at hd
  · next hpacked =>
    obtain rfl := Option.some.inj hd
    rw [hlen] at hpacked
    have hroom := length_recipeBuffer hpacked
    have hstored := stored_bnetSent_le (Client.recipeMsg fileinfo)
    rw [hlen] at hstored
    exact hstored.trans hroom
  · simp at hd

/-- A number of chunks has eight bytes, its destination four. -/
theorem chunkCount_not_fits (rp : Server.Recipe) : ¬(Message.chunkCount rp).Fits := by
  have hlen := length_intBytes 8 rp.chunknum
  rw [Message.Fits, received_iff (intBytes 8 rp.chunknum) rfl (by omega) (by omega), hlen]
  simp [Message.room]

theorem jobList_fits_iff {jobs : List JobRow} (hne : jobs ≠ []) (hnum : jobs.length < 2 ^ 31)
    (h : ∀ job ∈ jobs, (jobInfo job).length ≤ 290) :
    (Message.jobList jobs).Fits ↔ (jobs.flatMap jobEntry).length < 292 * jobs.length ∨
      2 ^ 31 ≤ (jobs.flatMap jobEntry).length := by
  have hint : int32 (jobs.length : ℤ) = jobs.length := int32_eq (by omega) (by omega)
  have hlen := length_jobList_le h
  have hroom : (Message.jobList jobs).room = 292 * jobs.length := by
    rw [Message.room, hint]
    omega
  have hprinted : ∀ p ∈ (Message.jobList jobs).printed, p.1 ≤ p.2 := by
    intro p hp
    obtain ⟨job, hjob, rfl⟩ := List.mem_map.mp hp
    have := h job hjob
    dsimp only
    omega
  rw [Message.Fits, and_iff_left hprinted]
  by_cases hlong : 2 ^ 31 ≤ (jobs.flatMap jobEntry).length
  · refine iff_of_true (fun d hd => ?_) (.inr hlong)
    obtain rfl := Option.some.inj hd
    have hwrap : int32 (jobs.flatMap jobEntry).length ≤ 0 ∨
        2 ^ 32 ≤ (jobs.flatMap jobEntry).length := by
      have hmod := int32_emod (jobs.flatMap jobEntry).length
      have hlt := int32_lt (jobs.flatMap jobEntry).length
      omega
    have hlt := int32_lt (jobs.flatMap jobEntry).length
    rw [bnetSent, hroom]
    split
    · exact Nat.zero_le _
    · rw [Delivery.whole, Delivery.stored, List.length_take]
      omega
  · have hpos : 0 < (jobs.flatMap jobEntry).length := by
      obtain ⟨job, rest, rfl⟩ := List.exists_cons_of_ne_nil hne
      rw [List.flatMap_cons, List.length_append, length_jobEntry]
      omega
    rw [received_iff (jobs.flatMap jobEntry) rfl hpos (not_le.mp hlong), hroom, or_iff_left hlong]
    exact Nat.succ_le_iff

theorem fileList_fits {rows : List Server.FileRow} (hne : rows ≠ []) (hnum : rows.length < 2 ^ 31)
    (h : ∀ row ∈ rows, row.FilePath.length ≤ 255) : (Message.fileList rows).Fits := by
  have hpos := List.length_pos_iff.mpr hne
  have hint : int32 (rows.length : ℤ) = rows.length := int32_eq (by omega) (by omega)
  have hlen := Server.length_listBytes_le fun row hrow => Nat.lt_succ_of_le (h row hrow)
  refine fits_of_le (Server.listBytes rows) rfl ?_ rfl
  rw [Message.room, hint, listSize]
  omega

/-- Messages fit their buffers exactly when they are short. -/
theorem fits_iff_short (m : Message) (h : m.Valid) : m.Fits ↔ m.Short := by
  cases m with
  | backup path => exact backup_fits_iff h
  | hashType => exact iff_of_true (fits_of_le (numeral 10 1) rfl (by decide) rfl) trivial
  | fileHash driver hash =>
    have hlen : hash.toList.length = 20 := hash.toList_length
    refine iff_of_true (fits_of_le hash.toList rfl ?_ rfl) trivial
    cases driver
    · rw [hlen, Message.room]
      decide
    · rw [hlen, Message.room]
      decide
  | recipeType => exact iff_of_true (fits_of_le (numeral 10 2) rfl (by decide) rfl) trivial
  | updateAttr driver chunknum path =>
    obtain ⟨hlow, hhigh, hpath⟩ := h
    cases driver with
    | plain => exact updateAttr_plain_fits_iff hlow hhigh hpath
    | pipelined => exact iff_of_true (updateAttr_pipelined_fits hlow hhigh hpath) trivial
  | recipeChunk fc =>
    refine iff_of_true (fits_of_le (fc.chunk_hash.toList ++ fc.chunkaddress.toList) rfl ?_ rfl)
      trivial
    simp [Message.room]
  | recipe last_chunknum fileinfo => exact iff_of_true (recipe_fits _ _) trivial
  | listJobs => exact iff_of_true (fits_of_le listCommand rfl (by decide) rfl) trivial
  | deleteJob job_id => exact iff_of_true (deleteJob_fits h.1 h.2) trivial
  | restoreJob id => exact iff_of_true (restoreJob_fits h.1 h.2) trivial
  | dedupResult is_new => exact iff_of_true (dedupResult_fits is_new) trivial
  | chunkCount rp => exact iff_of_false (chunkCount_not_fits rp) not_false
  | chunk fc =>
    refine iff_of_true (fits_of_le fc.bytes rfl ?_ rfl) trivial
    simp [Message.room]
  | attrResult result =>
    cases result
    · exact iff_of_true (fits_of_le Server.NewBackup.updateattrFail rfl (by decide) rfl) trivial
    · exact iff_of_true (fits_of_le Server.NewBackup.updateattrOk rfl (by decide) rfl) trivial
  | backupResult result =>
    cases result
    · exact iff_of_true (fits_of_le Server.NewBackup.backupFail rfl (by decide) rfl) trivial
    · exact iff_of_true (fits_of_le Server.NewBackup.backupOk rfl (by decide) rfl) trivial
  | number num =>
    refine iff_of_true (fits_of_le (intBytes 4 num) rfl ?_ rfl) trivial
    simp [Message.room]
  | listNone => exact iff_of_true (fits_of_le ReceiveBuffers.listNone rfl (by decide) rfl) trivial
  | jobList jobs =>
    obtain ⟨hne, hnum, hjobs⟩ := h
    exact jobList_fits_iff hne hnum fun job hjob =>
      length_jobInfo_le (hjobs job hjob).1 (hjobs job hjob).2.1 (hjobs job hjob).2.2
  | deleteResult result =>
    cases result
    · exact iff_of_true (fits_of_le deleteFail rfl (by decide) rfl) trivial
    · exact iff_of_true (fits_of_le deleteOk rfl (by decide) rfl) trivial
  | fileList rows =>
    obtain ⟨hne, hnum, hrows⟩ := h
    exact iff_of_true (fileList_fits hne hnum hrows) trivial

theorem fits_iff_short_path :
    (Message.backup [47, 97]).Fits ↔ (Message.backup [47, 97]).Short :=
  fits_iff_short (.backup [47, 97]) (by decide : ([47, 97] : Bytes).length ≤ 255)

/-- The number of chunks of a known file. -/
theorem chunk_count_overruns : ¬ ∀ m : Message, m.Valid → m.Fits := by
  intro h
  exact chunkCount_not_fits (Server.recipeNew Client.zeroFinger)
    (h (.chunkCount (Server.recipeNew Client.zeroFinger)) trivial)

end TCBackup.ReceiveBuffers
