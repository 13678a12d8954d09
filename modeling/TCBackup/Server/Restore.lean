import TCBackup.Server.Backup

/-!
# Restore sessions of the server (`server/src/restore.c`, `dedupHandle.c`)

`restore` queues hash and path of every file of the job, sends their number and the
whole queue in one message, and then the recipe of one file after the other.

## Main definitions

- `jobFile` — an element of the queue
- `sendJobInfo` — the list of the files
- `getFileInfo`, `restoreFiles` — their recipes
- `restore` — all that arrives at the client
-/

namespace TCBackup.Server

open ByteFile

/-- A row that `db_get_job_files` fetches. -/
structure FileRow where
  HashCode : Fingerprint
  FilePath : Bytes
  deriving DecidableEq

/-- What `db_get_job_files` queues for a row: the length of the rest, hash and path. -/
def jobFile (row : FileRow) : Bytes :=
  intBytes 4 (20 + row.FilePath.length) ++ row.HashCode.toList ++ row.FilePath

/-- The loop of `send_job_info` with `i` elements to go: the bytes in the buffer, and the
queue, whose elements come back in the order in which they were popped. `none` when a copy
leaves the buffer. -/
def packItems (capacity : ℕ) : ℕ → List Bytes → Bytes → Option (Bytes × List Bytes)
  | 0, queue, out => some (out, queue)
  | _ + 1, [], _ => none
  | i + 1, item :: queue, out =>
    let copied := readAt item 0 (intOf (readAt item 0 4) + 4).toNat
    if out.length + copied.length ≤ capacity then
      packItems capacity i (queue ++ [item]) (out ++ copied)
    else none

/-- `send_job_info` after the number of elements was sent: the message with all of them,
and the queue. -/
def sendJobInfo (queue : List Bytes) : Option (Bytes × List Bytes) :=
  let num := int32 queue.length
  packItems (listSize num + 1) num.toNat queue []

/-- `get_file_info`: whether the recipe was found and read. `none` when it waits for
`rv->mutex` for ever. -/
def getFileInfo (opened : Bool) (rp : Recipe) (s : Shared) : Option (Bool × Recipe × Shared) :=
  match indexLookup s.mem_index rp.file_hash with
  | (none, mem_index) => some (false, rp, { s with mem_index := mem_index })
  | (some offset, mem_index) =>
    match readRecipeFromVol opened offset rp s.volume with
    | none => none
    | some (none, volume) => some (false, rp, ⟨mem_index, volume⟩)
    | some (some rp, volume) => some (true, rp, ⟨mem_index, volume⟩)

/-- The loop of `restore` with `filenum` elements to go, the `i`-th of all being next: its
messages, and the tables unless it waits for ever. The result of `get_file_info` is not
looked at. -/
def restoreFiles (opened : ℕ → Bool) :
    ℕ → ℕ → List Bytes → Shared → List Bytes × Option Shared
  | _, 0, _, s => ([], some s)
  | _, _ + 1, [], s => ([], some s)
  | i, filenum + 1, item :: queue, s =>
    match getFileInfo (opened i) (recipeNew (fixed 20 (readAt item 4 20))) s with
    | none => ([], none)
    | some (_, rp, s) =>
      let (msgs, s) := restoreFiles opened (i + 1) filenum queue s
      (sendChunkInfo rp ++ msgs, s)

/-- `restore` after the list `msg` was packed. A list whose length is 0 as an `int` counts
as an error. -/
def sendRecipes (opened : ℕ → Bool) (num : Delivery) (s : Shared) (msg : Bytes)
    (queue : List Bytes) : Incoming :=
  if int32 msg.length = 0 then ⟨[num, bnetSent msg], true⟩
  else
    let files := restoreFiles opened 0 (int32 queue.length).toNat queue s
    ⟨num :: bnetSent msg :: files.1.map bnetSent, files.2.isSome⟩

/-- `restore` for a job with the given files, without network failures. -/
def restore (opened : ℕ → Bool) (rows : List FileRow) (s : Shared) : Incoming :=
  let queue := rows.map jobFile
  if queue = [] then ⟨[], true⟩
  else
    let num := bnetSent (intBytes 4 (int32 queue.length))
    (sendJobInfo queue).elim ⟨[num], true⟩ fun list => sendRecipes opened num s list.1 list.2

theorem length_jobFile (row : FileRow) : (jobFile row).length = 24 + row.FilePath.length := by
  rw [jobFile, List.length_append, List.length_append, length_intBytes, List.Vector.toList_length]

/-- The length in front of an element. -/
theorem intOf_jobFile {row : FileRow} (h : row.FilePath.length < 256) (rest : Bytes) :
    intOf (readAt (jobFile row ++ rest) 0 4) = 20 + row.FilePath.length := by
  have hread : readAt (jobFile row ++ rest) 0 4 = intBytes 4 ((20 + row.FilePath.length : ℕ) : ℤ) := by
    rw [jobFile, List.append_assoc, List.append_assoc, readAt_front (length_intBytes _ _)]
    rfl
  rw [hread, intOf_intBytes_natCast (by omega)]
  omega

theorem readAt_jobFile_hash (row : FileRow) (rest : Bytes) :
    readAt (jobFile row ++ rest) 4 20 = row.HashCode.toList := by
  have hskip : 4 = (intBytes 4 (20 + row.FilePath.length)).length + 0 := by rw [length_intBytes]
  rw [jobFile, List.append_assoc, List.append_assoc, readAt_skip hskip,
    readAt_front (List.Vector.toList_length _)]

theorem readAt_jobFile_path (row : FileRow) (rest : Bytes) :
    readAt (jobFile row ++ rest) 24 row.FilePath.length = row.FilePath := by
  have hskip : 24 = (intBytes 4 (20 + row.FilePath.length) ++ row.HashCode.toList).length + 0 := by
    rw [List.length_append, length_intBytes, List.Vector.toList_length]
  rw [jobFile, List.append_assoc, readAt_skip hskip, readAt_front rfl]

/-- The bytes of all elements, one after the other. -/
def listBytes (rows : List FileRow) : Bytes := rows.flatMap jobFile

theorem listBytes_cons (row : FileRow) (rows : List FileRow) :
    listBytes (row :: rows) = jobFile row ++ listBytes rows := List.flatMap_cons

theorem length_listBytes_le {rows : List FileRow} (h : ∀ row ∈ rows, row.FilePath.length < 256) :
    (listBytes rows).length ≤ 279 * rows.length := by
  induction rows with
  | nil => simp [listBytes]
  | cons row rows ih =>
    have hrow := h row (by simp)
    have hrest := ih fun r hr => h r (List.mem_cons_of_mem _ hr)
    rw [listBytes_cons, List.length_append, length_jobFile, List.length_cons]
    omega

theorem length_le_listBytes (rows : List FileRow) : 24 * rows.length ≤ (listBytes rows).length := by
  induction rows with
  | nil => simp [listBytes]
  | cons row rows ih =>
    rw [listBytes_cons, List.length_append, length_jobFile, List.length_cons]
    omega

/-- Packing all elements turns the queue once around. -/
theorem packItems_eq {rows : List FileRow} {capacity : ℕ}
    (h : ∀ row ∈ rows, row.FilePath.length < 256) (front : List Bytes) (out : Bytes)
    (hroom : out.length + (listBytes rows).length ≤ capacity) :
    packItems capacity rows.length (rows.map jobFile ++ front) out =
      some (out ++ listBytes rows, front ++ rows.map jobFile) := by
  induction rows generalizing front out with
  | nil => simp [packItems, listBytes]
  | cons row rows ih =>
    have hrow := h row (by simp)
    have hint := intOf_jobFile hrow []
    rw [List.append_nil] at hint
    have hcopied : readAt (jobFile row) 0 (intOf (readAt (jobFile row) 0 4) + 4).toNat =
        jobFile row := by
      have hlen : (intOf (readAt (jobFile row) 0 4) + 4).toNat = (jobFile row).length := by
        rw [hint, length_jobFile]
        omega
      rw [hlen, readAt_zero_length]
    rw [listBytes_cons, List.length_append] at hroom
    have hrest := ih (fun r hr => h r (List.mem_cons_of_mem _ hr)) (front ++ [jobFile row])
      (out ++ jobFile row) (by rw [List.length_append]; omega)
    rw [List.length_cons, List.map_cons, List.cons_append, packItems, hcopied, if_pos (by omega), List.append_assoc, hrest, listBytes_cons]
    simp

end TCBackup.Server
