import TCBackup.Framing
import TCBackup.Server.IndexInserts

/-!
# The plain backup session (`server/src/dedupHandle.c`)

`new_backup` reads messages in rounds. The first message of a round holds a type: a
`FILE_HASH` is followed by the hash and makes a recipe, a `FILE_RECIPE` by `UPDATEATTR`
and the recipe of a new file, which is then stored, recorded, answered and freed.

## Main definitions

- `Messages`, `Calls` — what the client sends and what the calls return in one round
- `State`, `round`, `newBackup` — the loop
- `finalReply` — the answer after the loop
-/

namespace TCBackup.Server.NewBackup

open ByteFile Framing

/-- What `sscanf(buf, "%d", &type)` and the `switch` make of a message. -/
inductive Kind
  | fileHash
  | fileRecipe
  | other
  | wrong
  deriving DecidableEq

def kindOf (buf : Bytes) : Kind :=
  match scanInt (cstring buf) with
  | none => .wrong
  | some (type, _) =>
    if storedInt type = 1 then .fileHash else if storedInt type = 2 then .fileRecipe else .other

/-- Undefined behaviour on `rp`: it is `NULL`, its recipe is freed, or a copy leaves
the field it goes to. -/
inductive Fault
  | nullRecipe
  | freedRecipe
  | overrun
  deriving DecidableEq

/-- How the loop is left. `waits` is a worker that waits for `rv->mutex` for ever. -/
inductive Ending
  | streamEnd
  | broken
  | wrongType
  | waits
  | fault (fault : Fault)
  deriving DecidableEq

/-- `rp`; of a recipe in use also whether its hash was received in full, which the code
does not remember. -/
inductive Pointer
  | null
  | live (received : Bool) (rp : Recipe)
  | freed

def Pointer.isLive : Pointer → Bool
  | .live _ _ => true
  | _ => false

/-- What arrives in one round: the type, the message after it, and the messages that
`recv_deplicate_chunk` receives. -/
structure Messages where
  type : Delivery
  msg : Delivery
  next : ℕ → Delivery

/-- The other calls of one round: what the other workers did to the shared tables since
the round before, whether `read_recipe_from_vol` can open the volume, the calls of
`write_recipe_to_vol`, and whether the database takes the two rows. -/
structure Calls where
  others : Shared → Shared
  opened : Bool
  io : VolIO
  file : Bool
  versionfile : Bool

/-- How the steps for a file went: whether every result that the code looks at was good, and
whether every step succeeded. -/
structure Verdict where
  checked : Bool
  clean : Bool

/-- An answered `FILE_RECIPE`. -/
structure Filed extends Verdict where
  reply : Bytes

/-- The variables of the loop. `job_id` tells whether `jcr->job_id` is set. -/
structure State where
  buf : Bytes
  job_id : Bool
  chunknum : ℤ
  result : Bool
  rp : Pointer
  shared : Shared
  file_count : ℕ
  file_rows : List (Bytes × Fingerprint)
  versionfile_rows : List Bytes
  sent : List Bytes
  files : List Filed

/-- `updateattr_ok` -/
def updateattrOk : Bytes :=
  [53, 48, 48, 49, 32, 117, 112, 100, 97, 116, 101, 32, 97, 116, 116, 114, 32, 111, 107]

/-- `updateattr_fail` -/
def updateattrFail : Bytes :=
  [53, 48, 48, 50, 32, 117, 112, 100, 97, 116, 101, 32, 97, 116, 116, 114, 32, 102, 97, 105, 108]

/-- `backup_ok` -/
def backupOk : Bytes := [52, 48, 48, 49, 32, 98, 97, 99, 107, 117, 112, 32, 111, 107]

/-- `backup_fail` -/
def backupFail : Bytes := [52, 48, 48, 50, 32, 98, 97, 99, 107, 117, 112, 32, 102, 97, 105, 108]

/-- The state before the loop; `jobs` tells whether the object and the job were
inserted. -/
def init (jobs : Bool) (shared : Shared) : State :=
  ⟨[], jobs, 0, jobs, .null, shared, 0, [], [], [], []⟩

/-- The hash arrived in full. -/
def hashClean : Delivery → Bool
  | .message announced bytes => bytes.length = announced ∧ announced = 20
  | _ => false

/-- `*len` after the message that follows the type. -/
def Messages.len (m : Messages) : ℤ := Framing.len (Framing.len 0 m.type) m.msg

/-- The `FILE_HASH` case. -/
def fileHash (s : State) (m : Messages) (c : Calls) : State × Option Ending :=
  let buf := m.msg.into []
  if m.len < 0 ∨ 20 < m.len then (s, some (.fault .overrun))
  else
    let rp := recipeNew (fixed 20 (readAt buf 0 m.len.toNat))
    match fileDedupMark c.opened rp s.shared with
    | none => (s, some .waits)
    | some (ok, rp, msgs, shared) =>
      ({ s with
        buf := buf
        rp := .live (hashClean m.msg) rp
        shared := shared
        file_count := s.file_count + 1
        sent := s.sent ++ dedupMessages (ok, rp, msgs, shared) }, none)

/-- The recipe of a new file is received, written and indexed: whether
`write_recipe_to_vol` succeeds, and whether every step of this does. -/
def storeRecipe (m : Messages) (c : Calls) (chunknum : ℤ) (rp : Recipe) (shared : Shared) :
    Option (Bool × Bool × Shared) :=
  if rp.is_new = .newFile then
    let (_, rp) := recvDeplicateChunk m.next 0 chunknum.toNat rp
    match writeRecipeToVol c.io rp shared.volume with
    | none => none
    | some (offset, volume) =>
      let received := (List.range chunknum.toNat).all fun i => IndexInserts.recordClean (m.next i)
      some (offset.isSome, received && IndexInserts.ioClean c.io rp,
        ⟨indexInsert shared.mem_index rp.file_hash (offset.getD 0), volume⟩)
  else some (true, true, shared)

/-- `insert_record_into_file` refuses a row without a job. -/
def insertRecordIntoFile (job_id : Bool) (c : Calls) : Bool := job_id && c.file

/-- `insert_record_into_versionfile` refuses a row without a job or a `FileId`, which only the
insert into the file table sets. -/
def insertRecordIntoVersionfile (job_id : Bool) (c : Calls) : Bool :=
  insertRecordIntoFile job_id c && job_id && c.versionfile

/-- The `FILE_RECIPE` case. -/
def fileRecipe (s : State) (m : Messages) (c : Calls) : State × Option Ending :=
  match s.rp with
  | .null => (s, some (.fault .nullRecipe))
  | .freed => (s, some (.fault .freedRecipe))
  | .live received rp =>
    let (chunknum, filename) := scanUpdateAttr (cstring (m.msg.into []))
    if 256 ≤ (filename.getD []).length then (s, some (.fault .overrun))
    else
      let parsed := chunknum.isSome && filename.isSome
      let chunknum := (chunknum.map storedInt).getD s.chunknum
      let rp := { rp with filename := filename.getD rp.filename }
      match storeRecipe m c chunknum rp s.shared with
      | none => ({ s with chunknum := chunknum }, some .waits)
      | some (stored, complete, shared) =>
        let file := insertRecordIntoFile s.job_id c
        let versionfile := insertRecordIntoVersionfile s.job_id c
        let checked := parsed && stored && file && versionfile
        let clean := received && IndexInserts.attrClean m.msg && stored && complete && file &&
          versionfile
        let result := s.result && checked
        let reply := if result then updateattrOk else updateattrFail
        ({ s with
          buf := reply
          chunknum := chunknum
          result := result
          rp := .freed
          shared := shared
          file_rows := if file then s.file_rows ++ [(rp.filename, rp.file_hash)] else s.file_rows
          versionfile_rows :=
            if versionfile then s.versionfile_rows ++ [rp.filename] else s.versionfile_rows
          sent := s.sent ++ [reply]
          files := s.files ++ [⟨⟨checked, clean⟩, reply⟩] }, none)

/-- One round of the loop: the state after it, and how the loop is left if it is. -/
def round (s : State) (m : Messages) (c : Calls) : State × Option Ending :=
  let s := { s with shared := c.others s.shared }
  if m.type.ret = bnetError then (s, some .broken)
  else if m.type = .signal streamEnd then (s, some .streamEnd)
  else
    let s := { s with buf := m.type.into s.buf }
    match kindOf s.buf with
    | .wrong => (s, some .wrongType)
    | .fileHash => fileHash s m c
    | .fileRecipe => fileRecipe s m c
    | .other => (s, none)

/-- The loop, from round `i` on. After the last message the connection is broken. -/
def loop (calls : ℕ → Calls) : ℕ → State → List Messages → State × Ending
  | _, s, [] => (s, .broken)
  | i, s, m :: ms =>
    match round s m (calls i) with
    | (s, none) => loop calls (i + 1) s ms
    | (s, some ending) => (s, ending)

end TCBackup.Server.NewBackup
