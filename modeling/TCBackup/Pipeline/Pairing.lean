import TCBackup.Client.PipelineBackup
import TCBackup.Commands
import TCBackup.Lib.Labelled
import TCBackup.Server.Backup

/-!
# Pairing in the pipelined backup

A file passes through four threads: the client's `file_dedup_module`,
`chunk_dedup_module` and `update_recipe_module`, and the server's
`file_dedup_module` and `update_recipe_module`. Hashes and answers travel over one
socket, `UPDATEATTR` commands and recipes over another one, and the server pairs
a command with the recipe at the front of its queue.

Every file, message and recipe carries the number of the client file it comes
from. The threads never read it.

## Main definitions

- `State`, `Event`, `step` — the threads, their queues and the two sockets
- `NothingDropped` — no file is given up after its hash was sent, and no path is cut
- `Paired` — every message was applied to the recipe of its own file
-/

namespace TCBackup.Pipeline.Pairing

open ByteFile Labelled Client Server

/-- A file as the walk finds it. -/
structure SourceFile where
  file_path : Bytes
  file_hash : Fingerprint

abbrev File := FileInfo Client.FingerChunk

/-- A message on the recipe socket. -/
structure Sent where
  file : ℕ
  isAttr : Bool
  data : Bytes

/-- Where `chunk_dedup_module` of the client stands with its file. -/
inductive ChunkStage
  | idle
  | waiting (i : ℕ) (f : File)
  | chunking (i : ℕ) (f : File)
  | counting (i : ℕ) (f : File)
  | receiving (n : ℕ) (i : ℕ) (f : File)
  | done

/-- Where `update_recipe_module` of the client stands. -/
inductive UpdateStage
  | idle
  | pending (i : ℕ) (f : File)
  | done

/-- Where `update_recipe_module` of the server stands. -/
inductive ServerStage
  | idle
  | popped (i : ℕ) (rp : Recipe)
  | awaiting (i : ℕ) (rp : Recipe)
  | storing (i : ℕ) (rp : Recipe)
  | done

/-- A row of the file table. -/
structure FileRecord where
  FilePath : Bytes
  HashCode : Fingerprint
  deriving DecidableEq

/-- The client, the sockets and the server. The end markers are always last in
their queues: `walked` tells that the walk has sent its two, `ended` that the
server has queued its own. `log` pairs every message the server took from the
recipe socket with the recipe it was applied to. -/
structure State where
  next : ℕ
  sending : Option (ℕ × File)
  walked : Bool
  file_dedup_queue : List (ℕ × File)
  chunk : ChunkStage
  chunk_dedup_queue : List (ℕ × File)
  update : UpdateStage
  hashes : List (ℕ × Fingerprint)
  answers : List Bytes
  recipe_fd : List Sent
  closed : Bool
  shared : Shared
  marked : Option (ℕ × Recipe)
  ended : Bool
  recipes : List (ℕ × Recipe)
  stage : ServerStage
  locals : Locals
  log : List (ℕ × ℕ)
  table : List FileRecord

inductive Event
  | sendHash (shaOk : Bool)
  | pushFile
  | endWalk
  | popFile
  | popEnd
  | recvResult
  | chunked (chunks : Option (List Client.FingerChunk))
  | recvCount
  | recvChunk
  | chunksDone (chunks : Option (List Client.FingerChunk))
  | sendAttr
  | endUpdate
  | sendRecipe
  | exit
  | recvHash (opened : Bool)
  | recvEnd
  | pushRecipe
  | popRecipe
  | popLast
  | recvAttr
  | recvRecipe
  | store (io : VolIO)

/-- The state before a backup, with any index and volume on the server. -/
def init (shared : Shared) : State where
  next := 0
  sending := none
  walked := false
  file_dedup_queue := []
  chunk := .idle
  chunk_dedup_queue := []
  update := .idle
  hashes := []
  answers := []
  recipe_fd := []
  closed := false
  shared := shared
  marked := none
  ended := false
  recipes := []
  stage := .idle
  locals := .init
  log := []
  table := []

/-- The record that `update_recipe_module` inserts. -/
def fileRecord (rp : Recipe) : FileRecord := ⟨rp.filename, rp.file_hash⟩

variable (files : List SourceFile) (rewrite : Bool)

/-- `pipeline_file_dedup` up to the send, and the walk's end. -/
def stepWalk (s : State) : Event → Option State
  | .sendHash shaOk =>
    match s.walked, s.sending, files[s.next]? with
    | false, none, some file =>
      let f : File := { fileNew with file_path := file.file_path, file_hash := file.file_hash }
      if shaOk then
        some { s with
          next := s.next + 1
          sending := some (s.next, f)
          hashes := s.hashes ++ [(s.next, file.file_hash)] }
      else some { s with next := s.next + 1 }
    | _, _, _ => none
  | .pushFile =>
    match s.sending with
    | some p => some { s with sending := none, file_dedup_queue := s.file_dedup_queue ++ [p] }
    | none => none
  | .endWalk =>
    match s.walked, s.sending with
    | false, none => some { s with walked := true }
    | _, _ => none
  | _ => none

/-- `chunk_dedup_module`. A file that fails is skipped by `continue`. -/
def stepChunk (s : State) : Event → Option State
  | .popFile =>
    match s.chunk, s.file_dedup_queue with
    | .idle, (i, f) :: q => some { s with chunk := .waiting i f, file_dedup_queue := q }
    | _, _ => none
  | .popEnd =>
    match s.chunk, s.file_dedup_queue, s.walked with
    | .idle, [], true => some { s with chunk := .done }
    | _, _, _ => none
  | .recvResult =>
    match s.chunk, s.answers with
    | .waiting i f, msg :: answers =>
      let s := { s with answers := answers }
      match dedupAnswer msg with
      | none => some { s with chunk := .idle }
      | some .newFile => some { s with chunk := .chunking i { f with is_new := .newFile } }
      | some .dedupFile => some { s with chunk := .counting i { f with is_new := .dedupFile } }
      | some .unset =>
        some { s with chunk := .idle, chunk_dedup_queue := s.chunk_dedup_queue ++ [(i, f)] }
    | _, _ => none
  | .chunked chunks =>
    match s.chunk, chunks with
    | .chunking i f, some chunks =>
      some { s with
        chunk := .idle
        chunk_dedup_queue := s.chunk_dedup_queue ++ [(i, { f with chunks := chunks })] }
    | .chunking _ _, none => some { s with chunk := .idle }
    | _, _ => none
  | .recvCount =>
    match s.chunk, s.answers with
    | .counting i f, msg :: answers =>
      let s := { s with answers := answers }
      if msg = [] then some { s with chunk := .idle }
      else some { s with chunk := .receiving (chunkCount msg) i f }
    | _, _ => none
  | .recvChunk =>
    match s.chunk, s.answers with
    | .receiving (n + 1) i f, msg :: answers =>
      let s := { s with answers := answers }
      if msg = [] then some { s with chunk := .idle }
      else some { s with chunk := .receiving n i (fileAppendFingerchunk f (receivedChunk msg)) }
    | _, _ => none
  | .chunksDone chunks =>
    match s.chunk with
    | .receiving 0 i f =>
      -- a duplicate file is chunked again only when rewriting is on
      match rewrite, chunks with
      | true, none => some { s with chunk := .idle }
      | true, some chunks =>
        some { s with
          chunk := .idle
          chunk_dedup_queue := s.chunk_dedup_queue ++ [(i, { f with chunks := chunks })] }
      | false, _ =>
        some { s with chunk := .idle, chunk_dedup_queue := s.chunk_dedup_queue ++ [(i, f)] }
    | _ => none
  | _ => none

/-- `update_recipe_module` of the client. -/
def stepUpdate (s : State) : Event → Option State
  | .sendAttr =>
    match s.update, s.chunk_dedup_queue with
    | .idle, (i, f) :: q =>
      some { s with
        chunk_dedup_queue := q
        recipe_fd := s.recipe_fd ++ [⟨i, true, attrMsg f⟩]
        update := if f.is_new = .newFile then .pending i f else .idle }
    | _, _ => none
  | .endUpdate =>
    match s.update, s.chunk_dedup_queue, s.chunk with
    | .idle, [], .done => some { s with update := .done }
    | _, _, _ => none
  | .sendRecipe =>
    match s.update with
    | .pending i f =>
      some { s with update := .idle, recipe_fd := s.recipe_fd ++ [⟨i, false, recipeMsg f⟩] }
    | _ => none
  | .exit =>
    match s.update with
    | .done => some { s with closed := true }
    | _ => none
  | _ => none

/-- `file_dedup_module` of the server. -/
def stepMark (s : State) : Event → Option State
  | .recvHash opened =>
    match s.marked, s.hashes with
    | none, (i, hash) :: hashes =>
      match fileDedupMark opened (recipeNew hash) s.shared with
      | none => none
      | some (ok, rp, msgs, shared) =>
        some { s with
          hashes := hashes
          answers := s.answers ++ dedupMessages (ok, rp, msgs, shared)
          shared := shared
          marked := some (i, rp) }
    | _, _ => none
  | .pushRecipe =>
    match s.marked with
    | some p => some { s with marked := none, recipes := s.recipes ++ [p] }
    | none => none
  | .recvEnd =>
    match s.marked, s.hashes, s.walked with
    | none, [], true => some { s with ended := true }
    | _, _, _ => none
  | _ => none

/-- What the recipe socket delivers, and what stays in it; a closed socket fails
once it is empty. -/
def receive (s : State) : Option (Option Sent × List Sent) :=
  match s.recipe_fd with
  | m :: rest => some (some m, rest)
  | [] => if s.closed then some (none, []) else none

def delivery : Option Sent → Delivery
  | some m => .whole m.data
  | none => .error

/-- `update_recipe_module` of the server. -/
def stepServer (s : State) : Event → Option State
  | .popRecipe =>
    match s.stage, s.recipes with
    | .idle, (i, rp) :: rest => some { s with stage := .popped i rp, recipes := rest }
    | _, _ => none
  | .popLast =>
    match s.stage, s.recipes, s.ended with
    | .idle, [], true => some { s with stage := .done }
    | _, _, _ => none
  | .recvAttr =>
    match s.stage, receive s with
    | .popped i rp, some (m, rest) =>
      let (_, locals, rp) := scanAttr (delivery m) s.locals rp
      let s := { s with
        recipe_fd := rest
        locals := locals
        log := s.log ++ (m.map fun m => (Sent.file m, i)).toList }
      if rp.is_new = .newFile then some { s with stage := .awaiting i rp }
      else some { s with stage := .idle, table := s.table ++ [fileRecord rp] }
    | _, _ => none
  | .recvRecipe =>
    match s.stage, receive s with
    | .awaiting i rp, some (m, rest) =>
      let (_, locals, rp) := takeRecipe (delivery m) true s.locals rp
      some { s with
        recipe_fd := rest
        locals := locals
        log := s.log ++ (m.map fun m => (Sent.file m, i)).toList
        stage := .storing i rp }
    | _, _ => none
  | .store io =>
    match s.stage with
    | .storing _ rp =>
      match writeRecipeToVol io rp s.shared.volume with
      | none => none
      | some (offset, volume) =>
        some { s with
          shared := ⟨indexInsert s.shared.mem_index rp.file_hash (offset.getD 0), volume⟩
          stage := .idle
          table := s.table ++ [fileRecord rp] }
    | _ => none
  | _ => none

def step (s : State) (e : Event) : Option State :=
  match e with
  | .sendHash _ | .pushFile | .endWalk => stepWalk files s e
  | .popFile | .popEnd | .recvResult | .chunked _ | .recvCount | .recvChunk | .chunksDone _ =>
    stepChunk rewrite s e
  | .sendAttr | .endUpdate | .sendRecipe | .exit => stepUpdate s e
  | .recvHash _ | .recvEnd | .pushRecipe => stepMark s e
  | .popRecipe | .popLast | .recvAttr | .recvRecipe | .store _ => stepServer s e

/-- `chunk_dedup` succeeds for every file, the server can read the recipes it finds, and
`UPDATEATTR` is scanned as it was printed. -/
def NothingDropped (s : State) : Event → Prop
  | .chunked chunks => chunks.isSome
  | .chunksDone chunks => rewrite = true → chunks.isSome
  | .recvHash opened => opened = true
  | .recvAttr => ∀ m, s.recipe_fd.head? = some m → ∀ file, files[m.file]? = some file →
      Scannable file.file_path
  | _ => True

/-- Every message was applied to the recipe of its own file, and every row holds
path and hash of one file. -/
def Paired (s : State) : Prop :=
  (∀ p ∈ s.log, p.1 = p.2) ∧
    ∀ r ∈ s.table, ∃ file ∈ files, r.FilePath = file.file_path ∧ r.HashCode = file.file_hash

-- ════════════════════════════════════════════════════════════════════════
-- Which messages are due
-- ════════════════════════════════════════════════════════════════════════

/-- The messages of one file: its command, and the recipe of a new one. -/
def due (i : ℕ) (st : FileStatus) : List (ℕ × Bool) :=
  (i, true) :: if st = .newFile then [(i, false)] else []

/-- The message that the client has still to send for a file it has announced. -/
def UpdateStage.due : UpdateStage → List (ℕ × Bool)
  | .pending i _ => [(i, false)]
  | _ => []

/-- The messages sent or certain to be sent, in order. -/
def supply (s : State) : List (ℕ × Bool) :=
  s.recipe_fd.map (fun m => (m.file, m.isAttr)) ++ s.update.due ++
    s.chunk_dedup_queue.flatMap fun p => Pairing.due p.1 p.2.is_new

/-- The message the server takes next for a file whose command it has. -/
def ServerStage.due : ServerStage → List (ℕ × Bool)
  | .awaiting i _ => [(i, false)]
  | _ => []

/-- The recipe whose command is taken next. -/
def ServerStage.held : ServerStage → List (ℕ × Recipe)
  | .popped i rp => [(i, rp)]
  | _ => []

/-- The recipes whose command is still to come, in order. -/
def held (s : State) : List (ℕ × Recipe) := s.stage.held ++ s.recipes ++ s.marked.toList

/-- The file that the chunk thread works on. -/
def ChunkStage.file : ChunkStage → List (ℕ × File)
  | .waiting i f => [(i, f)]
  | .chunking i f => [(i, f)]
  | .counting i f => [(i, f)]
  | .receiving _ i f => [(i, f)]
  | _ => []

/-- The files that the client has still to forward, in order. -/
def ahead (s : State) : List (ℕ × File) :=
  s.chunk.file ++ s.file_dedup_queue ++ s.sending.toList

/-- The messages that answer the hash of a recipe. -/
def answersOf (rp : Recipe) : List Bytes :=
  dedupResult rp.is_new :: if rp.is_new = .dedupFile then sendChunkInfo rp else []

/-- The answers in the socket are those for `B`, less what the chunk thread has
already taken of the first one. -/
def Aligned (stage : ChunkStage) (answers : List Bytes) (B : List (ℕ × Recipe)) : Prop :=
  match stage with
  | .chunking i f => ∃ rp B', B = (i, rp) :: B' ∧ rp.is_new = .newFile ∧ f.is_new = .newFile ∧
      answers = B'.flatMap fun p => answersOf p.2
  | .counting i f => ∃ rp B', B = (i, rp) :: B' ∧ rp.is_new = .dedupFile ∧
      f.is_new = .dedupFile ∧ answers = sendChunkInfo rp ++ B'.flatMap fun p => answersOf p.2
  | .receiving n i f => ∃ rp B' cs, B = (i, rp) :: B' ∧ rp.is_new = .dedupFile ∧
      f.is_new = .dedupFile ∧ cs.length = n ∧ [] ∉ cs ∧
      answers = cs ++ B'.flatMap fun p => answersOf p.2
  | _ => answers = B.flatMap fun p => answersOf p.2

/-- The recipes split into those whose files are forwarded and those whose files
are still ahead. -/
def Ordered (s : State) : Prop :=
  ∃ A B, held s = A ++ B ∧
    supply s = s.stage.due ++ A.flatMap (fun p => due p.1 p.2.is_new) ∧
    B.map Prod.fst ++ s.hashes.map Prod.fst = (ahead s).map Prod.fst ∧
    Aligned s.chunk s.answers B

/-- A recipe as `file_dedup_mark` leaves it. -/
structure Marked (rp : Recipe) : Prop where
  known : rp.is_new = .newFile ∨ rp.is_new = .dedupFile
  count : rp.chunks.length < 2 ^ 31

/-- All files that some client thread holds. -/
def clientFiles (s : State) : List (ℕ × File) :=
  ahead s ++ s.chunk_dedup_queue ++ match s.update with
    | .pending i f => [(i, f)]
    | _ => []

/-- The recipe that the server has announced or is about to store. -/
def ServerStage.scanned : ServerStage → List (ℕ × Recipe)
  | .awaiting i rp => [(i, rp)]
  | .storing i rp => [(i, rp)]
  | _ => []

variable {files rewrite}

/-- Files, hashes, messages and recipes belong to the file whose number they
carry. -/
structure Tagged (files : List SourceFile) (s : State) : Prop where
  client : ∀ p ∈ clientFiles s, files[p.1]? = some ⟨p.2.file_path, p.2.file_hash⟩
  hashes : ∀ p ∈ s.hashes, ∃ file, files[p.1]? = some file ∧ file.file_hash = p.2
  attrs : ∀ m ∈ s.recipe_fd, m.isAttr = true → ∃ file, files[m.file]? = some file ∧
    ∃ chunknum, m.data = updateAttrMsg chunknum file.file_path
  held : ∀ p ∈ held s, Marked p.2 ∧ ∃ file, files[p.1]? = some file ∧ file.file_hash = p.2.file_hash
  scanned : ∀ p ∈ s.stage.scanned, ∃ file, files[p.1]? = some file ∧
    file.file_hash = p.2.file_hash ∧ p.2.filename = file.file_path

/-- The threads end one after the other. -/
structure Ends (s : State) : Prop where
  sending : s.walked = true → s.sending = none
  chunk : s.chunk = .done → s.walked = true ∧ s.file_dedup_queue = []
  update : s.update = .done → s.chunk = .done ∧ s.chunk_dedup_queue = []
  closed : s.closed = true → s.update = .done

structure Inv (files : List SourceFile) (s : State) : Prop where
  ordered : Ordered s
  tagged : Tagged files s
  ends : Ends s
  paired : Paired files s

theorem init_inv (shared : Shared) : Inv files (init shared) := by
  refine ⟨⟨[], [], rfl, rfl, rfl, rfl⟩, ⟨?_, ?_, ?_, ?_, ?_⟩, ⟨?_, ?_, ?_, ?_⟩, ?_, ?_⟩ <;>
    simp [init, clientFiles, ahead, held, ChunkStage.file, ServerStage.held, ServerStage.scanned]

-- ════════════════════════════════════════════════════════════════════════
-- The walk
-- ════════════════════════════════════════════════════════════════════════

theorem Inv.sendHash {s t : State} {shaOk : Bool} (h : Inv files s)
    (hs : stepWalk files s (.sendHash shaOk) = some t) : Inv files t := by
  obtain ⟨⟨A, B, hheld, hsupply, hids, halign⟩, htag, hends, hpair⟩ := h
  rw [stepWalk] at hs
  split at hs
  · next file hwalked hsending hfile =>
    dsimp only at hs
    split at hs <;> obtain rfl := Option.some.inj hs
    · refine ⟨⟨A, B, hheld, hsupply, ?_, halign⟩, ⟨?_, ?_, htag.attrs, htag.held, htag.scanned⟩,
        ⟨?_, hends.chunk, hends.update, hends.closed⟩, hpair⟩
      · simp only [ahead, hsending, Option.toList_none, List.append_nil, List.map_append] at hids
        simp only [ahead, Option.toList_some, List.map_append, List.map_cons, List.map_nil]
        rw [← hids, List.append_assoc]
      · intro p hp
        simp only [clientFiles, ahead, Option.toList_some, List.append_assoc, List.mem_append,
          List.mem_singleton] at hp
        have hold := htag.client p
        simp only [clientFiles, ahead, List.append_assoc, List.mem_append] at hold
        rcases hp with hp | hp | rfl | hp | hp
        · exact hold (.inl hp)
        · exact hold (.inr (.inl hp))
        · exact hfile
        · exact hold (.inr (.inr (.inr (.inl hp))))
        · exact hold (.inr (.inr (.inr (.inr hp))))
      · intro p hp
        rcases List.mem_append.mp hp with hp | hp
        · exact htag.hashes p hp
        · obtain rfl := List.mem_singleton.mp hp
          exact ⟨file, hfile, rfl⟩
      · intro hw
        simp [hwalked] at hw
    · exact ⟨⟨A, B, hheld, hsupply, hids, halign⟩,
        ⟨htag.client, htag.hashes, htag.attrs, htag.held, htag.scanned⟩,
        ⟨hends.sending, hends.chunk, hends.update, hends.closed⟩, hpair⟩
  · simp at hs

/-- A step after which the client holds the same files in the same order. -/
theorem Tagged.of_files {s t : State} (h : Tagged files s) (hc : clientFiles t = clientFiles s)
    (hh : t.hashes = s.hashes) (hr : t.recipe_fd = s.recipe_fd) (hheld : Pairing.held t = Pairing.held s)
    (hstage : t.stage.scanned = s.stage.scanned) : Tagged files t :=
  ⟨by rw [hc]; exact h.client, by rw [hh]; exact h.hashes, by rw [hr]; exact h.attrs,
    by rw [hheld]; exact h.held, by rw [hstage]; exact h.scanned⟩

theorem Inv.pushFile {s t : State} (h : Inv files s)
    (hs : stepWalk files s .pushFile = some t) : Inv files t := by
  obtain ⟨⟨A, B, hheld, hsupply, hids, halign⟩, htag, hends, hpair⟩ := h
  rw [stepWalk] at hs
  split at hs
  · next p hsending =>
    obtain rfl := Option.some.inj hs
    have hahead : ahead { s with
        sending := none, file_dedup_queue := s.file_dedup_queue ++ [p] } = ahead s := by
      simp [ahead, hsending]
    have hwalked : s.walked = false := by
      by_contra hw
      have := hends.sending (by simpa using hw)
      simp [this] at hsending
    refine ⟨⟨A, B, hheld, hsupply, by rw [hahead]; exact hids, halign⟩,
      htag.of_files (by rw [clientFiles, hahead]; rfl) rfl rfl rfl rfl,
      ⟨fun _ => rfl, ?_, hends.update, hends.closed⟩, hpair⟩
    intro hdone
    have := (hends.chunk hdone).1
    simp [hwalked] at this
  · simp at hs

theorem Inv.endWalk {s t : State} (h : Inv files s)
    (hs : stepWalk files s .endWalk = some t) : Inv files t := by
  obtain ⟨⟨A, B, hheld, hsupply, hids, halign⟩, htag, hends, hpair⟩ := h
  rw [stepWalk] at hs
  split at hs
  · next hwalked hsending =>
    obtain rfl := Option.some.inj hs
    exact ⟨⟨A, B, hheld, hsupply, hids, halign⟩, htag.of_files rfl rfl rfl rfl rfl,
      ⟨fun _ => hsending, fun hd => ⟨rfl, (hends.chunk hd).2⟩, hends.update, hends.closed⟩, hpair⟩
  · simp at hs

-- ════════════════════════════════════════════════════════════════════════
-- The chunk thread
-- ════════════════════════════════════════════════════════════════════════

theorem Inv.popFile {s t : State} (h : Inv files s)
    (hs : stepChunk rewrite s .popFile = some t) : Inv files t := by
  obtain ⟨⟨A, B, hheld, hsupply, hids, halign⟩, htag, hends, hpair⟩ := h
  rw [stepChunk] at hs
  split at hs
  · next i f q hchunk hqueue =>
    obtain rfl := Option.some.inj hs
    have hahead : ahead { s with chunk := .waiting i f, file_dedup_queue := q } = ahead s := by
      simp [ahead, hchunk, hqueue, ChunkStage.file]
    rw [hchunk] at halign
    refine ⟨⟨A, B, hheld, hsupply, by rw [hahead]; exact hids, halign⟩,
      htag.of_files (by rw [clientFiles, hahead]; rfl) rfl rfl rfl rfl,
      ⟨hends.sending, by simp, ?_, hends.closed⟩, hpair⟩
    intro hdone
    have := (hends.update hdone).1
    simp [hchunk] at this
  · simp at hs

theorem Inv.popEnd {s t : State} (h : Inv files s)
    (hs : stepChunk rewrite s .popEnd = some t) : Inv files t := by
  obtain ⟨⟨A, B, hheld, hsupply, hids, halign⟩, htag, hends, hpair⟩ := h
  rw [stepChunk] at hs
  split at hs
  · next hchunk hqueue hwalked =>
    obtain rfl := Option.some.inj hs
    have hahead : ahead { s with chunk := .done } = ahead s := by
      simp [ahead, hchunk, ChunkStage.file]
    rw [hchunk] at halign
    refine ⟨⟨A, B, hheld, hsupply, by rw [hahead]; exact hids, halign⟩,
      htag.of_files (by rw [clientFiles, hahead]; rfl) rfl rfl rfl rfl,
      ⟨hends.sending, fun _ => ⟨hwalked, hqueue⟩, fun hd => ⟨rfl, (hends.update hd).2⟩,
        hends.closed⟩, hpair⟩
  · simp at hs

/-- The chunk thread is at work, so nothing behind it has ended. -/
theorem Ends.of_working {s t : State} (h : Ends s) (hc : s.chunk ≠ .done)
    (hw : t.walked = s.walked) (hsend : t.sending = s.sending) (ht : t.chunk ≠ .done)
    (hu : t.update = s.update) (hcl : t.closed = s.closed) : Ends t := by
  have hupdate : t.update ≠ .done := fun hd => hc (h.update (hu ▸ hd)).1
  refine ⟨by rw [hw, hsend]; exact h.sending, fun hd => absurd hd ht,
    fun hd => absurd hd hupdate, fun hd => ?_⟩
  rw [hcl] at hd
  rw [hu]
  exact h.closed hd

/-- Number, path and hash of a file; the chunk thread changes nothing of it. -/
def tag (p : ℕ × File) : ℕ × SourceFile := (p.1, ⟨p.2.file_path, p.2.file_hash⟩)

theorem Tagged.of_tags {s t : State} (h : Tagged files s)
    (hc : (clientFiles t).map tag ⊆ (clientFiles s).map tag)
    (hh : t.hashes = s.hashes) (hr : t.recipe_fd = s.recipe_fd)
    (hheld : Pairing.held t = Pairing.held s) (hstage : t.stage.scanned = s.stage.scanned) :
    Tagged files t := by
  refine ⟨?_, by rw [hh]; exact h.hashes, by rw [hr]; exact h.attrs,
    by rw [hheld]; exact h.held, by rw [hstage]; exact h.scanned⟩
  intro p hp
  obtain ⟨q, hq, hqp⟩ := List.mem_map.mp (hc (List.mem_map_of_mem hp))
  have hq' := h.client q hq
  obtain ⟨hnum, hfile⟩ := Prod.mk.inj hqp
  obtain ⟨hpath, hhash⟩ := SourceFile.mk.inj hfile
  rw [← hnum, ← hpath, ← hhash]
  exact hq'

/-- The chunk thread takes answers and goes on with its file. -/
theorem Inv.progress {s : State} (h : Inv files s) {i : ℕ} {f f' : File} {stage : ChunkStage}
    {answers : List Bytes} (hchunk : s.chunk.file = [(i, f)]) (hstage : stage.file = [(i, f')])
    (hf : f'.file_path = f.file_path ∧ f'.file_hash = f.file_hash)
    (halign : ∀ B, Aligned s.chunk s.answers B → (∀ p ∈ B, Marked p.2) →
      B.map Prod.fst ++ s.hashes.map Prod.fst = (ahead s).map Prod.fst → Aligned stage answers B) :
    Inv files { s with chunk := stage, answers := answers } := by
  obtain ⟨⟨A, B, hheld, hsupply, hids, hal⟩, htag, hends, hpair⟩ := h
  have hworking : s.chunk ≠ .done := by
    rintro hd
    simp [hd, ChunkStage.file] at hchunk
  have hstage' : stage ≠ .done := by
    rintro rfl
    simp [ChunkStage.file] at hstage
  refine ⟨⟨A, B, hheld, hsupply, ?_, halign B hal ?_ hids⟩, htag.of_tags ?_ rfl rfl rfl rfl,
    hends.of_working hworking rfl rfl hstage' rfl rfl, hpair⟩
  · rw [hids]
    simp [ahead, hchunk, hstage]
  · intro p hp
    exact (htag.held p (by rw [hheld]; exact List.mem_append_right _ hp)).1
  · simp [clientFiles, ahead, hchunk, hstage, tag, hf.1, hf.2]

/-- The chunk thread forwards its file once all answers for it are taken. -/
theorem Inv.forward {s : State} (h : Inv files s) {i : ℕ} {f f' : File}
    (hchunk : s.chunk.file = [(i, f)])
    (hf : f'.file_path = f.file_path ∧ f'.file_hash = f.file_hash)
    (halign : ∀ B, Aligned s.chunk s.answers B → ∃ rp B', B = (i, rp) :: B' ∧
      rp.is_new = f'.is_new ∧ s.answers = B'.flatMap fun p => answersOf p.2) :
    Inv files { s with chunk := .idle, chunk_dedup_queue := s.chunk_dedup_queue ++ [(i, f')] } := by
  obtain ⟨⟨A, B, hheld, hsupply, hids, hal⟩, htag, hends, hpair⟩ := h
  obtain ⟨rp, B', rfl, hnew, hanswers⟩ := halign B hal
  have hworking : s.chunk ≠ .done := by
    rintro hd
    simp [hd, ChunkStage.file] at hchunk
  have hupdate : s.update ≠ .done := fun hd => hworking (hends.update hd).1
  refine ⟨⟨A ++ [(i, rp)], B', by rw [← List.append_cons]; exact hheld, ?_, ?_, hanswers⟩,
    htag.of_tags ?_ rfl rfl rfl rfl,
    ⟨hends.sending, by simp, fun hd => absurd hd hupdate, hends.closed⟩, hpair⟩
  · rw [supply] at hsupply ⊢
    simp only [List.flatMap_append, List.flatMap_cons, List.flatMap_nil, List.append_nil]
    rw [← List.append_assoc, hsupply, hnew, List.append_assoc]
  · simp only [ahead, hchunk, List.map_append, List.map_cons, List.cons_append,
      List.nil_append] at hids
    have := (List.cons.inj hids).2
    simpa [ahead, ChunkStage.file] using this
  · intro x hx
    have hidle : ChunkStage.idle.file = [] := rfl
    have htag' : tag (i, f') = tag (i, f) := by simp [tag, hf.1, hf.2]
    simp only [clientFiles, ahead, hchunk, hidle, List.map_append, List.map_cons,
      List.map_nil, List.mem_append, List.nil_append, List.mem_singleton, htag'] at hx ⊢
    tauto

/-- The answer is the one that the server gave for the file. -/
theorem Inv.recvResult {s t : State} (h : Inv files s)
    (hs : stepChunk rewrite s .recvResult = some t) : Inv files t := by
  rw [stepChunk] at hs
  split at hs
  · next i f msg answers hchunk hanswers =>
    have hfile : s.chunk.file = [(i, f)] := by rw [hchunk]; rfl
    -- the first recipe of the second part is the one of this file
    have hfront : ∀ B, Aligned s.chunk s.answers B → (∀ p ∈ B, Marked p.2) →
        B.map Prod.fst ++ s.hashes.map Prod.fst = (ahead s).map Prod.fst →
        ∃ rp B', B = (i, rp) :: B' ∧ msg = dedupResult rp.is_new ∧ Marked rp ∧
          answers = (if rp.is_new = .dedupFile then sendChunkInfo rp else []) ++
            B'.flatMap fun p => answersOf p.2 := by
      intro B hal hmarked hids
      rw [hchunk] at hal
      change s.answers = B.flatMap fun p => answersOf p.2 at hal
      rw [hanswers] at hal
      cases B with
      | nil => simp at hal
      | cons p B' =>
        obtain ⟨j, rp⟩ := p
        obtain rfl : j = i := by
          simp only [ahead, hfile, List.map_cons, List.cons_append] at hids
          exact (List.cons.inj hids).1
        rw [List.flatMap_cons, answersOf, List.cons_append] at hal
        obtain ⟨rfl, rfl⟩ := List.cons.inj hal
        exact ⟨rp, B', rfl, rfl, hmarked (j, rp) (by simp), rfl⟩
    obtain ⟨A, B, hheld, -, hids, hal⟩ := h.ordered
    have hmarked : ∀ p ∈ B, Marked p.2 := fun p hp =>
      (h.tagged.held p (by rw [hheld]; exact List.mem_append_right _ hp)).1
    obtain ⟨rp, -, -, rfl, hrp, -⟩ := hfront B hal hmarked hids
    rcases hrp.known with hnew | hdedup
    · have hanswer : dedupAnswer (dedupResult rp.is_new) = some .newFile := by
        rw [hnew]
        rfl
      rw [hanswer] at hs
      obtain rfl := Option.some.inj hs
      refine h.progress hfile rfl ⟨rfl, rfl⟩ ?_
      intro B hal hmarked hids
      obtain ⟨rp', B', rfl, heq, hrp', rfl⟩ := hfront B hal hmarked hids
      have hnew' : rp'.is_new = .newFile := by
        rcases hrp'.known with h' | h'
        · exact h'
        · rw [hnew, h'] at heq
          simp [dedupResult] at heq
      exact ⟨rp', B', rfl, hnew', rfl, by rw [if_neg (by simp [hnew']), List.nil_append]⟩
    · have hanswer : dedupAnswer (dedupResult rp.is_new) = some .dedupFile := by
        rw [hdedup]
        rfl
      rw [hanswer] at hs
      obtain rfl := Option.some.inj hs
      refine h.progress hfile rfl ⟨rfl, rfl⟩ ?_
      intro B hal hmarked hids
      obtain ⟨rp', B', rfl, heq, hrp', rfl⟩ := hfront B hal hmarked hids
      have hdedup' : rp'.is_new = .dedupFile := by
        rcases hrp'.known with h' | h'
        · rw [hdedup, h'] at heq
          simp [dedupResult] at heq
        · exact h'
      exact ⟨rp', B', rfl, hdedup', rfl, by rw [if_pos hdedup']⟩
  · simp at hs

theorem Inv.chunked {s t : State} {chunks : Option (List Client.FingerChunk)} (h : Inv files s)
    (hc : NothingDropped files rewrite s (.chunked chunks))
    (hs : stepChunk rewrite s (.chunked chunks) = some t) : Inv files t := by
  obtain ⟨cs, rfl⟩ := Option.isSome_iff_exists.mp hc
  unfold stepChunk at hs
  dsimp only at hs
  split at hs
  · next i f cs hchunk heq =>
    obtain rfl := Option.some.inj heq
    obtain rfl := Option.some.inj hs
    refine h.forward (f := f) (by rw [hchunk]; rfl) ⟨rfl, rfl⟩ ?_
    intro B hal
    rw [hchunk] at hal
    obtain ⟨rp, B', rfl, hnew, hf, hanswers⟩ := hal
    exact ⟨rp, B', rfl, hnew.trans hf.symm, hanswers⟩
  · next heq => simp at heq
  · simp at hs

theorem sendChunkInfo_ne_nil (rp : Recipe) : [] ∉ sendChunkInfo rp := by
  rw [sendChunkInfo, List.mem_cons, not_or]
  refine ⟨by simp [intBytes, leBytes], ?_⟩
  rw [List.mem_map]
  rintro ⟨fc, -, hfc⟩
  have := fc.length_bytes
  simp [hfc] at this

/-- The client counts as many chunks as the server sends. -/
theorem chunkCount_chunknum {rp : Recipe} (h : rp.chunks.length < 2 ^ 31) :
    chunkCount (intBytes 8 rp.chunknum) = rp.chunks.length := by
  rw [Recipe.chunknum]
  have hlow : readAt (intBytes 8 rp.chunks.length) 0 4 = intBytes 4 rp.chunks.length := by
    rw [intBytes_natCast (by omega), intBytes_natCast (by omega)]
    exact readAt_leBytes 4 4 _
  rw [chunkCount, hlow, intOf_intBytes_natCast (by omega), Int.toNat_natCast]

theorem Inv.recvCount {s t : State} (h : Inv files s)
    (hs : stepChunk rewrite s .recvCount = some t) : Inv files t := by
  rw [stepChunk] at hs
  split at hs
  · next i f msg answers hchunk hanswers =>
    have hfile : s.chunk.file = [(i, f)] := by rw [hchunk]; rfl
    -- the message is the count of the recipe of this file
    have hfront : ∀ B, Aligned s.chunk s.answers B → (∀ p ∈ B, Marked p.2) →
        msg ≠ [] ∧ Aligned (.receiving (chunkCount msg) i f) answers B := by
      intro B hal hmarked
      rw [hchunk] at hal
      obtain ⟨rp, B', rfl, hdedup, hf, hal⟩ := hal
      rw [hanswers] at hal
      have hne := sendChunkInfo_ne_nil rp
      rw [sendChunkInfo] at hal hne
      obtain ⟨rfl, rfl⟩ := List.cons.inj hal
      rw [List.mem_cons, not_or] at hne
      refine ⟨Ne.symm hne.1, rp, B', rp.chunks.map Server.FingerChunk.bytes, rfl, hdedup, hf, ?_,
        hne.2, rfl⟩
      rw [chunkCount_chunknum (hmarked (i, rp) (by simp)).count, List.length_map]
    obtain ⟨A, B, hheld, -, -, hal⟩ := h.ordered
    have hne := (hfront B hal fun p hp =>
      (h.tagged.held p (by rw [hheld]; exact List.mem_append_right _ hp)).1).1
    rw [if_neg hne] at hs
    obtain rfl := Option.some.inj hs
    exact h.progress hfile rfl ⟨rfl, rfl⟩ fun B hal hmarked _ => (hfront B hal hmarked).2
  · simp at hs

theorem Inv.recvChunk {s t : State} (h : Inv files s)
    (hs : stepChunk rewrite s .recvChunk = some t) : Inv files t := by
  rw [stepChunk] at hs
  split at hs
  · next n i f msg answers hchunk hanswers =>
    have hfile : s.chunk.file = [(i, f)] := by rw [hchunk]; rfl
    have hfront : ∀ B, Aligned s.chunk s.answers B → msg ≠ [] ∧
        Aligned (.receiving n i (fileAppendFingerchunk f (receivedChunk msg))) answers B := by
      intro B hal
      rw [hchunk] at hal
      obtain ⟨rp, B', cs, rfl, hdedup, hf, hlen, hne, hal⟩ := hal
      cases cs with
      | nil => simp at hlen
      | cons c cs =>
        rw [hanswers, List.cons_append] at hal
        obtain ⟨rfl, rfl⟩ := List.cons.inj hal
        rw [List.mem_cons, not_or] at hne
        exact ⟨Ne.symm hne.1, rp, B', cs, rfl, hdedup, hf, by simpa using hlen, hne.2, rfl⟩
    obtain ⟨A, B, hheld, -, -, hal⟩ := h.ordered
    rw [if_neg (hfront B hal).1] at hs
    obtain rfl := Option.some.inj hs
    exact h.progress hfile rfl ⟨rfl, rfl⟩ fun B hal _ _ => (hfront B hal).2
  · simp at hs

theorem Inv.chunksDone {s t : State} {chunks : Option (List Client.FingerChunk)} (h : Inv files s)
    (hc : NothingDropped files rewrite s (.chunksDone chunks))
    (hs : stepChunk rewrite s (.chunksDone chunks) = some t) : Inv files t := by
  rw [stepChunk] at hs
  split at hs
  · next i f hchunk =>
    have hfile : s.chunk.file = [(i, f)] := by rw [hchunk]; rfl
    have hfront : ∀ B, Aligned s.chunk s.answers B → ∃ rp B', B = (i, rp) :: B' ∧
        rp.is_new = f.is_new ∧ s.answers = B'.flatMap fun p => answersOf p.2 := by
      intro B hal
      rw [hchunk] at hal
      obtain ⟨rp, B', cs, rfl, hdedup, hf, hlen, -, hal⟩ := hal
      obtain rfl := List.eq_nil_of_length_eq_zero hlen
      exact ⟨rp, B', rfl, hdedup.trans hf.symm, hal⟩
    split at hs
    · simp [NothingDropped] at hc
    · obtain rfl := Option.some.inj hs
      exact h.forward (f := f) hfile ⟨rfl, rfl⟩ hfront
    · obtain rfl := Option.some.inj hs
      exact h.forward hfile ⟨rfl, rfl⟩ hfront
  · simp at hs

-- ════════════════════════════════════════════════════════════════════════
-- The recipe thread of the client
-- ════════════════════════════════════════════════════════════════════════

theorem Inv.sendAttr {s t : State} (h : Inv files s)
    (hs : stepUpdate s .sendAttr = some t) : Inv files t := by
  obtain ⟨⟨A, B, hheld, hsupply, hids, halign⟩, htag, hends, hpair⟩ := h
  rw [stepUpdate] at hs
  split at hs
  · next i f q hupdate hqueue =>
    obtain rfl := Option.some.inj hs
    have hf := htag.client (i, f) (by simp [clientFiles, hqueue])
    refine ⟨⟨A, B, hheld, ?_, hids, halign⟩,
      ⟨?_, htag.hashes, ?_, htag.held, htag.scanned⟩,
      ⟨hends.sending, hends.chunk, ?_, ?_⟩, hpair⟩
    · change _ = s.stage.due ++ A.flatMap fun p => due p.1 p.2.is_new
      rw [← hsupply]
      simp only [supply, hupdate, hqueue, due, List.flatMap_cons]
      split <;> simp [UpdateStage.due]
    · intro p hp
      refine htag.client p ?_
      simp only [clientFiles, hqueue, List.append_assoc, List.mem_append, List.mem_cons] at hp ⊢
      rcases hp with hp | hp | hp
      · exact .inl hp
      · exact .inr (.inl (.inr hp))
      · split at hp
        · next hpending =>
          split at hpending
          · obtain ⟨rfl, rfl⟩ := UpdateStage.pending.inj hpending
            exact .inr (.inl (.inl (List.mem_singleton.mp hp)))
          · simp at hpending
        · simp at hp
    · intro m hm hattr
      rcases List.mem_append.mp hm with hm | hm
      · exact htag.attrs m hm hattr
      · obtain rfl := List.mem_singleton.mp hm
        exact ⟨_, hf, f.chunknum, rfl⟩
    · intro hdone
      dsimp only at hdone
      split at hdone <;> simp at hdone
    · intro hclosed
      have := hends.closed hclosed
      simp [hupdate] at this
  · simp at hs

theorem Inv.endUpdate {s t : State} (h : Inv files s)
    (hs : stepUpdate s .endUpdate = some t) : Inv files t := by
  obtain ⟨⟨A, B, hheld, hsupply, hids, halign⟩, htag, hends, hpair⟩ := h
  rw [stepUpdate] at hs
  split at hs
  · next hupdate hqueue hchunk =>
    obtain rfl := Option.some.inj hs
    refine ⟨⟨A, B, hheld, ?_, hids, halign⟩, htag.of_tags ?_ rfl rfl rfl rfl,
      ⟨hends.sending, hends.chunk, fun _ => ⟨hchunk, hqueue⟩, fun _ => rfl⟩, hpair⟩
    · change _ = s.stage.due ++ A.flatMap fun p => due p.1 p.2.is_new
      rw [← hsupply]
      simp [supply, hupdate, UpdateStage.due]
    · simp [clientFiles, ahead, hupdate]
  · simp at hs

theorem Inv.sendRecipe {s t : State} (h : Inv files s)
    (hs : stepUpdate s .sendRecipe = some t) : Inv files t := by
  obtain ⟨⟨A, B, hheld, hsupply, hids, halign⟩, htag, hends, hpair⟩ := h
  rw [stepUpdate] at hs
  split at hs
  · next i f hupdate =>
    obtain rfl := Option.some.inj hs
    refine ⟨⟨A, B, hheld, ?_, hids, halign⟩,
      ⟨?_, htag.hashes, ?_, htag.held, htag.scanned⟩,
      ⟨hends.sending, hends.chunk, by simp, ?_⟩, hpair⟩
    · change _ = s.stage.due ++ A.flatMap fun p => due p.1 p.2.is_new
      rw [← hsupply]
      simp [supply, hupdate, UpdateStage.due]
    · intro p hp
      refine htag.client p ?_
      simp only [clientFiles, List.append_nil] at hp ⊢
      exact List.mem_append_left _ hp
    · intro m hm hattr
      rcases List.mem_append.mp hm with hm | hm
      · exact htag.attrs m hm hattr
      · obtain rfl := List.mem_singleton.mp hm
        simp at hattr
    · intro hclosed
      have := hends.closed hclosed
      simp [hupdate] at this
  · simp at hs

theorem Inv.exit {s t : State} (h : Inv files s)
    (hs : stepUpdate s .exit = some t) : Inv files t := by
  obtain ⟨⟨A, B, hheld, hsupply, hids, halign⟩, htag, hends, hpair⟩ := h
  rw [stepUpdate] at hs
  split at hs
  · next hupdate =>
    obtain rfl := Option.some.inj hs
    exact ⟨⟨A, B, hheld, hsupply, hids, halign⟩, htag.of_tags (List.Subset.refl _) rfl rfl rfl rfl,
      ⟨hends.sending, hends.chunk, hends.update, fun _ => hupdate⟩, hpair⟩
  · simp at hs

-- ════════════════════════════════════════════════════════════════════════
-- The hash thread of the server
-- ════════════════════════════════════════════════════════════════════════

theorem chunksAt_length_lt (file : Bytes) (offset : ℕ) :
    (chunksAt file offset).length < 2 ^ 31 := by
  rw [chunksAt]
  split
  · next hlen =>
    have hne : readAt file offset 4 ≠ [] := by
      intro hnil
      simp [hnil] at hlen
    have hlt := intOf_lt hne
    rw [hlen] at hlt
    rw [length_readRecords]
    omega
  · simp

/-- Marking a fresh recipe from a readable volume. -/
theorem fileDedupMark_marked {ok : Bool} {hash : Fingerprint} {rp : Recipe} {msgs : List Bytes}
    {shared shared' : Shared}
    (h : fileDedupMark true (recipeNew hash) shared = some (ok, rp, msgs, shared')) :
    Marked rp ∧ rp.file_hash = hash ∧ dedupMessages (ok, rp, msgs, shared') = answersOf rp := by
  rw [fileDedupMark] at h
  split at h
  · obtain ⟨-, rfl, rfl, -⟩ := Prod.mk.inj (Option.some.inj h)
    exact ⟨⟨.inl rfl, by simp [recipeNew]⟩, rfl, rfl⟩
  · next offset _ hlookup =>
    split at h
    · simp at h
    · next hread =>
      rw [readRecipeFromVol] at hread
      split at hread <;> simp at hread
    · next rp' _ hread =>
      obtain ⟨-, rfl, rfl, -⟩ := Prod.mk.inj (Option.some.inj h)
      rw [readRecipeFromVol] at hread
      split at hread
      · simp at hread
      · obtain ⟨hrp, -⟩ := Prod.mk.inj (Option.some.inj hread)
        obtain rfl := Option.some.inj hrp
        rw [foldl_recipeAppendFingerchunk]
        refine ⟨⟨.inr rfl, ?_⟩, rfl, rfl⟩
        simpa [recipeNew] using chunksAt_length_lt shared.volume.file offset

theorem Aligned.append {stage : ChunkStage} {answers : List Bytes} {B : List (ℕ × Recipe)}
    (h : Aligned stage answers B) (i : ℕ) (rp : Recipe) :
    Aligned stage (answers ++ answersOf rp) (B ++ [(i, rp)]) := by
  cases stage with
  | chunking j f =>
    obtain ⟨rp', B', rfl, hnew, hf, rfl⟩ := h
    exact ⟨rp', B' ++ [(i, rp)], rfl, hnew, hf, by simp⟩
  | counting j f =>
    obtain ⟨rp', B', rfl, hdedup, hf, rfl⟩ := h
    exact ⟨rp', B' ++ [(i, rp)], rfl, hdedup, hf, by simp⟩
  | receiving n j f =>
    obtain ⟨rp', B', cs, rfl, hdedup, hf, hlen, hne, rfl⟩ := h
    exact ⟨rp', B' ++ [(i, rp)], cs, rfl, hdedup, hf, hlen, hne, by simp⟩
  | idle =>
    obtain rfl : answers = B.flatMap fun p => answersOf p.2 := h
    simp [Aligned]
  | waiting j f =>
    obtain rfl : answers = B.flatMap fun p => answersOf p.2 := h
    simp [Aligned]
  | done =>
    obtain rfl : answers = B.flatMap fun p => answersOf p.2 := h
    simp [Aligned]

theorem Inv.recvHash {s t : State} {opened : Bool} (h : Inv files s)
    (hc : NothingDropped files rewrite s (.recvHash opened))
    (hs : stepMark s (.recvHash opened) = some t) : Inv files t := by
  obtain ⟨⟨A, B, hheld, hsupply, hids, halign⟩, htag, hends, hpair⟩ := h
  obtain rfl : opened = true := hc
  rw [stepMark] at hs
  split at hs
  · next i hash hashes hmarked hhashes =>
    split at hs
    · simp at hs
    · next ok rp msgs shared hmark =>
      obtain rfl := Option.some.inj hs
      obtain ⟨hrp, rfl, hmsgs⟩ := fileDedupMark_marked hmark
      rw [hmsgs]
      have hheld' : ∀ shared' answers', held { s with
          hashes := hashes, answers := answers', shared := shared', marked := some (i, rp) } =
            held s ++ [(i, rp)] := by
        intro shared' answers'
        simp [held, hmarked]
      refine ⟨⟨A, B ++ [(i, rp)], by rw [hheld', hheld, List.append_assoc], hsupply, ?_,
          halign.append i rp⟩, ⟨htag.client, ?_, htag.attrs, ?_, htag.scanned⟩,
        ⟨hends.sending, hends.chunk, hends.update, hends.closed⟩, hpair⟩
      · change _ = (ahead s).map Prod.fst
        rw [← hids, hhashes]
        simp
      · intro p hp
        exact htag.hashes p (by rw [hhashes]; exact List.mem_cons_of_mem _ hp)
      · intro p hp
        rw [hheld'] at hp
        rcases List.mem_append.mp hp with hp | hp
        · exact htag.held p hp
        · obtain rfl := List.mem_singleton.mp hp
          exact ⟨hrp, htag.hashes _ (by rw [hhashes]; exact List.mem_cons_self)⟩
  · simp at hs

theorem Inv.pushRecipe {s t : State} (h : Inv files s)
    (hs : stepMark s .pushRecipe = some t) : Inv files t := by
  obtain ⟨⟨A, B, hheld, hsupply, hids, halign⟩, htag, hends, hpair⟩ := h
  rw [stepMark] at hs
  split at hs
  · next p hmarked =>
    obtain rfl := Option.some.inj hs
    have hheld' : held { s with marked := none, recipes := s.recipes ++ [p] } = held s := by
      simp [held, hmarked]
    exact ⟨⟨A, B, hheld'.trans hheld, hsupply, hids, halign⟩,
      htag.of_tags (List.Subset.refl _) rfl rfl hheld' rfl,
      ⟨hends.sending, hends.chunk, hends.update, hends.closed⟩, hpair⟩
  · simp at hs

theorem Inv.recvEnd {s t : State} (h : Inv files s)
    (hs : stepMark s .recvEnd = some t) : Inv files t := by
  obtain ⟨⟨A, B, hheld, hsupply, hids, halign⟩, htag, hends, hpair⟩ := h
  rw [stepMark] at hs
  split at hs
  · obtain rfl := Option.some.inj hs
    exact ⟨⟨A, B, hheld, hsupply, hids, halign⟩,
      htag.of_tags (List.Subset.refl _) rfl rfl rfl rfl,
      ⟨hends.sending, hends.chunk, hends.update, hends.closed⟩, hpair⟩
  · simp at hs

-- ════════════════════════════════════════════════════════════════════════
-- The recipe thread of the server
-- ════════════════════════════════════════════════════════════════════════

theorem Inv.popRecipe {s t : State} (h : Inv files s)
    (hs : stepServer s .popRecipe = some t) : Inv files t := by
  obtain ⟨⟨A, B, hheld, hsupply, hids, halign⟩, htag, hends, hpair⟩ := h
  rw [stepServer] at hs
  split at hs
  · next i rp rest hstage hrecipes =>
    obtain rfl := Option.some.inj hs
    have hheld' : held { s with stage := .popped i rp, recipes := rest } = held s := by
      simp [held, hstage, hrecipes, ServerStage.held]
    rw [hstage] at hsupply
    exact ⟨⟨A, B, hheld'.trans hheld, hsupply, hids, halign⟩,
      htag.of_tags (List.Subset.refl _) rfl rfl hheld' (by rw [hstage]; rfl),
      ⟨hends.sending, hends.chunk, hends.update, hends.closed⟩, hpair⟩
  · simp at hs

theorem Inv.popLast {s t : State} (h : Inv files s)
    (hs : stepServer s .popLast = some t) : Inv files t := by
  obtain ⟨⟨A, B, hheld, hsupply, hids, halign⟩, htag, hends, hpair⟩ := h
  rw [stepServer] at hs
  split at hs
  · next hstage _ _ =>
    obtain rfl := Option.some.inj hs
    have hheld' : held { s with stage := .done } = held s := by
      simp [held, hstage, ServerStage.held]
    rw [hstage] at hsupply
    exact ⟨⟨A, B, hheld'.trans hheld, hsupply, hids, halign⟩,
      htag.of_tags (List.Subset.refl _) rfl rfl hheld' (by rw [hstage]; rfl),
      ⟨hends.sending, hends.chunk, hends.update, hends.closed⟩, hpair⟩
  · simp at hs

/-- The client hangs up after its last file. -/
theorem Ends.finished {s : State} (h : Ends s) (hclosed : s.closed = true) :
    ahead s = [] ∧ supply s = s.recipe_fd.map fun m => (m.file, m.isAttr) := by
  have hupdate := h.closed hclosed
  obtain ⟨hchunk, hforwarded⟩ := h.update hupdate
  obtain ⟨hwalked, hqueue⟩ := h.chunk hchunk
  constructor
  · simp [ahead, hchunk, ChunkStage.file, hqueue, h.sending hwalked]
  · simp [supply, hupdate, UpdateStage.due, hforwarded]

/-- A message that is due is the next one to arrive. -/
theorem Ends.receive_due {s : State} (h : Ends s) {first : ℕ × Bool} {l : List (ℕ × Bool)}
    {m : Option Sent} {rest : List Sent} (hsupply : supply s = first :: l)
    (hr : receive s = some (m, rest)) :
    ∃ msg, m = some msg ∧ s.recipe_fd = msg :: rest ∧ msg.file = first.1 ∧ msg.isAttr = first.2 ∧
      supply { s with recipe_fd := rest } = l := by
  rw [receive] at hr
  split at hr
  · next msg rest' hfd =>
    obtain ⟨rfl, rfl⟩ := Prod.mk.inj (Option.some.inj hr)
    rw [supply, hfd, List.map_cons, List.cons_append, List.cons_append] at hsupply
    obtain ⟨rfl, hl⟩ := List.cons.inj hsupply
    exact ⟨msg, rfl, hfd, rfl, rfl, hl⟩
  · next hfd =>
    split at hr
    · next hclosed =>
      rw [(h.finished hclosed).2, hfd] at hsupply
      simp at hsupply
    · simp at hr

/-- The command of a popped recipe is due. -/
theorem Inv.popped_due {s : State} (h : Inv files s) {i : ℕ} {rp : Recipe} {m : Option Sent}
    {rest : List Sent} (hstage : s.stage = .popped i rp) (hr : receive s = some (m, rest)) :
    ∃ A B, s.recipes ++ s.marked.toList = A ++ B ∧
      supply s = due i rp.is_new ++ A.flatMap (fun p => due p.1 p.2.is_new) ∧
      B.map Prod.fst ++ s.hashes.map Prod.fst = (ahead s).map Prod.fst ∧
      Aligned s.chunk s.answers B := by
  obtain ⟨⟨A, B, hheld, hsupply, hids, halign⟩, -, hends, -⟩ := h
  rw [held, hstage, ServerStage.held, List.append_assoc, List.singleton_append] at hheld
  rw [hstage] at hsupply
  cases A with
  | cons p A =>
    rw [List.cons_append] at hheld
    obtain ⟨rfl, hrest⟩ := List.cons.inj hheld
    exact ⟨A, B, hrest, hsupply, hids, halign⟩
  | nil =>
    -- no message is due, so the client has hung up, and then no recipe is left
    have hempty : supply s = [] := hsupply
    have hfd : s.recipe_fd = [] := by simpa [supply] using (List.append_eq_nil_iff.mp
      (List.append_eq_nil_iff.mp hempty).1).1
    rw [receive, hfd] at hr
    dsimp only at hr
    split at hr
    · next hclosed =>
      rw [(hends.finished hclosed).1, List.map_nil, List.append_eq_nil_iff, List.map_eq_nil_iff] at hids
      rw [hids.1] at hheld
      simp at hheld
    · simp at hr

theorem scanAttr_updateAttrMsg (locals : Locals) (rp : Recipe) {msg : Sent} {chunknum : ℤ}
    {file_path : Bytes} (h : msg.data = updateAttrMsg chunknum file_path) (hpath : Scannable file_path) :
    (scanAttr (delivery (some msg)) locals rp).2.2 = { rp with filename := file_path } := by
  rw [scanAttr_recipe, delivery, h, hpath.scan, Option.map_some, Option.getD_some,
    rp.scanName_eq hpath.short]

theorem Inv.recvAttr {s t : State} (h : Inv files s) (hc : NothingDropped files rewrite s .recvAttr)
    (hs : stepServer s .recvAttr = some t) : Inv files t := by
  rw [stepServer] at hs
  split at hs
  · next i rp m rest hstage hr =>
    obtain ⟨A, B, hheld, hsupply, hids, halign⟩ := h.popped_due hstage hr
    obtain ⟨-, htag, hends, hlog, htable⟩ := h
    rw [due, List.cons_append] at hsupply
    obtain ⟨msg, rfl, hfront, rfl, hattr, hrest⟩ := hends.receive_due hsupply hr
    have hmem : msg ∈ s.recipe_fd := by
      rw [hfront]
      exact List.mem_cons_self
    have hsub : rest ⊆ s.recipe_fd := by
      rw [hfront]
      exact List.subset_cons_self _ _
    obtain ⟨-, file, hfile, hhash⟩ :=
      htag.held (msg.file, rp) (by simp [held, hstage, ServerStage.held])
    obtain ⟨file', hfile', chunknum, hdata⟩ := htag.attrs msg hmem hattr
    obtain rfl : file' = file := Option.some.inj (hfile'.symm.trans hfile)
    have hhead : s.recipe_fd.head? = some msg := by
      rw [hfront, List.head?_cons]
    have hscan := scanAttr_updateAttrMsg s.locals rp hdata (hc msg hhead file' hfile)
    generalize hres : scanAttr (delivery (some msg)) s.locals rp = res at hs hscan
    obtain ⟨ok, locals, rp'⟩ := res
    obtain rfl : rp' = { rp with filename := file'.file_path } := hscan
    have hlog' : ∀ p ∈ s.log ++ ((some msg).map fun m => (Sent.file m, msg.file)).toList,
        p.1 = p.2 := by
      intro p hp
      rcases List.mem_append.mp hp with hp | hp
      · exact hlog p hp
      · obtain rfl := List.mem_singleton.mp hp
        rfl
    have hattrs : ∀ m ∈ rest, m.isAttr = true → ∃ file, files[m.file]? = some file ∧
        ∃ chunknum, m.data = updateAttrMsg chunknum file.file_path :=
      fun m hm => htag.attrs m (hsub hm)
    have hheld' : ∀ p ∈ s.recipes ++ s.marked.toList, p ∈ Pairing.held s := by
      intro p hp
      rw [Pairing.held, List.append_assoc]
      exact List.mem_append_right _ hp
    dsimp only at hs
    split at hs
    · next hnew =>
      obtain rfl := Option.some.inj hs
      refine ⟨⟨A, B, hheld, ?_, hids, halign⟩,
        ⟨htag.client, htag.hashes, hattrs, fun p hp => htag.held p (hheld' p hp), ?_⟩,
        ⟨hends.sending, hends.chunk, hends.update, hends.closed⟩, hlog', htable⟩
      · change supply { s with recipe_fd := rest } = _
        rw [hrest, if_pos hnew]
        rfl
      · intro p hp
        obtain rfl := List.mem_singleton.mp hp
        exact ⟨file', hfile, hhash, rfl⟩
    · next hdedup =>
      obtain rfl := Option.some.inj hs
      refine ⟨⟨A, B, hheld, ?_, hids, halign⟩,
        ⟨htag.client, htag.hashes, hattrs, fun p hp => htag.held p (hheld' p hp), by simp [ServerStage.scanned]⟩,
        ⟨hends.sending, hends.chunk, hends.update, hends.closed⟩, hlog', ?_⟩
      · change supply { s with recipe_fd := rest } = _
        rw [hrest, if_neg hdedup]
        rfl
      · intro r hr
        rcases List.mem_append.mp hr with hr | hr
        · exact htable r hr
        · obtain rfl := List.mem_singleton.mp hr
          exact ⟨file', List.mem_of_getElem? hfile, rfl, hhash.symm⟩
  · simp at hs

theorem takeRecipe_keeps (d : Delivery) (result : Bool) (locals : Locals) (rp : Recipe) :
    (takeRecipe d result locals rp).2.2.file_hash = rp.file_hash ∧
      (takeRecipe d result locals rp).2.2.filename = rp.filename := by
  rw [takeRecipe]
  dsimp only
  rw [foldl_recipeAppendFingerchunk]
  exact ⟨rfl, rfl⟩

theorem Inv.recvRecipe {s t : State} (h : Inv files s)
    (hs : stepServer s .recvRecipe = some t) : Inv files t := by
  obtain ⟨⟨A, B, hheld, hsupply, hids, halign⟩, htag, hends, hlog, htable⟩ := h
  rw [stepServer] at hs
  split at hs
  · next i rp m rest hstage hr =>
    rw [hstage, ServerStage.due, List.singleton_append] at hsupply
    obtain ⟨msg, rfl, hfront, rfl, -, hrest⟩ := hends.receive_due hsupply hr
    have hsub : rest ⊆ s.recipe_fd := by
      rw [hfront]
      exact List.subset_cons_self _ _
    obtain ⟨file, hfile, hhash, hpath⟩ :=
      htag.scanned (msg.file, rp) (by simp [hstage, ServerStage.scanned])
    have hkeep := takeRecipe_keeps (delivery (some msg)) true s.locals rp
    generalize takeRecipe (delivery (some msg)) true s.locals rp = res at hs hkeep
    obtain ⟨ok, locals, rp'⟩ := res
    obtain rfl := Option.some.inj hs
    rw [held, hstage] at hheld
    refine ⟨⟨A, B, hheld, hrest, hids, halign⟩,
      ⟨htag.client, htag.hashes, fun m hm => htag.attrs m (hsub hm), ?_, ?_⟩,
      ⟨hends.sending, hends.chunk, hends.update, hends.closed⟩, ?_, htable⟩
    · intro p hp
      refine htag.held p ?_
      rw [held, hstage]
      exact hp
    · intro p hp
      obtain rfl := List.mem_singleton.mp hp
      exact ⟨file, hfile, hhash.trans hkeep.1.symm, hkeep.2.trans hpath⟩
    · intro p hp
      rcases List.mem_append.mp hp with hp | hp
      · exact hlog p hp
      · obtain rfl := List.mem_singleton.mp hp
        rfl
  · simp at hs

theorem Inv.store {s t : State} {io : VolIO} (h : Inv files s)
    (hs : stepServer s (.store io) = some t) : Inv files t := by
  obtain ⟨⟨A, B, hheld, hsupply, hids, halign⟩, htag, hends, hlog, htable⟩ := h
  rw [stepServer] at hs
  split at hs
  · next i rp hstage =>
    obtain ⟨file, hfile, hhash, hpath⟩ :=
      htag.scanned (i, rp) (by simp [hstage, ServerStage.scanned])
    split at hs
    · simp at hs
    · obtain rfl := Option.some.inj hs
      rw [held, hstage] at hheld
      rw [hstage] at hsupply
      refine ⟨⟨A, B, hheld, hsupply, hids, halign⟩,
        ⟨htag.client, htag.hashes, htag.attrs, ?_, by simp [ServerStage.scanned]⟩,
        ⟨hends.sending, hends.chunk, hends.update, hends.closed⟩, hlog, ?_⟩
      · intro p hp
        refine htag.held p ?_
        rw [held, hstage]
        exact hp
      · intro r hr
        rcases List.mem_append.mp hr with hr | hr
        · exact htable r hr
        · obtain rfl := List.mem_singleton.mp hr
          exact ⟨file, List.mem_of_getElem? hfile, hpath, hhash.symm⟩
  · simp at hs

-- ════════════════════════════════════════════════════════════════════════
-- Whole backups
-- ════════════════════════════════════════════════════════════════════════

theorem Inv.step {s t : State} {e : Event} (h : Inv files s) (hc : NothingDropped files rewrite s e)
    (hs : Pairing.step files rewrite s e = some t) : Inv files t := by
  cases e with
  | sendHash shaOk => exact h.sendHash hs
  | pushFile => exact h.pushFile hs
  | endWalk => exact h.endWalk hs
  | popFile => exact h.popFile (show stepChunk rewrite s .popFile = some t from hs)
  | popEnd => exact h.popEnd (show stepChunk rewrite s .popEnd = some t from hs)
  | recvResult => exact h.recvResult (show stepChunk rewrite s .recvResult = some t from hs)
  | chunked chunks => exact h.chunked hc hs
  | recvCount => exact h.recvCount (show stepChunk rewrite s .recvCount = some t from hs)
  | recvChunk => exact h.recvChunk (show stepChunk rewrite s .recvChunk = some t from hs)
  | chunksDone chunks => exact h.chunksDone hc hs
  | sendAttr => exact h.sendAttr hs
  | endUpdate => exact h.endUpdate hs
  | sendRecipe => exact h.sendRecipe hs
  | exit => exact h.exit hs
  | recvHash opened => exact h.recvHash hc hs
  | recvEnd => exact h.recvEnd hs
  | pushRecipe => exact h.pushRecipe hs
  | popRecipe => exact h.popRecipe hs
  | popLast => exact h.popLast hs
  | recvAttr => exact h.recvAttr hc hs
  | recvRecipe => exact h.recvRecipe hs
  | store io => exact h.store hs

/-- A server without any backup. -/
def fresh : Shared := ⟨indexOpen [], recipeVolumeInit []⟩

/-- Both hashes are sent and answered before the client chunks a file. -/
def announced : List Event :=
  [.sendHash true, .pushFile, .recvHash true, .sendHash true, .pushRecipe, .recvHash true,
    .pushFile, .endWalk, .pushRecipe, .recvEnd]

end TCBackup.Pipeline.Pairing
