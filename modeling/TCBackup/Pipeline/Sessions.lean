import TCBackup.Lib.Labelled
import TCBackup.Server.Backup

/-!
# Pipelined sessions side by side

Every client opens a command connection and a recipe connection. The server keeps
the recipe connection it accepted last in `recipe_fd` and the queue of the session
started last in `file_dedup_queue`; the threads of all sessions read the two when
they need them. The number of the last command connection reaches a worker through
a variable of the accept loop.

Connections carry the number of their client, queues the number of the session
they were made for. A session frees the queue that it finds at its end, whichever it is.

## Main definitions

- `System`, `Event`, `step` — the connections, the globals and the sessions
- `OwnGlobals` — a thread that reads a global finds what its own session put there
- `NotMixed` — messages, recipes and rows stay within their session
-/

namespace TCBackup.Pipeline.Sessions

open ByteFile Labelled Server

/-- A message on a command connection. -/
inductive Command
  | backup
  | hash (file_hash : Fingerprint)
  | last

/-- The session that pushed a recipe, and the client whose hash it holds. -/
structure Origin where
  session : ℕ
  client : ℕ

/-- What waits in a queue: a recipe or the end marker. -/
structure Queued where
  origin : Origin
  recipe : Option Recipe

/-- Where `file_dedup_module` of a session stands. -/
inductive HashThread
  | off
  | receiving
  | marked (rp : Recipe)
  | ended

/-- Where `update_recipe_module` of a session stands: `o` tells where its recipe
comes from, `fd` is the connection of a pending receive, `sender` the client whose
command was scanned and `ok` the `result` so far. -/
inductive UpdateThread
  | off
  | idle
  | popping (q : ℕ)
  | popped (o : Origin) (rp : Recipe)
  | attr (o : Origin) (fd : ℕ) (rp : Recipe)
  | scanned (o : Origin) (sender : ℕ) (ok : Bool) (rp : Recipe)
  | recipe (o : Origin) (sender fd : ℕ) (ok : Bool) (rp : Recipe)
  | storing (o : Origin) (sender : ℕ) (ok : Bool) (rp : Recipe)
  | row (o : Origin) (sender : ℕ) (ok : Bool) (rp : Recipe)
  | ended

/-- A worker with its `DedupClient`; it has a job once its backup has begun. -/
structure Worker where
  client : ℕ
  job_id : Option ℕ
  dedup : HashThread
  update : UpdateThread
  locals : Locals

structure FileRecord where
  JobId : ℕ
  FilePath : Bytes
  HashCode : Fingerprint

/-- An inserted row, the client whose hash it holds and the client whose command
it holds. -/
structure Row where
  file : FileRecord
  owner : ℕ
  sender : ℕ

/-- The server. `jobs` holds the client of every job, `consumed` the client of a
session with the sender of each message it took from a recipe connection, and
`taken` a session with the one that pushed each recipe it popped. `damaged` tells whether
a queue was used after it was freed. -/
structure System where
  newsockfd : ℕ
  work : ℕ
  recipe_fd : Option ℕ
  file_dedup_queue : Option ℕ
  commands : ℕ → List Command
  inbox : ℕ → List Delivery
  queues : ℕ → List Queued
  freed : List ℕ
  damaged : Bool
  workers : ℕ → Option Worker
  started : ℕ
  jobs : List ℕ
  shared : Shared
  table : List Row
  answers : ℕ → List Bytes
  replies : List (ℕ × Bool)
  consumed : List (ℕ × ℕ)
  taken : List (ℕ × ℕ)

inductive Event
  | acceptRecipe (c : ℕ)
  | acceptCommand (c : ℕ)
  | startWorker
  | command (c : ℕ) (m : Command)
  | arrive (c : ℕ) (d : Delivery)
  | begin (w : ℕ)
  | recvHash (w : ℕ) (opened : Bool)
  | pushRecipe (w : ℕ)
  | recvLast (w : ℕ)
  | popCall (w : ℕ)
  | pop (w : ℕ)
  | attrCall (w : ℕ)
  | recvAttr (w : ℕ)
  | recipeCall (w : ℕ)
  | recvRecipe (w : ℕ)
  | store (w : ℕ) (io : VolIO)
  | insertRow (w : ℕ) (inserted : Bool)
  | finish (w : ℕ)

def init (shared : Shared) : System where
  newsockfd := 0
  work := 0
  recipe_fd := none
  file_dedup_queue := none
  commands := fun _ => []
  inbox := fun _ => []
  queues := fun _ => []
  freed := []
  damaged := false
  workers := fun _ => none
  started := 0
  jobs := []
  shared := shared
  table := []
  answers := fun _ => []
  replies := []
  consumed := []
  taken := []

def System.setWorker (s : System) (w : ℕ) (worker : Worker) : System :=
  { s with workers := Function.update s.workers w (some worker) }

theorem System.setWorker_self (s : System) (w : ℕ) (worker : Worker) :
    (s.setWorker w worker).workers w = some worker := Function.update_self ..

theorem System.setWorker_of_ne (s : System) {v w : ℕ} (worker : Worker) (h : v ≠ w) :
    (s.setWorker w worker).workers v = s.workers v := Function.update_of_ne h ..

/-- A call on a queue, which may be freed. -/
def System.touch (s : System) (q : ℕ) : System := { s with damaged := s.damaged || q ∈ s.freed }

/-- `sync_queue_push` into the queue of the moment. -/
def System.push (s : System) (o : Origin) (recipe : Option Recipe) : Option System :=
  match s.file_dedup_queue with
  | none => none
  | some q =>
    some { s.touch q with queues := Function.update s.queues q (s.queues q ++ [⟨o, recipe⟩]) }

/-- Take the next message of a recipe connection for a session of `client`. -/
def System.take (s : System) (client fd : ℕ) : Option (Delivery × System) :=
  match s.inbox fd with
  | [] => none
  | d :: rest =>
    some (d, { s with
      inbox := Function.update s.inbox fd rest
      consumed := s.consumed ++ [(client, fd)] })

-- ════════════════════════════════════════════════════════════════════════
-- Connections
-- ════════════════════════════════════════════════════════════════════════

/-- The two accept loops, and what the clients send. -/
def stepConnect (s : System) : Event → Option System
  | .acceptRecipe c => some { s with recipe_fd := some c }
  | .acceptCommand c => some { s with newsockfd := c, work := s.work + 1 }
  | .startWorker =>
    match s.work with
    | 0 => none
    | work + 1 =>
      -- the work item is the address of `newsockfd`
      some ({ s with work := work, started := s.started + 1 }.setWorker s.started
        ⟨s.newsockfd, none, .off, .off, .init⟩)
  | .command c m =>
    some { s with commands := Function.update s.commands c (s.commands c ++ [m]) }
  | .arrive c d => some { s with inbox := Function.update s.inbox c (s.inbox c ++ [d]) }
  | _ => none

-- ════════════════════════════════════════════════════════════════════════
-- Threads of a session
-- ════════════════════════════════════════════════════════════════════════

/-- `pipeline_backup` of the server. -/
def stepSession (s : System) (w : ℕ) (worker : Worker) : Event → Option System
  | .begin _ =>
    match worker.job_id, s.commands worker.client, s.recipe_fd with
    | none, .backup :: rest, some _ =>
      some ({ s with
        commands := Function.update s.commands worker.client rest
        jobs := s.jobs ++ [worker.client]
        file_dedup_queue := some w }.setWorker w
          { worker with job_id := some s.jobs.length, dedup := .receiving, update := .idle })
    | _, _, _ => none
  | .finish _ =>
    match worker.dedup, worker.update, s.file_dedup_queue with
    | .ended, .ended, some q =>
      some ({ s.touch q with freed := q :: s.freed }.setWorker w
        { worker with dedup := .off, update := .off })
    | _, _, _ => none
  | _ => none

/-- `file_dedup_module`. -/
def stepDedup (s : System) (w : ℕ) (worker : Worker) : Event → Option System
  | .recvHash _ opened =>
    match worker.dedup, s.commands worker.client with
    | .receiving, .hash file_hash :: rest =>
      match fileDedupMark opened (recipeNew file_hash) s.shared with
      | none => none
      | some (ok, rp, msgs, shared) =>
        some ({ s with
          commands := Function.update s.commands worker.client rest
          shared := shared
          answers := Function.update s.answers worker.client
            (s.answers worker.client ++ dedupMessages (ok, rp, msgs, shared)) }.setWorker w
              { worker with dedup := .marked rp })
    | _, _ => none
  | .pushRecipe _ =>
    match worker.dedup with
    | .marked rp =>
      (s.push ⟨w, worker.client⟩ (some rp)).map fun s =>
        s.setWorker w { worker with dedup := .receiving }
    | _ => none
  | .recvLast _ =>
    match worker.dedup, s.commands worker.client with
    | .receiving, .last :: rest =>
      (s.push ⟨w, worker.client⟩ none).map fun s =>
        { s with commands := Function.update s.commands worker.client rest }.setWorker w
          { worker with dedup := .ended }
    | _, _ => none
  | _ => none

/-- The receives of `update_recipe_module`: the queue or the connection is read
when the call is made, the call returns when something is there. -/
def stepReceive (s : System) (w : ℕ) (worker : Worker) : Event → Option System
  | .popCall _ =>
    match worker.update, s.file_dedup_queue with
    | .idle, some q => some (s.setWorker w { worker with update := .popping q })
    | _, _ => none
  | .pop _ =>
    match worker.update with
    | .popping q =>
      match s.queues q with
      | [] => none
      | ⟨o, recipe⟩ :: rest =>
        let update := match recipe with
          | some rp => .popped o rp
          | none => .ended
        some ({ s.touch q with
          queues := Function.update s.queues q rest
          taken := s.taken ++ [(w, o.session)] }.setWorker w { worker with update := update })
    | _ => none
  | .attrCall _ =>
    match worker.update, s.recipe_fd with
    | .popped o rp, some fd => some (s.setWorker w { worker with update := .attr o fd rp })
    | _, _ => none
  | .recvAttr _ =>
    match worker.update with
    | .attr o fd rp =>
      match s.take worker.client fd with
      | none => none
      | some (d, s) =>
        let (ok, locals, rp) := scanAttr d worker.locals rp
        let update :=
          if rp.is_new = .newFile then UpdateThread.scanned o fd ok rp else .row o fd ok rp
        some (s.setWorker w { worker with locals := locals, update := update })
    | _ => none
  | .recipeCall _ =>
    match worker.update, s.recipe_fd with
    | .scanned o sender ok rp, some fd =>
      some (s.setWorker w { worker with update := .recipe o sender fd ok rp })
    | _, _ => none
  | .recvRecipe _ =>
    match worker.update with
    | .recipe o sender fd ok rp =>
      match s.take worker.client fd with
      | none => none
      | some (d, s) =>
        let (ok, locals, rp) := takeRecipe d ok worker.locals rp
        some (s.setWorker w { worker with locals := locals, update := .storing o sender ok rp })
    | _ => none
  | _ => none

/-- What `update_recipe_module` stores. -/
def stepStore (s : System) (w : ℕ) (worker : Worker) : Event → Option System
  | .store _ io =>
    match worker.update with
    | .storing o sender ok rp =>
      match writeRecipeToVol io rp s.shared.volume with
      | none => none
      | some (offset, volume) =>
        let mem_index := indexInsert s.shared.mem_index rp.file_hash (offset.getD 0)
        some ({ s with shared := ⟨mem_index, volume⟩ }.setWorker w
          { worker with update := .row o sender (ok && offset.isSome) rp })
    | _ => none
  | .insertRow _ inserted =>
    match worker.update, worker.job_id, s.recipe_fd with
    | .row o sender ok rp, some job, some fd =>
      let row := ⟨⟨job, rp.filename, rp.file_hash⟩, o.client, sender⟩
      some ({ s with
        table := if inserted then s.table ++ [row] else s.table
        replies := s.replies ++ [(fd, ok && inserted)] }.setWorker w { worker with update := .idle })
    | _, _, _ => none
  | _ => none

/-- A step of the session of worker `w`. -/
def stepWorker (s : System) (w : ℕ) (e : Event) : Option System :=
  match s.workers w with
  | none => none
  | some worker =>
    match e with
    | .begin _ | .finish _ => stepSession s w worker e
    | .recvHash _ _ | .pushRecipe _ | .recvLast _ => stepDedup s w worker e
    | .store _ _ | .insertRow _ _ => stepStore s w worker e
    | _ => stepReceive s w worker e

def step (s : System) (e : Event) : Option System :=
  match e with
  | .acceptRecipe _ | .acceptCommand _ | .startWorker | .command _ _ | .arrive _ _ =>
    stepConnect s e
  | .begin w | .finish w | .recvHash w _ | .pushRecipe w | .recvLast w | .popCall w | .pop w
  | .attrCall w | .recvAttr w | .recipeCall w | .recvRecipe w | .store w _ | .insertRow w _ =>
    stepWorker s w e

-- ════════════════════════════════════════════════════════════════════════
-- Condition and property
-- ════════════════════════════════════════════════════════════════════════

/-- The session of `w` is the one that was started last. -/
def System.ownsQueue (s : System) (w : ℕ) : Prop := s.file_dedup_queue = some w

/-- The recipe connection accepted last is that of the client of `w`. -/
def System.ownsRecipeFd (s : System) (w : ℕ) : Prop :=
  s.recipe_fd = (s.workers w).map Worker.client

/-- Every thread finds in a global what belongs to its own session, at the moment
it reads it. -/
def OwnGlobals (s : System) : Event → Prop
  | .pushRecipe w | .recvLast w | .popCall w | .finish w => s.ownsQueue w
  | .attrCall w | .recipeCall w => s.ownsRecipeFd w
  | _ => True

instance (s : System) (e : Event) : Decidable (OwnGlobals s e) :=
  match e with
  | .pushRecipe w | .recvLast w | .popCall w | .finish w => inferInstanceAs (Decidable (_ = some w))
  | .attrCall w | .recipeCall w =>
    inferInstanceAs (Decidable (_ = (s.workers w).map Worker.client))
  | .acceptRecipe _ | .acceptCommand _ | .startWorker | .command _ _ | .arrive _ _ | .begin _
  | .recvHash _ _ | .pop _ | .recvAttr _ | .recvRecipe _ | .store _ _ | .insertRow _ _ =>
    inferInstanceAs (Decidable True)

/-- No session has got anything of another one, rows are inserted under the job of the
client whose hash and command they hold, and no queue was used after it was freed. -/
structure NotMixed (s : System) : Prop where
  consumed : ∀ p ∈ s.consumed, p.1 = p.2
  taken : ∀ p ∈ s.taken, p.1 = p.2
  table : ∀ r ∈ s.table, s.jobs[r.file.JobId]? = some r.owner ∧ r.sender = r.owner
  intact : s.damaged = false

-- ════════════════════════════════════════════════════════════════════════
-- Invariant
-- ════════════════════════════════════════════════════════════════════════

/-- What an update thread holds came from its own session and client. -/
def UpdateThread.own (w client : ℕ) : UpdateThread → Prop
  | .popping q => q = w
  | .popped o _ => o = ⟨w, client⟩
  | .attr o fd _ => o = ⟨w, client⟩ ∧ fd = client
  | .scanned o sender _ _ => o = ⟨w, client⟩ ∧ sender = client
  | .recipe o sender fd _ _ => o = ⟨w, client⟩ ∧ sender = client ∧ fd = client
  | .storing o sender _ _ => o = ⟨w, client⟩ ∧ sender = client
  | .row o sender _ _ => o = ⟨w, client⟩ ∧ sender = client
  | _ => True

/-- A worker is known to its job, and its threads hold what is theirs. -/
structure WorkerOwn (jobs : List ℕ) (w : ℕ) (worker : Worker) : Prop where
  job : ∀ job, worker.job_id = some job → jobs[job]? = some worker.client
  begun : worker.dedup ≠ .off → worker.job_id ≠ none
  update : worker.update.own w worker.client

/-- A session that has come to its end. -/
structure Worker.Finished (worker : Worker) : Prop where
  job_id : worker.job_id ≠ none
  dedup : worker.dedup = .off
  update : worker.update = .off

theorem Worker.not_finished_of_dedup {worker : Worker} {dedup : HashThread} (h : worker.dedup = dedup)
    (hne : dedup ≠ .off) : ¬worker.Finished := by
  intro hfinished
  exact hne (h.symm.trans hfinished.dedup)

theorem Worker.not_finished_of_update {worker : Worker} {update : UpdateThread}
    (h : worker.update = update) (hne : update ≠ .off) : ¬worker.Finished := by
  intro hfinished
  exact hne (h.symm.trans hfinished.update)

structure Inv (s : System) : Prop where
  workers : ∀ w worker, s.workers w = some worker → WorkerOwn s.jobs w worker
  queues : ∀ q, ∀ x ∈ s.queues q, x.origin.session = q ∧
    ∃ worker, s.workers q = some worker ∧ x.origin.client = worker.client
  fresh : ∀ w, s.started ≤ w → s.workers w = none
  freed : ∀ q ∈ s.freed, ∃ worker, s.workers q = some worker ∧ worker.Finished
  notMixed : NotMixed s

theorem init_inv (shared : Shared) : Inv (init shared) := by
  refine ⟨?_, ?_, ?_, ?_, ?_, ?_, ?_, ?_⟩ <;> simp [init]

-- ════════════════════════════════════════════════════════════════════════
-- Steps keep it
-- ════════════════════════════════════════════════════════════════════════

theorem getElem?_of_extends {l l' : List ℕ} {i x : ℕ} (h : l <+: l') (hi : l[i]? = some x) :
    l'[i]? = some x := by
  obtain ⟨r, rfl⟩ := h
  rw [List.getElem?_append_left (List.getElem?_eq_some_iff.mp hi).1, hi]

theorem WorkerOwn.mono {jobs jobs' : List ℕ} {w : ℕ} {worker : Worker}
    (h : WorkerOwn jobs w worker) (hjobs : jobs <+: jobs') : WorkerOwn jobs' w worker :=
  ⟨fun job hjob => getElem?_of_extends hjobs (h.job job hjob), h.begun, h.update⟩

/-- The queue of a session that goes on is not freed. -/
theorem Inv.notMem_freed {s : System} (h : Inv s) {w : ℕ} {worker : Worker}
    (hw : s.workers w = some worker) (hbusy : ¬worker.Finished) : w ∉ s.freed := by
  intro hmem
  obtain ⟨worker', hw', hfinished⟩ := h.freed w hmem
  rw [hw] at hw'
  exact hbusy (Option.some.inj hw' ▸ hfinished)

/-- A call on a queue that is not freed. -/
theorem System.touch_eq {s : System} {q : ℕ} (h : q ∉ s.freed) : s.touch q = s := by
  rw [System.touch, decide_eq_false h, Bool.or_false]

/-- A step of one worker. What it pushes is its own, and so is what it frees. -/
theorem Inv.update {s u : System} (h : Inv s) {w : ℕ} {worker worker' : Worker}
    (hw : s.workers w = some worker) (hbusy : ¬worker.Finished)
    (hclient : worker'.client = worker.client)
    (hworkers : u.workers = s.workers) (hstarted : u.started = s.started)
    (hfreed : ∀ q ∈ u.freed, q ∈ s.freed ∨ q = w ∧ worker'.Finished)
    (hjobs : s.jobs <+: u.jobs) (hown : WorkerOwn u.jobs w worker')
    (hqueues : ∀ q, ∀ x ∈ u.queues q, x ∈ s.queues q ∨ q = w ∧ x.origin = ⟨w, worker.client⟩)
    (hnot : NotMixed u) : Inv (u.setWorker w worker') := by
  have hkeep : ∀ q user, s.workers q = some user →
      ∃ user', (u.setWorker w worker').workers q = some user' ∧ user'.client = user.client := by
    intro q user huser
    rcases eq_or_ne q w with rfl | hne
    · rw [hw] at huser
      obtain rfl := Option.some.inj huser
      exact ⟨worker', u.setWorker_self _ _, hclient⟩
    · exact ⟨user, by rw [u.setWorker_of_ne _ hne, hworkers]; exact huser, rfl⟩
  refine ⟨?_, ?_, ?_, ?_, ⟨hnot.consumed, hnot.taken, hnot.table, hnot.intact⟩⟩
  · intro v user hv
    rcases eq_or_ne v w with rfl | hne
    · rw [u.setWorker_self] at hv
      obtain rfl := Option.some.inj hv
      exact hown
    · rw [u.setWorker_of_ne _ hne, hworkers] at hv
      exact (h.workers v user hv).mono hjobs
  · intro q x hx
    rcases hqueues q x hx with hold | ⟨rfl, ho⟩
    · obtain ⟨hq, user, huser, hc⟩ := h.queues q x hold
      obtain ⟨user', huser', hc'⟩ := hkeep q user huser
      exact ⟨hq, user', huser', hc.trans hc'.symm⟩
    · obtain ⟨user', huser', hc'⟩ := hkeep q worker hw
      exact ⟨by rw [ho], user', huser', by rw [ho]; exact hc'.symm⟩
  · intro v hv
    have hnone := h.fresh v (hstarted ▸ hv)
    have hne : v ≠ w := by
      rintro rfl
      simp [hw] at hnone
    rw [u.setWorker_of_ne _ hne, hworkers]
    exact hnone
  · intro q hq
    rcases hfreed q hq with hold | ⟨rfl, hfinished⟩
    · have hne : q ≠ w := by
        rintro rfl
        exact h.notMem_freed hw hbusy hold
      rw [u.setWorker_of_ne _ hne, hworkers]
      exact h.freed q hold
    · exact ⟨worker', u.setWorker_self _ _, hfinished⟩

/-- A step after which the jobs and everything recorded are as before. -/
theorem Inv.local {s u : System} (h : Inv s) {w : ℕ} {worker worker' : Worker}
    (hw : s.workers w = some worker) (hbusy : ¬worker.Finished)
    (hclient : worker'.client = worker.client)
    (hjob : worker'.job_id = worker.job_id) (hdedup : worker'.dedup ≠ .off → worker.dedup ≠ .off)
    (hown : worker'.update.own w worker.client)
    (hworkers : u.workers = s.workers) (hstarted : u.started = s.started)
    (hfreed : u.freed = s.freed) (hdamaged : u.damaged = s.damaged)
    (hjobs : u.jobs = s.jobs) (hconsumed : u.consumed = s.consumed) (htaken : u.taken = s.taken)
    (htable : u.table = s.table)
    (hqueues : ∀ q, ∀ x ∈ u.queues q, x ∈ s.queues q ∨ q = w ∧ x.origin = ⟨w, worker.client⟩) :
    Inv (u.setWorker w worker') := by
  have hold := h.workers w worker hw
  refine h.update hw hbusy hclient hworkers hstarted (fun q hq => .inl (hfreed ▸ hq)) (by rw [hjobs])
    ⟨?_, ?_, ?_⟩ hqueues ⟨?_, ?_, ?_, hdamaged.trans h.notMixed.intact⟩
  · rw [hjob, hjobs, hclient]
    exact hold.job
  · intro hne
    rw [hjob]
    exact hold.begun (hdedup hne)
  · rw [hclient]
    exact hown
  · rw [hconsumed]
    exact h.notMixed.consumed
  · rw [htaken]
    exact h.notMixed.taken
  · rw [htable, hjobs]
    exact h.notMixed.table

theorem Inv.connect {s t : System} {e : Event} (h : Inv s) (hs : stepConnect s e = some t) :
    Inv t := by
  obtain ⟨hworkers, hqueues, hfresh, hfreed, hnot⟩ := h
  cases e with
  | startWorker =>
    rw [stepConnect] at hs
    split at hs
    · simp at hs
    · obtain rfl := Option.some.inj hs
      refine ⟨?_, ?_, ?_, ?_, ⟨hnot.consumed, hnot.taken, hnot.table, hnot.intact⟩⟩
      · intro w worker hw
        rcases eq_or_ne w s.started with rfl | hne
        · rw [System.setWorker_self] at hw
          obtain rfl := Option.some.inj hw
          exact ⟨by simp, by simp, trivial⟩
        · rw [System.setWorker_of_ne _ _ hne] at hw
          exact hworkers w worker hw
      · intro q x hx
        obtain ⟨hq, worker, hworker, hc⟩ := hqueues q x hx
        have hne : q ≠ s.started := by
          rintro rfl
          simp [hfresh _ (le_refl _)] at hworker
        exact ⟨hq, worker, by rw [System.setWorker_of_ne _ _ hne]; exact hworker, hc⟩
      · intro w hw
        have hne : w ≠ s.started := by
          rintro rfl
          simp [System.setWorker] at hw
        rw [System.setWorker_of_ne _ _ hne]
        exact hfresh w (Nat.le_of_succ_le hw)
      · intro q hq
        obtain ⟨worker, hworker, hfinished⟩ := hfreed q hq
        have hne : q ≠ s.started := by
          rintro rfl
          simp [hfresh _ (le_refl _)] at hworker
        exact ⟨worker, by rw [System.setWorker_of_ne _ _ hne]; exact hworker, hfinished⟩
  | acceptRecipe c | acceptCommand c | command c m | arrive c d =>
    obtain rfl := Option.some.inj hs
    exact ⟨hworkers, hqueues, hfresh, hfreed, ⟨hnot.consumed, hnot.taken, hnot.table, hnot.intact⟩⟩
  | _ => simp [stepConnect] at hs

theorem Inv.begin {s t : System} {w : ℕ} {worker : Worker} (h : Inv s)
    (hw : s.workers w = some worker) (hs : stepSession s w worker (.begin w) = some t) : Inv t := by
  rw [stepSession] at hs
  split at hs
  · next hnone _ _ =>
    obtain rfl := Option.some.inj hs
    have hjobs : s.jobs <+: s.jobs ++ [worker.client] := List.prefix_append _ _
    refine h.update hw (fun hfinished => hfinished.job_id hnone) rfl rfl rfl (fun q hq => .inl hq) hjobs
      ⟨?_, by simp, trivial⟩ (fun q x hx => .inl hx)
      ⟨h.notMixed.consumed, h.notMixed.taken, ?_, h.notMixed.intact⟩
    · intro job hjob
      obtain rfl := Option.some.inj hjob
      simp
    · intro r hr
      obtain ⟨hjob, hsender⟩ := h.notMixed.table r hr
      exact ⟨getElem?_of_extends hjobs hjob, hsender⟩
  · simp at hs

theorem Inv.finish {s t : System} {w : ℕ} {worker : Worker} (h : Inv s)
    (hw : s.workers w = some worker) (hown : s.ownsQueue w)
    (hs : stepSession s w worker (.finish w) = some t) : Inv t := by
  have hold := h.workers w worker hw
  rw [stepSession] at hs
  split at hs
  · next q hdedup _ hqueue =>
    obtain rfl : q = w := Option.some.inj (hqueue.symm.trans hown)
    have hbusy := Worker.not_finished_of_dedup hdedup (by simp)
    have hbegun : worker.job_id ≠ none := hold.begun (by simp [hdedup])
    rw [System.touch_eq (h.notMem_freed hw hbusy)] at hs
    obtain rfl := Option.some.inj hs
    refine h.update hw hbusy rfl rfl rfl (fun q' hq' => ?_) (List.prefix_refl _)
      ⟨hold.job, by simp, trivial⟩ (fun q x hx => .inl hx)
      ⟨h.notMixed.consumed, h.notMixed.taken, h.notMixed.table, h.notMixed.intact⟩
    rcases List.mem_cons.mp hq' with rfl | hq'
    · exact .inr ⟨rfl, hbegun, rfl, rfl⟩
    · exact .inl hq'
  · simp at hs

/-- A push that finds the own queue. -/
theorem push_own {s t : System} {w client : ℕ} {recipe : Option Recipe} (hown : s.ownsQueue w)
    (hlive : w ∉ s.freed) (hp : s.push ⟨w, client⟩ recipe = some t) :
    ∃ queues, t = { s with queues := queues } ∧
      ∀ q, ∀ x ∈ queues q, x ∈ s.queues q ∨ q = w ∧ x.origin = ⟨w, client⟩ := by
  rw [System.ownsQueue] at hown
  rw [System.push, hown] at hp
  dsimp only at hp
  rw [System.touch_eq hlive] at hp
  obtain rfl := Option.some.inj hp
  refine ⟨_, rfl, fun q x hx => ?_⟩
  rcases eq_or_ne q w with rfl | hne
  · rw [Function.update_self] at hx
    rcases List.mem_append.mp hx with hx | hx
    · exact .inl hx
    · obtain rfl := List.mem_singleton.mp hx
      exact .inr ⟨rfl, rfl⟩
  · rw [Function.update_of_ne hne] at hx
    exact .inl hx

theorem Inv.recvHash {s t : System} {w : ℕ} {worker : Worker} {opened : Bool} (h : Inv s)
    (hw : s.workers w = some worker) (hs : stepDedup s w worker (.recvHash w opened) = some t) :
    Inv t := by
  rw [stepDedup] at hs
  split at hs
  · next hdedup _ =>
    have hbusy := Worker.not_finished_of_dedup hdedup (by simp)
    split at hs
    · simp at hs
    · obtain rfl := Option.some.inj hs
      exact h.local (w := w) hw hbusy rfl rfl (by simp [hdedup]) (h.workers w worker hw).update rfl rfl
        rfl rfl rfl rfl rfl rfl fun q x hx => .inl hx
  · simp at hs

theorem Inv.pushRecipe {s t : System} {w : ℕ} {worker : Worker} (h : Inv s)
    (hw : s.workers w = some worker) (hown : s.ownsQueue w)
    (hs : stepDedup s w worker (.pushRecipe w) = some t) : Inv t := by
  rw [stepDedup] at hs
  split at hs
  · next hdedup =>
    have hbusy := Worker.not_finished_of_dedup hdedup (by simp)
    obtain ⟨u, hpush, rfl⟩ := Option.map_eq_some_iff.mp hs
    obtain ⟨queues, rfl, hqueues⟩ := push_own hown (h.notMem_freed hw hbusy) hpush
    exact h.local (w := w) hw hbusy rfl rfl (by simp [hdedup]) (h.workers w worker hw).update rfl rfl
      rfl rfl rfl rfl rfl rfl hqueues
  · simp at hs

theorem Inv.recvLast {s t : System} {w : ℕ} {worker : Worker} (h : Inv s)
    (hw : s.workers w = some worker) (hown : s.ownsQueue w)
    (hs : stepDedup s w worker (.recvLast w) = some t) : Inv t := by
  rw [stepDedup] at hs
  split at hs
  · next hdedup _ =>
    have hbusy := Worker.not_finished_of_dedup hdedup (by simp)
    obtain ⟨u, hpush, rfl⟩ := Option.map_eq_some_iff.mp hs
    obtain ⟨queues, rfl, hqueues⟩ := push_own hown (h.notMem_freed hw hbusy) hpush
    exact h.local (w := w) hw hbusy rfl rfl (by simp [hdedup]) (h.workers w worker hw).update rfl rfl
      rfl rfl rfl rfl rfl rfl hqueues
  · simp at hs

theorem Inv.popCall {s t : System} {w : ℕ} {worker : Worker} (h : Inv s)
    (hw : s.workers w = some worker) (hown : s.ownsQueue w)
    (hs : stepReceive s w worker (.popCall w) = some t) : Inv t := by
  rw [stepReceive] at hs
  split at hs
  · next q hupdate hqueue =>
    have hbusy := Worker.not_finished_of_update hupdate (by simp)
    obtain rfl := Option.some.inj hs
    have hq : q = w := Option.some.inj (hqueue.symm.trans hown)
    exact h.local (w := w) hw hbusy rfl rfl id hq rfl rfl rfl rfl rfl rfl rfl rfl
      fun q x hx => .inl hx
  · simp at hs

theorem Inv.pop {s t : System} {w : ℕ} {worker : Worker} (h : Inv s)
    (hw : s.workers w = some worker) (hs : stepReceive s w worker (.pop w) = some t) : Inv t := by
  have hold := h.workers w worker hw
  rw [stepReceive] at hs
  split at hs
  · next q hupdate =>
    obtain rfl : q = w := by
      have := hold.update
      rwa [hupdate] at this
    split at hs
    · simp at hs
    · next o recipe rest hqueue =>
      obtain ⟨hsession, user, huser, hclient⟩ := h.queues q ⟨o, recipe⟩ (by rw [hqueue]; simp)
      have ho : o = ⟨q, worker.client⟩ := by
        obtain ⟨session, client⟩ := o
        rw [hw] at huser
        obtain rfl := Option.some.inj huser
        dsimp only at hsession hclient
        rw [hsession, hclient]
      have hbusy := Worker.not_finished_of_update hupdate (by simp)
      dsimp only at hs
      rw [System.touch_eq (h.notMem_freed hw hbusy)] at hs
      obtain rfl := Option.some.inj hs
      refine h.update (w := q) hw hbusy rfl rfl rfl (fun q hq => .inl hq) (List.prefix_refl _)
        ⟨hold.job, hold.begun, ?_⟩ ?_ ⟨h.notMixed.consumed, ?_, h.notMixed.table, h.notMixed.intact⟩
      · cases recipe with
        | none => trivial
        | some rp => exact ho
      · intro q' x hx
        refine .inl ?_
        change x ∈ Function.update s.queues q rest q' at hx
        rcases eq_or_ne q' q with rfl | hne
        · rw [Function.update_self] at hx
          rw [hqueue]
          exact List.mem_cons_of_mem _ hx
        · rwa [Function.update_of_ne hne] at hx
      · intro p hp
        rcases List.mem_append.mp hp with hp | hp
        · exact h.notMixed.taken p hp
        · obtain rfl := List.mem_singleton.mp hp
          exact hsession.symm
  · simp at hs

theorem Inv.attrCall {s t : System} {w : ℕ} {worker : Worker} (h : Inv s)
    (hw : s.workers w = some worker) (hown : s.ownsRecipeFd w)
    (hs : stepReceive s w worker (.attrCall w) = some t) : Inv t := by
  have hold := (h.workers w worker hw).update
  rw [stepReceive] at hs
  split at hs
  · next o rp fd hupdate hfd =>
    obtain rfl := Option.some.inj hs
    rw [System.ownsRecipeFd, hw, hfd] at hown
    rw [hupdate] at hold
    exact h.local (w := w) hw (Worker.not_finished_of_update hupdate (by simp)) rfl rfl id
      ⟨hold, Option.some.inj hown⟩ rfl rfl rfl rfl rfl rfl rfl rfl fun q x hx => .inl hx
  · simp at hs

theorem Inv.recipeCall {s t : System} {w : ℕ} {worker : Worker} (h : Inv s)
    (hw : s.workers w = some worker) (hown : s.ownsRecipeFd w)
    (hs : stepReceive s w worker (.recipeCall w) = some t) : Inv t := by
  have hold := (h.workers w worker hw).update
  rw [stepReceive] at hs
  split at hs
  · next o sender ok rp fd hupdate hfd =>
    obtain rfl := Option.some.inj hs
    rw [System.ownsRecipeFd, hw, hfd] at hown
    rw [hupdate] at hold
    exact h.local (w := w) hw (Worker.not_finished_of_update hupdate (by simp)) rfl rfl id
      ⟨hold.1, hold.2, Option.some.inj hown⟩ rfl rfl rfl rfl rfl rfl rfl rfl fun q x hx => .inl hx
  · simp at hs

/-- A message from the connection of the own client. -/
theorem Inv.takeOwn {s u : System} {w : ℕ} {worker worker' : Worker} {d : Delivery} (h : Inv s)
    (hw : s.workers w = some worker) (hbusy : ¬worker.Finished)
    (htake : s.take worker.client worker.client = some (d, u))
    (hclient : worker'.client = worker.client) (hjob : worker'.job_id = worker.job_id)
    (hdedup : worker'.dedup ≠ .off → worker.dedup ≠ .off) (hown : worker'.update.own w worker.client) : Inv (u.setWorker w worker') := by
  rw [System.take] at htake
  split at htake
  · simp at htake
  · obtain ⟨rfl, rfl⟩ := Prod.mk.inj (Option.some.inj htake)
    refine h.update (w := w) hw hbusy hclient rfl rfl (fun q hq => .inl hq) (List.prefix_refl _)
      ⟨?_, ?_, ?_⟩ (fun q x hx => .inl hx)
      ⟨?_, h.notMixed.taken, h.notMixed.table, h.notMixed.intact⟩
    · rw [hjob, hclient]
      exact (h.workers w worker hw).job
    · intro hne
      rw [hjob]
      exact (h.workers w worker hw).begun (hdedup hne)
    · rw [hclient]
      exact hown
    · intro p hp
      rcases List.mem_append.mp hp with hp | hp
      · exact h.notMixed.consumed p hp
      · obtain rfl := List.mem_singleton.mp hp
        rfl

theorem Inv.recvAttr {s t : System} {w : ℕ} {worker : Worker} (h : Inv s)
    (hw : s.workers w = some worker) (hs : stepReceive s w worker (.recvAttr w) = some t) :
    Inv t := by
  have hold := (h.workers w worker hw).update
  rw [stepReceive] at hs
  split at hs
  · next o fd rp hupdate =>
    rw [hupdate] at hold
    obtain ⟨rfl, rfl⟩ := hold
    split at hs
    · simp at hs
    · next d u htake =>
      generalize scanAttr d worker.locals rp = scanned at hs
      obtain rfl := Option.some.inj hs
      refine h.takeOwn hw (Worker.not_finished_of_update hupdate (by simp)) htake rfl rfl id ?_
      dsimp only
      split
      · exact ⟨rfl, rfl⟩
      · exact ⟨rfl, rfl⟩
  · simp at hs

theorem Inv.recvRecipe {s t : System} {w : ℕ} {worker : Worker} (h : Inv s)
    (hw : s.workers w = some worker) (hs : stepReceive s w worker (.recvRecipe w) = some t) :
    Inv t := by
  have hold := (h.workers w worker hw).update
  rw [stepReceive] at hs
  split at hs
  · next o sender fd ok rp hupdate =>
    rw [hupdate] at hold
    obtain ⟨rfl, rfl, rfl⟩ := hold
    split at hs
    · simp at hs
    · next d u htake =>
      obtain rfl := Option.some.inj hs
      exact h.takeOwn hw (Worker.not_finished_of_update hupdate (by simp)) htake rfl rfl id ⟨rfl, rfl⟩
  · simp at hs

theorem Inv.store {s t : System} {w : ℕ} {worker : Worker} {io : VolIO} (h : Inv s)
    (hw : s.workers w = some worker) (hs : stepStore s w worker (.store w io) = some t) :
    Inv t := by
  have hold := (h.workers w worker hw).update
  rw [stepStore] at hs
  split at hs
  · next o sender ok rp hupdate =>
    rw [hupdate] at hold
    split at hs
    · simp at hs
    · obtain rfl := Option.some.inj hs
      exact h.local (w := w) hw (Worker.not_finished_of_update hupdate (by simp)) rfl rfl id hold rfl rfl
        rfl rfl rfl rfl rfl rfl fun q x hx => .inl hx
  · simp at hs

theorem Inv.insertRow {s t : System} {w : ℕ} {worker : Worker} {inserted : Bool} (h : Inv s)
    (hw : s.workers w = some worker) (hs : stepStore s w worker (.insertRow w inserted) = some t) :
    Inv t := by
  have hold := h.workers w worker hw
  rw [stepStore] at hs
  split at hs
  · next o sender ok rp job fd hupdate hjob hfd =>
    have hown := hold.update
    rw [hupdate] at hown
    obtain ⟨rfl, rfl⟩ := hown
    obtain rfl := Option.some.inj hs
    refine h.update (w := w) hw (Worker.not_finished_of_update hupdate (by simp)) rfl rfl rfl
      (fun q hq => .inl hq) (List.prefix_refl _) ⟨hold.job, hold.begun, trivial⟩
      (fun q x hx => .inl hx) ⟨h.notMixed.consumed, h.notMixed.taken, ?_, h.notMixed.intact⟩
    intro r hr
    change r ∈ (if inserted then s.table ++ _ else s.table) at hr
    split at hr
    · rcases List.mem_append.mp hr with hr | hr
      · exact h.notMixed.table r hr
      · obtain rfl := List.mem_singleton.mp hr
        exact ⟨hold.job job hjob, rfl⟩
    · exact h.notMixed.table r hr
  · simp at hs

-- ════════════════════════════════════════════════════════════════════════
-- Whole runs
-- ════════════════════════════════════════════════════════════════════════

theorem Inv.step {s t : System} {e : Event} (h : Inv s) (hc : OwnGlobals s e)
    (hs : Sessions.step s e = some t) : Inv t := by
  -- a step of a worker is one of the steps above
  have hsplit : ∀ {w : ℕ} {f : Worker → Option System},
      (match s.workers w with
        | none => none
        | some worker => f worker) = some t →
      ∃ worker, s.workers w = some worker ∧ f worker = some t := by
    intro w f hf
    cases hw : s.workers w with
    | none => simp [hw] at hf
    | some worker => exact ⟨worker, rfl, by simpa [hw] using hf⟩
  cases e with
  | acceptRecipe c => exact h.connect (e := .acceptRecipe c) hs
  | acceptCommand c => exact h.connect (e := .acceptCommand c) hs
  | startWorker => exact h.connect (e := .startWorker) hs
  | command c m => exact h.connect (e := .command c m) hs
  | arrive c d => exact h.connect (e := .arrive c d) hs
  | begin w =>
    obtain ⟨worker, hw, hs⟩ := hsplit hs
    exact h.begin hw hs
  | finish w =>
    obtain ⟨worker, hw, hs⟩ := hsplit hs
    exact h.finish hw hc hs
  | recvHash w opened =>
    obtain ⟨worker, hw, hs⟩ := hsplit hs
    exact h.recvHash hw hs
  | pushRecipe w =>
    obtain ⟨worker, hw, hs⟩ := hsplit hs
    exact h.pushRecipe hw hc hs
  | recvLast w =>
    obtain ⟨worker, hw, hs⟩ := hsplit hs
    exact h.recvLast hw hc hs
  | popCall w =>
    obtain ⟨worker, hw, hs⟩ := hsplit hs
    exact h.popCall hw hc hs
  | pop w =>
    obtain ⟨worker, hw, hs⟩ := hsplit hs
    exact h.pop hw hs
  | attrCall w =>
    obtain ⟨worker, hw, hs⟩ := hsplit hs
    exact h.attrCall hw hc hs
  | recvAttr w =>
    obtain ⟨worker, hw, hs⟩ := hsplit hs
    exact h.recvAttr hw hs
  | recipeCall w =>
    obtain ⟨worker, hw, hs⟩ := hsplit hs
    exact h.recipeCall hw hc hs
  | recvRecipe w =>
    obtain ⟨worker, hw, hs⟩ := hsplit hs
    exact h.recvRecipe hw hs
  | store w io =>
    obtain ⟨worker, hw, hs⟩ := hsplit hs
    exact h.store hw hs
  | insertRow w inserted =>
    obtain ⟨worker, hw, hs⟩ := hsplit hs
    exact h.insertRow hw hs

/-- As long as the threads find their own values in the globals, sessions do not
mix, whatever the order of accepts, messages and steps. -/
theorem not_mixed_of_own_globals {shared : Shared} {es : List Event} {s : System}
    (h : Run Sessions.step OwnGlobals (init shared) es s) : NotMixed s :=
  (h.invariant (fun _ _ _ hinv hc hs => hinv.step hc hs) (init_inv shared)).notMixed

/-- Client `c` connects twice, and worker `w` begins its backup. -/
def connect (c w : ℕ) : List Event :=
  [.acceptCommand c, .startWorker, .acceptRecipe c, .command c .backup, .begin w]

/-- A hash goes from client `c` through the queue to the update thread of `w`. -/
def announce (c w : ℕ) (hash : Fingerprint) : List Event :=
  [.command c (.hash hash), .recvHash w true, .pushRecipe w, .popCall w, .pop w]

/-- Command and recipe of an empty new file. -/
def receiveFile (c w : ℕ) (path : Bytes) (hash : Fingerprint) : List Event :=
  [.arrive c (.whole (updateAttrMsg 0 path)), .attrCall w, .recvAttr w,
    .arrive c (.whole hash.toList), .recipeCall w, .recvRecipe w, .store w .ok, .insertRow w true]

def disconnect (c w : ℕ) : List Event :=
  [.command c .last, .recvLast w, .popCall w, .pop w, .finish w]

/-- A server without any backup. -/
def emptyServer : Shared := ⟨indexOpen [], recipeVolumeInit []⟩

/-- The backup of one file, from connecting to disconnecting. -/
def backupOne (c w : ℕ) (path : Bytes) (hash : Fingerprint) : List Event :=
  connect c w ++ announce c w hash ++ receiveFile c w path hash ++ disconnect c w

set_option maxRecDepth 4096 in
/-- Two clients one after the other. -/
theorem not_mixed_of_own_globals_two : ∃ s,
    Run Sessions.step OwnGlobals (init emptyServer)
      (backupOne 0 0 [47, 97] (fixed 20 [1]) ++ backupOne 1 1 [47, 98] (fixed 20 [2])) s ∧
      s.jobs = [0, 1] ∧ s.table.length = 2 ∧ NotMixed s := by
  obtain ⟨s, hs, hjobs, htable⟩ : ∃ s,
      execIf Sessions.step OwnGlobals (init emptyServer)
        (backupOne 0 0 [47, 97] (fixed 20 [1]) ++ backupOne 1 1 [47, 98] (fixed 20 [2])) = some s ∧
      s.jobs = [0, 1] ∧ s.table.length = 2 := ⟨_, rfl, rfl, rfl⟩
  have hrun := run_of_execIf hs
  exact ⟨s, hrun, hjobs, htable, not_mixed_of_own_globals hrun⟩

/-- Client 1 connects between hash and command of a file of client 0; then its own
session starts, and pops what the session of client 0 pushes. -/
def twoAtOnce : List Event :=
  connect 0 0 ++ announce 0 0 (fixed 20 [1]) ++ connect 1 1 ++
    receiveFile 1 0 [47, 98] (fixed 20 [2]) ++
    [.command 0 (.hash (fixed 20 [3])), .recvHash 0 true, .pushRecipe 0, .popCall 1, .pop 1]

set_option maxRecDepth 4096 in
/-- Session 0 takes the command of client 1 and records its path with a hash of
client 0, and session 1 takes a recipe of session 0. -/
theorem sessions_mixed : ∃ s,
    Run Sessions.step (fun _ _ => True) (init emptyServer) twoAtOnce s ∧
      (0, 1) ∈ s.consumed ∧ (1, 0) ∈ s.taken ∧
      s.table = [⟨⟨0, [47, 98], fixed 20 [1]⟩, 0, 1⟩] ∧ ¬ NotMixed s := by
  obtain ⟨s, hs, hconsumed, htaken, htable⟩ : ∃ s,
      exec Sessions.step (init emptyServer) twoAtOnce = some s ∧
      s.consumed = [(0, 1), (0, 1)] ∧ s.taken = [(0, 0), (1, 0)] ∧
      s.table = [⟨⟨0, [47, 98], fixed 20 [1]⟩, 0, 1⟩] := ⟨_, rfl, rfl, rfl, rfl⟩
  refine ⟨s, run_of_exec hs, by simp [hconsumed], by simp [htaken], htable, ?_⟩
  intro hnot
  have := hnot.taken (1, 0) (by simp [htaken])
  simp at this

end TCBackup.Pipeline.Sessions
