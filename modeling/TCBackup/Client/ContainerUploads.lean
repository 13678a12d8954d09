import TCBackup.Client.Cloud
import TCBackup.Client.StoreRuns

/-!
# Containers on the way to the cloud (`client/src/store.c`, `client/cloud/cloud.c`)

The thread that backs up writes one container after the other and passes each name on, while the
other thread uploads. A container is on the disk before its name is passed on.

## Main definitions

- `CloudBackup`, `CloudBackup.step` — the store and the queue of names
- `Order` — what the two threads do next

## Main results

- `Follows.step` — the calls of a backup are those of `Program`
- `containers_uploaded` — what has been uploaded is on the disk, and in the end it is all
-/

namespace TCBackup.Client.Cloud

open ByteFile Monitor Queues ContainerNames

/-- A backup and its upload thread. -/
structure CloudBackup where
  run : Client.Run
  closed : Bool
  queue : System

inductive BackupEvent
  | storeChunk (chunk : Chunk)
  | storeDestory
  | queue (e : Event Party (Call Bytes))

namespace CloudBackup

/-- After `store_init`. -/
def start (clock : ℕ → ℤ) (d : Disk) (n : Names) (eles : ℕ → Ele Bytes) : CloudBackup :=
  ⟨Run.start clock d n, false, init (syncQueueNew eles)⟩

def step (clock : ℕ → ℤ) (b : CloudBackup) : BackupEvent → Option CloudBackup
  | .storeChunk chunk => some { b with run := b.run.step clock chunk }
  | .storeDestory => some { b with closed := true }
  | .queue e => (Monitor.step Queues.start body b.queue e).map fun q => { b with queue := q }

def disk (b : CloudBackup) : Disk := if b.closed then Client.storeDestory b.run.store else b.run.store.disk

/-- The containers that `WriteContainer` has got. -/
def written (b : CloudBackup) : List Container :=
  if b.closed then b.run.containers.filter fun c => 0 < c.chunk_num else b.run.replaced

/-- What has been passed to `cloud_upload`, or is next. -/
def uploads (b : CloudBackup) : List Bytes :=
  b.written.map (fun c => cstr c.name) ++ if b.closed then [endName] else []

/-- `store_chunk` and `store_destory` return when the calls of `cloud_upload` have returned. -/
def Between (b : CloudBackup) : Prop :=
  b.closed = false ∧ (accepted b.queue.returned).length = b.uploads.length

/-- What the threads do next, where memory suffices. -/
def Order (b : CloudBackup) : BackupEvent → Prop
  | .storeChunk chunk => chunk.Sized ∧ b.Between
  | .storeDestory => b.Between
  | .queue (.call .main op) => ∃ name, b.uploads[(accepted b.queue.returned).length]? = some name ∧
      op = .push (some name) true
  | .queue (.call .upload op) => op = .pop ∧ endName ∉ taken b.queue.returned
  | .queue _ => True

/-- Nothing can be stored, and neither thread can go on. -/
def Done (b : CloudBackup) : Prop :=
  ¬b.Between ∧ Resting Queues.start body b.queue ∧
    ∀ i op, b.Order (.queue (.call i op)) → Monitor.step Queues.start body b.queue (.call i op) = none

end CloudBackup

variable {clock : ℕ → ℤ} {d : Disk} {n : Names} {eles : ℕ → Ele Bytes} {b b' : CloudBackup} {r : Client.Run}
  {calls : List NameCall} {chunk : Chunk}

/-- Every container of a run has a name of its own call. -/
structure Named (n : Names) (r : Client.Run) : Prop where
  grown : Extends n r.store.names
  names : r.containers.map Container.name = (issued n r.store.names).map NameCall.name

theorem named_start (clock : ℕ → ℤ) (d : Disk) (n : Names) : Named n (Run.start clock d n) := by
  refine ⟨extends_init clock n, ?_⟩
  have hissued : issued n (initContainer clock n).2 = [nextCall clock n] := by simp [issued]
  show [(initContainer clock n).1.name] = (issued n (initContainer clock n).2).map NameCall.name
  rw [hissued, ContainerNames.initContainer_name, List.map_singleton]

theorem Named.step (h : Named n r) (chunk : Chunk) : Named n (r.step clock chunk) := by
  have hnames := h.names
  rw [Run.containers, List.map_append, List.map_singleton] at hnames
  cases hfull : containerFull r.store.container chunk.length with
  | false =>
    have hstore := congrArg Prod.snd (storeChunk_room clock hfull)
    dsimp only at hstore
    refine ⟨?_, ?_⟩
    · rw [Run.step, hstore]
      exact h.grown
    · rw [Run.containers, Run.step, hstore, hfull, if_neg Bool.false_ne_true, List.map_append, List.map_singleton]
      exact hnames
  | true =>
    have hstore := congrArg Prod.snd (storeChunk_full clock hfull)
    dsimp only at hstore
    have hissued : issued n (initContainer clock r.store.names).2 =
        issued n r.store.names ++ [nextCall clock r.store.names] := by
      rw [issued, initContainer_calls, h.grown.calls, List.append_assoc, List.drop_left]
    have hopen : (storeChunk clock r.store chunk).2.container.name = (nextCall clock r.store.names).name := by
      rw [hstore, appendChunkToContainer_name, ContainerNames.initContainer_name]
    have hcalls : (storeChunk clock r.store chunk).2.names = (initContainer clock r.store.names).2 := by
      rw [hstore]
    refine ⟨?_, ?_⟩
    · rw [Run.step, hcalls]
      exact h.grown.trans (extends_init clock _)
    · rw [Run.containers, Run.step, if_pos hfull, List.map_append, List.map_append, List.map_singleton,
        List.map_singleton, hnames, hopen, hcalls, hissued, List.map_append, List.map_singleton]

/-- The names of some of the containers are texts of calls. -/
theorem Named.texts (h : Named n r) {cs : List Container} (hcs : cs.Sublist r.containers) :
    ∃ calls : List NameCall, cs.map (fun c => cstr c.name) = calls.map NameCall.text := by
  have hsub := hcs.map Container.name
  rw [h.names] at hsub
  obtain ⟨calls, hcalls, hnames⟩ := List.sublist_map_iff.mp hsub
  refine ⟨calls, ?_⟩
  have htext : ∀ call ∈ calls, cstr call.name = call.text :=
    fun call hcall => cstr_name (h.grown.isInt (hcalls.subset hcall))
  calc cs.map (fun c => cstr c.name) = (cs.map Container.name).map (fun name => cstr name) := by
        rw [List.map_map]
        rfl
    _ = calls.map (fun call => cstr call.name) := by
        rw [hnames, List.map_map]
        rfl
    _ = calls.map NameCall.text := List.map_congr_left htext

namespace CloudBackup

theorem written_sublist (b : CloudBackup) : b.written.Sublist b.run.containers := by
  rw [written]
  split
  · exact List.filter_sublist
  · exact List.sublist_append_left _ _

theorem containerNames_map (cs : List Container) :
    containerNames (cs.map containerWrite) = cs.map fun c => cstr c.name := by
  induction cs with
  | nil => rfl
  | cons c cs ih =>
    rw [List.map_cons, List.map_cons, ← ih]
    rfl

theorem disk_names {chunks : List Chunk} (h : Filled d chunks b.run) :
    containerNames b.disk.log = containerNames d.log ++ b.written.map fun c => cstr c.name := by
  rw [← containerNames_map, ← containerNames_append, disk, written]
  split
  · rw [h.log_storeDestory]
  · rw [h.log]

theorem uploads_storeChunk (hclosed : b.closed = false) :
    b.uploads <+: uploads { b with run := b.run.step clock chunk } := by
  have hreplaced : b.run.replaced <+: (b.run.step clock chunk).replaced := by
    rw [Run.step]
    dsimp only
    split
    · exact List.prefix_append _ _
    · exact List.prefix_rfl
  simp only [uploads, written, hclosed, Bool.false_eq_true, if_false, List.append_nil]
  exact hreplaced.map _

theorem uploads_storeDestory {chunks : List Chunk} (h : Filled d chunks b.run) (hclosed : b.closed = false) :
    b.uploads <+: uploads { b with closed := true } := by
  have hreplaced : b.run.replaced <+: b.run.containers.filter fun c => 0 < c.chunk_num := by
    rw [Run.containers, List.filter_append, List.filter_eq_self.mpr fun c hc => decide_eq_true (h.used c hc)]
    exact List.prefix_append _ _
  simp only [uploads, written, hclosed, Bool.false_eq_true, if_false, if_true, List.append_nil]
  exact (hreplaced.map _).trans (List.prefix_append _ _)

/-- What is passed on has been foreseen. -/
theorem Order.program {e : Event Party (Call Bytes)} (h : b.Order (.queue e))
    (hcalls : b.uploads <+: uploadCalls calls) : Program calls b.queue e := by
  cases e with
  | call i op =>
    cases i with
    | main =>
      obtain ⟨name, hname, hop⟩ := h
      obtain ⟨rest, hrest⟩ := hcalls
      obtain ⟨hlt, -⟩ := List.getElem?_eq_some_iff.mp hname
      refine ⟨name, ?_, hop⟩
      rw [← hrest, List.getElem?_append_left hlt]
      exact hname
    | upload => exact h
  | lock i => trivial
  | act i => trivial
  | wake i => trivial

theorem Done.finished (h : b.Done) (hcalls : b.uploads = uploadCalls calls) : Finished calls b.queue := by
  refine ⟨h.2.1, fun i op hprogram => h.2.2 i op ?_⟩
  cases i with
  | main =>
    obtain ⟨name, hname, hop⟩ := hprogram
    exact ⟨name, by rw [hcalls, hname], hop⟩
  | upload => exact hprogram

end CloudBackup

/-- What holds at all times. Whatever containers are still to come, the two threads run the
`Program` of their names. -/
structure Follows (d : Disk) (n : Names) (eles : ℕ → Ele Bytes) (b : CloudBackup) : Prop where
  filled : ∃ chunks, Filled d chunks b.run
  named : Named n b.run
  program : ∀ calls, b.uploads <+: uploadCalls calls → ∃ es,
    Labelled.Run (Monitor.step Queues.start body) (Program calls) (init (syncQueueNew eles)) es b.queue

theorem follows_start (clock : ℕ → ℤ) (d : Disk) (n : Names) (eles : ℕ → Ele Bytes) :
    Follows d n eles (.start clock d n eles) :=
  ⟨⟨[], filled_start d n⟩, named_start clock d n, fun _ _ => ⟨[], .nil _⟩⟩

theorem Follows.step {e : BackupEvent} (h : Follows d n eles b) (horder : b.Order e)
    (hstep : b.step clock e = some b') : Follows d n eles b' := by
  obtain ⟨chunks, hfilled⟩ := h.filled
  cases e with
  | storeChunk chunk =>
    obtain ⟨hsized, hclosed, -⟩ := horder
    obtain rfl := Option.some.inj hstep
    exact ⟨⟨_, hfilled.step hsized⟩, h.named.step chunk,
      fun calls hcalls => h.program calls ((CloudBackup.uploads_storeChunk hclosed).trans hcalls)⟩
  | storeDestory =>
    obtain ⟨hclosed, -⟩ := horder
    obtain rfl := Option.some.inj hstep
    exact ⟨⟨_, hfilled⟩, h.named,
      fun calls hcalls => h.program calls ((CloudBackup.uploads_storeDestory hfilled hclosed).trans hcalls)⟩
  | queue e =>
    obtain ⟨q, hq, rfl⟩ := Option.map_eq_some_iff.mp hstep
    refine ⟨⟨_, hfilled⟩, h.named, fun calls hcalls => ?_⟩
    obtain ⟨es, hrun⟩ := h.program calls hcalls
    exact ⟨_, hrun.snoc (horder.program hcalls) hq⟩

/-- The queue, whatever containers are still to come. -/
theorem Follows.running (h : Follows d n eles b) :
    ∃ calls : List NameCall, b.written.map (fun c => cstr c.name) = calls.map NameCall.text ∧
      ∀ more, (b.closed = true → more = []) → b.written.length + more.length + 1 < 2 ^ 31 →
        Running (uploadCalls (calls ++ more)) b.queue := by
  obtain ⟨calls, hnames⟩ := h.named.texts b.written_sublist
  refine ⟨calls, hnames, fun more hmore hfew => ?_⟩
  have hlength := congrArg List.length hnames
  rw [List.length_map, List.length_map] at hlength
  have hl : (uploadCalls (calls ++ more)).length < 2 ^ 31 := by
    rw [uploadCalls, List.length_append, List.length_map, List.length_append, ← hlength]
    exact hfew
  have hcalls : b.uploads <+: uploadCalls (calls ++ more) := by
    rw [CloudBackup.uploads, uploadCalls, hnames, List.map_append, List.append_assoc,
      List.prefix_append_right_inj]
    split
    · next hclosed =>
      rw [hmore hclosed]
      exact List.prefix_rfl
    · exact List.nil_prefix
  obtain ⟨es, hrun⟩ := h.program _ hcalls
  exact running_of_run hl hrun

/-- As long as another container may come, `"end"` has not been passed on. -/
theorem Follows.accepted_le (h : Follows d n eles b) (hopen : b.closed = false)
    (hfew : b.written.length + 2 < 2 ^ 31) : (accepted b.queue.returned).length ≤ b.uploads.length := by
  obtain ⟨calls, hnames, hrunning⟩ := h.running
  have huploads : b.uploads = calls.map NameCall.text := by
    simp [CloudBackup.uploads, hopen, hnames]
  have hlast := (hrunning [] (fun _ => rfl) (Nat.lt_of_succ_lt hfew)).main.front
  have hmore := (hrunning [⟨0, 0⟩] (fun hclosed => absurd (hopen.symm.trans hclosed) Bool.false_ne_true)
    hfew).main.front
  -- the next name cannot be both "end" and that of a container
  by_contra hlt
  have hnext := (hlast.getElem (not_le.mp hlt)).symm.trans (hmore.getElem (not_le.mp hlt))
  have hend : endName = NameCall.text ⟨0, 0⟩ := by
    simpa [uploadCalls, huploads, List.getElem_append] using hnext
  exact endName_notMem [⟨0, 0⟩] (List.mem_singleton.mpr hend)

/-- Before that, the thread that backs up can always go on. -/
theorem Follows.closed (h : Follows d n eles b) (hfew : b.written.length + 2 < 2 ^ 31) (hdone : b.Done) :
    b.closed = true := by
  by_contra hopen
  rw [Bool.not_eq_true] at hopen
  refine hdone.1 ⟨hopen, (h.accepted_le hopen hfew).antisymm (not_lt.mp fun hlt => ?_)⟩
  obtain ⟨calls, -, hrunning⟩ := h.running
  have hmain := (hrunning [] (fun _ => rfl) (Nat.lt_of_succ_lt hfew)).main_out hdone.2.1
  have hbad := hdone.2.2 .main _ ⟨_, List.getElem?_eq_getElem hlt, rfl⟩
  rw [step_call hmain] at hbad
  cases hbad

/-- Whatever the order of the threads, the containers that have been uploaded are on the disk, the
first ones of the backup. The backup only stops when the store is closed, both threads have finished,
and these are all containers of the backup. -/
theorem containers_uploaded (clock : ℕ → ℤ) (d : Disk) (n : Names) (eles : ℕ → Ele Bytes)
    {es : List BackupEvent} {b : CloudBackup}
    (h : Labelled.Run (CloudBackup.step clock) CloudBackup.Order (.start clock d n eles) es b)
    (hfew : b.written.length + 2 < 2 ^ 31) :
    ∃ later, containerNames b.disk.log = containerNames d.log ++ (uploaded b.queue ++ later) ∧
      (b.Done → later = [] ∧ b.closed = true ∧ b.queue.thread .main = .out ∧
        b.queue.thread .upload = .out) := by
  have hfollows : Follows d n eles b :=
    h.invariant (fun _ _ _ hb horder hstep => hb.step horder hstep) (follows_start clock d n eles)
  obtain ⟨chunks, hfilled⟩ := hfollows.filled
  obtain ⟨calls, hnames, hall⟩ := hfollows.running
  have hrunning := hall [] (fun _ => rfl) (Nat.lt_of_succ_lt hfew)
  rw [List.append_nil] at hrunning
  have hlength := congrArg List.length hnames
  rw [List.length_map, List.length_map] at hlength
  have hl : (uploadCalls calls).length < 2 ^ 31 := by
    rw [uploadCalls, List.length_append, List.length_map, ← hlength]
    exact Nat.lt_of_succ_lt hfew
  obtain ⟨later, hlater⟩ := hrunning.uploaded_front hl
  refine ⟨later, ?_, fun hdone => ?_⟩
  · rw [CloudBackup.disk_names hfilled, hnames, hlater]
  · have hclosed := hfollows.closed hfew hdone
    have huploads : b.uploads = uploadCalls calls := by
      rw [CloudBackup.uploads, uploadCalls, hnames, hclosed, if_pos rfl]
    obtain ⟨hmain, hupload, heq⟩ := hrunning.uploaded_all hl (hdone.finished huploads)
    rw [heq, List.append_right_eq_self] at hlater
    exact ⟨hlater, hclosed, hmain, hupload⟩

/-- One chunk is stored, and its container is passed on and uploaded. -/
def oneUpload : List BackupEvent :=
  [.storeChunk (oneByte 7), .storeDestory] ++
  (uploadCalls [⟨0, 2⟩]).flatMap (fun name =>
    [.queue (.call .main (.push (some name) true)), .queue (.lock .main), .queue (.act .main),
      .queue (.act .main), .queue (.act .main)]) ++
  (uploadCalls [⟨0, 2⟩]).flatMap fun _ =>
    [.queue (.call .upload .pop), .queue (.lock .upload), .queue (.act .upload), .queue (.act .upload),
      .queue (.act .upload)]

instance : Decidable b.Between := inferInstanceAs (Decidable (_ ∧ _))

instance (b : CloudBackup) (e : BackupEvent) : Decidable (b.Order e) :=
  match e with
  | .storeChunk chunk =>
    decidable_of_iff ((chunk.data.length = chunk.length ∧ chunk.length ≤ maxChunkLength) ∧ b.Between)
      (and_congr_left' ⟨fun h => ⟨h.1, h.2⟩, fun h => ⟨h.data, h.le⟩⟩)
  | .storeDestory => inferInstanceAs (Decidable b.Between)
  | .queue (.call .main op) =>
    decidable_of_iff
      ((b.uploads[(accepted b.queue.returned).length]?).map (fun name => Call.push (some name) true) =
        some op) (by
          rw [Option.map_eq_some_iff]
          exact exists_congr fun name => and_congr_right' eq_comm)
  | .queue (.call .upload op) => inferInstanceAs (Decidable (op = .pop ∧ endName ∉ taken b.queue.returned))
  | .queue (.lock _) => .isTrue trivial
  | .queue (.act _) => .isTrue trivial
  | .queue (.wake _) => .isTrue trivial

theorem containers_uploaded_one : ∃ b : CloudBackup,
    Labelled.Run (CloudBackup.step fun _ => 0) CloudBackup.Order
      (.start (fun _ => 0) .empty ⟨1, []⟩ fun _ => ⟨none, none⟩) oneUpload b ∧
    containerNames b.disk.log = [NameCall.text ⟨0, 2⟩] ∧ uploaded b.queue = [NameCall.text ⟨0, 2⟩] := by
  have hend : (Labelled.execIf (CloudBackup.step fun _ => 0) CloudBackup.Order
      (.start (fun _ => 0) .empty ⟨1, []⟩ fun _ => ⟨none, none⟩) oneUpload).map (fun b : CloudBackup =>
        (b.closed && (b.queue.thread .main).isOut && (b.queue.thread .upload).isOut,
          [b.uploads, accepted b.queue.returned, taken b.queue.returned])) =
      some (true, List.replicate 3 (uploadCalls [⟨0, 2⟩])) := by decide +kernel
  obtain ⟨b, hb, heq⟩ := Option.map_eq_some_iff.mp hend
  simp only [Prod.mk.injEq, Bool.and_eq_true, List.replicate_succ, List.replicate_zero, List.cons.injEq,
    and_true] at heq
  obtain ⟨⟨⟨hclosed, hmain⟩, hupload⟩, huploads, haccepted, htaken⟩ := heq
  have hout : ∀ i, b.queue.thread i = .out := by
    rintro (_ | _)
    · exact Thread.eq_out hmain
    · exact Thread.eq_out hupload
  have hrun := Labelled.run_of_execIf hb
  have hdone : b.Done := by
    refine ⟨fun h => absurd (hclosed.symm.trans h.1) (by decide), resting_of_out hout, fun i op horder => ?_⟩
    cases i with
    | main =>
      obtain ⟨name, hname, -⟩ := horder
      rw [huploads, haccepted, List.getElem?_eq_none le_rfl] at hname
      cases hname
    | upload => exact absurd (htaken ▸ List.mem_append_right _ (List.mem_singleton.mpr rfl)) horder.2
  have hwritten : b.written.length = 1 := by
    have hlength := congrArg List.length huploads
    rw [CloudBackup.uploads, hclosed, if_pos rfl, List.length_append, List.length_map] at hlength
    exact Nat.succ.inj hlength
  have huploaded : uploaded b.queue = [NameCall.text ⟨0, 2⟩] := by
    rw [uploaded, htaken]
    decide +kernel
  obtain ⟨later, hall, hlater⟩ := containers_uploaded (fun _ => 0) .empty ⟨1, []⟩ _ hrun
    (by rw [hwritten]; decide)
  obtain ⟨rfl, -⟩ := hlater hdone
  refine ⟨b, hrun, ?_, huploaded⟩
  rw [hall, huploaded]
  rfl

end TCBackup.Client.Cloud
