import TCBackup.Client.ContainerNames
import TCBackup.SyncQueue

/-!
# Uploading containers (`client/cloud/cloud.c`)

`WriteContainer` passes the name of a container to `cloud_upload`, which pushes it to
`upload_queue`. Another thread pops the names and uploads the files. `store_destory` pushes
`"end"` and waits for that thread.

## Main definitions

- `Program` — the calls of the two threads
- `uploaded` — the names that `put_to_cloud` gets

## Main results

- `uploads_complete` — every container is uploaded once
-/

namespace TCBackup.Client.Cloud

open ByteFile Labelled Monitor Queues

/-- The thread that backs up, and `handle_upload`. -/
inductive Party
  | main
  | upload
  deriving DecidableEq

abbrev System := State Party (SyncQueue Bytes) (Pc Bytes) (Queues.Result Bytes)

/-- `"end"` -/
def endName : Bytes := [101, 110, 100]

/-- What a process passes to `cloud_upload`: the names of its containers, and then, from
`cloud_upload_destory`, `"end"`. -/
def uploadCalls (calls : List NameCall) : List Bytes := calls.map NameCall.text ++ [endName]

/-- The calls of the threads, where memory suffices: one name after the other, and a pop after the
other until `"end"` comes. -/
def Program (calls : List NameCall) (s : System) : Event Party (Call Bytes) → Prop
  | .call .main op => ∃ name, (uploadCalls calls)[(accepted s.returned).length]? = some name ∧
      op = .push (some name) true
  | .call .upload op => op = .pop ∧ endName ∉ taken s.returned
  | _ => True

/-- The names that `handle_upload` passes to `put_to_cloud`. -/
def uploaded (s : System) : List Bytes := (taken s.returned).takeWhile (· ≠ endName)

/-- Where the thread is that pushes, after the names `acc`. -/
def MainAt (l acc : List Bytes) : Thread (Pc Bytes) → Prop
  | .out => acc <+: l
  | .ready (.push (some name) true) => acc ++ [name] <+: l
  | .inside (.push (some name) true) => acc ++ [name] <+: l
  | .inside (.signal (.pushed (some name))) => acc ++ [name] <+: l
  | .inside (.leave (.pushed (some name))) => acc ++ [name] <+: l
  | _ => False

/-- Where `handle_upload` is, after the names `got`. -/
def UploadAt (got : List Bytes) : Thread (Pc Bytes) → Prop
  | .out => True
  | .ready .pop => endName ∉ got
  | .ready .take => endName ∉ got
  | .inside .pop => endName ∉ got
  | .inside .take => endName ∉ got
  | .inside (.popped _) => endName ∉ got
  | .asleep .take => endName ∉ got
  | _ => False

/-- What holds in all states of the two threads. -/
structure Running (l : List Bytes) (s : System) : Prop where
  kept : Monitor.Kept Inv Ready Due Idle s
  valid : s.shared.valid = syncQueueValid
  allocated : s.shared.allocated = (accepted s.returned ++ adding s.pc).length
  main : MainAt l (accepted s.returned) (s.thread .main)
  upload : UploadAt (taken s.returned) (s.thread .upload)

variable {calls : List NameCall} {l acc got : List Bytes} {s t : System} {th : Thread (Pc Bytes)}
  {q q' : SyncQueue Bytes} {element : Option Bytes} {malloc : Bool} {k : Pc Bytes}

-- ════════════════════════════════════════════════════════════════════════
-- The names
-- ════════════════════════════════════════════════════════════════════════

/-- No container is called `end`. -/
theorem endName_notMem (calls : List NameCall) : endName ∉ calls.map NameCall.text := by
  intro hmem
  obtain ⟨c, -, hc⟩ := List.mem_map.mp hmem
  have hlength := congrArg List.length hc
  rw [NameCall.text, List.length_append, ContainerNames.length_second] at hlength
  simp [endName] at hlength
  omega

/-- What comes before `end` among the first names. -/
theorem takeWhile_front {names : List Bytes} (hend : endName ∉ names) (h : l <+: names ++ [endName]) :
    l.takeWhile (· ≠ endName) <+: names ∧
      (endName ∈ l → l = names ++ [endName]) := by
  have hnames : ∀ x ∈ names, decide (x ≠ endName) = true := by
    intro x hx
    rw [decide_eq_true_eq]
    rintro rfl
    exact hend hx
  rcases List.prefix_concat_iff.mp h with rfl | hfront
  · refine ⟨?_, fun _ => rfl⟩
    rw [List.takeWhile_append_of_pos hnames]
    simp
  · refine ⟨(List.takeWhile_prefix _).trans hfront, fun hmem => absurd (hfront.subset hmem) hend⟩

-- ════════════════════════════════════════════════════════════════════════
-- One step
-- ════════════════════════════════════════════════════════════════════════

theorem MainAt.front (h : MainAt l acc th) : acc <+: l := by
  rw [MainAt.eq_def] at h
  split at h
  · exact h
  · exact (List.prefix_append _ _).trans h
  · exact (List.prefix_append _ _).trans h
  · exact (List.prefix_append _ _).trans h
  · exact (List.prefix_append _ _).trans h
  · exact h.elim

theorem UploadAt.woken (h : UploadAt got th) : UploadAt got th.woken := by
  cases th with
  | asleep k =>
    cases k with
    | take => exact h
    | _ => exact h.elim
  | _ => exact h

theorem front_next {name : Bytes} (h : acc <+: l) (hname : l[acc.length]? = some name) :
    acc ++ [name] <+: l := by
  obtain ⟨rest, rfl⟩ := h
  rw [List.getElem?_append_right le_rfl, Nat.sub_self] at hname
  cases rest with
  | nil => cases hname
  | cons b rest =>
    obtain rfl : b = name := Option.some.inj hname
    exact ⟨rest, by simp⟩

/-- The pushes are the calls of the thread that backs up. -/
theorem Running.pushed (h : Running l s) : accepted s.returned ++ adding s.pc <+: l := by
  have hfront := h.main.front
  cases howner : s.owner with
  | none =>
    rw [pc_of_free howner]
    simpa [adding] using hfront
  | some i =>
    obtain ⟨k, hk⟩ := h.kept.owner i howner
    rw [pc_of_inside howner hk]
    cases i with
    | main =>
      have hmain := h.main
      rw [hk, MainAt.eq_def] at hmain
      split at hmain
      · next heq => cases heq
      · next heq => cases heq
      · next heq =>
        obtain rfl := Thread.inside.inj heq
        simpa [adding] using hfront
      · next heq =>
        obtain rfl := Thread.inside.inj heq
        exact hmain
      · next heq =>
        obtain rfl := Thread.inside.inj heq
        exact hmain
      · exact hmain.elim
    | upload =>
      have hupload := h.upload
      rw [hk] at hupload
      have hnil : adding (some k) = [] := by
        cases k with
        | signal | leave => exact hupload.elim
        | _ => rfl
      rw [hnil, List.append_nil]
      exact hfront

/-- Every element of the queue stands for a call. -/
theorem Running.few (h : Running l s) : s.shared.allocated ≤ l.length := by
  rw [h.allocated]
  exact h.pushed.length_le

theorem Running.taken_front (hl : l.length < 2 ^ 31) (h : Running l s) : taken s.returned <+: l := by
  obtain ⟨_, -, -, hlists⟩ := h.kept.inv (h.few.trans_lt hl)
  refine List.IsPrefix.trans ?_ h.pushed
  rw [hlists, List.append_assoc]
  exact List.prefix_append _ _

theorem running_init (l : List Bytes) (eles : ℕ → Ele Bytes) : Running l (init (syncQueueNew eles)) where
  kept := kept_init fun _ => ⟨[], holds_new eles, trivial, rfl⟩
  valid := rfl
  allocated := rfl
  main := List.nil_prefix
  upload := trivial

/-- The thread that backs up goes on in a call. -/
theorem Running.act_main (hl : l.length < 2 ^ 31) (h : Running l s) (hi : s.thread .main = .inside k)
    (hkept : Monitor.Kept Inv Ready Due Idle (s.turn .main (body k s.shared))) :
    Running l (s.turn .main (body k s.shared)) := by
  have hmain := h.main
  rw [hi] at hmain
  have howner := h.kept.inside _ _ hi
  have hpc := pc_of_inside howner hi
  have halloc := h.allocated
  rw [hpc] at halloc
  have hother : Party.upload ≠ Party.main := by decide
  cases k with
  | push element malloc =>
    have hinv := h.kept.inv
    rw [hpc] at hinv
    cases element with
    | none => exact hmain.elim
    | some name =>
      cases malloc with
      | false => exact hmain.elim
      | true =>
        cases hpush : queuePush s.shared (some name) true with
        | none => exact absurd hpush ((hinv.no_fault (h.few.trans_lt hl)).1 _ _)
        | some q' =>
          have hturn : body (.push (some name) true) s.shared =
              .go q' (.signal (.pushed (some name))) := by
            rw [body, if_neg (not_not.mpr h.valid), hpush]
            rfl
          rw [hturn] at hkept ⊢
          have hallocated := queuePush_allocated hpush
          refine ⟨hkept, (queuePush_valid hpush).trans h.valid, ?_, ?_, ?_⟩
          · rw [pc_turn_go howner]
            have hlength : (adding (some (Pc.signal (.pushed (some name))))).length = 1 := rfl
            rw [List.length_append, hlength]
            rw [List.length_append] at halloc
            change q'.allocated = (accepted s.returned).length + 1
            rw [hallocated, halloc]
            rfl
          · rw [State.turn, set_thread_self]
            exact hmain
          · rw [State.turn, set_thread_of_ne hother]
            exact h.upload
  | signal r =>
    rw [body] at hkept ⊢
    refine ⟨hkept, h.valid, ?_, ?_, ?_⟩
    · rw [pc_turn_broadcast howner]
      exact halloc
    · rw [State.turn, set_thread_self]
      cases r with
      | pushed element =>
        cases element with
        | none => exact hmain.elim
        | some name => exact hmain
      | _ => exact hmain.elim
    · rw [State.turn, set_thread_of_ne hother]
      exact h.upload.woken
  | leave r =>
    rw [body] at hkept ⊢
    cases r with
    | pushed element =>
      cases element with
      | none => exact hmain.elim
      | some name =>
        have haccepted : accepted (s.returned ++
            [((Party.main : Party), (Queues.Result.pushed (some name) : Queues.Result Bytes))]) =
              accepted s.returned ++ [name] := by simp [accepted, Queues.Result.added]
        have htaken : taken (s.returned ++
            [((Party.main : Party), (Queues.Result.pushed (some name) : Queues.Result Bytes))]) =
              taken s.returned := by simp [taken, Queues.Result.got]
        refine ⟨hkept, h.valid, ?_, ?_, ?_⟩
        · have hnew := congrArg List.length haccepted
          rw [pc_of_free rfl]
          simp only [State.turn, set_shared, set_returned, adding, List.append_nil]
          rw [hnew]
          exact halloc
        · rw [State.turn, set_thread_self]
          simp only [set_returned]
          rw [haccepted]
          exact hmain
        · rw [State.turn, set_thread_of_ne hother]
          simp only [set_returned]
          rw [htaken]
          exact h.upload
    | _ => exact hmain.elim
  | _ => exact hmain.elim

/-- `handle_upload` goes on in a pop. -/
theorem Running.act_upload (hl : l.length < 2 ^ 31) (h : Running l s)
    (hi : s.thread .upload = .inside k)
    (hkept : Monitor.Kept Inv Ready Due Idle (s.turn .upload (body k s.shared))) :
    Running l (s.turn .upload (body k s.shared)) := by
  have hupload := h.upload
  rw [hi] at hupload
  have howner := h.kept.inside _ _ hi
  have hpc := pc_of_inside howner hi
  have halloc := h.allocated
  rw [hpc] at halloc
  have hother : Party.main ≠ Party.upload := by decide
  cases k with
  | pop =>
    have hturn : body .pop s.shared = .go s.shared .take := by
      rw [body, if_neg (not_not.mpr h.valid)]
    rw [hturn] at hkept ⊢
    refine ⟨hkept, h.valid, ?_, ?_, ?_⟩
    · rw [pc_turn_go howner]
      exact halloc
    · rw [State.turn, set_thread_of_ne hother]
      exact h.main
    · rw [State.turn, set_thread_self]
      exact hupload
  | take =>
    have hinv := h.kept.inv
    rw [hpc] at hinv
    cases hpop : queuePop s.shared with
    | none => exact absurd hpop (hinv.no_fault (h.few.trans_lt hl)).2
    | some p =>
      obtain ⟨element, q'⟩ := p
      have hturn : body .take s.shared = .go q' (.popped element) := by rw [body, hpop]
      rw [hturn] at hkept ⊢
      refine ⟨hkept, (queuePop_valid hpop).trans h.valid, ?_, ?_, ?_⟩
      · rw [pc_turn_go howner]
        exact (queuePop_idle hpop).1.trans halloc
      · rw [State.turn, set_thread_of_ne hother]
        exact h.main
      · rw [State.turn, set_thread_self]
        exact hupload
  | popped element =>
    cases element with
    | none =>
      rw [body] at hkept ⊢
      refine ⟨hkept, h.valid, ?_, ?_, ?_⟩
      · rw [pc_of_free rfl]
        exact halloc
      · rw [State.turn, set_thread_of_ne hother]
        exact h.main
      · rw [State.turn, set_thread_self]
        exact hupload
    | some name =>
      rw [body] at hkept ⊢
      have haccepted :
          accepted (s.returned ++
            [((Party.upload : Party), (Queues.Result.popped (some name) : Queues.Result Bytes))]) =
              accepted s.returned := by simp [accepted, Queues.Result.added]
      refine ⟨hkept, h.valid, ?_, ?_, ?_⟩
      · rw [pc_of_free rfl]
        simp only [State.turn, set_shared, set_returned]
        rw [haccepted]
        exact halloc
      · rw [State.turn, set_thread_of_ne hother]
        simp only [set_returned]
        rw [haccepted]
        exact h.main
      · rw [State.turn, set_thread_self]
        trivial
  | _ => exact hupload.elim

/-- A thread that does not have the mutex comes to wait for it. -/
theorem Running.toReady {i : Party} (h : Running l s) (hi : ∀ k, s.thread i ≠ .inside k) (hready : Ready k)
    (hmain : i = .main → MainAt l (accepted s.returned) (.ready k))
    (hupload : i = .upload → UploadAt (taken s.returned) (.ready k)) : Running l (s.set i (.ready k)) := by
  refine ⟨h.kept.toReady hi hready, h.valid, ?_, ?_, ?_⟩
  · rw [h.kept.pc_set hi]
    exact h.allocated
  · cases i with
    | main =>
      rw [set_thread_self]
      exact hmain rfl
    | upload =>
      rw [set_thread_of_ne (by decide)]
      exact h.main
  · cases i with
    | main =>
      rw [set_thread_of_ne (by decide)]
      exact h.upload
    | upload =>
      rw [set_thread_self]
      exact hupload rfl

theorem Running.lock {i : Party} (h : Running l s) (hi : s.thread i = .ready k) (howner : s.owner = none)
    (hkept : Monitor.Kept Inv Ready Due Idle ({ s with owner := some i }.set i (.inside k))) :
    Running l ({ s with owner := some i }.set i (.inside k)) := by
  have halloc := h.allocated
  rw [pc_of_free howner] at halloc
  have hready := h.kept.ready i k (.inl hi)
  refine ⟨hkept, h.valid, ?_, ?_, ?_⟩
  · rw [pc_of_inside (i := i) rfl (set_thread_self _ _ _)]
    cases k with
    | signal | leave => exact hready.elim
    | _ => exact halloc
  · cases i with
    | main =>
      have hmain := h.main
      rw [hi] at hmain
      rw [set_thread_self]
      cases k with
      | push element malloc =>
        cases element with
        | none => exact hmain.elim
        | some name =>
          cases malloc with
          | false => exact hmain.elim
          | true => exact hmain
      | _ => exact hmain.elim
    | upload =>
      rw [set_thread_of_ne (by decide)]
      exact h.main
  · cases i with
    | main =>
      rw [set_thread_of_ne (by decide)]
      exact h.upload
    | upload =>
      have hupload := h.upload
      rw [hi] at hupload
      rw [set_thread_self]
      cases k with
      | pop | take => exact hupload
      | _ => exact hupload.elim

theorem Running.step {e : Event Party (Call Bytes)} (hl : (uploadCalls calls).length < 2 ^ 31)
    (h : Running (uploadCalls calls) s) (hprogram : Program calls s e)
    (hstep : Monitor.step start body s e = some t) : Running (uploadCalls calls) t := by
  have hcalls : Calls NotNull s e := by
    cases e with
    | call i op =>
      cases i with
      | main =>
        obtain ⟨name, -, rfl⟩ := hprogram
        exact Option.some_ne_none name
      | upload =>
        obtain ⟨rfl, -⟩ := hprogram
        trivial
    | _ => trivial
  have hkept := contract.step h.kept hcalls hstep
  cases e with
  | call i op =>
    rw [Monitor.step] at hstep
    split at hstep
    · next hi =>
      obtain rfl := Option.some.inj hstep
      have hout : ∀ k, s.thread i ≠ .inside k := fun k hk => by
        rw [hi] at hk
        cases hk
      refine h.toReady hout (contract (ι := Party) |>.start op hcalls) (fun heq => ?_) (fun heq => ?_)
      · subst heq
        obtain ⟨name, hname, rfl⟩ := hprogram
        exact front_next h.main.front hname
      · subst heq
        obtain ⟨rfl, hnone⟩ := hprogram
        exact hnone
    · cases hstep
  | lock i =>
    rw [Monitor.step] at hstep
    split at hstep
    · next k hi howner =>
      obtain rfl := Option.some.inj hstep
      exact h.lock hi howner hkept
    · cases hstep
  | act i =>
    rw [Monitor.step] at hstep
    split at hstep
    · next k hi =>
      obtain rfl := Option.some.inj hstep
      cases i with
      | main => exact h.act_main hl hi hkept
      | upload => exact h.act_upload hl hi hkept
    · cases hstep
  | wake i =>
    rw [Monitor.step] at hstep
    split at hstep
    · next k hi =>
      obtain rfl := Option.some.inj hstep
      have hout : ∀ k, s.thread i ≠ .inside k := fun k hk => by
        rw [hi] at hk
        cases hk
      refine h.toReady hout (h.kept.ready i k (.inr hi)) (fun heq => ?_) (fun heq => ?_)
      · subst heq
        have hmain := h.main
        rw [hi] at hmain
        exact hmain.elim
      · subst heq
        have hupload := h.upload.woken
        rw [hi] at hupload
        exact hupload
    · cases hstep

-- ════════════════════════════════════════════════════════════════════════
-- Whole runs
-- ════════════════════════════════════════════════════════════════════════

/-- Both threads have finished: none can go on, and none has a call to make. -/
def Finished (calls : List NameCall) (s : System) : Prop :=
  Resting start body s ∧
    ∀ i op, Program calls s (.call i op) → Monitor.step start body s (.call i op) = none

/-- The thread that backs up never sleeps. -/
theorem Running.main_out (h : Running l s) (hrest : Resting start body s) : s.thread .main = .out := by
  refine ((h.kept.resting hrest).2 .main).resolve_right ?_
  rintro ⟨k, hk⟩
  have hbad := h.main
  rw [hk] at hbad
  exact hbad.elim

theorem Running.finished (hl : (uploadCalls calls).length < 2 ^ 31) (h : Running (uploadCalls calls) s)
    (hend : Finished calls s) :
    s.thread .main = .out ∧ s.thread .upload = .out ∧ taken s.returned = uploadCalls calls := by
  obtain ⟨hfree, hthreads⟩ := h.kept.resting hend.1
  have hmain := h.main_out hend.1
  have hpushed : accepted s.returned = uploadCalls calls := by
    have hfront := h.main.front
    by_contra hne
    have hlt : (accepted s.returned).length < (uploadCalls calls).length :=
      lt_of_le_of_ne hfront.length_le fun heq => hne (hfront.eq_of_length heq)
    have hbad := hend.2 .main _ ⟨_, List.getElem?_eq_getElem hlt, rfl⟩
    rw [step_call hmain] at hbad
    cases hbad
  have htaken : endName ∈ taken s.returned := by
    by_contra hnone
    rcases hthreads .upload with hout | ⟨k, hk⟩
    · have hbad := hend.2 .upload .pop ⟨rfl, hnone⟩
      rw [step_call hout] at hbad
      cases hbad
    · have hfew := h.few.trans_lt hl
      obtain ⟨chain, hchain, -, hlists⟩ := h.kept.inv_of_free hfree hfew
      have hfirst := h.kept.idle_of_free hfree hk hfew
      rw [hchain.first_eq, List.head?_eq_none_iff, List.map_eq_nil_iff] at hfirst
      -- everything that was pushed has been popped
      have hall : accepted s.returned = taken s.returned := by
        simpa [adding, taking, hfirst] using hlists
      rw [← hall, hpushed] at hnone
      exact hnone (List.mem_append_right _ (List.mem_singleton.mpr rfl))
  refine ⟨hmain, (hthreads .upload).resolve_right ?_, ?_⟩
  · rintro ⟨k, hk⟩
    have hbad := h.upload
    rw [hk] at hbad
    cases k with
    | take => exact hbad htaken
    | _ => exact hbad.elim
  · exact (takeWhile_front (endName_notMem calls) (h.taken_front hl)).2 htaken

theorem running_of_run (hl : (uploadCalls calls).length < 2 ^ 31) {eles : ℕ → Ele Bytes}
    {es : List (Event Party (Call Bytes))}
    (h : Labelled.Run (Monitor.step start body) (Program calls) (init (syncQueueNew eles)) es s) :
    Running (uploadCalls calls) s :=
  h.invariant (fun _ _ _ hs hprogram hstep => hs.step hl hprogram hstep) (running_init _ eles)

theorem Running.uploaded_front (hl : (uploadCalls calls).length < 2 ^ 31) (h : Running (uploadCalls calls) s) :
    uploaded s <+: calls.map NameCall.text :=
  (takeWhile_front (endName_notMem calls) (h.taken_front hl)).1

theorem Running.uploaded_all (hl : (uploadCalls calls).length < 2 ^ 31) (h : Running (uploadCalls calls) s)
    (hend : Finished calls s) :
    s.thread .main = .out ∧ s.thread .upload = .out ∧ uploaded s = calls.map NameCall.text := by
  obtain ⟨hmain, hupload, htaken⟩ := h.finished hl hend
  refine ⟨hmain, hupload, ?_⟩
  have hnames : ∀ x ∈ calls.map NameCall.text, decide (x ≠ endName) = true := by
    intro x hx
    rw [decide_eq_true_eq]
    rintro rfl
    exact endName_notMem calls hx
  rw [uploaded, htaken, uploadCalls, List.takeWhile_append_of_pos hnames]
  simp

/-- Whatever the order of the threads, the containers are uploaded in the order of the calls, one
for every call, and when both threads have finished, which leaves none asleep, all of them have been
uploaded. -/
theorem uploads_complete (calls : List NameCall) (hfew : calls.length + 1 < 2 ^ 31)
    (eles : ℕ → Ele Bytes) {es : List (Event Party (Call Bytes))} {s : System}
    (h : Labelled.Run (Monitor.step start body) (Program calls) (init (syncQueueNew eles)) es s) :
    uploaded s <+: calls.map NameCall.text ∧
    (Finished calls s →
      s.thread .main = .out ∧ s.thread .upload = .out ∧ uploaded s = calls.map NameCall.text) := by
  have hl : (uploadCalls calls).length < 2 ^ 31 := by simpa [uploadCalls] using hfew
  have hrunning := running_of_run hl h
  exact ⟨hrunning.uploaded_front hl, fun hend => hrunning.uploaded_all hl hend⟩

/-- `handle_upload` sleeps until the only container and `end` have been pushed. -/
def sleepyUpload : List (Event Party (Call Bytes)) :=
  [.call .upload .pop, .lock .upload, .act .upload, .act .upload, .act .upload] ++
  ((uploadCalls [⟨0, 7⟩]).flatMap fun name =>
    [.call .main (.push (some name) true), .lock .main, .act .main, .act .main, .act .main]) ++
  [.lock .upload, .act .upload, .act .upload, .call .upload .pop, .lock .upload, .act .upload,
    .act .upload, .act .upload]

instance (s : System) (e : Event Party (Call Bytes)) : Decidable (Program calls s e) :=
  match e with
  | .call .main op =>
    decidable_of_iff
      (((uploadCalls calls)[(accepted s.returned).length]?).map (fun name => Call.push (some name) true) =
        some op) (by
          rw [Option.map_eq_some_iff]
          exact exists_congr fun name => and_congr_right' eq_comm)
  | .call .upload op => inferInstanceAs (Decidable (op = .pop ∧ endName ∉ taken s.returned))
  | .lock _ => .isTrue trivial
  | .act _ => .isTrue trivial
  | .wake _ => .isTrue trivial

theorem uploads_complete_one : ∃ s : System,
    Labelled.Run (Monitor.step start body) (Program [⟨0, 7⟩]) (init (syncQueueNew fun _ => ⟨none, none⟩))
      sleepyUpload s ∧ uploaded s = [NameCall.text ⟨0, 7⟩] := by
  have hend : (execIf (Monitor.step start body) (Program [⟨0, 7⟩])
      (init (syncQueueNew fun _ => ⟨none, none⟩)) sleepyUpload).map (fun s : System =>
        (accepted s.returned, taken s.returned, (s.thread .main).isOut, (s.thread .upload).isOut)) =
      some (uploadCalls [⟨0, 7⟩], uploadCalls [⟨0, 7⟩], true, true) := by decide +kernel
  obtain ⟨s, hs, heq⟩ := Option.map_eq_some_iff.mp hend
  simp only [Prod.mk.injEq] at heq
  obtain ⟨haccepted, htaken, hmain, hupload⟩ := heq
  have hout : ∀ i, s.thread i = .out := by
    rintro (_ | _)
    · exact Thread.eq_out hmain
    · exact Thread.eq_out hupload
  have hrun := run_of_execIf hs
  refine ⟨s, hrun, ((uploads_complete [⟨0, 7⟩] (by decide) _ hrun).2
    ⟨resting_of_out hout, fun i op hprogram => ?_⟩).2.2⟩
  cases i with
  | main =>
    obtain ⟨name, hname, -⟩ := hprogram
    rw [haccepted, List.getElem?_eq_none le_rfl] at hname
    cases hname
  | upload => exact absurd (htaken ▸ List.mem_append_right _ (List.mem_singleton.mpr rfl)) hprogram.2

end TCBackup.Client.Cloud
