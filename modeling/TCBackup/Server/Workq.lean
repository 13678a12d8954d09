import TCBackup.Lib.Labelled
import Mathlib.Data.List.Basic
import Mathlib.Data.List.Nodup
import Mathlib.Data.List.Perm.Basic
import Mathlib.Logic.Function.Basic

/-!
# Connections handed to workers

The accept loop of `bnet_thread_server` keeps the descriptor of the last connection in
its variable `newsockfd` and queues a pointer to that variable. The worker that takes the
element reads the variable when `handle_client_request` starts.

## Main definitions

- `Pool`, `step` — the accept loop, the queue and the workers
- `Served` — connections and workers correspond
- `ReadFirst` — the condition on the steps

## Main results

- `connections_served` — each connection has its worker when elements are read before
  the next `accept`
-/

namespace TCBackup.Server.Workq

open Labelled

/-- The `data` of a work element: an address. The accept loop queues one only. -/
inductive Address
  | newsockfd
  deriving DecidableEq

/-- A worker waits in `workq_server`, is about to read its element, or serves a
descriptor. -/
inductive Worker
  | idle
  | engine (data : Address)
  | serving (fd : ℤ)
  deriving DecidableEq

/-- `accepted` lists the descriptors that `accept` returned and `handled` the workers with
the descriptors they read. -/
structure Pool where
  newsockfd : ℤ
  adding : Bool
  queue : List Address
  workers : List Worker
  open_fds : List ℤ
  accepted : List ℤ
  handled : List (ℕ × ℤ)
  deriving DecidableEq

/-- `finish` closes the descriptor at the end of `handle_client_request`. -/
inductive Event
  | accept (fd : ℤ)
  | acceptFails
  | workqAdd
  | dequeue (w : ℕ)
  | read (w : ℕ)
  | finish (w : ℕ)

/-- The value at an address. -/
def Pool.deref (s : Pool) : Address → ℤ
  | .newsockfd => s.newsockfd

/-- `accept` returns a descriptor that is not open. -/
def step (s : Pool) : Event → Option Pool
  | .accept fd =>
    if s.adding = false ∧ 0 ≤ fd ∧ fd ∉ s.open_fds then
      some { s with
        newsockfd := fd
        adding := true
        open_fds := fd :: s.open_fds
        accepted := s.accepted ++ [fd] }
    else none
  | .acceptFails => if s.adding = false then some { s with newsockfd := -1 } else none
  | .workqAdd =>
    if s.adding = true then
      some { s with adding := false, queue := s.queue ++ [.newsockfd] }
    else none
  | .dequeue w =>
    match s.workers[w]?, s.queue with
    | some .idle, data :: rest =>
      some { s with queue := rest, workers := s.workers.set w (.engine data) }
    | _, _ => none
  | .read w =>
    match s.workers[w]? with
    | some (.engine data) =>
      some { s with
        workers := s.workers.set w (.serving (s.deref data))
        handled := s.handled ++ [(w, s.deref data)] }
    | _ => none
  | .finish w =>
    match s.workers[w]? with
    | some (.serving fd) =>
      some { s with
        workers := s.workers.set w .idle
        open_fds := s.open_fds.erase fd }
    | _ => none

def init (newsockfd : ℤ) (max_workers : ℕ) : Pool where
  newsockfd := newsockfd
  adding := false
  queue := []
  workers := List.replicate max_workers .idle
  open_fds := []
  accepted := []
  handled := []

def Worker.descriptor : Worker → Option ℤ
  | .serving fd => some fd
  | _ => none

def Worker.unread : Worker → Bool
  | .engine _ => true
  | _ => false

/-- The descriptors that workers serve. -/
def Pool.serving (s : Pool) : List ℤ := s.workers.filterMap Worker.descriptor

/-- The number of connections whose element was not read. -/
def Pool.waiting (s : Pool) : ℕ :=
  s.adding.toNat + s.queue.length + s.workers.countP Worker.unread

/-- The accepted descriptors are those that workers have read and one for each element
that waits, and no two workers serve one descriptor. -/
def Served (s : Pool) : Prop :=
  (∃ pending : List ℤ, pending.length = s.waiting ∧
    s.accepted.Perm (s.handled.map Prod.snd ++ pending)) ∧
  s.serving.Nodup

/-- `accept` is called only when every element was read. -/
def ReadFirst (s : Pool) : Event → Prop
  | .accept _ => s.waiting = 0
  | .acceptFails => s.waiting = 0
  | _ => True

instance (s : Pool) (e : Event) : Decidable (ReadFirst s e) :=
  match e with
  | .accept _ => inferInstanceAs (Decidable (s.waiting = 0))
  | .acceptFails => inferInstanceAs (Decidable (s.waiting = 0))
  | .workqAdd => inferInstanceAs (Decidable True)
  | .dequeue _ => inferInstanceAs (Decidable True)
  | .read _ => inferInstanceAs (Decidable True)
  | .finish _ => inferInstanceAs (Decidable True)

variable {s t : Pool} {w : ℕ} {x y : Worker}

theorem workers_perm {workers : List Worker} (h : workers[w]? = some x) (y : Worker) :
    workers.Perm (x :: workers.eraseIdx w) ∧
      (workers.set w y).Perm (y :: workers.eraseIdx w) := by
  obtain ⟨hw, rfl⟩ := List.getElem?_eq_some_iff.mp h
  exact ⟨(List.getElem_cons_eraseIdx_perm hw).symm, List.set_perm_cons_eraseIdx hw y⟩

theorem filterMap_descriptor_cons (z : Worker) (workers : List Worker) :
    (z :: workers).filterMap Worker.descriptor =
      z.descriptor.toList ++ workers.filterMap Worker.descriptor := by
  cases z <;> rfl

theorem serving_perm {workers : List Worker} (h : workers[w]? = some x) (y : Worker) :
    ∃ others : List ℤ,
      (workers.filterMap Worker.descriptor).Perm (x.descriptor.toList ++ others) ∧
      ((workers.set w y).filterMap Worker.descriptor).Perm (y.descriptor.toList ++ others) := by
  obtain ⟨hold, hnew⟩ := workers_perm h y
  refine ⟨(workers.eraseIdx w).filterMap Worker.descriptor, ?_, ?_⟩
  · rw [← filterMap_descriptor_cons]
    exact hold.filterMap _
  · rw [← filterMap_descriptor_cons]
    exact hnew.filterMap _

theorem unread_count {workers : List Worker} (h : workers[w]? = some x) (y : Worker) :
    (workers.set w y).countP Worker.unread + x.unread.toNat =
      workers.countP Worker.unread + y.unread.toNat := by
  obtain ⟨hold, hnew⟩ := workers_perm h y
  rw [hold.countP_eq, hnew.countP_eq, List.countP_cons, List.countP_cons]
  cases x.unread <;> cases y.unread <;> simp

/-- The descriptor whose element was not read, when there is one such element at most. -/
def Pool.pending (s : Pool) : List ℤ := if s.waiting = 0 then [] else [s.newsockfd]

/-- One element waits at most, and `newsockfd` is still its descriptor. -/
structure OneAtATime (s : Pool) : Prop where
  waiting : s.waiting ≤ 1
  accepted : s.accepted = s.handled.map Prod.snd ++ s.pending
  opened : s.open_fds.Perm (s.serving ++ s.pending)
  nodup : s.open_fds.Nodup

theorem OneAtATime.served (h : OneAtATime s) : Served s := by
  refine ⟨⟨s.pending, ?_, by rw [h.accepted]⟩, ?_⟩
  · have hle := h.waiting
    rw [Pool.pending]
    split
    · next h0 => rw [h0, List.length_nil]
    · rw [List.length_singleton]
      omega
  · exact (List.nodup_append.mp (h.opened.nodup h.nodup)).1

theorem init_oneAtATime (newsockfd : ℤ) (max_workers : ℕ) :
    OneAtATime (init newsockfd max_workers) := by
  have hwait : (init newsockfd max_workers).waiting = 0 := by
    simp [Pool.waiting, init, Worker.unread]
  have hpend : (init newsockfd max_workers).pending = [] := by rw [Pool.pending, if_pos hwait]
  have hserving : (init newsockfd max_workers).serving = [] := by
    simp [Pool.serving, init, Worker.descriptor]
  refine ⟨by omega, by rw [hpend]; rfl, ?_, List.nodup_nil⟩
  rw [hserving, hpend]
  exact List.Perm.nil

/-- Nothing is waiting, and the variable gets a value that is not a connection's. -/
theorem acceptFails_oneAtATime (h : OneAtATime s) (hw : s.waiting = 0) :
    OneAtATime { s with newsockfd := -1 } := by
  have hpend : s.pending = [] := by rw [Pool.pending, if_pos hw]
  have hpend' : Pool.pending { s with newsockfd := -1 } = [] := by
    rw [Pool.pending]
    exact if_pos hw
  have haccepted := h.accepted
  have hopened := h.opened
  rw [hpend] at haccepted hopened
  exact ⟨h.waiting, by rw [hpend']; exact haccepted, by rw [hpend']; exact hopened, h.nodup⟩

theorem accept_oneAtATime {fd : ℤ} (h : OneAtATime s) (hw : s.waiting = 0)
    (hadding : s.adding = false) (hfd : fd ∉ s.open_fds)
    (ht : t = { s with
      newsockfd := fd
      adding := true
      open_fds := fd :: s.open_fds
      accepted := s.accepted ++ [fd] }) : OneAtATime t := by
  have hwait : t.waiting = 1 := by
    rw [Pool.waiting, hadding] at hw
    subst ht
    simp only [Pool.waiting, Bool.toNat_true]
    simp only [Bool.toNat_false] at hw
    omega
  have hpend : s.pending = [] := by rw [Pool.pending, if_pos hw]
  have hpend' : t.pending = [fd] := by
    rw [Pool.pending, if_neg (by omega), ht]
  have haccepted := h.accepted
  have hopened := h.opened
  rw [hpend, List.append_nil] at haccepted hopened
  refine ⟨by omega, ?_, ?_, ?_⟩
  · rw [hpend', ht]
    exact congrArg (· ++ [fd]) haccepted
  · rw [hpend', ht]
    exact (hopened.cons fd).trans (List.perm_append_singleton fd s.serving).symm
  · rw [ht]
    exact List.nodup_cons.mpr ⟨hfd, h.nodup⟩

/-- Steps that move an element without reading it. -/
theorem OneAtATime.congr (h : OneAtATime s) (hwait : t.waiting = s.waiting)
    (hvar : t.newsockfd = s.newsockfd) (haccepted : t.accepted = s.accepted)
    (hhandled : t.handled = s.handled) (hopened : t.open_fds = s.open_fds)
    (hserving : t.serving.Perm s.serving) : OneAtATime t := by
  have hpend : t.pending = s.pending := by rw [Pool.pending, Pool.pending, hwait, hvar]
  refine ⟨by rw [hwait]; exact h.waiting, ?_, ?_, by rw [hopened]; exact h.nodup⟩
  · rw [haccepted, hhandled, hpend]
    exact h.accepted
  · rw [hopened, hpend]
    exact h.opened.trans (hserving.symm.append_right _)

/-- The one element that waits is read. -/
theorem read_oneAtATime {data : Address} (h : OneAtATime s)
    (hworker : s.workers[w]? = some (.engine data))
    (ht : t = { s with
      workers := s.workers.set w (.serving (s.deref data))
      handled := s.handled ++ [(w, s.deref data)] }) : OneAtATime t := by
  cases data
  have hcount := unread_count hworker (.serving s.newsockfd)
  have hwait : t.waiting + 1 = s.waiting := by
    subst ht
    simp only [Pool.waiting, Pool.deref, Worker.unread, Bool.toNat_true, Bool.toNat_false] at hcount ⊢
    omega
  have hle := h.waiting
  have hpend : s.pending = [s.newsockfd] := by rw [Pool.pending, if_neg (by omega)]
  have hpend' : t.pending = [] := by rw [Pool.pending, if_pos (by omega)]
  have haccepted := h.accepted
  have hopened := h.opened
  rw [hpend] at haccepted hopened
  obtain ⟨others, hold, hnew⟩ := serving_perm hworker (.serving s.newsockfd)
  refine ⟨by omega, ?_, ?_, ?_⟩
  · rw [hpend', ht]
    simpa [Pool.deref] using haccepted
  · rw [hpend', List.append_nil, ht]
    have hserving : (s.serving ++ [s.newsockfd]).Perm (s.newsockfd :: others) :=
      (List.perm_append_singleton _ _).trans (hold.cons _)
    exact hopened.trans (hserving.trans hnew.symm)
  · rw [ht]
    exact h.nodup

theorem finish_oneAtATime {fd : ℤ} (h : OneAtATime s)
    (hworker : s.workers[w]? = some (.serving fd))
    (ht : t = { s with
      workers := s.workers.set w .idle
      open_fds := s.open_fds.erase fd }) : OneAtATime t := by
  have hcount := unread_count hworker .idle
  have hwait : t.waiting = s.waiting := by
    subst ht
    simp only [Pool.waiting, Worker.unread, Bool.toNat_false] at hcount ⊢
    omega
  have hpend : t.pending = s.pending := by rw [Pool.pending, Pool.pending, hwait, ht]
  obtain ⟨others, hold, hnew⟩ := serving_perm hworker .idle
  refine ⟨by rw [hwait]; exact h.waiting, ?_, ?_, ?_⟩
  · rw [hpend, ht]
    exact h.accepted
  · rw [hpend, ht]
    have hserving : (s.serving ++ s.pending).Perm (fd :: (others ++ s.pending)) :=
      hold.append_right _
    have herase := (h.opened.trans hserving).erase fd
    rw [List.erase_cons_head] at herase
    exact herase.trans (hnew.symm.append_right _)
  · rw [ht]
    exact h.nodup.erase fd

theorem step_oneAtATime {e : Event} (h : OneAtATime s) (hcond : ReadFirst s e)
    (hstep : step s e = some t) : OneAtATime t := by
  cases e with
  | accept fd =>
    rw [step] at hstep
    split at hstep
    · next hguard =>
      exact accept_oneAtATime h hcond hguard.1 hguard.2.2 (Option.some.inj hstep).symm
    · simp at hstep
  | acceptFails =>
    rw [step] at hstep
    split at hstep
    · obtain rfl := Option.some.inj hstep
      exact acceptFails_oneAtATime h hcond
    · simp at hstep
  | workqAdd =>
    rw [step] at hstep
    split at hstep
    · next hadding =>
      obtain rfl := Option.some.inj hstep
      refine h.congr ?_ rfl rfl rfl rfl (List.Perm.refl _)
      simp only [Pool.waiting, hadding, List.length_append, List.length_singleton,
        Bool.toNat_true, Bool.toNat_false]
      omega
    · simp at hstep
  | dequeue w =>
    rw [step] at hstep
    split at hstep
    · next data rest hworker hqueue =>
      obtain rfl := Option.some.inj hstep
      have hcount := unread_count hworker (.engine data)
      obtain ⟨others, hold, hnew⟩ := serving_perm hworker (.engine data)
      refine h.congr ?_ rfl rfl rfl rfl (hnew.trans hold.symm)
      simp only [Worker.unread, Bool.toNat_true, Bool.toNat_false] at hcount
      simp only [Pool.waiting, hqueue, List.length_cons]
      omega
    · simp at hstep
  | read w =>
    rw [step] at hstep
    split at hstep
    · next hworker => exact read_oneAtATime h hworker (Option.some.inj hstep).symm
    · simp at hstep
  | finish w =>
    rw [step] at hstep
    split at hstep
    · next hworker => exact finish_oneAtATime h hworker (Option.some.inj hstep).symm
    · simp at hstep

/-- Every connection has its worker as long as each element is read before the next
`accept`. -/
theorem connections_served {newsockfd : ℤ} {max_workers : ℕ} {es : List Event}
    (h : Run step ReadFirst (init newsockfd max_workers) es s) : Served s :=
  (h.invariant (fun _ _ _ hs hcond hstep => step_oneAtATime hs hcond hstep)
    (init_oneAtATime newsockfd max_workers)).served

/-- Two connections that overlap in their workers only. -/
def oneAfterOther : List Event :=
  [.accept 5, .workqAdd, .dequeue 0, .read 0, .accept 6, .workqAdd, .dequeue 1, .read 1,
    .finish 0]

theorem connections_served_two : ∃ s, s.handled = [(0, 5), (1, 6)] ∧ Served s := by
  have hrun : Run step ReadFirst (init 0 2) oneAfterOther _ := run_of_execIf rfl
  exact ⟨_, rfl, connections_served hrun⟩

/-- The second connection comes before the first element is read. -/
def quickAccept : List Event :=
  [.accept 5, .workqAdd, .accept 6, .workqAdd, .dequeue 0, .read 0, .dequeue 1, .read 1]

theorem connection_served_twice :
    ¬ ∀ (newsockfd : ℤ) (max_workers : ℕ) (es : List Event) (s : Pool),
      exec step (init newsockfd max_workers) es = some s → Served s := by
  intro h
  have hserved := h 0 20 quickAccept _ rfl
  exact absurd hserved.2 (by decide)

end TCBackup.Server.Workq
