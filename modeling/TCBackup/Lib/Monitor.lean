import Mathlib.Logic.Function.Basic
import TCBackup.Lib.Labelled

/-!
# Monitors

Threads call the operations of a shared object. An operation has the mutex of the object while it
runs. It may wait on the condition variable of the object, which gives the mutex up, until another
operation wakes all threads that wait or the thread wakes without a reason. What an operation does
between two calls to the thread library is one step.

## Main definitions

- `Turn` — what an operation does next
- `State`, `Event`, `step` — the threads, one step at a time
- `Contract` — what the operations keep, and why a thread may sleep

## Main results

- `Contract.kept` — all states that are reached
- `Kept.idle_of_free` — while the mutex is free, no thread sleeps that has something to do
- `Kept.resting` — where no thread can go on, all are outside or asleep
-/

namespace Monitor

open Labelled

variable {ι σ κ γ ρ : Type*}

/-- An operation changes the object, wakes the threads that wait, waits itself and goes on at `k`
later, or returns. -/
inductive Turn (σ κ ρ : Type*)
  | go (shared : σ) (k : κ)
  | broadcast (k : κ)
  | wait (k : κ)
  | unlock (r : ρ)

/-- A thread is outside, waits for the mutex, has it, or sleeps. -/
inductive Thread (κ : Type*)
  | out
  | ready (k : κ)
  | inside (k : κ)
  | asleep (k : κ)

/-- `owner` has the mutex, and `returned` records what calls have returned to which threads. -/
structure State (ι σ κ ρ : Type*) where
  shared : σ
  owner : Option ι
  thread : ι → Thread κ
  returned : List (ι × ρ)

inductive Event (ι γ : Type*)
  | call (i : ι) (op : γ)
  | lock (i : ι)
  | act (i : ι)
  | wake (i : ι)

def init (shared : σ) : State ι σ κ ρ := ⟨shared, none, fun _ => .out, []⟩

def Thread.woken : Thread κ → Thread κ
  | .asleep k => .ready k
  | t => t

def Thread.isOut : Thread κ → Bool
  | .out => true
  | _ => false

section Step

variable [DecidableEq ι] (start : γ → κ) (body : κ → σ → Turn σ κ ρ)

def State.set (s : State ι σ κ ρ) (i : ι) (t : Thread κ) : State ι σ κ ρ :=
  { s with thread := Function.update s.thread i t }

/-- The thread that has the mutex goes on. -/
def State.turn (s : State ι σ κ ρ) (i : ι) : Turn σ κ ρ → State ι σ κ ρ
  | .go shared k => { s with shared := shared }.set i (.inside k)
  | .broadcast k => { s with thread := fun j => (s.thread j).woken }.set i (.inside k)
  | .wait k => { s with owner := none }.set i (.asleep k)
  | .unlock r => { s with owner := none, returned := s.returned ++ [(i, r)] }.set i .out

def step (s : State ι σ κ ρ) : Event ι γ → Option (State ι σ κ ρ)
  | .call i op =>
    match s.thread i with
    | .out => some (s.set i (.ready (start op)))
    | _ => none
  | .lock i =>
    match s.thread i, s.owner with
    | .ready k, none => some ({ s with owner := some i }.set i (.inside k))
    | _, _ => none
  | .act i =>
    match s.thread i with
    | .inside k => some (s.turn i (body k s.shared))
    | _ => none
  | .wake i =>
    match s.thread i with
    | .asleep k => some (s.set i (.ready k))
    | _ => none

/-- No thread that is in an operation can go on by itself. -/
def Resting (s : State ι σ κ ρ) : Prop :=
  ∀ i, step start body s (.lock i : Event ι γ) = none ∧ step start body s (.act i : Event ι γ) = none

end Step

/-- Where the operation is that has the mutex. -/
def State.pc (s : State ι σ κ ρ) : Option κ :=
  s.owner.bind fun i =>
    match s.thread i with
    | .inside k => some k
    | _ => none

/-- `Inv` relates the object, what has been returned and the operation under way; `Ready` holds
where an operation takes the mutex. A thread sleeps at `k` as long as the object is `Idle` for it.
An operation that makes it otherwise is `Due` to wake all threads. -/
structure Contract (start : γ → κ) (body : κ → σ → Turn σ κ ρ) (Allowed : γ → Prop)
    (Inv : σ → List (ι × ρ) → Option κ → Prop) (Ready Due : κ → Prop) (Idle : σ → κ → Prop) :
    Prop where
  start : ∀ op, Allowed op → Ready (start op)
  lock : ∀ s rs k, Inv s rs none → Ready k → Inv s rs (some k)
  fresh : ∀ k, Ready k → ¬Due k
  go : ∀ s rs k s' k', Inv s rs (some k) → body k s = .go s' k' →
    Inv s' rs (some k') ∧ (Due k' ∨ ¬Due k ∧ ∀ j, Idle s j → Idle s' j)
  broadcast : ∀ s rs k k', Inv s rs (some k) → body k s = .broadcast k' → Inv s rs (some k')
  wait : ∀ s rs k k', Inv s rs (some k) → body k s = .wait k' →
    Inv s rs none ∧ Ready k' ∧ ¬Due k ∧ Idle s k'
  unlock : ∀ s rs k i r, Inv s rs (some k) → body k s = .unlock r → Inv s (rs ++ [(i, r)]) none ∧ ¬Due k

/-- What holds in every state that is reached. -/
structure Kept (Inv : σ → List (ι × ρ) → Option κ → Prop) (Ready Due : κ → Prop)
    (Idle : σ → κ → Prop) (s : State ι σ κ ρ) : Prop where
  inside : ∀ i k, s.thread i = .inside k → s.owner = some i
  owner : ∀ i, s.owner = some i → ∃ k, s.thread i = .inside k
  ready : ∀ i k, s.thread i = .ready k ∨ s.thread i = .asleep k → Ready k
  inv : Inv s.shared s.returned s.pc
  idle : (∃ k, s.pc = some k ∧ Due k) ∨ ∀ i k, s.thread i = .asleep k → Idle s.shared k

variable {start : γ → κ} {body : κ → σ → Turn σ κ ρ} {Allowed : γ → Prop}
  {Inv : σ → List (ι × ρ) → Option κ → Prop} {Ready Due : κ → Prop} {Idle : σ → κ → Prop}
  {s t : State ι σ κ ρ} {i : ι} {k : κ}

theorem kept_init {shared : σ} (h : Inv shared [] none) :
    Kept Inv Ready Due Idle (init shared : State ι σ κ ρ) where
  inside := fun _ _ hbad => by cases hbad
  owner := fun _ hbad => by cases hbad
  ready := by
    rintro _ _ (hbad | hbad) <;> cases hbad
  inv := h
  idle := .inr fun _ _ hbad => by cases hbad

theorem pc_of_inside (howner : s.owner = some i) (hi : s.thread i = .inside k) : s.pc = some k := by
  rw [State.pc, howner, Option.bind_some, hi]

theorem pc_of_free (howner : s.owner = none) : s.pc = none := by
  rw [State.pc, howner]
  rfl

variable [DecidableEq ι]

@[simp] theorem set_thread_self (s : State ι σ κ ρ) (i : ι) (th : Thread κ) :
    (s.set i th).thread i = th := Function.update_self ..

theorem set_thread_of_ne {j : ι} (hj : j ≠ i) (s : State ι σ κ ρ) (th : Thread κ) :
    (s.set i th).thread j = s.thread j := Function.update_of_ne hj ..

@[simp] theorem set_shared (s : State ι σ κ ρ) (i : ι) (th : Thread κ) :
    (s.set i th).shared = s.shared := rfl

@[simp] theorem set_owner (s : State ι σ κ ρ) (i : ι) (th : Thread κ) :
    (s.set i th).owner = s.owner := rfl

@[simp] theorem set_returned (s : State ι σ κ ρ) (i : ι) (th : Thread κ) :
    (s.set i th).returned = s.returned := rfl

theorem Thread.eq_out {th : Thread κ} (h : th.isOut = true) : th = .out := by
  cases th with
  | out => rfl
  | _ => cases h

/-- A thread that is outside may call anything. -/
theorem step_call (hi : s.thread i = .out) (op : γ) :
    step start body s (.call i op) = some (s.set i (.ready (start op))) := by
  rw [step, hi]

theorem resting_of_out (h : ∀ i, s.thread i = .out) : Resting start body s := by
  intro i
  rw [step, step, h]
  exact ⟨rfl, rfl⟩

theorem pc_turn_go (howner : s.owner = some i) (shared : σ) :
    (s.turn i (.go shared k : Turn σ κ ρ)).pc = some k :=
  @pc_of_inside _ _ _ _ (s.turn i (.go shared k)) _ _ howner (set_thread_self _ _ _)

theorem pc_turn_broadcast (howner : s.owner = some i) :
    (s.turn i (.broadcast k : Turn σ κ ρ)).pc = some k :=
  @pc_of_inside _ _ _ _ (s.turn i (.broadcast k)) _ _ howner (set_thread_self _ _ _)

/-- The operation under way does not depend on threads that do not have the mutex. -/
theorem Kept.pc_set (h : Kept Inv Ready Due Idle s) (hi : ∀ k, s.thread i ≠ .inside k) (th : Thread κ) :
    (s.set i th).pc = s.pc := by
  rw [State.pc, State.pc, set_owner]
  cases howner : s.owner with
  | none => rfl
  | some j =>
    obtain ⟨k, hk⟩ := h.owner j howner
    have hne : j ≠ i := fun heq => hi k (heq ▸ hk)
    rw [Option.bind_some, Option.bind_some, set_thread_of_ne hne]

/-- A thread that does not have the mutex comes to wait for it. -/
theorem Kept.toReady (h : Kept Inv Ready Due Idle s) (hi : ∀ k, s.thread i ≠ .inside k)
    (hready : Ready k) : Kept Inv Ready Due Idle (s.set i (.ready k)) := by
  have hpc : (s.set i (.ready k)).pc = s.pc := h.pc_set hi _
  refine ⟨fun j k' hj => ?_, fun j hj => ?_, fun j k' hj => ?_, ?_, ?_⟩
  · by_cases heq : j = i
    · rw [heq, set_thread_self] at hj
      cases hj
    · rw [set_thread_of_ne heq] at hj
      exact h.inside j k' hj
  · obtain ⟨k', hk'⟩ := h.owner j hj
    have hne : j ≠ i := fun heq => hi k' (heq ▸ hk')
    exact ⟨k', by rw [set_thread_of_ne hne, hk']⟩
  · by_cases heq : j = i
    · rw [heq, set_thread_self] at hj
      rcases hj with hj | hj
      · exact (Thread.ready.inj hj) ▸ hready
      · cases hj
    · rw [set_thread_of_ne heq] at hj
      exact h.ready j k' hj
  · rw [hpc]
    exact h.inv
  · rw [hpc]
    refine h.idle.imp_right fun hidle j k' hj => ?_
    by_cases heq : j = i
    · rw [heq, set_thread_self] at hj
      cases hj
    · rw [set_thread_of_ne heq] at hj
      exact hidle j k' hj

theorem Contract.lock_step (hC : Contract start body Allowed Inv Ready Due Idle)
    (h : Kept Inv Ready Due Idle s) (hi : s.thread i = .ready k) (howner : s.owner = none) :
    Kept Inv Ready Due Idle ({ s with owner := some i }.set i (.inside k)) := by
  have hready := h.ready i k (.inl hi)
  refine ⟨fun j k' hj => ?_, fun j hj => ?_, fun j k' hj => ?_, ?_, .inr fun j k' hj => ?_⟩
  · by_cases heq : j = i
    · rw [heq]
      rfl
    · rw [set_thread_of_ne heq] at hj
      have hbad := h.inside j k' hj
      rw [howner] at hbad
      cases hbad
  · obtain rfl : i = j := Option.some.inj hj
    exact ⟨k, set_thread_self _ _ _⟩
  · by_cases heq : j = i
    · rw [heq, set_thread_self] at hj
      rcases hj with hbad | hbad <;> cases hbad
    · rw [set_thread_of_ne heq] at hj
      exact h.ready j k' hj
  · rw [pc_of_inside (i := i) rfl (set_thread_self _ _ _)]
    have hinv := h.inv
    rw [pc_of_free howner] at hinv
    exact hC.lock _ _ _ hinv hready
  · have hidle := h.idle.resolve_left fun ⟨k', hk', _⟩ => by
      rw [pc_of_free howner] at hk'
      cases hk'
    by_cases heq : j = i
    · rw [heq, set_thread_self] at hj
      cases hj
    · rw [set_thread_of_ne heq] at hj
      exact hidle j k' hj

/-- The thread that has the mutex keeps it. -/
theorem Kept.goOn (h : Kept Inv Ready Due Idle s) (hi : s.thread i = .inside k) {shared : σ}
    {thread : ι → Thread κ} {k' : κ} (hsame : ∀ j, j ≠ i → thread j = s.thread j ∨ thread j = (s.thread j).woken)
    (hinv : Inv shared s.returned (some k'))
    (hidle : Due k' ∨ ∀ j k, j ≠ i → thread j = .asleep k → Idle shared k) :
    Kept Inv Ready Due Idle ({ s with shared := shared, thread := thread }.set i (.inside k')) := by
  have howner := h.inside i k hi
  have hpc : ({ s with shared := shared, thread := thread }.set i (.inside k')).pc = some k' :=
    pc_of_inside howner (set_thread_self _ _ _)
  refine ⟨fun j k'' hj => ?_, fun j hj => ?_, fun j k'' hj => ?_, ?_, ?_⟩
  · by_cases heq : j = i
    · rw [heq]
      exact howner
    · rw [set_thread_of_ne heq] at hj
      dsimp only at hj
      rcases hsame j heq with hold | hold
      · exact h.inside j k'' (hold ▸ hj)
      · rw [hold] at hj
        refine h.inside j k'' ?_
        cases hthread : s.thread j <;> rw [hthread] at hj <;> cases hj
        rfl
  · obtain rfl : i = j := Option.some.inj (howner.symm.trans hj)
    exact ⟨k', set_thread_self _ _ _⟩
  · by_cases heq : j = i
    · rw [heq, set_thread_self] at hj
      rcases hj with hbad | hbad <;> cases hbad
    · rw [set_thread_of_ne heq] at hj
      dsimp only at hj
      rcases hsame j heq with hold | hold
      · exact h.ready j k'' (hold ▸ hj)
      · rw [hold] at hj
        refine h.ready j k'' ?_
        cases hthread : s.thread j <;> rw [hthread] at hj <;> rcases hj with hj | hj <;> cases hj
        · exact .inl rfl
        · exact .inr rfl
  · rw [hpc]
    exact hinv
  · rw [hpc]
    refine hidle.imp (fun hdue => ⟨k', rfl, hdue⟩) fun hall j k'' hj => ?_
    by_cases heq : j = i
    · rw [heq, set_thread_self] at hj
      cases hj
    · rw [set_thread_of_ne heq] at hj
      exact hall j k'' heq hj

/-- The thread that has the mutex gives it up. -/
theorem Kept.giveUp (h : Kept Inv Ready Due Idle s) (hi : s.thread i = .inside k) (hdue : ¬Due k)
    {th : Thread κ} {returned : List (ι × ρ)} (hth : ∀ k, th ≠ .inside k)
    (hready : ∀ k, th = .ready k ∨ th = .asleep k → Ready k) (hinv : Inv s.shared returned none)
    (hidle : ∀ k, th = .asleep k → Idle s.shared k) :
    Kept Inv Ready Due Idle ({ s with owner := none, returned := returned }.set i th) := by
  have howner := h.inside i k hi
  refine ⟨fun j k' hj => ?_, fun j hj => ?_, fun j k' hj => ?_, hinv, .inr fun j k' hj => ?_⟩
  · by_cases heq : j = i
    · rw [heq, set_thread_self] at hj
      exact absurd hj (hth k')
    · rw [set_thread_of_ne heq] at hj
      exact absurd (Option.some.inj ((h.inside j k' hj).symm.trans howner)) heq
  · cases hj
  · by_cases heq : j = i
    · rw [heq, set_thread_self] at hj
      exact hready k' hj
    · rw [set_thread_of_ne heq] at hj
      exact h.ready j k' hj
  · have hbefore := h.idle.resolve_left fun ⟨k', hk', hbad⟩ => by
      rw [pc_of_inside howner hi] at hk'
      exact hdue (Option.some.inj hk' ▸ hbad)
    by_cases heq : j = i
    · rw [heq, set_thread_self] at hj
      exact hidle k' hj
    · rw [set_thread_of_ne heq] at hj
      exact hbefore j k' hj

theorem Contract.act_step (hC : Contract start body Allowed Inv Ready Due Idle)
    (h : Kept Inv Ready Due Idle s) (hi : s.thread i = .inside k) :
    Kept Inv Ready Due Idle (s.turn i (body k s.shared)) := by
  have hinv := h.inv
  rw [pc_of_inside (h.inside i k hi) hi] at hinv
  cases hturn : body k s.shared with
  | go shared k' =>
    obtain ⟨hinv', hidle⟩ := hC.go _ _ _ _ _ hinv hturn
    refine h.goOn hi (fun j _ => .inl rfl) hinv' (hidle.imp_right fun ⟨hdue, hkeep⟩ j k'' _ hj => ?_)
    have hbefore := h.idle.resolve_left fun ⟨k₁, hk₁, hbad⟩ => by
      rw [pc_of_inside (h.inside i k hi) hi] at hk₁
      exact hdue (Option.some.inj hk₁ ▸ hbad)
    exact hkeep k'' (hbefore j k'' hj)
  | broadcast k' =>
    refine h.goOn hi (fun j _ => .inr rfl) (hC.broadcast _ _ _ _ hinv hturn) (.inr fun j k'' _ hj => ?_)
    cases hthread : s.thread j <;> rw [hthread] at hj <;> cases hj
  | wait k' =>
    obtain ⟨hinv', hready, hdue, hidle⟩ := hC.wait _ _ _ _ hinv hturn
    refine h.giveUp hi hdue (fun _ hbad => by cases hbad) (fun k'' hk'' => ?_) hinv' fun k'' hk'' => ?_
    · rcases hk'' with hbad | heq
      · cases hbad
      · exact (Thread.asleep.inj heq) ▸ hready
    · exact (Thread.asleep.inj hk'') ▸ hidle
  | unlock r =>
    obtain ⟨hinv', hdue⟩ := hC.unlock _ _ _ i _ hinv hturn
    refine h.giveUp hi hdue (fun _ hbad => by cases hbad) (fun k'' hk'' => ?_) hinv' fun _ hbad => ?_
    · rcases hk'' with hbad | hbad <;> cases hbad
    · cases hbad

/-- Calls of operations that are allowed. -/
def Calls (Allowed : γ → Prop) (_ : State ι σ κ ρ) : Event ι γ → Prop
  | .call _ op => Allowed op
  | _ => True

theorem Contract.step (hC : Contract start body Allowed Inv Ready Due Idle)
    (h : Kept Inv Ready Due Idle s) {e : Event ι γ} (hcalls : Calls Allowed s e)
    (hstep : Monitor.step start body s e = some t) : Kept Inv Ready Due Idle t := by
  cases e with
  | call i op =>
    rw [Monitor.step] at hstep
    split at hstep
    · next hi =>
      obtain rfl := Option.some.inj hstep
      refine h.toReady (fun k hk => ?_) (hC.start op hcalls)
      rw [hi] at hk
      cases hk
    · cases hstep
  | lock i =>
    rw [Monitor.step] at hstep
    split at hstep
    · next k hi howner =>
      obtain rfl := Option.some.inj hstep
      exact hC.lock_step h hi howner
    · cases hstep
  | act i =>
    rw [Monitor.step] at hstep
    split at hstep
    · next k hi =>
      obtain rfl := Option.some.inj hstep
      exact hC.act_step h hi
    · cases hstep
  | wake i =>
    rw [Monitor.step] at hstep
    split at hstep
    · next k hi =>
      obtain rfl := Option.some.inj hstep
      refine h.toReady (fun k' hk' => ?_) (h.ready i k (.inr hi))
      rw [hi] at hk'
      cases hk'
    · cases hstep

theorem Contract.kept (hC : Contract start body Allowed Inv Ready Due Idle) {shared : σ}
    (hinit : Inv shared [] none) {es : List (Event ι γ)}
    (h : Run (Monitor.step start body) (Calls Allowed) (init shared) es s) :
    Kept Inv Ready Due Idle s :=
  h.invariant (fun _ _ _ hs hcalls hstep => hC.step hs hcalls hstep) (kept_init hinit)

omit [DecidableEq ι] in
theorem Kept.idle_of_free (h : Kept Inv Ready Due Idle s) (howner : s.owner = none)
    (hi : s.thread i = .asleep k) : Idle s.shared k := by
  refine h.idle.resolve_left (fun ⟨k', hk', _⟩ => ?_) i k hi
  rw [pc_of_free howner] at hk'
  cases hk'

omit [DecidableEq ι] in
theorem Kept.inv_of_free (h : Kept Inv Ready Due Idle s) (howner : s.owner = none) :
    Inv s.shared s.returned none := pc_of_free howner ▸ h.inv

/-- A state where no thread can go on has nobody in an operation but those who sleep. -/
theorem Kept.resting (h : Kept Inv Ready Due Idle s) (hrest : Resting start body s) :
    s.owner = none ∧ ∀ i, s.thread i = .out ∨ ∃ k, s.thread i = .asleep k := by
  have hfree : s.owner = none := by
    by_contra hne
    obtain ⟨i, hi⟩ := Option.ne_none_iff_exists'.mp hne
    obtain ⟨k, hk⟩ := h.owner i hi
    have hact := (hrest i).2
    simp [Monitor.step, hk] at hact
  refine ⟨hfree, fun i => ?_⟩
  cases hthread : s.thread i with
  | out => exact .inl rfl
  | asleep k => exact .inr ⟨k, rfl⟩
  | ready k =>
    have hlock := (hrest i).1
    simp [Monitor.step, hthread, hfree] at hlock
  | inside k =>
    have howner := h.inside i k hthread
    rw [hfree] at howner
    cases howner

end Monitor
