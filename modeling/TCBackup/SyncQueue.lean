import TCBackup.Bnet
import TCBackup.Lib.DoublyLinked
import TCBackup.Lib.Monitor

/-!
# The queues between threads (`lib/queue.c`)

A queue is a chain of elements in memory, and a thread that pops from an empty one sleeps until
another has pushed. Elements are named by the order of their allocation; `NULL` is `none`. A
function that reads through `NULL`, or an element that was freed, has no value.

## Main definitions

- `queuePush`, `queuePop` — the chain
- `Call`, `Pc`, `body` — what a thread does in the functions of a `SyncQueue`
- `Holds` — the values in the chain

## Main results

- `Holds.push`, `Holds.pop` — one call
- `sync_queue_works` — any threads, in any order
-/

namespace TCBackup.Queues

open Linked Labelled Monitor

structure Ele (α : Type*) where
  next : Option ℕ
  data : Option α

structure Queue where
  first : Option ℕ
  last : Option ℕ
  elem_num : ℤ

/-- The queue with the elements in memory, the number of them that were allocated, and those that
were freed. -/
structure SyncQueue (α : Type*) where
  eles : ℕ → Ele α
  allocated : ℕ
  freed : List ℕ
  queue : Queue
  valid : ℤ

/-- `SYNC_QUEUE_VALID` -/
def syncQueueValid : ℤ := 0x1234

variable {α ι : Type*}

/-- `sync_queue_new` -/
def syncQueueNew (eles : ℕ → Ele α) : SyncQueue α := ⟨eles, 0, [], ⟨none, none, 0⟩, syncQueueValid⟩

/-- `queue_push`, with what `malloc` returns. -/
def queuePush (q : SyncQueue α) (element : Option α) (malloc : Bool) : Option (SyncQueue α) :=
  if malloc then
    let item := q.allocated
    let eles := Function.update q.eles item ⟨none, element⟩
    match q.queue.first, q.queue.last with
    | none, _ =>
      some { q with
        eles := eles
        allocated := item + 1
        queue := ⟨some item, some item, int32 (q.queue.elem_num + 1)⟩ }
    | some _, none => none
    | some first, some last =>
      if last ∈ q.freed then none
      else some { q with
        eles := Function.update eles last { eles last with next := some item }
        allocated := item + 1
        queue := ⟨some first, some item, int32 (q.queue.elem_num + 1)⟩ }
  else some q

/-- `queue_pop` -/
def queuePop (q : SyncQueue α) : Option (Option α × SyncQueue α) :=
  if q.queue.elem_num = 0 then some (none, q)
  else
    match q.queue.first with
    | none => none
    | some item =>
      if item ∈ q.freed then none
      else some ((q.eles item).data, { q with
        freed := item :: q.freed
        queue := ⟨(q.eles item).next, if q.queue.last = some item then none else q.queue.last,
          int32 (q.queue.elem_num - 1)⟩ })

-- ════════════════════════════════════════════════════════════════════════
-- What threads do
-- ════════════════════════════════════════════════════════════════════════

/-- `free` is the part of `sync_queue_free` that has the mutex. -/
inductive Call (α : Type*)
  | push (element : Option α) (malloc : Bool)
  | pop
  | free
  deriving DecidableEq

/-- What a call has done. -/
inductive Result (α : Type*)
  | pushed (element : Option α)
  | refused
  | popped (element : Option α)
  | freed

/-- Where a thread is: `popped` is the test of the loop of `sync_queue_pop`, and `fault` a memory
error. -/
inductive Pc (α : Type*)
  | push (element : Option α) (malloc : Bool)
  | signal (r : Result α)
  | pop
  | take
  | popped (element : Option α)
  | free
  | leave (r : Result α)
  | fault

def start : Call α → Pc α
  | .push element malloc => .push element malloc
  | .pop => .pop
  | .free => .free

def body : Pc α → SyncQueue α → Turn (SyncQueue α) (Pc α) (Result α)
  | .push element malloc, q =>
    if q.valid ≠ syncQueueValid then .unlock .refused
    else
      match queuePush q element malloc with
      | some q => .go q (.signal (if malloc then .pushed element else .refused))
      | none => .go q .fault
  | .signal r, _ => .broadcast (.leave r)
  | .pop, q => if q.valid ≠ syncQueueValid then .unlock (.popped none) else .go q .take
  | .take, q =>
    match queuePop q with
    | some (element, q) => .go q (.popped element)
    | none => .go q .fault
  | .popped none, _ => .wait .take
  | .popped (some element), _ => .unlock (.popped (some element))
  | .free, q => .go { q with valid := 0 } (.leave .freed)
  | .leave r, _ => .unlock r
  | .fault, q => .go q .fault

/-- Nobody pushes `NULL`. -/
def NotNull : Call α → Prop
  | .push element _ => element ≠ none
  | _ => True

/-- What a call has put into the queue. -/
def Result.added : Result α → List α
  | .pushed element => element.toList
  | _ => []

/-- What a call has got from the queue. -/
def Result.got : Result α → List α
  | .popped element => element.toList
  | _ => []

/-- The elements that calls have pushed, in order. -/
def accepted (returned : List (ι × Result α)) : List α := returned.flatMap fun p => p.2.added

/-- The elements that calls have popped, in order. -/
def taken (returned : List (ι × Result α)) : List α := returned.flatMap fun p => p.2.got

-- ════════════════════════════════════════════════════════════════════════
-- The chain
-- ════════════════════════════════════════════════════════════════════════

/-- The chain holds these elements, with their values. -/
structure Holds (q : SyncQueue α) (l : List (ℕ × α)) : Prop where
  forward : Seg (fun p => (q.eles p).next) q.queue.first (l.map Prod.fst) none
  last : q.queue.last = (l.map Prod.fst).getLast?
  elem_num : q.queue.elem_num = l.length
  data : ∀ e ∈ l, (q.eles e.1).data = some e.2
  allocated : ∀ p ∈ l.map Prod.fst ++ q.freed, p < q.allocated
  nodup : (l.map Prod.fst ++ q.freed).Nodup
  count : l.length + q.freed.length = q.allocated

variable {q : SyncQueue α} {l : List (ℕ × α)} {p : ℕ} {x : α}

theorem holds_new (eles : ℕ → Ele α) : Holds (syncQueueNew eles) [] :=
  ⟨rfl, rfl, rfl, by simp, by simp [syncQueueNew], by simp [syncQueueNew], rfl⟩

theorem Holds.first_eq (h : Holds q l) : q.queue.first = (l.map Prod.fst).head? := h.forward.start_eq

/-- A new element comes to the end. -/
theorem Holds.push (h : Holds q l) (hfew : l.length + 1 < 2 ^ 31) (x : α) :
    ∃ q', queuePush q (some x) true = some q' ∧ Holds q' (l ++ [(q.allocated, x)]) ∧
      q'.valid = q.valid := by
  have hnew : q.allocated ∉ l.map Prod.fst ++ q.freed := fun hmem => (h.allocated _ hmem).false
  obtain ⟨hnl, hnf⟩ := not_or.mp (mt List.mem_append.mpr hnew)
  have hnodup : (l.map Prod.fst).Nodup := h.nodup.sublist (List.sublist_append_left _ _)
  have hchain := h.forward.append hnodup hnl
  have hnum : int32 (q.queue.elem_num + 1) = ((l.length + 1 : ℕ) : ℤ) := by
    rw [h.elem_num]
    exact int32_eq (by omega) (by omega)
  have hallocated : ∀ p ∈ (l ++ [(q.allocated, x)]).map Prod.fst ++ q.freed, p < q.allocated + 1 := by
    intro p hp
    rw [List.map_append, List.map_singleton, List.append_assoc, List.singleton_append, List.mem_append,
      List.mem_cons, or_left_comm, ← List.mem_append] at hp
    rcases hp with rfl | hp
    · exact Nat.lt_succ_self _
    · exact Nat.lt_succ_of_lt (h.allocated p hp)
  have hnodup' : ((l ++ [(q.allocated, x)]).map Prod.fst ++ q.freed).Nodup := by
    rw [List.map_append, List.map_singleton, List.append_assoc, List.singleton_append, List.nodup_middle,
      List.nodup_cons]
    exact ⟨hnew, h.nodup⟩
  have hlength : ((l ++ [(q.allocated, x)]).length : ℤ) = ((l.length + 1 : ℕ) : ℤ) := by simp
  have hcount : (l ++ [(q.allocated, x)]).length + q.freed.length = q.allocated + 1 := by
    have := h.count
    rw [List.length_append, List.length_singleton]
    omega
  rw [queuePush, if_pos rfl, h.first_eq, h.last]
  rcases List.eq_nil_or_concat l with rfl | ⟨l, e, rfl⟩
  · refine ⟨_, rfl, ⟨?_, rfl, hnum.trans hlength.symm, ?_, hallocated, hnodup', hcount⟩, rfl⟩
    · simp
    · simp
  · rw [List.concat_eq_append] at *
    have he : e.1 ≠ q.allocated := fun heq => hnl (by simp [heq])
    have hlive : e.1 ∉ q.freed := List.disjoint_of_nodup_append h.nodup (by simp)
    obtain ⟨a, ha⟩ : ∃ a, ((l ++ [e]).map Prod.fst).head? = some a := by
      cases l with
      | nil => exact ⟨_, rfl⟩
      | cons b l => exact ⟨_, rfl⟩
    have hlast : ((l ++ [e]).map Prod.fst).getLast? = some e.1 := by simp
    have hfirst : q.queue.first = some a := h.first_eq.trans ha
    rw [hlast] at hchain ⊢
    rw [ha]
    dsimp only
    rw [if_neg hlive]
    refine ⟨_, rfl, ⟨?_, ?_, hnum.trans hlength.symm, fun d hd => ?_, hallocated, hnodup', hcount⟩,
      rfl⟩
    · rw [Option.elim_some, hfirst] at hchain
      rw [List.map_append]
      refine hchain.congr fun p _ => ?_
      change _ = Function.update (Function.update (fun p => (q.eles p).next) q.allocated none) e.1
        (some q.allocated) p
      by_cases hp : p = e.1
      · simp [hp]
      · by_cases hpn : p = q.allocated
        · simp [hpn, he.symm]
        · simp [hp, hpn]
    · simp
    · rw [List.mem_append, List.mem_singleton] at hd
      rcases hd with hold | rfl
      · have hdata := h.data d hold
        have hne : d.1 ≠ q.allocated := fun heq => hnl (heq ▸ List.mem_map_of_mem hold)
        by_cases hde : d.1 = e.1
        · rw [hde] at hdata ⊢
          simp [he, hdata]
        · simp [hde, hne, hdata]
      · simp [he.symm]

/-- A push does not read memory that is not there. -/
theorem Holds.push_ne_none (h : Holds q l) (element : Option α) (malloc : Bool) :
    queuePush q element malloc ≠ none := by
  rw [queuePush]
  cases malloc with
  | false => exact Option.some_ne_none q
  | true =>
    rw [if_pos rfl, h.first_eq, h.last]
    rcases List.eq_nil_or_concat l with rfl | ⟨l, e, rfl⟩
    · exact Option.some_ne_none _
    · rw [List.concat_eq_append] at h ⊢
      have hlive : e.1 ∉ q.freed := List.disjoint_of_nodup_append h.nodup (by simp)
      have hlast : ((l ++ [e]).map Prod.fst).getLast? = some e.1 := by simp
      rw [hlast]
      cases ((l ++ [e]).map Prod.fst).head? with
      | none => exact Option.some_ne_none _
      | some first =>
        dsimp only
        rw [if_neg hlive]
        exact Option.some_ne_none _

/-- An empty queue. -/
theorem Holds.pop_nil (h : Holds q []) : queuePop q = some (none, q) := by
  have hnum : q.queue.elem_num = 0 := h.elem_num
  rw [queuePop, if_pos hnum]

/-- The first element leaves the queue. -/
theorem Holds.pop (h : Holds q ((p, x) :: l)) (hfew : l.length + 1 < 2 ^ 31) :
    ∃ q', queuePop q = some (some x, q') ∧ Holds q' l ∧ q'.valid = q.valid ∧
      q'.freed = p :: q.freed := by
  have hnum : q.queue.elem_num = l.length + 1 := by
    rw [h.elem_num]
    simp
  have hfirst : q.queue.first = some p := h.first_eq
  have hnodup := h.nodup
  rw [List.map_cons, List.cons_append, List.nodup_cons, List.mem_append, not_or] at hnodup
  obtain ⟨⟨hpl, hpf⟩, hnodup⟩ := hnodup
  rw [queuePop, if_neg (by omega), hfirst]
  dsimp only
  rw [if_neg hpf, h.data (p, x) List.mem_cons_self]
  refine ⟨_, rfl, ⟨h.forward.2, ?_, ?_, fun e he => h.data e (List.mem_cons_of_mem _ he), ?_, ?_, ?_⟩,
    rfl, rfl⟩
  · dsimp only
    rw [h.last, List.map_cons]
    cases l with
    | nil => simp
    | cons e l =>
      have hlast : ((e :: l).map Prod.fst).getLast? ≠ some p := fun heq => hpl (List.mem_of_getLast? heq)
      rw [List.map_cons] at hlast ⊢
      rw [List.getLast?_cons_cons, if_neg hlast]
  · dsimp only
    rw [hnum, add_sub_cancel_right]
    exact int32_eq (by omega) (by omega)
  · intro p' hp'
    rw [List.mem_append, List.mem_cons, or_left_comm] at hp'
    refine h.allocated p' ?_
    rw [List.map_cons, List.cons_append, List.mem_cons, List.mem_append]
    exact hp'
  · rw [List.nodup_middle, List.nodup_cons, List.mem_append, not_or]
    exact ⟨⟨hpl, hpf⟩, hnodup⟩
  · have hcount := h.count
    rw [List.length_cons] at hcount
    rw [List.length_cons]
    dsimp only
    omega

-- ════════════════════════════════════════════════════════════════════════
-- The threads
-- ════════════════════════════════════════════════════════════════════════

/-- An element that is in the queue before its call returns. -/
def adding : Option (Pc α) → List α
  | some (.signal r) => r.added
  | some (.leave r) => r.added
  | _ => []

/-- An element that was taken and is not returned yet. -/
def taking : Option (Pc α) → List α
  | some (.popped element) => element.toList
  | some (.signal r) => r.got
  | some (.leave r) => r.got
  | _ => []

/-- What is known where a thread is: a loop that has found nothing has met an empty queue. -/
def Fits (l : List (ℕ × α)) : Option (Pc α) → Prop
  | some (.push none _) => False
  | some (.popped none) => l = []
  | some .fault => False
  | _ => True

/-- The elements that were pushed are those that were popped and those in the chain. -/
def Inv (q : SyncQueue α) (returned : List (ι × Result α)) (pc : Option (Pc α)) : Prop :=
  q.allocated < 2 ^ 31 → ∃ l, Holds q l ∧ Fits l pc ∧
    accepted returned ++ adding pc = taken returned ++ taking pc ++ l.map Prod.snd

/-- Where a thread takes the mutex. -/
def Ready : Pc α → Prop
  | .push element _ => element ≠ none
  | .pop => True
  | .take => True
  | .free => True
  | _ => False

/-- The threads that sleep are woken next. -/
def Due : Pc α → Prop
  | .signal _ => True
  | _ => False

/-- There is nothing to pop. -/
def Idle (q : SyncQueue α) (_ : Pc α) : Prop := q.allocated < 2 ^ 31 → q.queue.first = none

variable {q' : SyncQueue α} {returned : List (ι × Result α)} {element : Option α} {malloc : Bool}
  {k k' : Pc α}

theorem queuePush_allocated (h : queuePush q element malloc = some q') :
    q'.allocated = q.allocated + malloc.toNat := by
  rw [queuePush] at h
  cases malloc with
  | false =>
    obtain rfl := Option.some.inj h
    rfl
  | true =>
    rw [if_pos rfl] at h
    dsimp only at h
    split at h
    · obtain rfl := Option.some.inj h
      rfl
    · cases h
    · split at h
      · cases h
      · obtain rfl := Option.some.inj h
        rfl

theorem queuePush_valid (h : queuePush q element malloc = some q') : q'.valid = q.valid := by
  rw [queuePush] at h
  split at h
  · dsimp only at h
    split at h
    · obtain rfl := Option.some.inj h
      rfl
    · cases h
    · split at h
      · cases h
      · obtain rfl := Option.some.inj h
        rfl
  · obtain rfl := Option.some.inj h
    rfl

theorem queuePop_valid (h : queuePop q = some (element, q')) : q'.valid = q.valid := by
  rw [queuePop] at h
  split at h
  · obtain ⟨-, rfl⟩ := Prod.mk.inj (Option.some.inj h)
    rfl
  · split at h
    · cases h
    · split at h
      · cases h
      · obtain ⟨-, rfl⟩ := Prod.mk.inj (Option.some.inj h)
        rfl

/-- A pop allocates nothing, and changes nothing where the chain is empty. -/
theorem queuePop_idle (h : queuePop q = some (element, q')) :
    q'.allocated = q.allocated ∧ (q.queue.first = none → q' = q) := by
  rw [queuePop] at h
  split at h
  · obtain ⟨-, rfl⟩ := Prod.mk.inj (Option.some.inj h)
    exact ⟨rfl, fun _ => rfl⟩
  · split at h
    · cases h
    · next item hfirst =>
      split at h
      · cases h
      · obtain ⟨-, rfl⟩ := Prod.mk.inj (Option.some.inj h)
        exact ⟨rfl, fun hnone => by rw [hfirst] at hnone; cases hnone⟩

/-- `queue_push` between `lock` and `broadcast`. -/
theorem Inv.push (h : Inv q returned (some (.push element malloc)))
    (hpush : queuePush q element malloc = some q') :
    Inv q' returned (some (.signal (if malloc then .pushed element else .refused))) := by
  intro hfew
  rw [queuePush_allocated hpush] at hfew
  obtain ⟨l, hl, hfits, hlists⟩ := h (by omega)
  cases element with
  | none => exact hfits.elim
  | some x =>
    cases malloc with
    | false =>
      obtain rfl := Option.some.inj hpush
      exact ⟨l, hl, trivial, hlists⟩
    | true =>
      have hcount := hl.count
      rw [Bool.toNat_true] at hfew
      obtain ⟨q'', hq'', hholds, -⟩ := hl.push (by omega) x
      obtain rfl := Option.some.inj (hpush.symm.trans hq'')
      refine ⟨_, hholds, trivial, ?_⟩
      simp only [adding, taking, List.append_nil] at hlists
      simp only [if_true, adding, taking, Result.added, Result.got, Option.toList_some, List.append_nil,
        List.map_append, List.map_singleton]
      rw [hlists, List.append_assoc]

/-- `queue_pop` in the loop of `sync_queue_pop`. -/
theorem Inv.pop (h : Inv q returned (some .take)) (hpop : queuePop q = some (element, q')) :
    Inv q' returned (some (.popped element)) := by
  intro hfew
  rw [(queuePop_idle hpop).1] at hfew
  obtain ⟨l, hl, -, hlists⟩ := h hfew
  cases l with
  | nil =>
    rw [hl.pop_nil] at hpop
    obtain ⟨rfl, rfl⟩ := Prod.mk.inj (Option.some.inj hpop)
    exact ⟨[], hl, rfl, hlists⟩
  | cons e l =>
    have hcount := hl.count
    rw [List.length_cons] at hcount
    obtain ⟨q'', hq'', hholds, -⟩ := hl.pop (l := l) (by omega)
    rw [hpop] at hq''
    obtain ⟨rfl, rfl⟩ := Prod.mk.inj (Option.some.inj hq'')
    refine ⟨l, hholds, trivial, ?_⟩
    simp only [adding, taking, List.append_nil, List.map_cons] at hlists
    simp only [adding, taking, Option.toList_some, List.append_nil]
    rw [hlists, List.append_assoc, List.singleton_append]

/-- Neither function meets memory that is not there. -/
theorem Inv.no_fault (h : Inv q returned (some k)) (hfew : q.allocated < 2 ^ 31) :
    (∀ element malloc, queuePush q element malloc ≠ none) ∧ queuePop q ≠ none := by
  obtain ⟨l, hl, -, -⟩ := h hfew
  refine ⟨hl.push_ne_none, ?_⟩
  cases l with
  | nil =>
    rw [hl.pop_nil]
    exact Option.some_ne_none _
  | cons e l =>
    have hcount := hl.count
    rw [List.length_cons] at hcount
    obtain ⟨q', hq', -⟩ := hl.pop (l := l) (by omega)
    rw [hq']
    exact Option.some_ne_none _

/-- A call to a queue that is no longer valid returns, and others go on. -/
theorem turn_of_push : body (.push element malloc) q = .unlock .refused ∨
    ∃ q' k', body (.push element malloc) q = .go q' k' := by
  rw [body]
  split
  · exact .inl rfl
  · split <;> exact .inr ⟨_, _, rfl⟩

theorem turn_of_pop : body .pop q = .unlock (.popped none) ∨ body .pop q = .go q .take := by
  rw [body]
  split
  · exact .inl rfl
  · exact .inr rfl

theorem turn_of_take (q : SyncQueue α) : ∃ q' k', body .take q = .go q' k' := by
  rw [body]
  split <;> exact ⟨_, _, rfl⟩

theorem contract : Contract start (body (α := α)) NotNull (Inv (ι := ι)) Ready Due Idle where
  start := by
    intro op hop
    cases op with
    | push element malloc => exact hop
    | _ => trivial
  lock := by
    intro q returned k h hready hfew
    obtain ⟨l, hl, -, hlists⟩ := h hfew
    refine ⟨l, hl, ?_, ?_⟩
    · cases k with
      | push element malloc =>
        cases element with
        | none => exact hready rfl
        | some x => trivial
      | pop | take | free => trivial
      | _ => exact hready.elim
    · cases k with
      | push | pop | take | free => exact hlists
      | _ => exact hready.elim
  fresh := by
    intro k hready hdue
    cases k with
    | signal r => exact hready
    | _ => exact hdue
  go := by
    intro q returned k q' k' h hturn
    cases k with
    | push element malloc =>
      rw [body] at hturn
      split at hturn
      · cases hturn
      · split at hturn
        · next hpush =>
          obtain ⟨rfl, rfl⟩ := Turn.go.inj hturn
          exact ⟨h.push hpush, .inl trivial⟩
        · next hpush =>
          obtain ⟨rfl, rfl⟩ := Turn.go.inj hturn
          exact ⟨fun hfew => absurd hpush ((h.no_fault hfew).1 _ _), .inr ⟨id, fun _ => id⟩⟩
    | pop =>
      rw [body] at hturn
      split at hturn
      · cases hturn
      · obtain ⟨rfl, rfl⟩ := Turn.go.inj hturn
        exact ⟨h, .inr ⟨id, fun _ => id⟩⟩
    | take =>
      rw [body] at hturn
      split at hturn
      · next hpop =>
        obtain ⟨rfl, rfl⟩ := Turn.go.inj hturn
        obtain ⟨hallocated, hsame⟩ := queuePop_idle hpop
        refine ⟨h.pop hpop, .inr ⟨id, fun _ hidle hfew => ?_⟩⟩
        have hnone := hidle (hallocated ▸ hfew)
        rw [hsame hnone]
        exact hnone
      · next hpop =>
        obtain ⟨rfl, rfl⟩ := Turn.go.inj hturn
        exact ⟨fun hfew => absurd hpop (h.no_fault hfew).2, .inr ⟨id, fun _ => id⟩⟩
    | free =>
      obtain ⟨rfl, rfl⟩ := Turn.go.inj hturn
      refine ⟨fun hfew => ?_, .inr ⟨id, fun _ => id⟩⟩
      obtain ⟨l, hl, -, hlists⟩ := h hfew
      exact ⟨l, ⟨hl.forward, hl.last, hl.elem_num, hl.data, hl.allocated, hl.nodup, hl.count⟩, trivial,
        hlists⟩
    | fault =>
      obtain ⟨rfl, rfl⟩ := Turn.go.inj hturn
      exact ⟨h, .inr ⟨id, fun _ => id⟩⟩
    | popped element => cases element <;> cases hturn
    | _ => cases hturn
  broadcast := by
    intro q returned k k' h hturn
    cases k with
    | signal r =>
      obtain rfl := Turn.broadcast.inj hturn
      intro hfew
      obtain ⟨l, hl, -, hlists⟩ := h hfew
      exact ⟨l, hl, trivial, hlists⟩
    | push element malloc =>
      rcases turn_of_push with hback | ⟨q', k'', hgo⟩
      · cases hback.symm.trans hturn
      · cases hgo.symm.trans hturn
    | pop =>
      rcases turn_of_pop with hback | hgo
      · cases hback.symm.trans hturn
      · cases hgo.symm.trans hturn
    | take =>
      obtain ⟨q', k'', hgo⟩ := turn_of_take q
      cases hgo.symm.trans hturn
    | popped element => cases element <;> cases hturn
    | _ => cases hturn
  wait := by
    intro q returned k k' h hturn
    cases k with
    | popped element =>
      cases element with
      | some x => cases hturn
      | none =>
        obtain rfl := Turn.wait.inj hturn
        refine ⟨fun hfew => ?_, trivial, id, fun hfew => ?_⟩
        · obtain ⟨l, hl, -, hlists⟩ := h hfew
          exact ⟨l, hl, trivial, hlists⟩
        · obtain ⟨l, hl, rfl, -⟩ := h hfew
          exact hl.first_eq
    | push element malloc =>
      rcases turn_of_push with hback | ⟨q', k'', hgo⟩
      · cases hback.symm.trans hturn
      · cases hgo.symm.trans hturn
    | pop =>
      rcases turn_of_pop with hback | hgo
      · cases hback.symm.trans hturn
      · cases hgo.symm.trans hturn
    | take =>
      obtain ⟨q', k'', hgo⟩ := turn_of_take q
      cases hgo.symm.trans hturn
    | _ => cases hturn
  unlock := by
    intro q returned k i r h hturn
    have hend : ∀ l, accepted returned ++ r.added = taken returned ++ r.got ++ l →
        accepted (returned ++ [(i, r)]) ++ adding none = taken (returned ++ [(i, r)]) ++ taking none ++ l := by
      intro l hl
      simpa [accepted, taken, adding, taking] using hl
    cases k with
    | leave r' =>
      obtain rfl := Turn.unlock.inj hturn
      refine ⟨fun hfew => ?_, id⟩
      obtain ⟨l, hl, -, hlists⟩ := h hfew
      exact ⟨l, hl, trivial, hend _ hlists⟩
    | popped element =>
      cases element with
      | none => cases hturn
      | some x =>
        obtain rfl := Turn.unlock.inj hturn
        refine ⟨fun hfew => ?_, id⟩
        obtain ⟨l, hl, -, hlists⟩ := h hfew
        exact ⟨l, hl, trivial, hend _ hlists⟩
    | push element malloc =>
      rcases turn_of_push with hback | ⟨q', k'', hgo⟩
      · obtain rfl := Turn.unlock.inj (hback.symm.trans hturn)
        refine ⟨fun hfew => ?_, id⟩
        obtain ⟨l, hl, -, hlists⟩ := h hfew
        exact ⟨l, hl, trivial, hend _ hlists⟩
      · cases hgo.symm.trans hturn
    | pop =>
      rcases turn_of_pop with hback | hgo
      · obtain rfl := Turn.unlock.inj (hback.symm.trans hturn)
        refine ⟨fun hfew => ?_, id⟩
        obtain ⟨l, hl, -, hlists⟩ := h hfew
        exact ⟨l, hl, trivial, hend _ hlists⟩
      · cases hgo.symm.trans hturn
    | take =>
      obtain ⟨q', k'', hgo⟩ := turn_of_take q
      cases hgo.symm.trans hturn
    | _ => cases hturn

/-- In whatever order the threads go on: while the mutex is free, the elements that were popped and
then those in the queue are the ones that were pushed, in the order of the pushes, no thread sleeps
while the queue holds an element, and where no thread can go on, nobody is left in a call but
those who wait for an element. -/
theorem sync_queue_works [DecidableEq ι] (eles : ℕ → Ele α) {es : List (Event ι (Call α))}
    {s : State ι (SyncQueue α) (Pc α) (Result α)}
    (h : Run (step start body) (Calls NotNull) (init (syncQueueNew eles)) es s)
    (hfew : s.shared.allocated < 2 ^ 31) :
    (s.owner = none → ∃ l, Holds s.shared l ∧
      accepted s.returned = taken s.returned ++ l.map Prod.snd ∧
      ((∃ i k, s.thread i = .asleep k) → l = [])) ∧
    (∀ i, s.thread i ≠ .inside .fault) ∧
    (Resting start body s → s.owner = none ∧ ∀ i, s.thread i = .out ∨ ∃ k, s.thread i = .asleep k) := by
  have hinit : Inv (ι := ι) (syncQueueNew eles) [] none := fun _ => ⟨[], holds_new eles, trivial, rfl⟩
  have hkept := contract.kept hinit h
  refine ⟨fun hfree => ?_, fun i hi => ?_, hkept.resting⟩
  · obtain ⟨l, hl, -, hlists⟩ := hkept.inv_of_free hfree hfew
    refine ⟨l, hl, by simpa [adding, taking] using hlists, ?_⟩
    rintro ⟨i, k, hi⟩
    have hfirst := hkept.idle_of_free hfree hi hfew
    rw [hl.first_eq, List.head?_eq_none_iff, List.map_eq_nil_iff] at hfirst
    exact hfirst
  · have hinv := hkept.inv
    rw [pc_of_inside (hkept.inside i _ hi) hi] at hinv
    obtain ⟨l, -, hbad, -⟩ := hinv hfew
    exact hbad

/-- The second thread pops before the first one pushes, sleeps, and gets the element. -/
def lateElement : List (Event Bool (Call ℕ)) :=
  [.call true .pop, .lock true, .act true, .act true, .act true, .call false (.push (some 5) true),
    .lock false, .act false, .act false, .act false, .lock true, .act true, .act true]

theorem sync_queue_works_two : ∃ s, exec (step start body)
      (init (syncQueueNew fun _ => ⟨none, none⟩)) lateElement = some s ∧ taken s.returned = [5] ∧
    (s.owner = none → ∃ l, Holds s.shared l ∧
      accepted s.returned = taken s.returned ++ l.map Prod.snd ∧
      ((∃ i k, s.thread i = .asleep k) → l = [])) := by
  obtain ⟨s, hs⟩ : ∃ s, exec (step start body)
      (init (syncQueueNew fun _ => ⟨none, none⟩)) lateElement = some s := ⟨_, rfl⟩
  have hrun : Run (step start body) (Calls NotNull)
      (init (syncQueueNew fun _ => ⟨none, none⟩)) lateElement s :=
    run_of_exec_of_forall (by simp [lateElement, Calls, NotNull]) hs
  obtain rfl := Option.some.inj hs
  exact ⟨_, rfl, rfl, (sync_queue_works _ hrun (by decide)).1⟩

end TCBackup.Queues
