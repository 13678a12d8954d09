import Mathlib

/-!
# Locks that are taken once and given up later

Cells are locked one by one and put into a buffer. They are taken from it in groups, and
unlocked one by one. What was done with the locks is recorded.

## Main definitions

- `Event`, `held` — what is done, and the locks that are held after it
- `Sound` — no lock is taken twice, and none is given up that is free
- `Turn`, `Traced` — how far each cell is
- `Buffered` — the cells in a buffer, and those of the group at hand
- `Queued` — a buffer, where only some cells were ever locked

## Main results

- `Traced.held_iff` — the lock is held from the first to the last event of a cell
- `Buffered.lock`, `Buffered.take`, `Buffered.unlock`, `Buffered.abandon` — one event each, and a
  group that is given up
- `Queued.held_iff` — the locks that are held if all went well
-/

namespace Locking

variable {ι : Type*}

inductive Event (ι : Type*)
  | lock (i : ι)
  | take (group : List ι)
  | unlock (i : ι)
  deriving DecidableEq

/-- The groups that were taken, in order. -/
def takes (trace : List (Event ι)) : List (List ι) :=
  trace.filterMap fun
    | .take group => some group
    | _ => none

@[simp] theorem takes_append (trace trace' : List (Event ι)) :
    takes (trace ++ trace') = takes trace ++ takes trace' := List.filterMap_append

@[simp] theorem takes_lock (i : ι) : takes [(.lock i : Event ι)] = [] := rfl

variable [DecidableEq ι]

def apply (m : ι → Bool) : Event ι → ι → Bool
  | .lock i => Function.update m i true
  | .take _ => m
  | .unlock i => Function.update m i false

/-- The locks that are held. -/
def held (trace : List (Event ι)) : ι → Bool := trace.foldl apply fun _ => false

/-- A lock that is taken is free, and one that is given up is held. -/
def Fits (m : ι → Bool) : Event ι → Prop
  | .lock i => m i = false
  | .take _ => True
  | .unlock i => m i = true

def Sound (trace : List (Event ι)) : Prop :=
  ∀ pre e post, trace = pre ++ e :: post → Fits (held pre) e

def Event.about (i : ι) : Event ι → Bool
  | .lock j => i = j
  | .take group => i ∈ group
  | .unlock j => i = j

/-- What was done with one cell. -/
def history (trace : List (Event ι)) (i : ι) : List (Event ι) := trace.filter (Event.about i)

inductive Turn
  | idle
  | waiting
  | taken
  | released
  deriving DecidableEq

/-- The history of a cell that is so far. -/
def Turn.Is (i : ι) : Turn → List (Event ι) → Prop
  | .idle, l => l = []
  | .waiting, l => l = [.lock i]
  | .taken, l => ∃ group, i ∈ group ∧ l = [.lock i, .take group]
  | .released, l => ∃ group, i ∈ group ∧ l = [.lock i, .take group, .unlock i]

structure Traced (trace : List (Event ι)) (τ : ι → Turn) : Prop where
  sound : Sound trace
  each : ∀ i, (τ i).Is i (history trace i)

variable {trace : List (Event ι)} {τ : ι → Turn} {i : ι} {e : Event ι} {group : List ι}

theorem held_append_singleton : held (trace ++ [e]) = apply (held trace) e :=
  List.foldl_concat apply _ e trace

theorem history_append_singleton :
    history (trace ++ [e]) i = history trace i ++ if e.about i then [e] else [] := by
  rw [history, List.filter_append, List.filter_singleton, Bool.cond_eq_ite]
  rfl

theorem sound_append_singleton (h : Sound trace) (he : Fits (held trace) e) :
    Sound (trace ++ [e]) := by
  intro pre e' post heq
  rcases List.eq_nil_or_concat' post with rfl | ⟨post, e'', rfl⟩
  · obtain ⟨rfl, hlast⟩ := List.append_inj' heq rfl
    obtain rfl := List.head_eq_of_cons_eq hlast
    exact he
  · rw [← List.cons_append, ← List.append_assoc] at heq
    exact h pre e' post (List.append_inj' heq rfl).1

/-- Whether a lock is held follows from the history of its cell. -/
theorem held_eq (trace : List (Event ι)) (i : ι) : held trace i = held (history trace i) i := by
  induction trace using List.reverseRecOn with
  | nil => rfl
  | append_singleton trace e ih =>
    rw [held_append_singleton, history_append_singleton]
    by_cases habout : e.about i = true
    · rw [if_pos habout, held_append_singleton]
      cases e with
      | lock j => rw [apply, apply, of_decide_eq_true habout, Function.update_self, Function.update_self]
      | take group => exact ih
      | unlock j =>
        rw [apply, apply, of_decide_eq_true habout, Function.update_self, Function.update_self]
    · rw [if_neg habout, List.append_nil, ← ih]
      cases e with
      | take group => rfl
      | lock j | unlock j => exact Function.update_of_ne (fun heq => habout (decide_eq_true heq)) _ _

theorem Traced.held_iff (h : Traced trace τ) (i : ι) :
    held trace i = true ↔ τ i = .waiting ∨ τ i = .taken := by
  have hi := h.each i
  rw [held_eq]
  cases hτ : τ i with
  | idle =>
    rw [hτ] at hi
    rw [show history trace i = [] from hi]
    simp [held]
  | waiting =>
    rw [hτ] at hi
    rw [show history trace i = [.lock i] from hi]
    simp [held, apply]
  | taken =>
    rw [hτ] at hi
    obtain ⟨group, -, hgroup⟩ := hi
    rw [hgroup]
    simp [held, apply]
  | released =>
    rw [hτ] at hi
    obtain ⟨group, -, hgroup⟩ := hi
    rw [hgroup]
    simp [held, apply]

theorem Traced.lock (h : Traced trace τ) (hi : τ i = .idle) :
    Traced (trace ++ [.lock i]) (Function.update τ i .waiting) := by
  refine ⟨sound_append_singleton h.sound ?_, fun j => ?_⟩
  · show held trace i = false
    rw [Bool.eq_false_iff, ne_eq, h.held_iff, hi]
    simp
  · rw [history_append_singleton]
    by_cases hj : j = i
    · subst hj
      have hnil := h.each j
      rw [hi] at hnil
      rw [show history trace j = [] from hnil, Function.update_self]
      simp [Event.about, Turn.Is]
    · rw [Function.update_of_ne hj, if_neg (by simp [Event.about, hj]), List.append_nil]
      exact h.each j

theorem Traced.take (h : Traced trace τ) (hgroup : ∀ i ∈ group, τ i = .waiting) :
    Traced (trace ++ [.take group]) fun i => if i ∈ group then .taken else τ i := by
  refine ⟨sound_append_singleton h.sound trivial, fun j => ?_⟩
  rw [history_append_singleton]
  by_cases hj : j ∈ group
  · have hone := h.each j
    rw [hgroup j hj] at hone
    rw [if_pos hj, if_pos (by simp [Event.about, hj]), show history trace j = [.lock j] from hone]
    exact ⟨group, hj, rfl⟩
  · rw [if_neg hj, if_neg (by simp [Event.about, hj]), List.append_nil]
    exact h.each j

theorem Traced.unlock (h : Traced trace τ) (hi : τ i = .taken) :
    Traced (trace ++ [.unlock i]) (Function.update τ i .released) := by
  refine ⟨sound_append_singleton h.sound ?_, fun j => ?_⟩
  · show held trace i = true
    rw [h.held_iff]
    exact .inr hi
  · rw [history_append_singleton]
    by_cases hj : j = i
    · subst hj
      have htwo := h.each j
      rw [hi] at htwo
      obtain ⟨group, hmem, htwo⟩ := htwo
      rw [htwo, Function.update_self, if_pos (by simp [Event.about])]
      exact ⟨group, hmem, rfl⟩
    · rw [Function.update_of_ne hj, if_neg (by simp [Event.about, hj]), List.append_nil]
      exact h.each j

/-- The cells in `buffer` wait, and those in `group` were taken and are still locked; if all went
well (`ok`) no others are. `entered` are all cells that were locked at some time. -/
structure Buffered (ok : Prop) (trace : List (Event ι)) (buffer group entered : List ι)
    (τ : ι → Turn) : Prop where
  traced : Traced trace τ
  waiting : ∀ i, τ i = .waiting ↔ i ∈ buffer
  taken : ∀ i ∈ group, τ i = .taken
  settled : ok → ∀ i, τ i = .taken → i ∈ group
  idle : ∀ i, τ i = .idle ↔ i ∉ entered
  nodup_buffer : buffer.Nodup
  nodup_group : group.Nodup

variable {ok : Prop} {buffer buffer' entered rest : List ι}

theorem Buffered.lock (h : Buffered ok trace buffer [] entered τ) (hi : i ∉ entered) :
    Buffered ok (trace ++ [.lock i]) (buffer ++ [i]) [] (entered ++ [i])
      (Function.update τ i .waiting) := by
  have hidle := (h.idle i).mpr hi
  have hbuffer : i ∉ buffer := by
    rw [← h.waiting, hidle]
    simp
  refine ⟨h.traced.lock hidle, fun j => ?_, by simp, fun hok j hj => ?_, fun j => ?_, ?_,
    List.nodup_nil⟩
  · by_cases hj : j = i
    · simp [hj]
    · rw [Function.update_of_ne hj, h.waiting]
      simp [hj]
  · by_cases heq : j = i
    · simp [heq] at hj
    · rw [Function.update_of_ne heq] at hj
      exact h.settled hok j hj
  · by_cases hj : j = i
    · simp [hj]
    · rw [Function.update_of_ne hj, h.idle]
      simp [hj]
  · exact List.nodup_append_comm.mp (List.nodup_cons.mpr ⟨hbuffer, h.nodup_buffer⟩)

theorem Buffered.take (h : Buffered ok trace (group ++ rest) [] entered τ) :
    Buffered ok (trace ++ [.take group]) rest group entered
      fun i => if i ∈ group then .taken else τ i := by
  have hapart := List.disjoint_of_nodup_append h.nodup_buffer
  obtain ⟨hgroup, hrest, -⟩ := List.nodup_append.mp h.nodup_buffer
  have hwaiting : ∀ i ∈ group, τ i = .waiting := fun i hi =>
    (h.waiting i).mpr (List.mem_append_left _ hi)
  refine ⟨h.traced.take hwaiting, fun i => ?_, fun i hi => if_pos hi, fun hok i hi => ?_,
    fun i => ?_, hrest, hgroup⟩
  · by_cases hi : i ∈ group
    · simp only [hi, if_true, reduceCtorEq, false_iff]
      exact hapart hi
    · rw [if_neg hi, h.waiting, List.mem_append]
      exact or_iff_right hi
  · by_contra hnot
    rw [if_neg hnot] at hi
    simpa using h.settled hok i hi
  · by_cases hi : i ∈ group
    · simp only [hi, if_true, reduceCtorEq, false_iff]
      rw [← h.idle, hwaiting i hi]
      simp
    · rw [if_neg hi, h.idle]

theorem Buffered.unlock (h : Buffered ok trace buffer (i :: group) entered τ) :
    Buffered ok (trace ++ [.unlock i]) buffer group entered (Function.update τ i .released) := by
  obtain ⟨hi, hgroup⟩ := List.nodup_cons.mp h.nodup_group
  have htaken := h.taken i List.mem_cons_self
  have hne : ∀ j ∈ group, j ≠ i := by
    rintro j hj rfl
    exact hi hj
  refine ⟨h.traced.unlock htaken, fun j => ?_, fun j hj => ?_, fun hok j hj => ?_, fun j => ?_,
    h.nodup_buffer, hgroup⟩
  · by_cases hj : j = i
    · subst hj
      rw [Function.update_self, ← h.waiting, htaken]
      simp
    · rw [Function.update_of_ne hj, h.waiting]
  · rw [Function.update_of_ne (hne j hj)]
    exact h.taken j (List.mem_cons_of_mem _ hj)
  · by_cases heq : j = i
    · simp [heq] at hj
    · rw [Function.update_of_ne heq] at hj
      exact (List.mem_cons.mp (h.settled hok j hj)).resolve_left heq
  · by_cases hj : j = i
    · subst hj
      rw [Function.update_self, ← h.idle, htaken]
      simp
    · rw [Function.update_of_ne hj, h.idle]

/-- A buffer after a run that locked cells of `met` only. -/
def Queued (ok : Prop) (trace : List (Event ι)) (buffer group met : List ι) : Prop :=
  ∃ entered τ, Buffered ok trace buffer group entered τ ∧ entered ⊆ met

variable {met met' : List ι}

theorem Queued.sound (h : Queued ok trace buffer group met) : Sound trace := by
  obtain ⟨entered, τ, hbuffered, -⟩ := h
  exact hbuffered.traced.sound

theorem Queued.nodup (h : Queued ok trace buffer group met) : buffer.Nodup := by
  obtain ⟨entered, τ, hbuffered, -⟩ := h
  exact hbuffered.nodup_buffer

theorem Queued.mono (h : Queued ok trace buffer group met) (hsub : met ⊆ met') :
    Queued ok trace buffer group met' := by
  obtain ⟨entered, τ, hbuffered, hentered⟩ := h
  exact ⟨entered, τ, hbuffered, List.Subset.trans hentered hsub⟩

theorem Queued.lock (h : Queued ok trace buffer [] met) (hi : i ∉ met) :
    Queued ok (trace ++ [.lock i]) (buffer ++ [i]) [] (met ++ [i]) := by
  obtain ⟨entered, τ, hbuffered, hentered⟩ := h
  refine ⟨_, _, hbuffered.lock fun hmem => hi (hentered hmem), ?_⟩
  exact List.append_subset.mpr
    ⟨List.Subset.trans hentered (List.subset_append_left met [i]),
      List.subset_append_right met [i]⟩

theorem Queued.take (h : Queued ok trace (group ++ rest) [] met) :
    Queued ok (trace ++ [.take group]) rest group met := by
  obtain ⟨entered, τ, hbuffered, hentered⟩ := h
  exact ⟨entered, _, hbuffered.take, hentered⟩

theorem Queued.unlock (h : Queued ok trace buffer (i :: group) met) :
    Queued ok (trace ++ [.unlock i]) buffer group met := by
  obtain ⟨entered, τ, hbuffered, hentered⟩ := h
  exact ⟨entered, _, hbuffered.unlock, hentered⟩

/-- If all went well, the locks that are held are those of the buffer. -/
theorem Queued.held_iff (h : Queued ok trace buffer [] met) (hok : ok) (i : ι) :
    held trace i = true ↔ i ∈ buffer := by
  obtain ⟨entered, τ, hbuffered, -⟩ := h
  rw [hbuffered.traced.held_iff, hbuffered.waiting]
  exact or_iff_left fun htaken => by simpa using hbuffered.settled hok i htaken

end Locking
