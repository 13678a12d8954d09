import TCBackup.Client.ChunkDedup
import TCBackup.Lib.Locking

/-!
# Files that cannot be opened and chunks that cannot be stored

`open` and `write_chunk_to_cloud` can fail, and what is done with the mutexes of the chunks is
recorded.

## Main definitions

- `Attempt` — what the thread works on, with the calls so far
- `tryOpen`, `tryWrite` — the calls that can fail
-/

namespace TCBackup.Client

open ByteFile Handoff Locking

/-- `calls` counts the calls that can fail. -/
structure Attempt where
  work : Work
  calls : ℕ
  trace : List (Locking.Event ℕ)

/-- A step that cannot fail. -/
def Attempt.on (t : Attempt) (f : Work → Work) : Attempt := { t with work := f t.work }

/-- `pthread_mutex_lock(&fc->mutex)` -/
def Attempt.lock (t : Attempt) (r : ℕ) : Attempt :=
  { t with work := t.work.lock r, trace := t.trace ++ [.lock r] }

/-- `pthread_mutex_unlock(&fc->mutex)` -/
def Attempt.unlock (t : Attempt) (r : ℕ) : Attempt :=
  { t with work := t.work.unlock r, trace := t.trace ++ [.unlock r] }

/-- `queue_pop` on a buffer, for these chunks. -/
def Attempt.take (t : Attempt) (group : List ℕ) : Attempt :=
  { t with trace := t.trace ++ [.take group] }

/-- `fails n flush` tells whether the call number `n` fails; `flush` is set for calls that are made
for chunks from a buffer. -/
abbrev Fails := ℕ → Bool → Bool

/-- Nothing fails. -/
def noFailure : Fails := fun _ _ => false

variable (fails : Fails) (clock : ℕ → ℤ)

/-- `open` -/
def tryOpen (flush : Bool) (t : Attempt) : Bool × Attempt :=
  (!fails t.calls flush, { t with calls := t.calls + 1 })

/-- `write_chunk_to_cloud`, which fails if the file is not open. -/
def tryWrite (flush opened : Bool) (file : Bytes) (off_set : ℕ) (r : ℕ) (t : Attempt) :
    Bool × Attempt :=
  if opened && !fails t.calls flush then
    (true, { t with work := writeChunkToCloud clock file off_set r t.work, calls := t.calls + 1 })
  else (false, { t with calls := t.calls + 1 })

section Lemmas

variable {fails clock} (flush opened : Bool) (file : Bytes) (off_set r : ℕ) (t : Attempt)

@[simp] theorem on_calls (f : Work → Work) : (t.on f).calls = t.calls := rfl

@[simp] theorem on_work (f : Work → Work) : (t.on f).work = f t.work := rfl

@[simp] theorem lock_trace : (t.lock r).trace = t.trace ++ [.lock r] := rfl

@[simp] theorem lock_work : (t.lock r).work = t.work.lock r := rfl

@[simp] theorem unlock_work : (t.unlock r).work = t.work.unlock r := rfl

@[simp] theorem take_work (group : List ℕ) : (t.take group).work = t.work := rfl

@[simp] theorem tryOpen_work : (tryOpen fails flush t).2.work = t.work := rfl

/-- Without a failure the chunk is stored. -/
theorem tryWrite_ok (h : ∀ n, fails n flush = false) :
    tryWrite fails clock flush true file off_set r t =
      (true, { t with
        work := writeChunkToCloud clock file off_set r t.work
        calls := t.calls + 1 }) := by
  rw [tryWrite, h]
  rfl

theorem tryOpen_ok (h : ∀ n, fails n flush = false) :
    tryOpen fails flush t = (true, { t with calls := t.calls + 1 }) := by
  rw [tryOpen, h]
  rfl

end Lemmas

end TCBackup.Client
