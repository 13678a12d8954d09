import TCBackup.Server.NewBackup

/-!
# Ownership of the recipe in `new_backup`

A `FILE_HASH` makes the recipe of `rp`, and a `FILE_RECIPE` uses and frees it. Nothing
in the loop checks that they alternate, so only the messages of the client decide
whether a recipe is used that is not there.

## Main definitions

- `kind` — the type read from a message, where a signal leaves an old one in the buffer
- `wellOrdered` — every `FILE_RECIPE` follows a `FILE_HASH` of its own
- `Survives` — no undefined behaviour on the recipe, whatever the other calls return
-/

namespace TCBackup.Server.NewBackup

open ByteFile Framing

/-- The type that is read after a message, `stale` being the one read from the buffer
before it. -/
def kind (stale : Kind) : Delivery → Kind
  | .message _ bytes => kindOf (bytes ++ [0])
  | _ => stale

/-- The message after a `FILE_HASH` goes into `file_hash`. -/
def hashFits (m : Messages) : Bool := 0 ≤ m.len ∧ m.len ≤ 20

/-- The path of `UPDATEATTR` goes into `filename`. -/
def pathFits (m : Messages) : Bool :=
  ((scanUpdateAttr (cstring (m.msg.into []))).2.getD []).length < 256

/-- From the messages alone: every `FILE_RECIPE` that is read follows a `FILE_HASH`, no
other `FILE_RECIPE` between them, and what they carry fits the recipe. `armed` tells
whether a `FILE_HASH` is waiting for its `FILE_RECIPE`. -/
def wellOrdered (stale : Kind) (armed : Bool) : List Messages → Bool
  | [] => true
  | m :: ms =>
    if m.type.ret = bnetError ∨ m.type = .signal streamEnd then true
    else
      match kind stale m.type with
      | .wrong => true
      | .fileHash => hashFits m && wellOrdered (kindOf (m.msg.into [])) true ms
      | .fileRecipe => armed && pathFits m && wellOrdered .other false ms
      | .other => wellOrdered .other armed ms

/-- The messages are in order from this state on. -/
def State.ordered (s : State) (ms : List Messages) : Bool :=
  wellOrdered (kindOf s.buf) s.rp.isLive ms

/-- What a round says about the order of the messages from it on. -/
def Agrees (ordered : Bool) (ms : List Messages) : State × Option Ending → Prop
  | (t, none) => ordered = t.ordered ms
  | (_, some (.fault _)) => ordered = false
  | (_, some .waits) => True
  | (_, some _) => ordered = true

end TCBackup.Server.NewBackup
