import Mathlib.Data.Nat.Find
import Mathlib.Data.List.Basic

/-!
# Transfers in parts

A system call that moves elements between a caller and a stream may be interrupted,
may fail, and may move fewer elements than it was asked for. The loops here repeat the
call until everything is moved, the stream ends or a call fails.

## Main definitions

- `Kernel` — the results of the calls, one after the other
- `push`, `pull` — the loops around the calls that write and read
- `Kernel.Reliable` — no call fails
-/

namespace Transfer

/-- One call: interrupted before it moved anything, failed, or allowed to move at
most `most + 1` elements. -/
inductive Call
  | interrupted
  | failed
  | moved (most : ℕ)
  deriving DecidableEq

/-- The results of all calls. Interruptions do not go on for ever. -/
structure Kernel where
  call : ℕ → Call
  progress : ∀ i, ∃ j, i ≤ j ∧ call j ≠ .interrupted

def Kernel.Reliable (k : Kernel) : Prop := ∀ i, k.call i ≠ .failed

/-- The number of interruptions from call `i` on. -/
def Kernel.wait (k : Kernel) (i : ℕ) : ℕ := Nat.find (k.progress i) - i

theorem Kernel.wait_succ {k : Kernel} {i : ℕ} (h : k.call i = .interrupted) :
    k.wait (i + 1) < k.wait i := by
  obtain ⟨hle, hne⟩ := Nat.find_spec (k.progress i)
  have hlt : i < Nat.find (k.progress i) := by
    refine lt_of_le_of_ne hle fun heq => ?_
    rw [← heq] at hne
    exact hne h
  have hmin : Nat.find (k.progress (i + 1)) ≤ Nat.find (k.progress i) :=
    Nat.find_min' _ ⟨hlt, hne⟩
  rw [wait, wait]
  omega

variable {α : Type*}

/-- Write `data` from call `i` on: whether no call failed, the number of the next
call, and what reached the stream. -/
def push (k : Kernel) (i : ℕ) (data : List α) : Bool × ℕ × List α :=
  if _hdata : data = [] then (true, i, [])
  else
    match _hcall : k.call i with
    | .interrupted => push k (i + 1) data
    | .failed => (false, i + 1, [])
    | .moved most =>
      let (ok, next, sent) := push k (i + 1) (data.drop (most + 1))
      (ok, next, data.take (most + 1) ++ sent)
  termination_by (data.length, k.wait i)
  decreasing_by
    · exact Prod.Lex.right _ (Kernel.wait_succ _hcall)
    · refine Prod.Lex.left _ _ ?_
      have hpos := List.length_pos_of_ne_nil _hdata
      rw [List.length_drop]
      omega

/-- Read `n` elements of `stream` from call `i` on: what arrived, or `none` when a
call failed; the number of the next call, and the rest of the stream. A call that
moves nothing has met the end of the stream. -/
def pull (k : Kernel) (i : ℕ) (stream : List α) (n : ℕ) : Option (List α) × ℕ × List α :=
  if _hn : n = 0 then (some [], i, stream)
  else
    match _hcall : k.call i with
    | .interrupted => pull k (i + 1) stream n
    | .failed => (none, i + 1, stream)
    | .moved most =>
      if _hstream : stream = [] then (some [], i + 1, stream)
      else
        let count := min (most + 1) (min n stream.length)
        let (got, next, rest) := pull k (i + 1) (stream.drop count) (n - count)
        (got.map (stream.take count ++ ·), next, rest)
  termination_by (n, k.wait i)
  decreasing_by
    · exact Prod.Lex.right _ (Kernel.wait_succ _hcall)
    · refine Prod.Lex.left _ _ ?_
      have hpos := List.length_pos_of_ne_nil _hstream
      omega

/-- Without failures everything is written. -/
theorem push_reliable {k : Kernel} (hk : k.Reliable) (i : ℕ) (data : List α) :
    ∃ next, push k i data = (true, next, data) := by
  fun_induction push k i data with
  | case1 i => exact ⟨i, rfl⟩
  | case2 i data hdata hcall ih => exact ih
  | case3 i data hdata hcall => exact absurd hcall (hk i)
  | case4 i data hdata most hcall ok next sent hrec ih =>
    obtain ⟨next', heq⟩ := ih
    rw [hrec] at heq
    obtain ⟨rfl, rfl, rfl⟩ := Prod.mk.inj heq |>.imp id Prod.mk.inj
    exact ⟨next, by rw [List.take_append_drop]⟩

/-- Without failures as much is read as was asked for, up to the end of the stream. -/
theorem pull_reliable {k : Kernel} (hk : k.Reliable) (i : ℕ) (stream : List α) (n : ℕ) :
    ∃ next, pull k i stream n = (some (stream.take n), next, stream.drop n) := by
  fun_induction pull k i stream n with
  | case1 i stream => exact ⟨i, rfl⟩
  | case2 i stream n hn hcall ih => exact ih
  | case3 i stream n hn hcall => exact absurd hcall (hk i)
  | case4 i n hn most hcall => exact ⟨i + 1, by simp⟩
  | case5 i stream n hn most hcall hstream count got next rest hrec ih =>
    obtain ⟨next', heq⟩ := ih
    rw [hrec] at heq
    obtain ⟨rfl, rfl, rfl⟩ := Prod.mk.inj heq |>.imp id Prod.mk.inj
    have hcount : count ≤ n := by omega
    refine ⟨next, ?_⟩
    rw [Option.map_some, List.drop_drop, Nat.add_sub_cancel' hcount]
    congr 2
    conv_rhs => rw [← Nat.add_sub_cancel' hcount, List.take_add]

end Transfer
