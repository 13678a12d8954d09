import Mathlib.Logic.Function.Iterate
import Mathlib.Data.List.Basic

/-!
# Rolling hashes

A hash that appends one symbol after the other, and that is linear in its state. The
contribution of the oldest symbol of a window can be added once more to cancel it.

## Main definitions

- `Linear` — the operations and their laws
- `Linear.hash` — the hash of a list of symbols

## Main results

- `Linear.roll` — moving the window on by one symbol
-/

namespace RollingHash

/-- `app` appends a symbol, and `shift` is what it does to a summand. -/
structure Linear (γ β : Type*) where
  zero : γ
  add : γ → γ → γ
  app : γ → β → γ
  shift : γ → γ
  zero_add : ∀ a, add zero a = a
  add_cancel : ∀ a b, add (add a b) b = a
  app_add : ∀ a b m, app (add a b) m = add (app a m) (shift b)

variable {γ β : Type*} (h : Linear γ β)

def Linear.hash (ws : List β) : γ := ws.foldl h.app h.zero

theorem Linear.hash_concat (ws : List β) (m : β) : h.hash (ws ++ [m]) = h.app (h.hash ws) m := by
  simp [hash]

theorem Linear.foldl_add (ws : List β) (a b : γ) :
    ws.foldl h.app (h.add a b) = h.add (ws.foldl h.app a) (h.shift^[ws.length] b) := by
  induction ws generalizing a b with
  | nil => rfl
  | cons m ws ih =>
    rw [List.foldl_cons, List.foldl_cons, h.app_add, ih, List.length_cons,
      Function.iterate_succ_apply]

/-- The oldest symbol adds its shifted code. -/
theorem Linear.hash_cons (e : β) (ws : List β) :
    h.hash (e :: ws) = h.add (h.hash ws) (h.shift^[ws.length] (h.app h.zero e)) := by
  have hfirst : h.app h.zero e = h.add h.zero (h.app h.zero e) := (h.zero_add _).symm
  rw [hash, List.foldl_cons, hfirst, h.foldl_add, h.zero_add]
  rfl

/-- The oldest symbol is cancelled, and a new one appended. -/
theorem Linear.roll (e m : β) (ws : List β) :
    h.app (h.add (h.hash (e :: ws)) (h.shift^[ws.length] (h.app h.zero e))) m =
      h.hash (ws ++ [m]) := by
  rw [h.hash_cons, h.add_cancel, h.hash_concat]

end RollingHash
