import Mathlib

/-!
# Most recently used

The keys that were used so far, each once and the last one first. A cache of `k` keys that
gives up the key used longest ago holds the first `k` of them.

## Main definitions

- `touch`, `recents` — one use, and all uses so far

## Main results

- `take_touch` — the first `k` keys after a use follow from the first `k` before it
- `touch_take_of_mem`, `touch_take_of_notMem` — a hit, and a miss in a full or a filling cache
-/

namespace Lru

variable {α : Type*} [DecidableEq α]

def touch (l : List α) (a : α) : List α := a :: l.erase a

/-- The distinct keys that were used, the last one first. -/
def recents (uses : List α) : List α := uses.foldl touch []

variable {uses l : List α} {a : α} {k : ℕ}

theorem recents_append_singleton : recents (uses ++ [a]) = touch (recents uses) a :=
  List.foldl_concat touch [] a uses

theorem nodup_recents (uses : List α) : (recents uses).Nodup := by
  induction uses using List.reverseRecOn with
  | nil => exact List.nodup_nil
  | append_singleton uses a ih =>
    rw [recents_append_singleton]
    exact List.nodup_cons.mpr ⟨ih.not_mem_erase, ih.erase a⟩

theorem mem_recents (uses : List α) : a ∈ recents uses ↔ a ∈ uses := by
  induction uses using List.reverseRecOn with
  | nil => exact Iff.rfl
  | append_singleton uses b ih =>
    rw [recents_append_singleton, touch, List.mem_cons, List.mem_append, List.mem_singleton,
      (nodup_recents uses).mem_erase_iff, ih]
    tauto

theorem take_erase (k : ℕ) (l : List α) (a : α) :
    (l.erase a).take k = ((l.take (k + 1)).erase a).take k := by
  induction l generalizing k with
  | nil => rfl
  | cons b l ih =>
    rw [List.take_succ_cons]
    by_cases hb : b = a
    · rw [hb, List.erase_cons_head, List.erase_cons_head, List.take_take, min_self]
    · rw [List.erase_cons_tail (by simpa using hb), List.erase_cons_tail (by simpa using hb)]
      cases k with
      | zero => rfl
      | succ k => rw [List.take_succ_cons, List.take_succ_cons, ih k]

/-- What comes behind the first `k` keys stays behind them. -/
theorem take_touch (k : ℕ) (l : List α) (a : α) :
    (touch l a).take k = (touch (l.take k) a).take k := by
  cases k with
  | zero => rfl
  | succ k =>
    rw [touch, touch, List.take_succ_cons, List.take_succ_cons]
    exact congrArg _ (take_erase k l a)

/-- A hit. -/
theorem touch_take_of_mem (ha : a ∈ l) (hl : l.length ≤ k) : (touch l a).take k = touch l a := by
  apply List.take_of_length_le
  rw [touch, List.length_cons, List.length_erase_of_mem ha]
  have := List.length_pos_of_mem ha
  omega

/-- A miss in a cache that is full. -/
theorem touch_take_of_full (ha : a ∉ l) (hk : 0 < k) (hl : l.length = k) :
    (touch l a).take k = a :: l.dropLast := by
  obtain ⟨k, rfl⟩ := Nat.exists_eq_add_one_of_ne_zero hk.ne'
  rw [touch, List.erase_of_not_mem ha, List.take_succ_cons, List.dropLast_eq_take, hl]
  rfl

/-- A miss in a cache that is not full. -/
theorem touch_take_of_room (ha : a ∉ l) (hl : l.length < k) : (touch l a).take k = a :: l := by
  rw [touch, List.erase_of_not_mem ha]
  exact List.take_of_length_le (by simpa using hl)

end Lru
