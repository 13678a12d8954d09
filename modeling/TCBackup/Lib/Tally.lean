import Mathlib

/-!
# A table that adds up amounts

The amounts for one key are added in the order in which they come, in an arithmetic that may
wrap around.

## Main definitions

- `tally` — what a table has for a key that starts with the first amount
- `total` — the exact sum

## Main results

- `tally_append_singleton` — one more amount
- `tally_eq_total` — the table has the sum, reduced as the arithmetic reduces it
-/

namespace Tally

variable {κ α : Type*} [DecidableEq κ]

/-- The first amount for the key, and the others added to it. -/
def tally (add : α → α → α) (l : List (κ × α)) (k : κ) : Option α :=
  l.foldl (fun o p => if p.1 = k then some (o.elim p.2 fun n => add n p.2) else o) none

def total [AddMonoid α] (l : List (κ × α)) (k : κ) : α :=
  ((l.filter fun p => p.1 = k).map Prod.snd).sum

variable {add : α → α → α} {l : List (κ × α)} {k : κ}

@[simp] theorem tally_nil : tally add ([] : List (κ × α)) k = none := rfl

theorem tally_append_singleton (p : κ × α) :
    tally add (l ++ [p]) k =
      if k = p.1 then some ((tally add l p.1).elim p.2 fun n => add n p.2) else tally add l k := by
  rw [tally, List.foldl_append]
  show (if p.1 = k then some ((tally add l k).elim p.2 fun n => add n p.2) else tally add l k) = _
  by_cases hk : k = p.1
  · rw [if_pos hk, if_pos hk.symm, hk]
  · rw [if_neg hk, if_neg (Ne.symm hk)]

theorem tally_eq_none_iff : tally add l k = none ↔ k ∉ l.map Prod.fst := by
  induction l using List.reverseRecOn with
  | nil => simp
  | append_singleton l p ih =>
    rw [tally_append_singleton]
    by_cases hk : k = p.1
    · simp [hk]
    · rw [if_neg hk, ih]
      simp [hk]

variable [AddMonoid α]

@[simp] theorem total_nil : total ([] : List (κ × α)) k = 0 := rfl

theorem total_append_singleton (p : κ × α) :
    total (l ++ [p]) k = total l k + if p.1 = k then p.2 else 0 := by
  rw [total, total, List.filter_append, List.map_append, List.sum_append]
  by_cases hk : p.1 = k
  · simp [hk]
  · simp [hk]

/-- `reduce` is how the arithmetic reduces a sum. -/
theorem tally_eq_total (reduce : α → α) (hadd : ∀ x y, add (reduce x) y = reduce (x + y))
    (hsmall : ∀ p ∈ l, reduce p.2 = p.2) :
    tally add l k = if k ∈ l.map Prod.fst then some (reduce (total l k)) else none := by
  induction l using List.reverseRecOn generalizing k with
  | nil => simp
  | append_singleton l p ih =>
    have ih' := fun k => ih (k := k) fun q hq => hsmall q (List.mem_append_left _ hq)
    rw [tally_append_singleton, ih', ih', total_append_singleton]
    by_cases hk : k = p.1
    · subst hk
      rw [if_pos rfl, if_pos (by simp : p.1 ∈ (l ++ [p]).map Prod.fst), if_pos rfl]
      by_cases hmem : p.1 ∈ l.map Prod.fst
      · rw [if_pos hmem, Option.elim_some, hadd]
      · have hzero : total l p.1 = 0 := by
          rw [total, List.filter_eq_nil_iff.mpr, List.map_nil, List.sum_nil]
          intro q hq heq
          exact hmem (List.mem_map.mpr ⟨q, hq, of_decide_eq_true heq⟩)
        rw [if_neg hmem, Option.elim_none, hzero, zero_add,
          hsmall p (List.mem_append_right _ List.mem_cons_self)]
    · have hmem : k ∈ (l ++ [p]).map Prod.fst ↔ k ∈ l.map Prod.fst := by simp [hk]
      rw [if_neg hk, if_neg (Ne.symm hk), add_zero]
      simp only [hmem]

end Tally
