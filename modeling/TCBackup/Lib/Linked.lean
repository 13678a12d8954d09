import Mathlib

/-!
# Singly linked lists

Cells point to cells through a field that the program writes. What a walk meets is a list,
and unlinking, inserting and moving a cell are the same operations on that list.

## Main definitions

- `Seg` — the cells that a walk meets between two pointers

## Main results

- `Seg.update_of_notMem` — writing to another cell changes nothing
- `Seg.unlink`, `Seg.link`, `Seg.append_cell`, `Seg.cut` — one write at a time
-/

namespace Linked

variable {α : Type*}

/-- From the pointer `p` the walk meets the cells `l`, and then it is at `q`. -/
def Seg (next : α → Option α) : Option α → List α → Option α → Prop
  | p, [], q => p = q
  | p, a :: l, q => p = some a ∧ Seg next (next a) l q

variable {next next' : α → Option α} {p q r : Option α} {a b : α} {l l' : List α}

@[simp] theorem seg_nil : Seg next p [] q ↔ p = q := Iff.rfl

@[simp] theorem seg_cons : Seg next p (a :: l) q ↔ p = some a ∧ Seg next (next a) l q := Iff.rfl

theorem seg_append : Seg next p (l ++ l') r ↔ ∃ q, Seg next p l q ∧ Seg next q l' r := by
  induction l generalizing p with
  | nil => simp
  | cons a l ih => simp only [List.cons_append, seg_cons, ih, and_assoc, exists_and_left]

theorem Seg.congr (h : Seg next p l q) (hsame : ∀ a ∈ l, next' a = next a) : Seg next' p l q := by
  induction l generalizing p with
  | nil => exact h
  | cons a l ih =>
    refine ⟨h.1, ?_⟩
    rw [hsame a List.mem_cons_self]
    exact ih h.2 fun b hb => hsame b (List.mem_cons_of_mem _ hb)

/-- Two walks from one pointer to the end meet the same cells. -/
theorem Seg.unique (h : Seg next p l none) (h' : Seg next p l' none) : l = l' := by
  induction l generalizing p l' with
  | nil =>
    cases l' with
    | nil => rfl
    | cons a' l' => exact absurd (h.symm.trans h'.1) (by simp)
  | cons a l ih =>
    cases l' with
    | nil => exact absurd (h'.symm.trans h.1) (by simp)
    | cons a' l' =>
      obtain rfl : a = a' := Option.some.inj (h.1.symm.trans h'.1)
      rw [ih h.2 h'.2]

variable [DecidableEq α]

theorem Seg.update_of_notMem (h : Seg next p l q) (ha : a ∉ l) :
    Seg (Function.update next a r) p l q := by
  apply h.congr
  intro b hb
  refine Function.update_of_ne ?_ _ _
  rintro rfl
  exact ha hb

/-- The cell behind `a` leaves the list. -/
theorem Seg.unlink (h : Seg next p (l ++ a :: b :: l') q) (hnodup : (l ++ a :: b :: l').Nodup) :
    Seg (Function.update next a (next b)) p (l ++ a :: l') q := by
  obtain ⟨r, hfront, rfl, hb, hrest⟩ := seg_append.mp h
  have ha := (List.nodup_middle.mp hnodup).notMem
  simp only [List.mem_append, List.mem_cons, not_or] at ha
  refine seg_append.mpr ⟨_, hfront.update_of_notMem ha.1, rfl, ?_⟩
  rw [Function.update_self]
  exact hrest.update_of_notMem ha.2.2

/-- A new cell comes behind `a`. -/
theorem Seg.link (h : Seg next p (l ++ a :: l') q) (hnodup : (l ++ a :: l').Nodup)
    (hb : b ∉ l ++ a :: l') :
    Seg (Function.update (Function.update next b (next a)) a (some b)) p (l ++ a :: b :: l') q := by
  obtain ⟨r, hfront, rfl, hrest⟩ := seg_append.mp h
  have ha := (List.nodup_middle.mp hnodup).notMem
  simp only [List.mem_append, List.mem_cons, not_or] at ha hb
  obtain ⟨hbl, hba, hbl'⟩ := hb
  refine seg_append.mpr ⟨_, (hfront.update_of_notMem hbl).update_of_notMem ha.1, rfl, ?_⟩
  rw [Function.update_self]
  refine ⟨rfl, ?_⟩
  rw [Function.update_of_ne hba, Function.update_self]
  exact (hrest.update_of_notMem hbl').update_of_notMem ha.2

/-- A new cell comes to the front. -/
theorem Seg.push (h : Seg next p l q) (hb : b ∉ l) :
    Seg (Function.update next b p) (some b) (b :: l) q := by
  refine ⟨rfl, ?_⟩
  rw [Function.update_self]
  exact h.update_of_notMem hb

/-- The list ends behind `a`. -/
theorem Seg.cut (h : Seg next p (l ++ a :: l') q) (hnodup : (l ++ [a]).Nodup) :
    Seg (Function.update next a r) p (l ++ [a]) r := by
  obtain ⟨r', hfront, rfl, -⟩ := seg_append.mp h
  have ha := (List.nodup_middle.mp hnodup).notMem
  refine seg_append.mpr ⟨_, hfront.update_of_notMem fun hl => ha (by simp [hl]), rfl, ?_⟩
  exact Function.update_self _ _ _

end Linked
