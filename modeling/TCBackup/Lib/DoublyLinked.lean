import TCBackup.Lib.Linked

/-!
# Doubly linked lists

The walk from the head and the walk from the tail meet the same cells, in opposite orders. An
operation edits each of the two walks, and the edits of one direction are those of the other.

## Main definitions

- `setAt` — writing to a cell, if there is one
- `Dll` — the cells between head and tail

## Main results

- `Seg.append`, `Seg.remove` — the edits of one direction
- `Dll.push`, `Dll.append`, `Dll.remove` — the operations
-/

namespace Linked

variable {α : Type*} {next prev : α → Option α} {p head tail : Option α} {a : α} {l l' : List α}

theorem Seg.start_eq (h : Seg next p l none) : p = l.head? := by
  cases l with
  | nil => exact h
  | cons b l => exact h.1

/-- A cell points to the one behind it. -/
theorem Seg.next_eq (h : Seg next p (l ++ a :: l') none) : next a = l'.head? := by
  obtain ⟨r, -, -, hrest⟩ := seg_append.mp h
  exact hrest.start_eq

/-- `next` leads from the head through the cells of `l`, and `prev` from the tail back. -/
structure Dll (next prev : α → Option α) (head tail : Option α) (l : List α) : Prop where
  forward : Seg next head l none
  backward : Seg prev tail l.reverse none
  nodup : l.Nodup

theorem Dll.symm (h : Dll next prev head tail l) : Dll prev next tail head l.reverse :=
  ⟨h.backward, by rw [List.reverse_reverse]; exact h.forward, List.nodup_reverse.mpr h.nodup⟩

theorem dll_nil : Dll next prev none none [] := ⟨rfl, rfl, List.nodup_nil⟩

theorem Dll.head_eq (h : Dll next prev head tail l) : head = l.head? := h.forward.start_eq

theorem Dll.tail_eq (h : Dll next prev head tail l) : tail = l.getLast? := by
  rw [h.symm.head_eq, List.head?_reverse]

theorem Dll.next_eq (h : Dll next prev head tail (l ++ a :: l')) : next a = l'.head? :=
  h.forward.next_eq

theorem reverse_middle (l : List α) (a : α) (l' : List α) :
    (l ++ a :: l').reverse = l'.reverse ++ a :: l.reverse := by
  rw [List.reverse_append, List.reverse_cons, List.append_assoc, List.singleton_append]

theorem Dll.prev_eq (h : Dll next prev head tail (l ++ a :: l')) : prev a = l.getLast? := by
  have hback := h.backward
  rw [reverse_middle] at hback
  rw [hback.next_eq, List.head?_reverse]

variable [DecidableEq α]

def setAt (next : α → Option α) : Option α → Option α → α → Option α
  | none, _ => next
  | some a, x => Function.update next a x

/-- A cell comes behind the last one. -/
theorem Seg.append (h : Seg next p l none) (hnodup : l.Nodup) (ha : a ∉ l) :
    Seg (setAt (Function.update next a none) l.getLast? (some a))
      (l.getLast?.elim (some a) fun _ => p) (l ++ [a]) none := by
  rcases List.eq_nil_or_concat l with rfl | ⟨l, b, rfl⟩
  · refine ⟨rfl, ?_⟩
    change Function.update next a none a = none
    exact Function.update_self ..
  · rw [List.concat_eq_append] at h hnodup ha ⊢
    rw [List.mem_append, List.mem_singleton, not_or] at ha
    have hb := (List.nodup_concat l b).mp (by rwa [List.concat_eq_append])
    obtain ⟨r, hfront, rfl, -⟩ := seg_append.mp h
    have hset : setAt (Function.update next a none) (some b) (some a) =
        Function.update (Function.update next a none) b (some a) := rfl
    rw [List.getLast?_concat, List.append_assoc, List.singleton_append, hset]
    refine seg_append.mpr ⟨_, (hfront.update_of_notMem ha.1).update_of_notMem hb.1, rfl, ?_⟩
    rw [Function.update_self]
    refine ⟨rfl, ?_⟩
    rw [Function.update_of_ne ha.2, Function.update_self]
    rfl

/-- A cell leaves the list. -/
theorem Seg.remove (h : Seg next p (l ++ a :: l') none) (hnodup : (l ++ a :: l').Nodup) :
    Seg (setAt next l.getLast? (next a)) (l.getLast?.elim (next a) fun _ => p) (l ++ l') none := by
  rcases List.eq_nil_or_concat l with rfl | ⟨l, b, rfl⟩
  · exact h.2
  · rw [List.concat_eq_append, List.append_assoc] at h hnodup
    have hunlink := h.unlink hnodup
    rw [List.concat_eq_append, List.append_assoc, List.getLast?_concat]
    exact hunlink

/-- A cell comes to the front. -/
theorem Dll.push (h : Dll next prev head tail l) (ha : a ∉ l) :
    Dll (Function.update next a head) (setAt (Function.update prev a none) head (some a)) (some a)
      (head.elim (some a) fun _ => tail) (a :: l) := by
  refine ⟨h.forward.push ha, ?_, List.nodup_cons.mpr ⟨ha, h.nodup⟩⟩
  have hback := h.backward.append (List.nodup_reverse.mpr h.nodup) (List.mem_reverse.not.mpr ha)
  rw [List.getLast?_reverse, ← h.head_eq] at hback
  rw [List.reverse_cons]
  exact hback

/-- A cell comes to the end. -/
theorem Dll.append (h : Dll next prev head tail l) (ha : a ∉ l) :
    Dll (setAt (Function.update next a none) tail (some a)) (Function.update prev a tail)
      (tail.elim (some a) fun _ => head) (some a) (l ++ [a]) := by
  have hpush := (h.symm.push (List.mem_reverse.not.mpr ha)).symm
  rw [List.reverse_cons, List.reverse_reverse] at hpush
  exact hpush

/-- A cell leaves the list. -/
theorem Dll.remove (h : Dll next prev head tail (l ++ a :: l')) :
    Dll (setAt next (prev a) (next a)) (setAt prev (next a) (prev a))
      ((prev a).elim (next a) fun _ => head) ((next a).elim (prev a) fun _ => tail) (l ++ l') := by
  have hprev := h.prev_eq
  have hforward := h.forward.remove h.nodup
  have hback := h.backward
  have hnodup := List.nodup_reverse.mpr h.nodup
  rw [reverse_middle] at hback hnodup
  have hbackward := hback.remove hnodup
  rw [List.getLast?_reverse, ← h.next_eq] at hbackward
  rw [← hprev] at hforward
  refine ⟨hforward, ?_, h.nodup.sublist (List.sublist_cons_self a l' |>.append_left l)⟩
  rw [List.reverse_append]
  exact hbackward

end Linked
