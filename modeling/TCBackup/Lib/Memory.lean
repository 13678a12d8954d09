import Mathlib.Data.List.Basic
import Mathlib.Tactic.Common

/-!
# Byte memory

Memory as a function from addresses to bytes, with loads, stores and moves of ranges.

## Main definitions

- `load`, `store` — the bytes of a range
- `move` — `memmove`
- `loadWithin`, `storeWithin` — accesses to a buffer, which stop where they leave it
-/

namespace Memory

abbrev Mem := ℕ → UInt8

def load (m : Mem) (p n : ℕ) : List UInt8 := (List.range n).map fun i => m (p + i)

def store (m : Mem) (p : ℕ) (bs : List UInt8) : Mem :=
  fun a => if p ≤ a then (bs[a - p]?).getD (m a) else m a

/-- The ranges may overlap. -/
def move (m : Mem) (dst src n : ℕ) : Mem := store m dst (load m src n)

/-- A load from a buffer of `size` bytes; `none` where it leaves the buffer. -/
def loadWithin (size : ℕ) (m : Mem) (p n : ℕ) : Option (List UInt8) :=
  if p + n ≤ size then some (load m p n) else none

/-- A store to a buffer of `size` bytes. -/
def storeWithin (size : ℕ) (m : Mem) (p : ℕ) (bs : List UInt8) : Option Mem :=
  if p + bs.length ≤ size then some (store m p bs) else none

variable (m : Mem) {p q k n : ℕ} {bs : List UInt8}

@[simp] theorem length_load (p n : ℕ) : (load m p n).length = n := by simp [load]

theorem getElem?_load {i : ℕ} (h : i < n) : (load m p n)[i]? = some (m (p + i)) := by
  simp [load, h]

theorem load_add (p k n : ℕ) : load m p (k + n) = load m p k ++ load m (p + k) n := by
  apply List.ext_getElem?
  intro i
  by_cases hi : i < k
  · rw [List.getElem?_append_left (by simpa using hi), getElem?_load m hi,
      getElem?_load m (by omega)]
  · rw [List.getElem?_append_right (by simpa using hi), length_load]
    by_cases hn : i < k + n
    · rw [getElem?_load m hn, getElem?_load m (by omega)]
      congr 2
      omega
    · rw [List.getElem?_eq_none (by simpa using hn), List.getElem?_eq_none (by simp; omega)]

theorem load_take (h : k ≤ n) : (load m p n).take k = load m p k := by
  obtain ⟨j, rfl⟩ := Nat.exists_eq_add_of_le h
  rw [load_add, List.take_left' (length_load ..)]

theorem load_drop (h : k ≤ n) : (load m p n).drop k = load m (p + k) (n - k) := by
  obtain ⟨j, rfl⟩ := Nat.exists_eq_add_of_le h
  rw [load_add, List.drop_left' (length_load ..), Nat.add_sub_cancel_left]

theorem load_congr {m m' : Mem} (h : ∀ i < n, m (p + i) = m' (q + i)) :
    load m p n = load m' q n := by
  rw [load, load]
  refine List.map_congr_left fun i hi => ?_
  exact h i (List.mem_range.mp hi)

@[simp] theorem store_nil (p : ℕ) : store m p [] = m := by
  funext a
  simp [store]

theorem store_of_lt {a : ℕ} (h : a < p) : store m p bs a = m a := by
  rw [store, if_neg (by omega)]

theorem store_of_ge {a : ℕ} (h : p + bs.length ≤ a) : store m p bs a = m a := by
  rw [store]
  split
  · rw [List.getElem?_eq_none (by omega), Option.getD_none]
  · rfl

/-- What was stored is loaded. -/
theorem load_store_self (p : ℕ) (bs : List UInt8) : load (store m p bs) p bs.length = bs := by
  apply List.ext_getElem?
  intro i
  by_cases hi : i < bs.length
  · rw [getElem?_load _ hi, store, if_pos (by omega), Nat.add_sub_cancel_left,
      List.getElem?_eq_getElem hi, Option.getD_some]
  · rw [List.getElem?_eq_none (by simpa using hi), List.getElem?_eq_none (by omega)]

theorem load_store_below (h : q + n ≤ p) : load (store m p bs) q n = load m q n :=
  load_congr fun _ _ => store_of_lt m (by omega)

/-- Consecutive stores are one. -/
theorem store_append (p : ℕ) (bs cs : List UInt8) :
    store (store m p bs) (p + bs.length) cs = store m p (bs ++ cs) := by
  funext a
  rw [store, store, store]
  by_cases hcs : p + bs.length ≤ a
  · rw [if_pos hcs, if_pos (by omega), if_pos (by omega), List.getElem?_append_right (by omega),
      List.getElem?_eq_none (l := bs) (by omega), Option.getD_none, Nat.sub_sub]
  · rw [if_neg hcs]
    by_cases hbs : p ≤ a
    · rw [if_pos hbs, if_pos hbs, List.getElem?_append_left (by omega)]
    · rw [if_neg hbs, if_neg hbs]

theorem load_move (dst src n : ℕ) : load (move m dst src n) dst n = load m src n := by
  have hself := load_store_self m dst (load m src n)
  rwa [length_load] at hself

/-- Loading a part of what was stored. -/
theorem load_store_inside {i : ℕ} (h : i + n ≤ bs.length) :
    load (store m p bs) (p + i) n = (bs.drop i).take n := by
  rw [← load_store_self m p bs, load_drop _ (by omega), load_take _ (by omega), load_store_self]

variable {size : ℕ}

theorem loadWithin_of_le (h : p + n ≤ size) : loadWithin size m p n = some (load m p n) := if_pos h

theorem loadWithin_of_lt (h : size < p + n) : loadWithin size m p n = none :=
  if_neg (Nat.not_le.mpr h)

theorem storeWithin_of_le (h : p + bs.length ≤ size) :
    storeWithin size m p bs = some (store m p bs) := if_pos h

end Memory
