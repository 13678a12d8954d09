import Mathlib.Data.Finset.Card
import TCBackup.Lib.ByteFile

/-!
# Regions in growing volumes

Keys own one region each in a family of volumes. All regions of a volume have the
same size, and a volume grows at its end only. A key gives its region up when it
moves to another volume, and nothing is reused.

## Main definitions

- `Layout` — the region of every key, and how long every volume is
- `Layout.Sound` — regions lie inside their volumes and do not overlap
- `Layout.Tight` — a volume grows only for keys that reach it
- `Layout.Holds` — what the files hold in the regions
-/

open ByteFile

/-- Volume and offset of every key that has a region, and the end of every volume. -/
structure Layout (κ : Type*) where
  place : κ → Option (ℕ × ℕ)
  length : ℕ → ℕ

namespace Layout

variable {κ : Type*} (head : ℕ) (size : ℕ → ℕ)

/-- Regions lie behind the head and before the end of their volume, and two of them
do not overlap. -/
structure Sound (L : Layout κ) : Prop where
  head_le : ∀ v, head ≤ L.length v
  inside : ∀ k v off, L.place k = some (v, off) → head ≤ off ∧ off + size v ≤ L.length v
  apart : ∀ k k' v off off', k ≠ k' → L.place k = some (v, off) → L.place k' = some (v, off') →
    off + size v ≤ off' ∨ off' + size v ≤ off

variable {head size} {L : Layout κ}

/-- Only the lengths of volumes in use matter. -/
theorem Sound.congr (h : Sound head size L) {L' : Layout κ} (hplace : ∀ k, L'.place k = L.place k)
    (hhead : ∀ v, head ≤ L'.length v)
    (hlen : ∀ k v off, L.place k = some (v, off) → L'.length v = L.length v) :
    Sound head size L' := by
  refine ⟨hhead, ?_, ?_⟩
  · intro k v off hk
    rw [hplace] at hk
    rw [hlen k v off hk]
    exact h.inside k v off hk
  · intro k k' v off off' hne hk hk'
    rw [hplace] at hk hk'
    exact h.apart k k' v off off' hne hk hk'

variable [DecidableEq κ]

/-- The key gets a new region at the end of a volume. -/
def move (size : ℕ → ℕ) (L : Layout κ) (k : κ) (v : ℕ) : Layout κ where
  place := Function.update L.place k (some (v, L.length v))
  length := Function.update L.length v (L.length v + size v)

theorem length_move_self (k : κ) (v : ℕ) : (L.move size k v).length v = L.length v + size v :=
  Function.update_self ..

theorem length_move_of_ne (k : κ) {v w : ℕ} (h : w ≠ v) :
    (L.move size k v).length w = L.length w := Function.update_of_ne h ..

theorem length_le_move (k : κ) (v w : ℕ) : L.length w ≤ (L.move size k v).length w := by
  rcases eq_or_ne w v with rfl | hne
  · rw [length_move_self]
    exact Nat.le_add_right _ _
  · rw [length_move_of_ne k hne]

theorem place_move_self (k : κ) (v : ℕ) : (L.move size k v).place k = some (v, L.length v) :=
  Function.update_self ..

theorem place_move_of_ne {k k' : κ} (h : k' ≠ k) (v : ℕ) :
    (L.move size k v).place k' = L.place k' := Function.update_of_ne h ..

theorem Sound.move (h : Sound head size L) (k : κ) (v : ℕ) : Sound head size (L.move size k v) := by
  refine ⟨fun w => (h.head_le w).trans (length_le_move k v w), ?_, ?_⟩
  · intro k' w off hk'
    rcases eq_or_ne k' k with rfl | hne
    · rw [place_move_self] at hk'
      obtain ⟨rfl, rfl⟩ := Prod.mk.inj (Option.some.inj hk')
      exact ⟨h.head_le v, by rw [length_move_self]⟩
    · rw [place_move_of_ne hne] at hk'
      obtain ⟨h1, h2⟩ := h.inside k' w off hk'
      exact ⟨h1, h2.trans (length_le_move k v w)⟩
  · intro k₁ k₂ w off₁ off₂ hne h₁ h₂
    -- the new region starts where all others have ended
    rcases eq_or_ne k₁ k with rfl | hne₁
    · rw [place_move_self] at h₁
      obtain ⟨rfl, rfl⟩ := Prod.mk.inj (Option.some.inj h₁)
      rw [place_move_of_ne hne.symm] at h₂
      exact .inr (h.inside k₂ v off₂ h₂).2
    · rw [place_move_of_ne hne₁] at h₁
      rcases eq_or_ne k₂ k with rfl | hne₂
      · rw [place_move_self] at h₂
        obtain ⟨rfl, rfl⟩ := Prod.mk.inj (Option.some.inj h₂)
        exact .inl (h.inside k₁ v off₁ h₁).2
      · rw [place_move_of_ne hne₂] at h₂
        exact h.apart k₁ k₂ w off₁ off₂ hne h₁ h₂

/-- The keys whose region is in volume `v` or a later one. -/
def reached (R : Finset κ) (L : Layout κ) (v : ℕ) : Finset κ :=
  R.filter fun k => ((L.place k).any fun p => v ≤ p.1) = true

/-- Every region of a volume was made for another key of `R` that has reached it. -/
def Tight (head : ℕ) (size : ℕ → ℕ) (R : Finset κ) (L : Layout κ) : Prop :=
  ∀ v, L.length v ≤ head + size v * (reached R L v).card

omit [DecidableEq κ] in
theorem Tight.length_le {R : Finset κ} (h : Tight head size R L) (v : ℕ) :
    L.length v ≤ head + size v * R.card :=
  (h v).trans (Nat.add_le_add_left (Nat.mul_le_mul_left _ (Finset.card_filter_le _ _)) _)

theorem reached_subset_move {R : Finset κ} {k : κ} {v : ℕ}
    (hup : ∀ p, L.place k = some p → p.1 < v) (w : ℕ) :
    reached R L w ⊆ reached R (L.move size k v) w := by
  intro k' hk'
  rw [reached, Finset.mem_filter] at hk' ⊢
  refine ⟨hk'.1, ?_⟩
  rcases eq_or_ne k' k with rfl | hne
  · cases hp : L.place k' with
    | none => simp [hp] at hk'
    | some p =>
      have := hup p hp
      simp only [hp, Option.any_some, decide_eq_true_eq] at hk'
      simp only [place_move_self, Option.any_some, decide_eq_true_eq]
      omega
  · rw [place_move_of_ne hne]
    exact hk'.2

/-- A key moves to a volume behind its own. -/
theorem Tight.move {R : Finset κ} (h : Tight head size R L) {k : κ} (hk : k ∈ R) {v : ℕ}
    (hup : ∀ p, L.place k = some p → p.1 < v) : Tight head size R (L.move size k v) := by
  intro w
  have hsub : reached R L w ⊆ reached R (L.move size k v) w := reached_subset_move hup w
  rcases eq_or_ne w v with rfl | hne
  · have hnot : k ∉ reached R L w := by
      rw [reached, Finset.mem_filter]
      rintro ⟨-, hany⟩
      cases hp : L.place k with
      | none => simp [hp] at hany
      | some p =>
        have := hup p hp
        simp only [hp, Option.any_some, decide_eq_true_eq] at hany
        omega
    have hin : k ∈ reached R (L.move size k w) w := by
      rw [reached, Finset.mem_filter, place_move_self]
      exact ⟨hk, by simp⟩
    have hcard := Finset.card_lt_card (Finset.ssubset_iff_subset_ne.mpr
      ⟨hsub, fun heq => hnot (heq ▸ hin)⟩)
    have hmul := Nat.mul_le_mul_left (size w) (Nat.succ_le_of_lt hcard)
    rw [Nat.mul_succ] at hmul
    have := h w
    rw [length_move_self]
    omega
  · rw [length_move_of_ne k hne]
    exact (h w).trans (Nat.add_le_add_left (Nat.mul_le_mul_left _ (Finset.card_le_card hsub)) _)

/-- The region of every key holds the data of the key. -/
structure Holds (size : ℕ → ℕ) (files : ℕ → Bytes) (L : Layout κ) (data : κ → Bytes) : Prop where
  full : ∀ k v off, L.place k = some (v, off) → (data k).length = size v
  reads : ∀ k v off, L.place k = some (v, off) → readAt (files v) off (size v) = data k

variable {files : ℕ → Bytes} {data : κ → Bytes}

omit [DecidableEq κ] in
/-- A region that is read in full lies inside the file. -/
theorem Holds.end_le (h : Holds size files L data) {k : κ} {v off : ℕ}
    (hk : L.place k = some (v, off)) (hpos : 0 < size v) : off + size v ≤ (files v).length := by
  have hread := congrArg List.length (h.reads k v off hk)
  rw [length_readAt, h.full k v off hk] at hread
  omega

/-- The region of a key is overwritten where it is. -/
theorem Holds.rewrite (h : Holds size files L data) (hsound : Sound head size L)
    (hpos : ∀ v, 0 < size v) {k : κ} {v off : ℕ} (hk : L.place k = some (v, off)) {d : Bytes}
    (hd : d.length = size v) :
    Holds size (Function.update files v (writeAt (files v) off d)) L (Function.update data k d) := by
  constructor
  · intro k' w off' hk'
    rcases eq_or_ne k' k with rfl | hne
    · rw [hk] at hk'
      obtain ⟨rfl, rfl⟩ := Prod.mk.inj (Option.some.inj hk')
      rw [Function.update_self, hd]
    · rw [Function.update_of_ne hne]
      exact h.full k' w off' hk'
  · intro k' w off' hk'
    rcases eq_or_ne k' k with rfl | hne
    · rw [hk] at hk'
      obtain ⟨rfl, rfl⟩ := Prod.mk.inj (Option.some.inj hk')
      rw [Function.update_self, Function.update_self, ← hd]
      exact readAt_writeAt_self _ _ _
    · rw [Function.update_of_ne hne]
      rcases eq_or_ne w v with rfl | hw
      · rw [Function.update_self, ← h.reads k' w off' hk']
        apply readAt_writeAt_of_disjoint
        · rw [hd]
          exact (hsound.apart k' k w off' off hne hk' hk)
        · exact h.end_le hk' (hpos w)
      · rw [Function.update_of_ne hw]
        exact h.reads k' w off' hk'

/-- A key gets a region at the end of a volume, which is written. -/
theorem Holds.move (h : Holds size files L data) (hsound : Sound head size L)
    (hpos : ∀ v, 0 < size v) (k : κ) {v : ℕ} {d : Bytes} (hd : d.length = size v) :
    Holds size (Function.update files v (writeAt (files v) (L.length v) d)) (L.move size k v)
      (Function.update data k d) := by
  constructor
  · intro k' w off' hk'
    rcases eq_or_ne k' k with rfl | hne
    · rw [place_move_self] at hk'
      obtain ⟨rfl, rfl⟩ := Prod.mk.inj (Option.some.inj hk')
      rw [Function.update_self, hd]
    · rw [place_move_of_ne hne] at hk'
      rw [Function.update_of_ne hne]
      exact h.full k' w off' hk'
  · intro k' w off' hk'
    rcases eq_or_ne k' k with rfl | hne
    · rw [place_move_self] at hk'
      obtain ⟨rfl, rfl⟩ := Prod.mk.inj (Option.some.inj hk')
      rw [Function.update_self, Function.update_self, ← hd]
      exact readAt_writeAt_self _ _ _
    · rw [place_move_of_ne hne] at hk'
      rw [Function.update_of_ne hne]
      rcases eq_or_ne w v with rfl | hw
      · rw [Function.update_self, ← h.reads k' w off' hk']
        apply readAt_writeAt_of_disjoint
        · exact .inl (hsound.inside k' w off' hk').2
        · exact h.end_le hk' (hpos w)
      · rw [Function.update_of_ne hw]
        exact h.reads k' w off' hk'

end Layout
