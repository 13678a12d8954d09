import Mathlib.Data.List.Infix

/-!
# What holds after every prefix

A list of actions may be cut off anywhere. A property that is looked at after every prefix of the
list splits with the list, and an invariant of the actions is such a property.
-/

namespace Prefixes

variable {σ ε : Type*} (f : σ → ε → σ) (P : σ → Prop)

/-- `P` holds after every prefix of the actions. -/
def Always (s : σ) (es : List ε) : Prop := ∀ es', es' <+: es → P (es'.foldl f s)

variable {f P} {Q : σ → Prop} {s : σ} {e : ε} {es es' : List ε}

@[simp] theorem always_nil : Always f P s [] ↔ P s := by
  constructor
  · intro h
    exact h [] List.prefix_rfl
  · intro h es' hprefix
    rw [List.prefix_nil.mp hprefix]
    exact h

theorem always_cons : Always f P s (e :: es) ↔ P s ∧ Always f P (f s e) es := by
  constructor
  · intro h
    refine ⟨h [] List.nil_prefix, fun es' hprefix => ?_⟩
    exact h (e :: es') (List.cons_prefix_cons.mpr ⟨rfl, hprefix⟩)
  · rintro ⟨hs, h⟩ es' hprefix
    cases es' with
    | nil => exact hs
    | cons e' es' =>
      obtain ⟨rfl, hrest⟩ := List.cons_prefix_cons.mp hprefix
      exact h es' hrest

theorem always_append :
    Always f P s (es ++ es') ↔ Always f P s es ∧ Always f P (es.foldl f s) es' := by
  induction es generalizing s with
  | nil =>
    rw [List.nil_append, always_nil, List.foldl_nil]
    exact ⟨fun h => ⟨h [] List.nil_prefix, h⟩, fun h => h.2⟩
  | cons e es ih => rw [List.cons_append, always_cons, always_cons, ih, and_assoc, List.foldl_cons]

theorem Always.end (h : Always f P s es) : P (es.foldl f s) := h es List.prefix_rfl

theorem Always.mono (h : Always f P s es) (hPQ : ∀ s, P s → Q s) : Always f Q s es :=
  fun es' hprefix => hPQ _ (h es' hprefix)

/-- Actions that keep `P`. -/
theorem Always.of_invariant {C : ε → Prop} (hstep : ∀ s e, P s → C e → P (f s e)) (hes : ∀ e ∈ es, C e)
    (hs : P s) : Always f P s es := by
  induction es generalizing s with
  | nil => exact always_nil.mpr hs
  | cons e es ih =>
    have hnext := hstep s e hs (hes e List.mem_cons_self)
    exact always_cons.mpr ⟨hs, ih (fun e he => hes e (List.mem_cons_of_mem _ he)) hnext⟩

end Prefixes
