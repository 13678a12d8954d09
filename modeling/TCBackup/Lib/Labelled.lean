import Mathlib.Data.Nat.Init
import Mathlib.Order.Basic

/-!
# Runs of labelled step functions

A partial step function gives the next state for every enabled label. A run
may be restricted to steps that meet a condition in the state they start from,
and an invariant kept by such steps holds in every state such a run reaches.
-/

namespace Labelled

variable {σ ε : Type*} (step : σ → ε → Option σ)

/-- Run a list of labels; `none` when one of them is not enabled. -/
def exec : σ → List ε → Option σ
  | s, [] => some s
  | s, e :: es => (step s e).bind fun t => exec t es

/-- Runs all of whose steps meet `cond` in the state they are taken from. -/
inductive Run (cond : σ → ε → Prop) : σ → List ε → σ → Prop
  | nil (s : σ) : Run cond s [] s
  | snoc {s t u : σ} {es : List ε} {e : ε} (h : Run cond s es t) (hc : cond t e)
      (hs : step t e = some u) : Run cond s (es ++ [e]) u

variable {step} {cond cond' : σ → ε → Prop} {s t u : σ} {es es' : List ε}

/-- The induction rule for invariants. -/
theorem Run.invariant {Inv : σ → Prop}
    (hstep : ∀ s e t, Inv s → cond s e → step s e = some t → Inv t)
    (h : Run step cond s es t) (hs : Inv s) : Inv t := by
  induction h with
  | nil => exact hs
  | snoc _ hc hst ih => exact hstep _ _ _ ih hc hst

theorem Run.mono (hcond : ∀ s e, cond s e → cond' s e) (h : Run step cond s es t) :
    Run step cond' s es t := by
  induction h with
  | nil => exact .nil _
  | snoc _ hc hst ih => exact ih.snoc (hcond _ _ hc) hst

theorem Run.append (h : Run step cond s es t) (h' : Run step cond t es' u) :
    Run step cond s (es ++ es') u := by
  induction h' with
  | nil => simpa using h
  | snoc _ hc hst ih =>
    rw [← List.append_assoc]
    exact ih.snoc hc hst

theorem Run.single {e : ε} (hc : cond s e) (hs : step s e = some t) : Run step cond s [e] t := by
  simpa using (Run.nil s).snoc hc hs

/-- Labels that meet the condition in every state. -/
theorem run_of_exec_of_forall (hc : ∀ e ∈ es, ∀ s, cond s e) (h : exec step s es = some t) :
    Run step cond s es t := by
  induction es generalizing s with
  | nil =>
    cases Option.some.inj h
    exact .nil _
  | cons e es ih =>
    obtain ⟨m, hm, hr⟩ := Option.bind_eq_some_iff.mp h
    have hfirst : Run step cond s [e] m := .single (hc e (by simp) s) hm
    exact hfirst.append (ih (fun e' he' => hc e' (List.mem_cons_of_mem _ he')) hr)

/-- `exec` that stops where the condition fails. -/
def execIf (step : σ → ε → Option σ) (cond : σ → ε → Prop) [∀ s e, Decidable (cond s e)] :
    σ → List ε → Option σ
  | s, [] => some s
  | s, e :: es => if cond s e then (step s e).bind fun t => execIf step cond t es else none

theorem run_of_execIf [∀ s e, Decidable (cond s e)] (h : execIf step cond s es = some t) :
    Run step cond s es t := by
  induction es generalizing s with
  | nil =>
    cases Option.some.inj h
    exact .nil _
  | cons e es ih =>
    rw [execIf] at h
    split at h
    · next hc =>
      obtain ⟨m, hm, hr⟩ := Option.bind_eq_some_iff.mp h
      have hfirst : Run step cond s [e] m := .single hc hm
      exact hfirst.append (ih hr)
    · simp at h

theorem run_of_exec (h : exec step s es = some t) : Run step (fun _ _ => True) s es t :=
  run_of_exec_of_forall (fun _ _ _ => trivial) h

/-- No label is enabled. -/
def Stuck (step : σ → ε → Option σ) (s : σ) : Prop := ∀ e, step s e = none

/-- Where a measure falls with the steps of some labels, they run into a state that has none
of them. -/
theorem exists_halted {measure : σ → ℕ} {own : ε → Prop}
    (hm : ∀ s e t, own e → step s e = some t → measure t < measure s) (s : σ) :
    ∃ es t, Run step (fun _ e => own e) s es t ∧ ∀ e, own e → step t e = none := by
  induction hn : measure s using Nat.strongRecOn generalizing s with
  | _ n ih =>
    by_cases hs : ∀ e, own e → step s e = none
    · exact ⟨[], s, .nil s, hs⟩
    · obtain ⟨e, hnot⟩ := not_forall.mp hs
      obtain ⟨he, hsome⟩ := Classical.not_imp.mp hnot
      obtain ⟨m, hst⟩ := Option.ne_none_iff_exists'.mp hsome
      obtain ⟨es, t, hrun, ht⟩ := ih _ (hn ▸ hm s e m he hst) m rfl
      have hfirst : Run step (fun _ e => own e) s [e] m := .single he hst
      exact ⟨[e] ++ es, t, hfirst.append hrun, ht⟩

/-- Where a measure falls with every step, every state runs into a stuck one. -/
theorem exists_stuck {measure : σ → ℕ}
    (hm : ∀ s e t, step s e = some t → measure t < measure s) (s : σ) :
    ∃ es t, Run step (fun _ _ => True) s es t ∧ Stuck step t := by
  have hless : ∀ s e t, (fun _ => True) e → step s e = some t → measure t < measure s :=
    fun s e t _ => hm s e t
  obtain ⟨es, t, hrun, hstuck⟩ := exists_halted hless s
  exact ⟨es, t, hrun, fun e => hstuck e trivial⟩

end Labelled
