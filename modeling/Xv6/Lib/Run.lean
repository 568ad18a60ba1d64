import Mathlib

/-!
# Runs of a labelled step function

A component is a partial step function on states, indexed by the event that
happens.  A run is a chronological list of events; invariants may mention the
events that have already happened, so the run is extended at its right end.
-/

namespace Xv6.Lib

variable {σ ε : Type*}

/-- `Run step s tr t`: the events `tr`, taken in order from `s`, lead to `t`. -/
inductive Run (step : σ → ε → Option σ) (s : σ) : List ε → σ → Prop
  | nil : Run step s [] s
  | snoc {tr : List ε} {t u : σ} {e : ε} :
      Run step s tr t → step t e = some u → Run step s (tr ++ [e]) u

namespace Run

variable {step : σ → ε → Option σ} {s t u : σ} {tr : List ε} {e : ε}

/-- Whatever holds initially and is kept by every step holds after every run.
The property may depend on the events so far. -/
theorem invariant {I : List ε → σ → Prop} (hrun : Run step s tr t)
    (hinit : I [] s)
    (hstep : ∀ tr t e u, I tr t → step t e = some u → I (tr ++ [e]) u) :
    I tr t := by
  induction hrun with
  | nil => exact hinit
  | snoc _ he ih => exact hstep _ _ _ _ ih he

theorem state_invariant {I : σ → Prop} (hrun : Run step s tr t)
    (hinit : I s) (hstep : ∀ t e u, I t → step t e = some u → I u) : I t :=
  hrun.invariant (I := fun _ t => I t) hinit fun _ t e u => hstep t e u

theorem nil_iff : Run step s [] t ↔ t = s := by
  constructor
  · intro h
    generalize hnil : ([] : List ε) = l at h
    cases h with
    | nil => rfl
    | snoc _ _ => simp at hnil
  · rintro rfl
    exact .nil

theorem snoc_iff : Run step s (tr ++ [e]) u ↔ ∃ t, Run step s tr t ∧ step t e = some u := by
  constructor
  · intro h
    generalize hl : tr ++ [e] = l at h
    cases h with
    | nil => simp at hl
    | snoc hrun he =>
      obtain ⟨rfl, he'⟩ := List.append_inj' hl rfl
      obtain rfl : e = _ := by simpa using he'
      exact ⟨_, hrun, he⟩
  · rintro ⟨t, hrun, he⟩
    exact .snoc hrun he

/-- Runs are what folding the step function over the events computes. -/
theorem iff_foldlM : Run step s tr t ↔ tr.foldlM step s = some t := by
  induction tr using List.reverseRecOn generalizing t with
  | nil => simp [nil_iff, eq_comm]
  | append_singleton tr e ih => simp [snoc_iff, ih, Option.bind_eq_some_iff]

theorem append {tr' : List ε} (h : Run step s tr t) (h' : Run step t tr' u) :
    Run step s (tr ++ tr') u := by
  induction h' with
  | nil => rwa [List.append_nil]
  | snoc _ he ih =>
    rw [← List.append_assoc]
    exact ih.snoc he

/-- A run of given events, with a property of its last state that was evaluated. -/
theorem exists_of_any {P : σ → Bool} (h : (tr.foldlM step s).any P) :
    ∃ t, Run step s tr t ∧ P t = true := by
  cases ht : tr.foldlM step s with
  | none => simp [ht] at h
  | some t => exact ⟨t, iff_foldlM.mpr ht, by simpa [ht] using h⟩

theorem exists_of_prefix {pre : List ε} (hrun : Run step s tr t) (hpre : pre <+: tr) :
    ∃ u, Run step s pre u := by
  induction hrun with
  | nil =>
    obtain rfl : pre = [] := List.prefix_nil.mp hpre
    exact ⟨s, .nil⟩
  | snoc hrun he ih =>
    rcases List.prefix_concat_iff.mp hpre with rfl | hpre
    · exact ⟨_, .snoc hrun he⟩
    · exact ih hpre

end Run

/-- The step function cut down to the steps that meet `ok` in the state they
are taken from. -/
def guarded (ok : σ → ε → Prop) [∀ s e, Decidable (ok s e)] (step : σ → ε → Option σ) (s : σ)
    (e : ε) : Option σ :=
  if ok s e then step s e else none

section guarded

variable {ok : σ → ε → Prop} [∀ s e, Decidable (ok s e)] {step : σ → ε → Option σ} {s t : σ}
  {tr : List ε} {e : ε}

theorem guarded_eq_some : guarded ok step s e = some t ↔ ok s e ∧ step s e = some t := by
  simp [guarded]

theorem Run.of_guarded (h : Run (guarded ok step) s tr t) : Run step s tr t := by
  induction h with
  | nil => exact .nil
  | snoc _ he ih => exact .snoc ih (guarded_eq_some.mp he).2

end guarded

end Xv6.Lib
