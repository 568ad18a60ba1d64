import Mathlib

/-!
# Outcomes of computations that may fail

A pair of predicates describes what a computation may do: the values it may
return and the errors it may stop with.  The rules follow the structure of the
computation, so that a specification of each function is enough to verify its
callers.
-/

namespace Xv6.Lib

universe u v

variable {ε : Type u} {α β σ : Type v} {E F : ε → Prop} {P : σ → Prop} {Q : α → Prop} {R : β → Prop}

/-- `x` returns a value in `Q` or stops with an error in `E`. -/
def Ends (E : ε → Prop) (Q : α → Prop) : Except ε α → Prop
  | .ok a => Q a
  | .error e => E e

namespace Ends

@[simp] theorem ok_iff {a : α} : Ends E Q (.ok a) ↔ Q a := Iff.rfl

@[simp] theorem error_iff {e : ε} : Ends E Q (.error e) ↔ E e := Iff.rfl

theorem of_ok {x : Except ε α} {a : α} (h : Ends E Q x) (hx : x = .ok a) : Q a := by
  subst hx
  exact h

theorem of_error {x : Except ε α} {e : ε} (h : Ends E Q x) (hx : x = .error e) : E e := by
  subst hx
  exact h

theorem mono {Q' : α → Prop} {x : Except ε α} (h : Ends E Q x) (hE : ∀ e, E e → F e)
    (hQ : ∀ a, Q a → Q' a) : Ends F Q' x := by
  cases x with
  | ok a => exact hQ a h
  | error e => exact hE e h

theorem imp {Q' : α → Prop} {x : Except ε α} (h : Ends E Q x) (hQ : ∀ a, Q a → Q' a) :
    Ends E Q' x :=
  h.mono (fun _ he => he) hQ

theorem bind {x : Except ε α} {f : α → Except ε β} (h : Ends E Q x)
    (hf : ∀ a, Q a → Ends E R (f a)) : Ends E R (x >>= f) := by
  cases x with
  | ok a => exact hf a h
  | error e => exact h

theorem ite {c : Prop} [Decidable c] {x y : Except ε α} (hx : c → Ends E Q x)
    (hy : ¬ c → Ends E Q y) : Ends E Q (if c then x else y) := by
  by_cases hc : c
  · rw [if_pos hc]
    exact hx hc
  · rw [if_neg hc]
    exact hy hc

end Ends

theorem exists_of_map_eq_ok {x : Except ε α} {f : α → β} {b : β} (h : x.map f = .ok b) :
    ∃ a, x = .ok a ∧ f a = b := by
  cases x with
  | ok a => exact ⟨a, rfl, Except.ok.inj h⟩
  | error e => cases h

end Xv6.Lib
