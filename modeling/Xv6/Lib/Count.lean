import Mathlib

/-!
# Counting over a table

A reference count is the sum, over the entries of a finite table, of what each
entry contributes.  Changing one entry changes the sum by the difference of the
two contributions.
-/

namespace Xv6.Lib

variable {α β : Type*} [Fintype α] [DecidableEq α]

theorem sum_update (w : β → ℕ) (f : α → β) (a : α) (b : β) :
    (∑ x, w (Function.update f a b x)) + w (f a) = (∑ x, w (f x)) + w b := by
  rw [Fintype.sum_eq_add_sum_compl a, Fintype.sum_eq_add_sum_compl a fun x => w (f x)]
  have hrest : ∑ x ∈ {a}ᶜ, w (Function.update f a b x) = ∑ x ∈ {a}ᶜ, w (f x) := by
    refine Finset.sum_congr rfl fun x hx => ?_
    rw [Function.update_of_ne (by simpa using hx)]
  rw [hrest, Function.update_self]
  omega

omit [DecidableEq α] in
theorem le_sum (w : β → ℕ) (f : α → β) (a : α) : w (f a) ≤ ∑ x, w (f x) :=
  Finset.single_le_sum (f := fun x => w (f x)) (fun _ _ => Nat.zero_le _) (Finset.mem_univ a)

end Xv6.Lib
