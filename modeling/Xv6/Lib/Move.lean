import Mathlib.Data.Nat.Basic
import Mathlib.Logic.Function.Basic

/-!
# Moving cells of a memory

A copy that goes in pieces: each piece moves some cells, and what has been moved together
is the sum of the pieces as long as no piece writes where another one reads or writes.
-/

namespace Xv6.Lib

variable {α β γ : Type*} {dst src dst' src' : ℕ → α} {n l : ℕ} {m m' m₁ : α → β}

/-- From `m` to `m'`, cell `dst i` has got what was in cell `src i`, for every `i < n`. -/
structure Moves (dst src : ℕ → α) (n : ℕ) (m m' : α → β) : Prop where
  moved : ∀ i < n, m' (dst i) = m (src i)
  frame : ∀ x, (∀ i < n, dst i ≠ x) → m' x = m x

namespace Moves

theorem zero (dst src : ℕ → α) (m : α → β) : Moves dst src 0 m m :=
  ⟨fun i hi => absurd hi (Nat.not_lt_zero i), fun _ _ => rfl⟩

theorem congr (h : Moves dst src n m m') (hdst : ∀ i < n, dst i = dst' i)
    (hsrc : ∀ i < n, src i = src' i) : Moves dst' src' n m m' := by
  constructor
  · intro i hi
    rw [← hdst i hi, ← hsrc i hi]
    exact h.moved i hi
  · intro x hx
    apply h.frame
    intro i hi
    rw [hdst i hi]
    exact hx i hi

/-- A second piece that does not write over the first one, nor reads what the first one
wrote. -/
theorem append (h : Moves dst src n m m₁)
    (h' : Moves (fun i => dst (n + i)) (fun i => src (n + i)) l m₁ m')
    (hdst : ∀ i < n, ∀ j < l, dst (n + j) ≠ dst i)
    (hsrc : ∀ i < n, ∀ j < l, dst i ≠ src (n + j)) : Moves dst src (n + l) m m' := by
  constructor
  · intro i hi
    rcases Nat.lt_or_ge i n with hin | hin
    · rw [h'.frame _ fun j hj => hdst i hin j hj]
      exact h.moved i hin
    · obtain ⟨j, rfl⟩ := Nat.exists_eq_add_of_le hin
      have hj : j < l := Nat.lt_of_add_lt_add_left hi
      rw [h'.moved j hj]
      exact h.frame _ fun a ha => hsrc a ha j hj
  · intro x hx
    rw [h'.frame x fun j hj => hx (n + j) (Nat.add_lt_add_left hj n)]
    exact h.frame x fun i hi => hx i (Nat.lt_add_right l hi)

/-- The last cell is moved before the others. -/
theorem snoc [DecidableEq α] (h : Moves dst src n (Function.update m (dst n) (m (src n))) m')
    (hdst : ∀ i < n, dst i ≠ dst n) (hsrc : ∀ i < n, dst n ≠ src i) :
    Moves dst src (n + 1) m m' := by
  constructor
  · intro i hi
    rcases Nat.lt_succ_iff_lt_or_eq.mp hi with hin | rfl
    · rw [h.moved i hin, Function.update_of_ne (hsrc i hin).symm]
    · rw [h.frame _ hdst, Function.update_self]
  · intro x hx
    rw [h.frame x fun i hi => hx i (Nat.lt_succ_of_lt hi)]
    exact Function.update_of_ne (hx n n.lt_succ_self).symm _ _

theorem store [DecidableEq α] (dst src : ℕ → α) (m : α → β) :
    Moves dst src 1 m (Function.update m (dst 0) (m (src 0))) := by
  apply snoc (zero _ _ _)
  · exact fun i hi => absurd hi i.not_lt_zero
  · exact fun i hi => absurd hi i.not_lt_zero

theorem unique (h : Moves dst src n m m') (h' : Moves dst src n m m₁) : m' = m₁ := by
  funext x
  by_cases hx : ∃ i < n, dst i = x
  · obtain ⟨i, hi, rfl⟩ := hx
    rw [h.moved i hi, h'.moved i hi]
  · have hout : ∀ i < n, dst i ≠ x := fun i hi heq => hx ⟨i, hi, heq⟩
    rw [h.frame x hout, h'.frame x hout]

/-- The same cells under other addresses. -/
theorem comp {f : γ → α} {d s : ℕ → γ} (h : Moves dst src n m m') (hf : f.Injective)
    (hd : ∀ i < n, f (d i) = dst i) (hs : ∀ i < n, f (s i) = src i) :
    Moves d s n (m ∘ f) (m' ∘ f) := by
  constructor
  · intro i hi
    rw [Function.comp_apply, Function.comp_apply, hd i hi, hs i hi]
    exact h.moved i hi
  · intro x hx
    apply h.frame
    intro i hi heq
    exact hx i hi (hf ((hd i hi).trans heq))

end Moves

/-- The cells from `dst` on have got what was in those from `src` on. -/
def moveRange (m : ℕ → β) (dst src n : ℕ) : ℕ → β := fun x =>
  if dst ≤ x ∧ x < dst + n then m (src + (x - dst)) else m x

theorem moves_moveRange (m : ℕ → β) (dst src n : ℕ) :
    Moves (dst + ·) (src + ·) n m (moveRange m dst src n) := by
  constructor
  · intro i hi
    rw [moveRange, if_pos (by omega), Nat.add_sub_cancel_left]
  · intro x hx
    refine if_neg ?_
    rintro ⟨hlo, hhi⟩
    exact hx (x - dst) (by omega) (by omega)

end Xv6.Lib
