import Mathlib

/-!
# Pieces of several streams

A list of pieces, each with the number of the stream it belongs to.  Put together in the
order of the list they are one sequence, and those of one stream are that stream.
-/

namespace Xv6.Lib.Streams

variable {α : Type*} (ps : List (ℕ × List α)) (i : ℕ)

def all : List α := ps.flatMap Prod.snd

/-- The pieces of stream `i`, one behind the other. -/
def part : List α := all (ps.filter fun p => p.1 = i)

theorem all_concat (p : ℕ × List α) : all (ps ++ [p]) = all ps ++ p.2 := by
  simp [all]

theorem part_concat_self (l : List α) : part (ps ++ [(i, l)]) i = part ps i ++ l := by
  simp [part, all]

theorem part_concat_of_ne {j : ℕ} (h : j ≠ i) (l : List α) :
    part (ps ++ [(j, l)]) i = part ps i := by
  simp [part, all, h]

theorem sum_length_part {n : ℕ} (h : ∀ p ∈ ps, p.1 < n) :
    ∑ i ∈ Finset.range n, (part ps i).length = (all ps).length := by
  induction ps with
  | nil => simp [part, all]
  | cons p ps ih =>
    rw [List.forall_mem_cons] at h
    have hcons : ∀ i, (part (p :: ps) i).length =
        (part ps i).length + if p.1 = i then p.2.length else 0 := by
      intro i
      by_cases hi : p.1 = i
      · simp [part, all, hi, Nat.add_comm]
      · simp [part, all, hi]
    have hp : p.1 ∈ Finset.range n := Finset.mem_range.mpr h.1
    simp only [hcons, Finset.sum_add_distrib, ih h.2, Finset.sum_ite_eq, if_pos hp]
    simp [all, Nat.add_comm]

theorem length_all_le {ns : List ℕ} (h : ∀ p ∈ ps, p.1 < ns.length)
    (hle : ∀ i n, ns[i]? = some n → (part ps i).length ≤ n) : (all ps).length ≤ ns.sum := by
  rw [← sum_length_part ps h, Finset.sum_range, ← Fin.sum_univ_getElem]
  exact Finset.sum_le_sum fun i _ => hle i _ (List.getElem?_eq_getElem i.isLt)

theorem length_all_eq {ns : List ℕ} (h : ∀ p ∈ ps, p.1 < ns.length)
    (heq : ∀ i n, ns[i]? = some n → (part ps i).length = n) : (all ps).length = ns.sum := by
  rw [← sum_length_part ps h, Finset.sum_range, ← Fin.sum_univ_getElem]
  exact Finset.sum_congr rfl fun i _ => heq i _ (List.getElem?_eq_getElem i.isLt)

theorem part_eq_nil {n : ℕ} (h : ∀ p ∈ ps, p.1 < n) : part ps n = [] := by
  rw [part, List.filter_eq_nil_iff.mpr]
  · rfl
  · intro p hp
    have := h p hp
    simp
    omega

end Xv6.Lib.Streams
