import Xv6.Lib.Words

/-!
# Strings in a buffer

A string starts somewhere in a buffer and ends before the first NUL from there on.
-/

namespace Xv6.Mem

open Lib

variable {buf buf' : Bytes} {u v : List UInt8} {c : UInt8} {p fuel : ℕ}

/-- `strchr` of `ulib.c`: the first `c` in the string at `p`, if there is one before the NUL. -/
def Ulib.strchr (buf : Bytes) (c : UInt8) : ℕ → ℕ → Option (Option ℕ)
  | 0, _ => none
  | fuel + 1, p =>
    if buf p = 0 then some none
    else if buf p = c then some (some p)
    else Ulib.strchr buf c fuel (p + 1)

def cstr (buf : Bytes) : ℕ → ℕ → List UInt8
  | 0, _ => []
  | fuel + 1, p => if buf p = 0 then [] else buf p :: cstr buf fuel (p + 1)

def slice (buf : Bytes) (p n : ℕ) : List UInt8 := (List.range n).map fun i => buf (p + i)

/-- A string literal. -/
def literal (s : List UInt8) : Bytes := fun i => s.getD i 0

/-- The buffer has the bytes `s` at `p`. -/
def Has (buf : Bytes) : ℕ → List UInt8 → Prop
  | _, [] => True
  | p, c :: s => buf p = c ∧ Has buf (p + 1) s

theorem has_append : Has buf p (u ++ v) ↔ Has buf p u ∧ Has buf (p + u.length) v := by
  induction u generalizing p with
  | nil => simp [Has]
  | cons c u ih => simp [Has, ih, and_assoc, Nat.add_assoc, Nat.add_comm 1]

theorem Has.congr (h : Has buf p u) (heq : ∀ i, p ≤ i → i < p + u.length → buf' i = buf i) :
    Has buf' p u := by
  induction u generalizing p with
  | nil => trivial
  | cons c u ih =>
    rw [List.length_cons] at heq
    refine ⟨(heq p (by omega) (by omega)).trans h.1, ih h.2 fun i hi hi' => heq i ?_ ?_⟩
    · omega
    · omega

theorem slice_succ (buf : Bytes) (p n : ℕ) :
    slice buf p (n + 1) = buf p :: slice buf (p + 1) n := by
  rw [slice, List.range_succ_eq_map, List.map_cons, List.map_map, slice, Nat.add_zero]
  refine congrArg _ (List.map_congr_left fun i _ => ?_)
  rw [Function.comp_apply, Nat.succ_eq_add_one, Nat.add_comm i, Nat.add_assoc]

theorem Has.slice_eq (h : Has buf p u) : slice buf p u.length = u := by
  induction u generalizing p with
  | nil => rfl
  | cons c u ih => rw [List.length_cons, slice_succ, h.1, ih h.2]

theorem Ulib.strchr_of_mem (h : Has buf p (u ++ [c])) (hnul : 0 ∉ u) (hc : c ∉ u)
    (hc0 : c ≠ 0) (hfuel : u.length < fuel) : strchr buf c fuel p = some (some (p + u.length)) := by
  induction u generalizing p fuel with
  | nil =>
    obtain ⟨fuel, rfl⟩ : ∃ n, fuel = n + 1 := ⟨fuel - 1, by simp at hfuel; omega⟩
    rw [strchr, h.1, if_neg hc0, if_pos rfl]
    rfl
  | cons d u ih =>
    obtain ⟨fuel, rfl⟩ : ∃ n, fuel = n + 1 := ⟨fuel - 1, by simp at hfuel; omega⟩
    rw [List.mem_cons, not_or] at hnul hc
    rw [strchr, h.1, if_neg (Ne.symm hnul.1), if_neg (Ne.symm hc.1),
      ih h.2 hnul.2 hc.2 (by simpa using hfuel), List.length_cons, Nat.add_right_comm,
      Nat.add_assoc]

theorem Ulib.strchr_of_not_mem (h : Has buf p (u ++ [0])) (hnul : 0 ∉ u) (hc : c ∉ u)
    (hfuel : u.length < fuel) : strchr buf c fuel p = some none := by
  induction u generalizing p fuel with
  | nil =>
    obtain ⟨fuel, rfl⟩ : ∃ n, fuel = n + 1 := ⟨fuel - 1, by simp at hfuel; omega⟩
    rw [strchr, h.1, if_pos rfl]
  | cons d u ih =>
    obtain ⟨fuel, rfl⟩ : ∃ n, fuel = n + 1 := ⟨fuel - 1, by simp at hfuel; omega⟩
    rw [List.mem_cons, not_or] at hnul hc
    rw [strchr, h.1, if_neg (Ne.symm hnul.1), if_neg (Ne.symm hc.1),
      ih h.2 hnul.2 hc.2 (by simpa using hfuel)]

theorem cstr_eq (h : Has buf p (u ++ [0])) (hnul : 0 ∉ u) (hfuel : u.length < fuel) :
    cstr buf fuel p = u := by
  induction u generalizing p fuel with
  | nil =>
    obtain ⟨fuel, rfl⟩ : ∃ n, fuel = n + 1 := ⟨fuel - 1, by simp at hfuel; omega⟩
    rw [cstr, h.1, if_pos rfl]
  | cons d u ih =>
    obtain ⟨fuel, rfl⟩ : ∃ n, fuel = n + 1 := ⟨fuel - 1, by simp at hfuel; omega⟩
    rw [List.mem_cons, not_or] at hnul
    rw [cstr, h.1, if_neg (Ne.symm hnul.1), ih h.2 hnul.2 (by simpa using hfuel)]

theorem has_getD (u v : List UInt8) (n : ℕ) :
    Has (fun i => (u ++ v).getD (i - n) 0) (n + u.length) v := by
  induction v generalizing u with
  | nil => trivial
  | cons c v ih =>
    refine ⟨by simp, ?_⟩
    have hrest := ih (u ++ [c])
    rwa [List.append_assoc, List.length_append, ← Nat.add_assoc] at hrest

theorem has_literal (s : List UInt8) : Has (literal s) 0 s := has_getD [] s 0

/-- The NUL is not found, although it ends the string. -/
theorem Ulib.strchr_literal (s : List UInt8) (c : UInt8) (hnul : 0 ∉ s) :
    (Ulib.strchr (literal s) c (s.length + 1) 0).join.isSome = decide (c ∈ s) := by
  by_cases hc : c ∈ s
  · obtain ⟨u, v, rfl, hu⟩ := List.eq_append_cons_of_mem hc
    have hhas : Has (literal (u ++ c :: v)) 0 (u ++ [c]) := by
      have hall := has_literal (u ++ [c] ++ v)
      rw [has_append, List.append_assoc] at hall
      exact hall.1
    rw [strchr_of_mem hhas (fun h => hnul (List.mem_append_left _ h)) hu
      (fun h => hnul (h ▸ hc)) (by simp), decide_eq_true hc]
    rfl
  · have hhas : Has (literal s) 0 (s ++ [0]) :=
      has_append.mpr ⟨has_literal s, by simp [literal], trivial⟩
    rw [strchr_of_not_mem hhas hnul hc (Nat.lt_succ_self _), decide_eq_false hc]
    rfl

end Xv6.Mem
