import Xv6.Printf.Digits

/-!
# Texts up to case

The kernel prints hexadecimal digits with small letters and the user library with capital
ones. Up to that the text of a number is the same, and it determines the number.
-/

namespace Xv6.Printf

open Lib

variable {b : ℕ}

/-- The same character, or the same hexadecimal digit. -/
def SameChar (c c' : UInt8) : Prop :=
  c = c' ∨ ∃ d < 16, c = glyph kernel.digits d ∧ c' = glyph user.digits d

/-- The same text up to the case of hexadecimal digits. -/
abbrev Alike (s t : Text) : Prop := List.Forall₂ SameChar s t

theorem Alike.refl (s : Text) : Alike s s := by
  induction s with
  | nil => exact .nil
  | cons c s ih => exact .cons (.inl rfl) ih

theorem alike_map_glyph {ds : List ℕ} (h : ∀ d ∈ ds, d < 16) :
    Alike (ds.map (glyph kernel.digits)) (ds.map (glyph user.digits)) := by
  induction ds with
  | nil => exact .nil
  | cons d ds ih =>
    obtain ⟨hd, hds⟩ := List.forall_mem_cons.mp h
    exact .cons (.inr ⟨d, hd, rfl, rfl⟩) (ih hds)

theorem alike_spell (hb : 1 < b) (hle : b ≤ 16) (z : ℤ) :
    Alike (spell kernel.digits b z) (spell user.digits b z) := by
  apply List.rel_append (Alike.refl _)
  exact alike_map_glyph fun d hd => (lt_of_mem_numeral hb hd).trans_le hle

/-- Digits that are alike are the same digit, and none is alike to a minus sign. -/
theorem glyph_of_sameChar : ∀ d < 16, ¬ SameChar '-'.toUInt8 (glyph user.digits d) ∧
    ¬ SameChar (glyph kernel.digits d) '-'.toUInt8 ∧
    ∀ e < 16, SameChar (glyph kernel.digits d) (glyph user.digits e) → d = e := by
  unfold SameChar
  decide +kernel

theorem eq_of_alike_map_glyph {ds es : List ℕ} (hds : ∀ d ∈ ds, d < 16) (hes : ∀ e ∈ es, e < 16)
    (h : Alike (ds.map (glyph kernel.digits)) (es.map (glyph user.digits))) : ds = es := by
  induction ds generalizing es with
  | nil =>
    cases es with
    | nil => rfl
    | cons e es => cases h
  | cons d ds ih =>
    cases es with
    | nil => cases h
    | cons e es =>
      obtain ⟨hd, hds'⟩ := List.forall_mem_cons.mp hds
      obtain ⟨he, hes'⟩ := List.forall_mem_cons.mp hes
      obtain ⟨hhead, htail⟩ := List.forall₂_cons.mp h
      rw [(glyph_of_sameChar d hd).2.2 e he hhead, ih hds' hes' htail]

theorem eq_of_alike_spell (hb : 1 < b) (hle : b ≤ 16) {z z' : ℤ}
    (h : Alike (spell kernel.digits b z) (spell user.digits b z')) : z = z' := by
  have hlt : ∀ n, ∀ d ∈ numeral b n, d < 16 := fun n d hd => (lt_of_mem_numeral hb hd).trans_le hle
  have hnat : ∀ n m, Alike ((numeral b n).map (glyph kernel.digits))
      ((numeral b m).map (glyph user.digits)) → n = m := by
    intro n m hnm
    have heq := eq_of_alike_map_glyph (hlt n) (hlt m) hnm
    rw [← (shortest_numeral (n := n) hb).value, heq, (shortest_numeral hb).value]
  unfold spell at h
  by_cases hz : z < 0 <;> by_cases hz' : z' < 0
  · rw [if_pos hz, if_pos hz'] at h
    have := hnat _ _ (List.forall₂_cons.mp h).2
    omega
  · rw [if_pos hz, if_neg hz'] at h
    obtain ⟨d, ds, hnum⟩ := List.exists_cons_of_ne_nil (shortest_numeral (n := z'.natAbs) hb).ne_nil
    rw [hnum] at h
    have hd := hlt z'.natAbs d (hnum ▸ List.mem_cons_self)
    exact absurd (List.forall₂_cons.mp h).1 (glyph_of_sameChar d hd).1
  · rw [if_neg hz, if_pos hz'] at h
    obtain ⟨d, ds, hnum⟩ := List.exists_cons_of_ne_nil (shortest_numeral (n := z.natAbs) hb).ne_nil
    rw [hnum] at h
    have hd := hlt z.natAbs d (hnum ▸ List.mem_cons_self)
    exact absurd (List.forall₂_cons.mp h).1 (glyph_of_sameChar d hd).2.1
  · rw [if_neg hz, if_neg hz'] at h
    have := hnat _ _ h
    omega

theorem Alike.of_append {s s' t t' : Text} (h : Alike (s ++ s') (t ++ t'))
    (hlen : s.length = t.length) : Alike s t ∧ Alike s' t' := by
  have htake := List.forall₂_take t.length h
  have hdrop := List.forall₂_drop t.length h
  rw [List.take_left, ← hlen, List.take_left] at htake
  rw [List.drop_left, ← hlen, List.drop_left] at hdrop
  exact ⟨htake, hdrop⟩

theorem nibble_lt (x : BitVec 64) : (x >>> 60).toNat < 16 := by
  have hx := x.isLt
  rw [BitVec.toNat_ushiftRight, Nat.shiftRight_eq_div_pow]
  omega

theorem alike_nibbleLoop (n : ℕ) (x : BitVec 64) :
    Alike (kernel.nibbleLoop n x) (user.nibbleLoop n x) := by
  induction n generalizing x with
  | zero => exact .nil
  | succ n ih => exact .cons (.inr ⟨_, nibble_lt x, rfl, rfl⟩) (ih _)

theorem alike_printptr (x : BitVec 64) : Alike (kernel.printptr x) (user.printptr x) :=
  .cons (.inl rfl) (.cons (.inl rfl) (alike_nibbleLoop 16 x))

end Xv6.Printf
