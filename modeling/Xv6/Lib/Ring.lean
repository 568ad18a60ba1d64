import Mathlib

/-!
# Ring buffers with wrapping counters

A buffer of `N` cells is used as a queue by two counters of `w` bits that only
count up and wrap: `n` counts what has been put in, `r` what has been taken
out, and a counter `c` stands for cell `c % N`.  This works across the wrap
because `N` divides `2 ^ w`.
-/

namespace Xv6.Lib.Ring

variable {α : Type*} {w N : ℕ} {data : ℕ → α} {r n : BitVec w}

/-- What is in the buffer, oldest first. -/
def contents (N : ℕ) (data : ℕ → α) (r n : BitVec w) : List α :=
  (List.range (n - r).toNat).map fun i => data ((r.toNat + i) % N)

@[simp] theorem length_contents : (contents N data r n).length = (n - r).toNat := by
  simp [contents]

@[simp] theorem contents_self : contents N data r r = [] := by
  simp [contents]

theorem toNat_one (w : ℕ) : (1 : BitVec w).toNat = 1 % 2 ^ w := BitVec.toNat_ofNat 1 w

theorem toNat_add_one_sub (h : (n - r).toNat + 1 < 2 ^ w) :
    (n + 1 - r).toNat = (n - r).toNat + 1 := by
  have hadd : n + 1 - r = (n - r) + 1 := by ring
  rw [hadd, BitVec.toNat_add, toNat_one, Nat.add_mod_mod, Nat.mod_eq_of_lt h]

theorem toNat_sub_add_one (h : r ≠ n) : (n - (r + 1)).toNat + 1 = (n - r).toNat := by
  have hpos : n - r ≠ 0 := fun h0 => h (sub_eq_zero.mp h0).symm
  have hnat : (n - r).toNat ≠ 0 := fun h0 => hpos (BitVec.eq_of_toNat_eq (by simpa using h0))
  have hlt := (n - r).isLt
  have hsub : n - (r + 1) = (n - r) - 1 := by ring
  have hw : 1 < 2 ^ w := by omega
  rw [hsub, BitVec.toNat_sub, toNat_one, Nat.mod_eq_of_lt hw]
  have hsum : 2 ^ w - 1 + (n - r).toNat = ((n - r).toNat - 1) + 2 ^ w := by omega
  rw [hsum, Nat.add_mod_right, Nat.mod_eq_of_lt (by omega)]
  omega

theorem cell_eq (hN : N ∣ 2 ^ w) : n.toNat % N = (r.toNat + (n - r).toNat) % N := by
  have h : n.toNat = (r.toNat + (n - r).toNat) % 2 ^ w := by
    rw [← BitVec.toNat_add]
    congr 1
    ring
  rw [h, Nat.mod_mod_of_dvd _ hN]

theorem succ_cell (hN : N ∣ 2 ^ w) (i : ℕ) : ((r + 1).toNat + i) % N = (r.toNat + (i + 1)) % N := by
  have hone : ((r + 1).toNat + i) % N = ((r.toNat + 1) % 2 ^ w + i) % N := by
    rw [BitVec.toNat_add, toNat_one, Nat.add_mod_mod]
  rw [hone, Nat.add_mod, Nat.mod_mod_of_dvd _ hN, ← Nat.add_mod]
  congr 1
  omega

theorem contents_store (hN : N ∣ 2 ^ w) (hlt : (n - r).toNat < N) (x : α) :
    contents N (Function.update data (n.toNat % N) x) r n = contents N data r n := by
  unfold contents
  apply List.map_congr_left
  intro i hi
  rw [List.mem_range] at hi
  refine Function.update_of_ne ?_ _ _
  rw [cell_eq (r := r) hN]
  -- two cells less than `N` apart are different
  intro heq
  have hmod := Nat.ModEq.add_left_cancel' _ heq
  exact hi.ne (Nat.ModEq.eq_of_lt_of_lt hmod (by omega) hlt)

theorem contents_succ (hN : N ∣ 2 ^ w) (hlt : (n - r).toNat + 1 < 2 ^ w) :
    contents N data r (n + 1) = contents N data r n ++ [data (n.toNat % N)] := by
  unfold contents
  rw [toNat_add_one_sub hlt, List.range_succ, List.map_append, List.map_singleton, ← cell_eq hN]

theorem contents_push (hN : N ∣ 2 ^ w) (hlt : (n - r).toNat < N) (hw : N < 2 ^ w) (x : α) :
    contents N (Function.update data (n.toNat % N) x) r (n + 1) = contents N data r n ++ [x] := by
  rw [contents_succ hN (by omega), contents_store hN hlt, Function.update_self]

theorem contents_pop (hN : N ∣ 2 ^ w) (h : r ≠ n) :
    contents N data r n = data (r.toNat % N) :: contents N data (r + 1) n := by
  unfold contents
  rw [← toNat_sub_add_one h, List.range_succ_eq_map, List.map_cons, List.map_map]
  congr 1
  apply List.map_congr_left
  intro i _
  rw [succ_cell hN]
  rfl

theorem toNat_sub_add_sub {m : BitVec w} (h : (m - r).toNat + (n - m).toNat < 2 ^ w) :
    (n - r).toNat = (m - r).toNat + (n - m).toNat := by
  have hsum : n - r = (m - r) + (n - m) := by ring
  rw [hsum, BitVec.toNat_add, Nat.mod_eq_of_lt h]

theorem contents_append (hN : N ∣ 2 ^ w) {m : BitVec w}
    (h : (m - r).toNat + (n - m).toNat < 2 ^ w) :
    contents N data r m ++ contents N data m n = contents N data r n := by
  unfold contents
  rw [toNat_sub_add_sub h, List.range_add, List.map_append, List.map_map]
  congr 1
  apply List.map_congr_left
  intro i _
  have hcell : (m.toNat + i) % N = (r.toNat + ((m - r).toNat + i)) % N := by
    rw [Nat.add_mod, cell_eq (r := r) hN, ← Nat.add_mod, Nat.add_assoc]
  rw [hcell]
  rfl

theorem toNat_sub_one_sub (h : r ≠ n) : (n - 1 - r).toNat + 1 = (n - r).toNat := by
  have hswap : n - 1 - r = n - (r + 1) := by ring
  rw [hswap, toNat_sub_add_one h]

theorem contents_unpush (h : r ≠ n) :
    contents N data r (n - 1) = (contents N data r n).dropLast := by
  unfold contents
  rw [← toNat_sub_one_sub h, List.range_succ, List.map_append, List.map_singleton,
    List.dropLast_concat]

end Xv6.Lib.Ring
