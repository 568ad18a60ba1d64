import Xv6.Lib.Move
import Xv6.Lib.Words

/-!
# Moving bytes

The kernel and the user library have a `memmove` each. They choose the direction of the
copy by different tests; with either one no byte is overwritten before it has been read.
-/

namespace Xv6.Mem

open Lib

abbrev Addr := BitVec 64

abbrev Memory := Addr → UInt8

variable {d s dst src : Addr} {n i j : ℕ} {m : Memory}

/-- `while(n-- > 0) *d++ = *s++;` -/
def copyUp : ℕ → Addr → Addr → Memory → Memory
  | 0, _, _, m => m
  | n + 1, d, s, m => copyUp n (d + 1) (s + 1) (Function.update m d (m s))

/-- `while(n-- > 0) *--d = *--s;` -/
def copyDown : ℕ → Addr → Addr → Memory → Memory
  | 0, _, _, m => m
  | n + 1, d, s, m => copyDown n (d - 1) (s - 1) (Function.update m (d - 1) (m (s - 1)))

/-- The kernel's `memmove`, with what it returns. The count is a `uint`. -/
def Kernel.memmove (m : Memory) (dst src : Addr) (n : BitVec 32) : Addr × Memory :=
  if n = 0 then (dst, m)
  else if src < dst ∧ src + n.setWidth 64 > dst then
    (dst, copyDown n.toNat (dst + n.setWidth 64) (src + n.setWidth 64) m)
  else (dst, copyUp n.toNat dst src m)

/-- The `memmove` of the user library. The count is an `int`, and a negative one copies
nothing. -/
def Ulib.memmove (m : Memory) (vdst vsrc : Addr) (n : BitVec 32) : Addr × Memory :=
  if vsrc > vdst then (vdst, copyUp n.toInt.toNat vdst vsrc m)
  else (vdst, copyDown n.toInt.toNat (vdst + n.signExtend 64) (vsrc + n.signExtend 64) m)

/-! ## Addresses of a range -/

def byteOf (p : Addr) (i : ℕ) : Addr := p + BitVec.ofNat 64 i

@[simp]
theorem byteOf_zero (p : Addr) : byteOf p 0 = p := BitVec.add_zero p

theorem byteOf_add_one (p : Addr) (i : ℕ) : byteOf (p + 1) i = byteOf p (1 + i) := by
  rw [byteOf, byteOf, BitVec.ofNat_add, BitVec.add_assoc]
  rfl

theorem byteOf_succ_sub_one (p : Addr) (i : ℕ) : byteOf p (i + 1) - 1 = byteOf p i := by
  rw [byteOf, byteOf, BitVec.ofNat_add, ← BitVec.add_assoc]
  exact BitVec.add_sub_cancel _ _

theorem toNat_byteOf (h : d.toNat + i < 2 ^ 64) : (byteOf d i).toNat = d.toNat + i := by
  rw [byteOf, BitVec.toNat_add, BitVec.toNat_ofNat, Nat.mod_eq_of_lt (by omega : i < 2 ^ 64),
    Nat.mod_eq_of_lt h]

theorem byteOf_ne (hd : d.toNat + n ≤ 2 ^ 64) (hs : s.toNat + n ≤ 2 ^ 64) (hi : i < n)
    (hj : j < n) (hne : d.toNat + i ≠ s.toNat + j) : byteOf d i ≠ byteOf s j := by
  intro heq
  have h := congrArg BitVec.toNat heq
  rw [toNat_byteOf (by omega), toNat_byteOf (by omega)] at h
  exact hne h

/-! ## The two directions -/

/-- Going up is right when no destination byte is a source byte of a later step. -/
theorem moves_copyUp (hdst : ∀ i < n, ∀ j < n, i ≠ j → byteOf d i ≠ byteOf d j)
    (hsrc : ∀ i < n, ∀ j < n, i < j → byteOf d i ≠ byteOf s j) :
    Moves (byteOf d) (byteOf s) n m (copyUp n d s m) := by
  induction n generalizing d s m with
  | zero => exact Moves.zero _ _ _
  | succ n ih =>
    have hfirst := Moves.store (byteOf d) (byteOf s) m
    have hrest : Moves (byteOf (d + 1)) (byteOf (s + 1)) n (Function.update m d (m s))
        (copyUp n (d + 1) (s + 1) (Function.update m d (m s))) := by
      apply ih
      · intro i hi j hj hij
        rw [byteOf_add_one, byteOf_add_one]
        exact hdst _ (by omega) _ (by omega) (by omega)
      · intro i hi j hj hij
        rw [byteOf_add_one, byteOf_add_one]
        exact hsrc _ (by omega) _ (by omega) (by omega)
    rw [byteOf_zero, byteOf_zero] at hfirst
    rw [copyUp, Nat.add_comm]
    apply hfirst.append (hrest.congr (fun i _ => byteOf_add_one d i) fun i _ => byteOf_add_one s i)
    · intro i hi j hj
      exact hdst _ (by omega) _ (by omega) (by omega)
    · intro i hi j hj
      exact hsrc _ (by omega) _ (by omega) (by omega)

/-- Going down is right when no destination byte is a source byte of an earlier place. -/
theorem moves_copyDown (hdst : ∀ i < n, ∀ j < n, i ≠ j → byteOf d i ≠ byteOf d j)
    (hsrc : ∀ i < n, ∀ j < n, j < i → byteOf d i ≠ byteOf s j) :
    Moves (byteOf d) (byteOf s) n m (copyDown n (byteOf d n) (byteOf s n) m) := by
  induction n generalizing m with
  | zero => exact Moves.zero _ _ _
  | succ n ih =>
    rw [copyDown, byteOf_succ_sub_one, byteOf_succ_sub_one]
    apply Moves.snoc
    · apply ih
      · exact fun i hi j hj => hdst i (by omega) j (by omega)
      · exact fun i hi j hj => hsrc i (by omega) j (by omega)
    · exact fun i hi => hdst i (by omega) n (by omega) (by omega)
    · exact fun i hi => hsrc n (by omega) i (by omega) hi

section Ranges

variable (hd : d.toNat + n ≤ 2 ^ 64) (hs : s.toNat + n ≤ 2 ^ 64)

include hd hs

theorem moves_copyUp_of_le (h : d.toNat ≤ s.toNat ∨ s.toNat + n ≤ d.toNat) :
    Moves (byteOf d) (byteOf s) n m (copyUp n d s m) := by
  apply moves_copyUp
  · exact fun i hi j hj hij => byteOf_ne hd hd hi hj (by omega)
  · exact fun i hi j hj hij => byteOf_ne hd hs hi hj (by omega)

theorem moves_copyDown_of_ge (h : s.toNat ≤ d.toNat) :
    Moves (byteOf d) (byteOf s) n m (copyDown n (byteOf d n) (byteOf s n) m) := by
  apply moves_copyDown
  · exact fun i hi j hj hij => byteOf_ne hd hd hi hj (by omega)
  · exact fun i hi j hj hij => byteOf_ne hd hs hi hj (by omega)

end Ranges

/-! ## The two implementations -/

section Implementations

variable {n : BitVec 32} (hdst : dst.toNat + n.toNat ≤ 2 ^ 64)
  (hsrc : src.toNat + n.toNat ≤ 2 ^ 64)

theorem add_setWidth (p : Addr) (n : BitVec 32) : p + n.setWidth 64 = byteOf p n.toNat := by
  rw [byteOf, BitVec.ofNat_toNat]

include hdst hsrc

theorem Kernel.exists_memmove :
    ∃ m', Kernel.memmove m dst src n = (dst, m') ∧
      Moves (byteOf dst) (byteOf src) n.toNat m m' := by
  unfold Kernel.memmove
  by_cases hn : n = 0
  · subst hn
    exact ⟨m, if_pos rfl, Moves.zero _ _ _⟩
  rw [if_neg hn]
  by_cases hlap : src < dst ∧ src + n.setWidth 64 > dst
  · rw [if_pos hlap, add_setWidth, add_setWidth]
    exact ⟨_, rfl, moves_copyDown_of_ge hdst hsrc (BitVec.lt_def.mp hlap.1).le⟩
  · rw [if_neg hlap]
    refine ⟨_, rfl, moves_copyUp_of_le hdst hsrc ?_⟩
    rw [not_and, BitVec.lt_def, gt_iff_lt, BitVec.lt_def, add_setWidth] at hlap
    by_cases hlt : src.toNat < dst.toNat
    · -- the end of the source is below that of the destination, so it is not past 2 ^ 64
      have hend := hlap hlt
      rw [toNat_byteOf (by omega)] at hend
      omega
    · omega

theorem Ulib.exists_memmove (hn : n.toNat < 2 ^ 31) :
    ∃ m', Ulib.memmove m dst src n = (dst, m') ∧ Moves (byteOf dst) (byteOf src) n.toNat m m' := by
  have hmsb : n.msb = false := by
    rw [BitVec.msb_eq_false_iff_two_mul_lt]
    omega
  have hcount : n.toInt.toNat = n.toNat := by
    rw [BitVec.toInt_eq_toNat_of_msb hmsb]
    exact Int.toNat_natCast _
  unfold Ulib.memmove
  rw [hcount, BitVec.signExtend_eq_setWidth_of_msb_false hmsb, add_setWidth, add_setWidth]
  by_cases hup : src > dst
  · rw [if_pos hup]
    exact ⟨_, rfl, moves_copyUp_of_le hdst hsrc (.inl (BitVec.lt_def.mp hup).le)⟩
  · rw [if_neg hup]
    rw [gt_iff_lt, BitVec.lt_def] at hup
    exact ⟨_, rfl, moves_copyDown_of_ge hdst hsrc (by omega)⟩

end Implementations

/-! ## A region of memory -/

/-- The memory around a region at `base`, whose bytes are known by their offsets. -/
def region (base : Addr) (b : Bytes) : Memory := fun a => b (a - base).toNat

theorem offset_byteOf (base : Addr) {o i : ℕ} (h : o + i < 2 ^ 64) :
    (byteOf (byteOf base o) i - base).toNat = o + i := by
  rw [byteOf, byteOf, BitVec.add_assoc, BitVec.add_comm, BitVec.add_sub_cancel, ← BitVec.ofNat_add,
    BitVec.toNat_ofNat, Nat.mod_eq_of_lt h]

theorem moves_region (base : Addr) (b : Bytes) {o o' n : ℕ} (ho : o + n ≤ 2 ^ 64)
    (ho' : o' + n ≤ 2 ^ 64) :
    Moves (byteOf (byteOf base o)) (byteOf (byteOf base o')) n (region base b)
      (region base (moveRange b o o' n)) := by
  refine (moves_moveRange b o o' n).comp ?_ ?_ ?_
  · intro x y hxy
    have hsub := BitVec.eq_of_toNat_eq hxy
    rw [← BitVec.sub_add_cancel x base, hsub, BitVec.sub_add_cancel]
  · exact fun i hi => offset_byteOf base (by omega)
  · exact fun i hi => offset_byteOf base (by omega)

theorem toNat_byteOf_add_le {base : Addr} {o n : ℕ} (h : base.toNat + o + n ≤ 2 ^ 64) :
    (byteOf base o).toNat + (BitVec.ofNat 32 n).toNat ≤ 2 ^ 64 := by
  rw [byteOf, BitVec.toNat_add, BitVec.toNat_ofNat, BitVec.toNat_ofNat]
  omega

section Offsets

variable {base : Addr} {o o' n : ℕ} (b : Bytes) (ho : base.toNat + o + n ≤ 2 ^ 64)
  (ho' : base.toNat + o' + n ≤ 2 ^ 64)

include ho ho'

theorem Kernel.memmove_region (hn : n < 2 ^ 32) :
    Kernel.memmove (region base b) (byteOf base o) (byteOf base o') (BitVec.ofNat 32 n) =
      (byteOf base o, region base (moveRange b o o' n)) := by
  obtain ⟨m', heq, hmoves⟩ := Kernel.exists_memmove (m := region base b)
    (toNat_byteOf_add_le ho) (toNat_byteOf_add_le ho')
  rw [BitVec.toNat_ofNat, Nat.mod_eq_of_lt hn] at hmoves
  rw [heq, hmoves.unique (moves_region base b (by omega) (by omega))]

theorem Ulib.memmove_region (hn : n < 2 ^ 31) :
    Ulib.memmove (region base b) (byteOf base o) (byteOf base o') (BitVec.ofNat 32 n) =
      (byteOf base o, region base (moveRange b o o' n)) := by
  have hcount : (BitVec.ofNat 32 n).toNat = n := Nat.mod_eq_of_lt (by omega)
  obtain ⟨m', heq, hmoves⟩ := Ulib.exists_memmove (m := region base b)
    (toNat_byteOf_add_le ho) (toNat_byteOf_add_le ho') (by omega)
  rw [hcount] at hmoves
  rw [heq, hmoves.unique (moves_region base b (by omega) (by omega))]

end Offsets

/-- Both copies have the same effect: every byte of the destination is what the source had
there, and no other byte is touched. -/
theorem memmove_moves (m : Memory) (dst src : Addr) (n : BitVec 32) (hn : n.toNat < 2 ^ 31)
    (hdst : dst.toNat + n.toNat ≤ 2 ^ 64) (hsrc : src.toNat + n.toNat ≤ 2 ^ 64) :
    ∃ m', Kernel.memmove m dst src n = (dst, m') ∧ Ulib.memmove m dst src n = (dst, m') ∧
      (∀ i < n.toNat, m' (dst + BitVec.ofNat 64 i) = m (src + BitVec.ofNat 64 i)) ∧
      ∀ a, (∀ i < n.toNat, dst + BitVec.ofNat 64 i ≠ a) → m' a = m a := by
  obtain ⟨m₁, hkernel, hmoves⟩ := Kernel.exists_memmove (m := m) hdst hsrc
  obtain ⟨m₂, huser, hmoves'⟩ := Ulib.exists_memmove (m := m) hdst hsrc hn
  rw [← hmoves.unique hmoves'] at huser
  exact ⟨m₁, hkernel, huser, hmoves.moved, hmoves.frame⟩

/-- Three bytes moved one place up, over two of themselves. -/
theorem memmove_moves_overlap : ∃ m',
    Kernel.memmove (fun a => a.toNat.toUInt8) 1025 1024 3 = (1025, m') ∧
      Ulib.memmove (fun a => a.toNat.toUInt8) 1025 1024 3 = (1025, m') ∧
      (∀ i < 3, m' (1025 + BitVec.ofNat 64 i) = (1024 + BitVec.ofNat 64 i).toNat.toUInt8) ∧
      ∀ a, (∀ i < 3, 1025 + BitVec.ofNat 64 i ≠ a) → m' a = a.toNat.toUInt8 :=
  memmove_moves (fun a => a.toNat.toUInt8) 1025 1024 3 (by decide) (by decide) (by decide)

end Xv6.Mem
