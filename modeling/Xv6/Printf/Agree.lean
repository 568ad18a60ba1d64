import Xv6.Printf.Exact

/-!
# Where the two implementations agree

On the arguments that both integer printers take whole, the kernel and the user library
print the same characters, up to the case of hexadecimal digits. The user library prints
the low 32 bits of a longer number.
-/

namespace Xv6.Printf

variable {l : Length} {k : Kind} {p : Piece} {a : Arg} {ap : List Arg} {ps : List Piece}

/-! ## Arguments for a format -/

def Takes : Piece → Arg → Prop
  | .num .int _, .int _ => True
  | .num .long _, .long _ => True
  | .num .longLong _, .long _ => True
  | .ptr, .long _ => True
  | .str, .str _ => True
  | _, _ => False

/-- The `uint64` arguments that 32 bits hold. -/
def SmallLong : Kind → BitVec 64 → Prop
  | .d, v => -2 ^ 31 ≤ v.toInt ∧ v.toInt < 2 ^ 31
  | .u, v => v.toNat < 2 ^ 32
  | .x, v => v.toNat < 2 ^ 32

/-- The numbers that both printers print. -/
def Small : Piece → Arg → Prop
  | .num _ k, .int v => FitsInt k v
  | .num _ k, .long v => SmallLong k v
  | _, _ => True

/-- Every conversion has its argument; arguments that are left over are not read. -/
inductive Matches (R : Piece → Arg → Prop) : List Piece → List Arg → Prop
  | nil (ap : List Arg) : Matches R [] ap
  | lit {c : UInt8} {ps : List Piece} {ap : List Arg} :
      Matches R ps ap → Matches R (.lit c :: ps) ap
  | conv {p : Piece} {a : Arg} {ps : List Piece} {ap : List Arg} :
      R p a → Matches R ps ap → Matches R (p :: ps) (a :: ap)

theorem exists_of_takes_num (h : Takes (.num l k) a) : ∃ v : BitVec l.width, a = l.arg v := by
  cases a with
  | int v =>
    cases l with
    | int => exact ⟨v, rfl⟩
    | long => exact h.elim
    | longLong => exact h.elim
  | long v =>
    cases l with
    | int => exact h.elim
    | long => exact ⟨v, rfl⟩
    | longLong => exact ⟨v, rfl⟩
  | str s => cases l <;> exact h.elim

/-! ## Pieces -/

theorem value_setWidth_eq_iff (k : Kind) (v : BitVec 64) :
    value k.sign (v.setWidth 32) = value k.sign v ↔ SmallLong k v := by
  have hlt := v.isLt
  cases k with
  | d =>
    change (v.setWidth 32).toInt = v.toInt ↔ -2 ^ 31 ≤ v.toInt ∧ v.toInt < 2 ^ 31
    rw [BitVec.toInt_eq_toNat_cond, BitVec.toInt_eq_toNat_cond, BitVec.toNat_setWidth]
    split <;> split <;> omega
  | u | x =>
    change ((v.setWidth 32).toNat : ℤ) = v.toNat ↔ v.toNat < 2 ^ 32
    rw [BitVec.toNat_setWidth]
    omega

theorem fitsInt_iff_sign (k : Kind) (v : BitVec 32) :
    FitsInt k v ↔ k.sign = true ∨ v.toNat < 2 ^ 31 := by
  cases k <;> simp [FitsInt, Kind.sign]

theorem number_eq_iff (l : Length) (k : Kind) (v : BitVec l.width) :
    kernel.number l k v = user.number l k v ↔ Small (.num l k) (l.arg v) := by
  cases l with
  | int => exact (number_int_eq_iff k v).trans (fitsInt_iff_sign k v).symm
  | long | longLong => exact eq_comm.trans (value_setWidth_eq_iff k v)

theorem length_spell_user (l : Length) (k : Kind) (v : BitVec l.width) (digits : Text) :
    (spell digits k.base (user.number l k v)).length ≤ 16 := by
  have hvalue : ∀ x : BitVec 32, -(k.base ^ 15 : ℕ) < value k.sign x ∧
      value k.sign x < (k.base ^ 16 : ℕ) := by
    intro x
    have hlt := x.isLt
    have hge := x.le_toInt
    have hle := x.toInt_lt
    cases k <;> simp [value, Kind.sign, Kind.base] <;> omega
  exact (length_spell_le_iff k.one_lt_base _).mpr (hvalue _)

/-- Both print the piece, and the same arguments are left. -/
def Agrees (p : Piece) (ap ap' : List Arg) : Prop :=
  ∃ s t, kernel.emit p ap = .ok (s, ap') ∧ user.emit p ap = .ok (t, ap') ∧ Alike s t

theorem agrees_lit (c : UInt8) (ap : List Arg) : Agrees (.lit c) ap ap :=
  ⟨[c], [c], rfl, rfl, Alike.refl _⟩

theorem agrees_num {v : BitVec l.width} (h : Small (.num l k) (l.arg v)) (ap : List Arg) :
    Agrees (.num l k) (l.arg v :: ap) ap := by
  refine ⟨spell kernel.digits k.base (user.number l k v),
    spell user.digits k.base (user.number l k v), ?_, ?_, ?_⟩
  · rw [Printer.emit_num kernel (by decide), (number_eq_iff l k v).mpr h,
      if_pos (length_spell_user l k v _)]
  · rw [Printer.emit_num user (by decide), if_pos (length_spell_user l k v _)]
  · exact alike_spell k.one_lt_base k.base_le _

theorem agrees_of_takes (h : Takes p a) (hsmall : Small p a) (ap : List Arg) :
    Agrees p (a :: ap) ap := by
  cases p with
  | lit c => exact h.elim
  | num l k =>
    obtain ⟨v, rfl⟩ := exists_of_takes_num h
    exact agrees_num hsmall ap
  | ptr =>
    cases a with
    | long v => exact ⟨_, _, rfl, rfl, alike_printptr v⟩
    | int v => exact h.elim
    | str s => exact h.elim
  | str =>
    cases a with
    | str s => exact ⟨_, _, rfl, rfl, Alike.refl _⟩
    | int v => exact h.elim
    | long v => exact h.elim

theorem render_cons {P : Printer} {ap' : List Arg} {s t : Text} (hp : P.emit p ap = .ok (s, ap'))
    (hps : P.render ps ap' = .ok t) : P.render (p :: ps) ap = .ok (s ++ t) := by
  rw [Printer.render, hp]
  change P.render ps ap' >>= _ = _
  rw [hps]
  rfl

theorem exists_render (h : Matches (fun p a => Takes p a ∧ Small p a) ps ap) :
    ∃ s t, kernel.render ps ap = .ok s ∧ user.render ps ap = .ok t ∧ Alike s t := by
  induction h with
  | nil ap => exact ⟨[], [], rfl, rfl, .nil⟩
  | @lit c ps ap _ ih =>
    obtain ⟨s, t, hs, ht, halike⟩ := ih
    obtain ⟨s', t', hs', ht', halike'⟩ := agrees_lit c ap
    exact ⟨s' ++ s, t' ++ t, render_cons hs' hs, render_cons ht' ht, List.rel_append halike' halike⟩
  | @conv p a ps ap hp _ ih =>
    obtain ⟨s, t, hs, ht, halike⟩ := ih
    obtain ⟨s', t', hs', ht', halike'⟩ := agrees_of_takes hp.1 hp.2 ap
    exact ⟨s' ++ s, t' ++ t, render_cons hs' hs, render_cons ht' ht, List.rel_append halike' halike⟩

/-- For a single conversion these are all the arguments on which the two agree. -/
theorem format_alike_iff (l : Length) (k : Kind) (v : BitVec l.width) :
    (∃ s t, Kernel.printf (format l k) [l.arg v] = .ok s ∧
      User.vprintf (format l k) [l.arg v] = .ok t ∧ Alike s t) ↔ Small (.num l k) (l.arg v) := by
  rw [printf_format, User.vprintf_eq, parse_format, render_num user (by decide),
    if_pos (length_spell_user l k v _), ← number_eq_iff]
  constructor
  · rintro ⟨s, t, hs, ht, halike⟩
    obtain rfl := Except.ok.inj ht
    split at hs
    · obtain rfl := Except.ok.inj hs
      exact eq_of_alike_spell k.one_lt_base k.base_le halike
    · exact absurd hs (by simp)
  · intro h
    rw [h, if_pos (length_spell_user l k v _)]
    exact ⟨_, _, rfl, rfl, alike_spell k.one_lt_base k.base_le _⟩

end Xv6.Printf
