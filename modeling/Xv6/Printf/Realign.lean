import Xv6.Printf.Agree

/-!
# Texts that have come apart

The two implementations print the same text just if they print each number the same.  Where a
number comes out longer from the kernel, what the kernel has printed is ahead of what the user
library has printed, and nothing that follows brings the two together again: the user library
gains on the kernel only with a minus sign, and what the kernel is ahead by ends in a digit.
-/

namespace Xv6.Printf

open Lib

variable {l : Length} {k : Kind} {p : Piece} {a : Arg} {ap : List Arg} {ps : List Piece}
  {w s t u : Text}

/-! ## The text of a number -/

theorem spell_ne_nil {digits : Text} {b : ℕ} (hb : 1 < b) (z : ℤ) : spell digits b z ≠ [] := by
  unfold spell
  simp [(shortest_numeral (n := z.natAbs) hb).ne_nil]

theorem glyph_ne_minus : ∀ d < 16, glyph kernel.digits d ≠ '-'.toUInt8 := by
  decide +kernel

theorem sameChar_minus {c : UInt8} (h : SameChar c '-'.toUInt8) : c = '-'.toUInt8 := by
  rcases h with h | ⟨d, hd, -, h⟩
  · exact h
  · have hminus : ∀ d < 16, '-'.toUInt8 ≠ glyph user.digits d := by decide +kernel
    exact absurd h (hminus d hd)

theorem getLast?_spell (k : Kind) (z : ℤ) :
    (spell kernel.digits k.base z).getLast? ≠ some '-'.toUInt8 := by
  have hshort := shortest_numeral (n := z.natAbs) k.one_lt_base
  have hmem := List.getLast_mem hshort.ne_nil
  rw [spell, List.getLast?_append, List.getLast?_map, List.getLast?_eq_some_getLast hshort.ne_nil]
  intro h
  exact glyph_ne_minus _ ((hshort.lt _ hmem).trans_le k.base_le) (Option.some.inj h)

def spellLength (b : ℕ) (z : ℤ) : ℕ := (if z < 0 then 1 else 0) + (numeral b z.natAbs).length

theorem length_spell (digits : Text) (b : ℕ) (z : ℤ) :
    (spell digits b z).length = spellLength b z := by
  rw [spell, List.length_append, List.length_map, spellLength]
  split <;> rfl

theorem length_numeral_mono {b m n : ℕ} (hb : 1 < b) (h : m ≤ n) :
    (numeral b m).length ≤ (numeral b n).length := by
  have hne : (numeral b n).length ≠ 0 := by simp [(shortest_numeral (n := n) hb).ne_nil]
  exact (length_numeral_le_iff hb hne).mpr
    (h.trans_lt ((length_numeral_le_iff hb hne).mp le_rfl))

theorem spellLength_mono {b m n : ℕ} (hb : 1 < b) (h : m ≤ n) :
    spellLength b m ≤ spellLength b n := by
  rw [spellLength, spellLength, if_neg (by omega), if_neg (by omega)]
  exact Nat.add_le_add_left (length_numeral_mono hb h) 0

/-- A signed number that 32 bits do not hold has at least ten digits. -/
theorem spellLength_trunc (v : BitVec 64) (hv : ¬(-2 ^ 31 ≤ v.toInt ∧ v.toInt < 2 ^ 31)) :
    spellLength 10 (v.setWidth 32).toInt ≤ spellLength 10 v.toInt ∨
      (v.setWidth 32).toInt < 0 ∧ 0 ≤ v.toInt ∧
        spellLength 10 (v.setWidth 32).toInt = spellLength 10 v.toInt + 1 := by
  have hge := (v.setWidth 32).le_toInt
  have hlt := (v.setWidth 32).toInt_lt
  have hmono := length_numeral_mono (b := 10) (by decide)
    (by omega : (v.setWidth 32).toInt.natAbs ≤ v.toInt.natAbs)
  have hten := length_numeral_le_iff (b := 10) (n := (v.setWidth 32).toInt.natAbs) (by decide)
    (by decide : 10 ≠ 0)
  have hnine := length_numeral_le_iff (b := 10) (n := v.toInt.natAbs) (by decide)
    (by decide : 9 ≠ 0)
  unfold spellLength
  split_ifs <;> omega

/-- Only with a minus sign that the kernel does not print is the user's text longer, and then by
that character. -/
theorem spellLength_user_le (l : Length) (k : Kind) (v : BitVec l.width) :
    spellLength k.base (user.number l k v) ≤ spellLength k.base (kernel.number l k v) ∨
      user.number l k v < 0 ∧ 0 ≤ kernel.number l k v ∧
        spellLength k.base (user.number l k v) =
          spellLength k.base (kernel.number l k v) + 1 := by
  by_cases hsmall : Small (.num l k) (l.arg v)
  · rw [(number_eq_iff l k v).mpr hsmall]
    exact .inl le_rfl
  cases l with
  | int =>
    change BitVec 32 at v
    cases k with
    | d => exact absurd trivial hsmall
    | u | x =>
      refine .inl (spellLength_mono (by decide) ?_)
      change v.toNat ≤ (v.signExtend 64).toNat
      rw [BitVec.toNat_signExtend, BitVec.toNat_setWidth]
      have := v.isLt
      omega
  | long | longLong =>
    change BitVec 64 at v
    cases k with
    | d => exact spellLength_trunc v hsmall
    | u | x =>
      refine .inl (spellLength_mono (by decide) ?_)
      change (v.setWidth 32).toNat ≤ v.toNat
      rw [BitVec.toNat_setWidth]
      exact Nat.mod_le _ _

/-! ## Ahead -/

/-- What the kernel may be ahead by: not a minus sign alone. -/
def Ahead (w : Text) : Prop := w ≠ [] ∧ w ≠ ['-'.toUInt8]

theorem ahead_drop {n : ℕ} (hlast : s.getLast? ≠ some '-'.toUInt8) (hs : s ≠ [])
    (hn : n < (w ++ s).length) : Ahead ((w ++ s).drop n) := by
  have hdrop : ((w ++ s).drop n).getLast? = s.getLast? := by
    rw [List.getLast?_drop, if_neg (by omega), List.getLast?_append_of_ne_nil _ hs]
  refine ⟨fun h => ?_, fun h => ?_⟩
  · rw [List.drop_eq_nil_iff] at h
    omega
  · rw [h] at hdrop
    exact hlast hdrop.symm

/-- A character that both print does not change what the kernel may be ahead by. -/
theorem Ahead.lit {c : UInt8} (hw : Ahead w) (h : Alike (w ++ c :: s) (c :: t)) :
    ∃ w', Ahead w' ∧ Alike (w' ++ s) t := by
  obtain ⟨x, w, rfl⟩ := List.exists_cons_of_ne_nil hw.1
  obtain ⟨hx, hrest⟩ := List.forall₂_cons.mp h
  refine ⟨w ++ [c], ⟨by simp, fun heq => ?_⟩, by simpa using hrest⟩
  obtain ⟨rfl, hc⟩ : w = [] ∧ c = '-'.toUInt8 := by simpa [List.append_eq_singleton_iff] using heq
  rw [hc] at hx
  exact hw.2 (by rw [sameChar_minus hx])

theorem Ahead.text (hw : Ahead w) (h : Alike (w ++ (u ++ s)) (u ++ t)) :
    ∃ w', Ahead w' ∧ Alike (w' ++ s) t := by
  induction u generalizing w with
  | nil => exact ⟨w, hw, h⟩
  | cons c u ih =>
    obtain ⟨w', hw', h'⟩ := hw.lit h
    exact ih hw' h'

/-- After a text that ends in a digit the kernel is still ahead. -/
theorem Ahead.number {kt ut : Text} (hw : Ahead w) (hkt : kt ≠ [])
    (hlast : kt.getLast? ≠ some '-'.toUInt8)
    (hlen : ut.length ≤ kt.length ∨ ut.length = kt.length + 1 ∧ ut.head? = some '-'.toUInt8)
    (h : Alike (w ++ (kt ++ s)) (ut ++ t)) : ∃ w', Ahead w' ∧ Alike (w' ++ s) t := by
  have hpos := List.length_pos_of_ne_nil hw.1
  have hlt : ut.length < (w ++ kt).length := by
    rw [List.length_append]
    rcases hlen with hle | ⟨heq, hhead⟩
    · omega
    · -- the user's minus sign stands opposite the first character of `w`
      by_contra hge
      obtain ⟨x, rfl⟩ := List.length_eq_one_iff.mp (by omega : w.length = 1)
      obtain ⟨c, ut, rfl⟩ := List.exists_cons_of_ne_nil
        (List.ne_nil_of_length_pos (by omega : 0 < ut.length))
      obtain rfl : c = '-'.toUInt8 := Option.some.inj hhead
      exact hw.2 (by rw [sameChar_minus (List.forall₂_cons.mp h).1])
  refine ⟨(w ++ kt).drop ut.length, ahead_drop hlast hkt hlt, ?_⟩
  have hdrop := List.forall₂_drop ut.length h
  rwa [List.drop_left, ← List.append_assoc, List.drop_append_of_le_length hlt.le] at hdrop

/-! ## Whole formats -/

theorem exists_of_render_cons {P : Printer} {out : Text} (h : P.render (p :: ps) ap = .ok out) :
    ∃ s ap' t, P.emit p ap = .ok (s, ap') ∧ P.render ps ap' = .ok t ∧ out = s ++ t := by
  rw [Printer.render] at h
  cases hemit : P.emit p ap with
  | error e => simp [hemit, bind, Except.bind] at h
  | ok x =>
    obtain ⟨s, ap'⟩ := x
    rw [hemit] at h
    change P.render ps ap' >>= _ = _ at h
    cases hrest : P.render ps ap' with
    | error e => simp [hrest, bind, Except.bind] at h
    | ok t =>
      rw [hrest] at h
      exact ⟨s, ap', t, rfl, hrest, (Except.ok.inj h).symm⟩

theorem emit_kernel_num {v : BitVec l.width} {ap' : List Arg}
    (h : kernel.emit (.num l k) (l.arg v :: ap) = .ok (s, ap')) :
    s = spell kernel.digits k.base (kernel.number l k v) ∧ ap' = ap := by
  rw [Printer.emit_num kernel (by decide)] at h
  split at h
  · simpa [eq_comm] using h
  · cases h

theorem emit_user_num {v : BitVec l.width} {ap' : List Arg}
    (h : user.emit (.num l k) (l.arg v :: ap) = .ok (t, ap')) :
    t = spell user.digits k.base (user.number l k v) ∧ ap' = ap := by
  rw [Printer.emit_num user (by decide), if_pos (length_spell_user l k v _)] at h
  simpa [eq_comm] using h

theorem head?_spell_of_neg {digits : Text} {b : ℕ} {z : ℤ} (h : z < 0) :
    (spell digits b z).head? = some '-'.toUInt8 := by
  rw [spell, if_pos h]
  rfl

theorem minus_not_mem_nibbleLoop (n : ℕ) (x : BitVec 64) :
    '-'.toUInt8 ∉ kernel.nibbleLoop n x := by
  induction n generalizing x with
  | zero => exact List.not_mem_nil
  | succ n ih =>
    exact List.not_mem_cons_of_ne_of_not_mem (glyph_ne_minus _ (nibble_lt x)).symm (ih _)

theorem getLast?_printptr (x : BitVec 64) : (kernel.printptr x).getLast? ≠ some '-'.toUInt8 := by
  intro h
  rcases List.mem_cons.mp (List.mem_of_getLast? h) with h | h
  · exact absurd h (by decide)
  · rcases List.mem_cons.mp h with h | h
    · exact absurd h (by decide)
    · exact minus_not_mem_nibbleLoop 16 x h

/-- Once the kernel is ahead, no conversions and no characters bring the texts together. -/
theorem not_alike_of_ahead (h : Matches Takes ps ap) (hw : Ahead w)
    (hs : kernel.render ps ap = .ok s) (ht : user.render ps ap = .ok t) : ¬ Alike (w ++ s) t := by
  induction h generalizing w s t with
  | nil ap =>
    obtain rfl := Except.ok.inj hs
    obtain rfl := Except.ok.inj ht
    intro halike
    exact hw.1 (by simpa using halike.length_eq)
  | @lit c ps ap _ ih =>
    intro halike
    obtain ⟨s₁, _, s₂, hs₁, hs₂, rfl⟩ := exists_of_render_cons hs
    obtain ⟨t₁, _, t₂, ht₁, ht₂, rfl⟩ := exists_of_render_cons ht
    cases hs₁
    cases ht₁
    obtain ⟨w', hw', halike'⟩ := hw.lit halike
    exact ih hw' hs₂ ht₂ halike'
  | @conv p a ps ap hp _ ih =>
    intro halike
    obtain ⟨s₁, _, s₂, hs₁, hs₂, rfl⟩ := exists_of_render_cons hs
    obtain ⟨t₁, _, t₂, ht₁, ht₂, rfl⟩ := exists_of_render_cons ht
    cases p with
    | lit c => exact hp.elim
    | num l k =>
      obtain ⟨v, rfl⟩ := exists_of_takes_num hp
      obtain ⟨rfl, rfl⟩ := emit_kernel_num hs₁
      obtain ⟨rfl, rfl⟩ := emit_user_num ht₁
      obtain ⟨w', hw', halike'⟩ := hw.number (spell_ne_nil k.one_lt_base _) (getLast?_spell k _)
        (by
          rw [length_spell, length_spell]
          exact (spellLength_user_le l k v).imp_right fun hlen =>
            ⟨hlen.2.2, head?_spell_of_neg hlen.1⟩) halike
      exact ih hw' hs₂ ht₂ halike'
    | ptr =>
      cases a with
      | int v | str v => exact hp.elim
      | long v =>
        cases hs₁
        cases ht₁
        obtain ⟨w', hw', halike'⟩ := hw.number (List.cons_ne_nil _ _) (getLast?_printptr v)
          (.inl (alike_printptr v).length_eq.ge) halike
        exact ih hw' hs₂ ht₂ halike'
    | str =>
      cases a with
      | int v | long v => exact hp.elim
      | str x =>
        cases hs₁
        cases ht₁
        obtain ⟨w', hw', halike'⟩ := hw.text halike
        exact ih hw' hs₂ ht₂ halike'

/-- A number that the two print differently parts the texts for good. -/
theorem small_of_alike (h : Matches Takes ps ap) {v : BitVec l.width}
    (hs : kernel.render ps ap = .ok s) (ht : user.render ps ap = .ok t)
    (halike : Alike (spell kernel.digits k.base (kernel.number l k v) ++ s)
      (spell user.digits k.base (user.number l k v) ++ t)) :
    Small (.num l k) (l.arg v) ∧ Alike s t := by
  rcases spellLength_user_le l k v with hle | ⟨hneg, hnonneg, -⟩
  · rw [← length_spell user.digits, ← length_spell kernel.digits] at hle
    rcases hle.lt_or_eq with hlt | heq
    · -- the kernel is ahead by the rest of its digits
      have hdrop := List.forall₂_drop
        (spell user.digits k.base (user.number l k v)).length halike
      rw [List.drop_left, List.drop_append_of_le_length hlt.le] at hdrop
      exact absurd hdrop (not_alike_of_ahead h (ahead_drop (w := []) (getLast?_spell k _)
        (spell_ne_nil k.one_lt_base _) hlt) hs ht)
    · obtain ⟨hnum, hrest⟩ := Alike.of_append halike heq.symm
      exact ⟨(number_eq_iff l k v).mp (eq_of_alike_spell k.one_lt_base k.base_le hnum), hrest⟩
  · -- the user's minus sign stands opposite a digit
    exfalso
    have hne : spell kernel.digits k.base (kernel.number l k v) ≠ [] := spell_ne_nil k.one_lt_base _
    obtain ⟨c, s', hc⟩ := List.exists_cons_of_ne_nil hne
    rw [hc, spell, if_pos hneg] at halike
    have hminus := sameChar_minus (List.forall₂_cons.mp halike).1
    rw [spell, if_neg (not_lt.mpr hnonneg), List.nil_append] at hc
    have hmem : c ∈ (numeral k.base (kernel.number l k v).natAbs).map (glyph kernel.digits) :=
      hc ▸ List.mem_cons_self
    obtain ⟨d, hd, rfl⟩ := List.mem_map.mp hmem
    exact glyph_ne_minus d ((lt_of_mem_numeral k.one_lt_base hd).trans_le k.base_le) hminus

theorem matches_of_alike (h : Matches Takes ps ap) (hs : kernel.render ps ap = .ok s)
    (ht : user.render ps ap = .ok t) (halike : Alike s t) :
    Matches (fun p a => Takes p a ∧ Small p a) ps ap := by
  induction h generalizing s t with
  | nil ap => exact .nil ap
  | @lit c ps ap _ ih =>
    obtain ⟨s₁, _, s₂, hs₁, hs₂, rfl⟩ := exists_of_render_cons hs
    obtain ⟨t₁, _, t₂, ht₁, ht₂, rfl⟩ := exists_of_render_cons ht
    cases hs₁
    cases ht₁
    exact .lit (ih hs₂ ht₂ (List.forall₂_cons.mp halike).2)
  | @conv p a ps ap hp hmatch ih =>
    obtain ⟨s₁, _, s₂, hs₁, hs₂, rfl⟩ := exists_of_render_cons hs
    obtain ⟨t₁, _, t₂, ht₁, ht₂, rfl⟩ := exists_of_render_cons ht
    cases p with
    | lit c => exact hp.elim
    | num l k =>
      obtain ⟨v, rfl⟩ := exists_of_takes_num hp
      obtain ⟨rfl, rfl⟩ := emit_kernel_num hs₁
      obtain ⟨rfl, rfl⟩ := emit_user_num ht₁
      obtain ⟨hsmall, hrest⟩ := small_of_alike hmatch hs₂ ht₂ halike
      exact .conv ⟨hp, hsmall⟩ (ih hs₂ ht₂ hrest)
    | ptr =>
      cases a with
      | int v | str v => exact hp.elim
      | long v =>
        cases hs₁
        cases ht₁
        have hrest := (Alike.of_append halike (alike_printptr v).length_eq).2
        exact .conv ⟨hp, trivial⟩ (ih hs₂ ht₂ hrest)
    | str =>
      cases a with
      | int v | long v => exact hp.elim
      | str x =>
        cases hs₁
        cases ht₁
        exact .conv ⟨hp, trivial⟩ (ih hs₂ ht₂ (Alike.of_append halike rfl).2)

/-- For every format and arguments that match it, the two implementations print the same text up
to the case of hexadecimal digits exactly if both integer printers take every number whole. -/
theorem vprintf_alike_printf (fmt : Text) (ap : List Arg) (h : Matches Takes (parse 0 fmt) ap) :
    (∃ s t, Kernel.printf fmt ap = .ok s ∧ User.vprintf fmt ap = .ok t ∧ Alike s t) ↔
      Matches (fun p a => Takes p a ∧ Small p a) (parse 0 fmt) ap := by
  rw [Kernel.printf_eq, User.vprintf_eq]
  refine ⟨?_, exists_render⟩
  rintro ⟨s, t, hs, ht, halike⟩
  exact matches_of_alike h hs ht halike

/-- Numbers in both hexadecimal cases, a string, an unknown conversion and a `%` at the end. -/
theorem vprintf_alike_printf_mixed : ∃ s t,
    Kernel.printf (text "%d %lx%s%q%") [.int (-7), .long 0xbeef, .str none] = .ok s ∧
      User.vprintf (text "%d %lx%s%q%") [.int (-7), .long 0xbeef, .str none] = .ok t ∧
      Alike s t := by
  have hparse : parse 0 (text "%d %lx%s%q%") = [.num .int .d, .lit 32, .num .long .x, .str,
      .lit '%'.toUInt8, .lit 'q'.toUInt8] := by decide
  have hlong : Small (.num .long .x) (.long 0xbeef) := by
    change (0xbeef : BitVec 64).toNat < 2 ^ 32
    decide
  refine (vprintf_alike_printf _ _ ?_).mpr ?_
  · rw [hparse]
    exact .conv trivial (.lit (.conv trivial (.conv trivial (.lit (.lit (.nil _))))))
  · rw [hparse]
    exact .conv ⟨trivial, trivial⟩ (.lit (.conv ⟨trivial, hlong⟩ (.conv ⟨trivial, trivial⟩
      (.lit (.lit (.nil _))))))

/-- A 64-bit number that matches its conversion is cut to 32 bits by the user library. -/
theorem vprintf_not_alike_printf :
    Matches Takes (parse 0 (text "%lu")) [.long (2 ^ 32)] ∧
      Kernel.printf (text "%lu") [.long (2 ^ 32)] = .ok (text "4294967296") ∧
      User.vprintf (text "%lu") [.long (2 ^ 32)] = .ok (text "0") ∧
      ¬ Alike (text "4294967296") (text "0") := by
  refine ⟨?_, by decide +kernel, by decide +kernel, ?_⟩
  · have hparse : parse 0 (text "%lu") = [.num .long .u] := by decide
    rw [hparse]
    exact .conv trivial (.nil _)
  · exact fun h => absurd h.length_eq (by decide)

end Xv6.Printf
