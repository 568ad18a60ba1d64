import Xv6.Fs.Mapping

/-!
# Writing an inode back, and truncating it

`iupdate` copies the entry of the table to its place on disk; `itrunc` gives
back every block that a place of the inode refers to.
-/

namespace Xv6

open Lib
open Function (update update_self update_apply update_of_ne update_eq_self)

namespace Fs

variable {sb : Superblock} {s s' : Fs} {b c i k ind : ℕ}

theorem iupdate_itable : (s.iupdate sb k).itable = s.itable := rfl

theorem iupdate_dinode (hf : (s.itable k).Fits) :
    (s.iupdate sb k).dinode sb = s.inodes sb k := by
  funext i
  rw [iupdate, dinode_logWrite hf, inodes, update_apply]

theorem iupdate_bit (hi : (s.itable k).inum < sb.ninodes) :
    (s.iupdate sb k).bit sb c = s.bit sb c :=
  bit_logWrite_iblock hi

theorem iupdate_buf (hi : (s.itable k).inum < sb.ninodes) (hc : sb.nmeta ≤ c) :
    (s.iupdate sb k).buf c = s.buf c := by
  have := sb.iblock_lt hi
  exact update_of_ne (by omega) ..

theorem iupdate_clean (h : s.Clean c) : (s.iupdate sb k).Clean c := .logWrite (.inl h)

theorem slots_iupdate (h : Sound sb s (s.inodes sb k)) (hi : (s.itable k).inum < sb.ninodes)
    (hf : (s.itable k).Fits) :
    slots sb (s.iupdate sb k).buf ((s.iupdate sb k).dinode sb) = s.refs sb k := by
  rw [iupdate_dinode hf]
  apply slots_congr
  intro i hin
  refine ⟨rfl, fun ht p => Dinode.blockAt_congr rfl (fun hind => iupdate_buf hi ?_) p⟩
  have hx : s.refs sb k (i, .indirect) = some _ := slots_eq_some.mpr ⟨hin, ht, hind, rfl⟩
  exact h.nmeta_le hx

theorem sound_iupdate (h : Sound sb s (s.inodes sb k)) (hi : (s.itable k).inum < sb.ninodes)
    (hf : (s.itable k).Fits) : Sound sb (s.iupdate sb k) ((s.iupdate sb k).dinode sb) := by
  apply h.of_same (fun c _ => iupdate_bit hi) (slots_iupdate h hi hf)
  · intro i _ ht
    rw [iupdate_dinode hf] at ht ⊢
    exact .inr ⟨ht, rfl⟩
  · exact fun c _ hc => iupdate_clean hc

/-! ## The two loops of `itrunc` -/

/-- Entry `k` with other addresses, everything else in the table as before. -/
def Readdressed (k : ℕ) (addrs : Fin (NDIRECT + 1) → ℕ) (s s' : Fs) : Prop :=
  (∀ l ≠ k, s'.itable l = s.itable l) ∧ s'.itable k = { s.itable k with addrs := addrs }

theorem Readdressed.trans {a a' : Fin (NDIRECT + 1) → ℕ} {s₁ : Fs} (h : Readdressed k a s s₁)
    (h' : Readdressed k a' s₁ s') : Readdressed k a' s s' :=
  ⟨fun l hl => (h'.1 l hl).trans (h.1 l hl), by rw [h'.2, h.2]⟩

theorem readdressed_setAddr {j : Fin (NDIRECT + 1)} (h : s'.itable = s.itable) :
    Readdressed k (update (s.itable k).addrs j b) s (s'.setAddr k j b) := by
  refine ⟨fun l hl => ?_, ?_⟩
  · rw [setAddr, setInode_itable, update_of_ne hl, h]
  · rw [setAddr, setInode_itable, update_self, h]

theorem setOf_nonzero_eq (b : ℕ) : {c | c ≠ 0 ∧ b = c} = if b = 0 then ∅ else {b} := by
  ext c
  split_ifs with hb
  · simp only [Set.mem_ofPred_eq, Set.mem_empty_iff_false, iff_false, not_and, hb]
    exact fun hc h => hc h.symm
  · simp only [Set.mem_ofPred_eq, Set.mem_singleton_iff]
    exact ⟨fun h => h.2.symm, fun h => ⟨h ▸ hb, h.symm⟩⟩

theorem truncDirect_foldlM {l : List (Fin NDIRECT)} (hl : l.Nodup)
    (hbit : ∀ j ∈ l, (s.itable k).addrs j.castSucc ≠ 0 →
      (s.itable k).addrs j.castSucc < sb.size ∧ s.bit sb ((s.itable k).addrs j.castSucc) = true)
    (hinj : ∀ j ∈ l, ∀ j' ∈ l, (s.itable k).addrs j.castSucc ≠ 0 →
      (s.itable k).addrs j.castSucc = (s.itable k).addrs j'.castSucc → j = j') :
    ∃ s' a, l.foldlM (truncDirect sb k) s = .ok s' ∧
      Frees sb {b | b ≠ 0 ∧ ∃ j ∈ l, (s.itable k).addrs j.castSucc = b} s s' ∧
      Readdressed k a s s' ∧ (∀ j ∈ l, a j.castSucc = 0) ∧
      ∀ m, (∀ j ∈ l, m ≠ j.castSucc) → a m = (s.itable k).addrs m := by
  induction l generalizing s with
  | nil =>
    refine ⟨s, _, rfl, ?_, ⟨fun _ _ => rfl, rfl⟩, by simp, fun _ _ => rfl⟩
    simpa using Frees.refl s
  | cons j l ih =>
    obtain ⟨hjl, hl⟩ := List.nodup_cons.mp hl
    -- the first pass, whether there is a block to free or not
    obtain ⟨s₁, hstep, hfree, htable⟩ : ∃ s₁, s.truncDirect sb k j = .ok s₁ ∧
        Frees sb {b | b ≠ 0 ∧ (s.itable k).addrs j.castSucc = b} s s₁ ∧
        Readdressed k (update (s.itable k).addrs j.castSucc 0) s s₁ := by
      unfold truncDirect
      by_cases hj : (s.itable k).addrs j.castSucc = 0
      · rw [if_neg (not_not.mpr hj)]
        refine ⟨s, rfl, ?_, fun _ _ => rfl, by rw [← hj, update_eq_self]⟩
        rw [setOf_nonzero_eq, if_pos hj]
        exact .refl s
      · obtain ⟨s₁, hs₁, hfree, htab⟩ := bfree_of_bit (hbit j (by simp) hj).1
          (hbit j (by simp) hj).2
        refine ⟨s₁.setAddr k j.castSucc 0, ?_, ?_, readdressed_setAddr htab⟩
        · rw [if_pos hj, hs₁]
          rfl
        · rw [setOf_nonzero_eq, if_neg hj]
          exact hfree.setInode
    have hold : ∀ j' ∈ l, (s₁.itable k).addrs j'.castSucc = (s.itable k).addrs j'.castSucc := by
      intro j' hj'
      have hne : j'.castSucc ≠ j.castSucc := fun h => hjl (Fin.castSucc_injective _ h ▸ hj')
      rw [htable.2]
      exact update_of_ne hne ..
    obtain ⟨s', a, hfold, hfree', htable', hzero, hrest⟩ := ih hl
      (by
        intro j' hj' h0
        rw [hold j' hj'] at h0 ⊢
        obtain ⟨hlt, hb⟩ := hbit j' (by simp [hj']) h0
        refine ⟨hlt, (hfree.bit _ hlt).mpr ⟨hb, ?_⟩⟩
        rintro ⟨-, heq⟩
        exact hjl (hinj j' (by simp [hj']) j (by simp) h0 heq.symm ▸ hj'))
      (by
        intro j₁ h₁ j₂ h₂ h0 heq
        rw [hold j₁ h₁] at h0 heq
        rw [hold j₂ h₂] at heq
        exact hinj j₁ (by simp [h₁]) j₂ (by simp [h₂]) h0 heq)
    refine ⟨s', a, ?_, ?_, htable.trans htable', ?_, ?_⟩
    · rw [List.foldlM_cons, hstep]
      exact hfold
    · convert hfree.trans hfree' using 1
      ext b
      simp only [Set.mem_ofPred_eq, Set.mem_union, List.mem_cons, exists_eq_or_imp, and_or_left]
      refine or_congr Iff.rfl (and_congr_right fun _ => exists_congr fun j' => ?_)
      exact and_congr_right fun hj' => by rw [hold j' hj']
    · intro j' hj'
      rcases List.mem_cons.mp hj' with rfl | hj'
      · by_cases hmem : j' ∈ l
        · exact hzero j' hmem
        · have hne : ∀ m ∈ l, j'.castSucc ≠ m.castSucc := by
            intro m hm h
            rw [Fin.castSucc_injective _ h] at hmem
            exact hmem hm
          rw [hrest _ hne, htable.2]
          exact update_self ..
      · exact hzero j' hj'
    · intro m hm
      rw [hrest m fun j' hj' => hm j' (by simp [hj']), htable.2]
      exact update_of_ne (hm j (by simp)) ..

theorem truncEntry_foldlM {l : List (Fin NINDIRECT)} (hl : l.Nodup) (hind : sb.nmeta ≤ ind)
    (hbit : ∀ j ∈ l, getWord 4 (s.buf ind) (4 * j) ≠ 0 →
      getWord 4 (s.buf ind) (4 * j) < sb.size ∧
        s.bit sb (getWord 4 (s.buf ind) (4 * j)) = true)
    (hinj : ∀ j ∈ l, ∀ j' ∈ l, getWord 4 (s.buf ind) (4 * j) ≠ 0 →
      getWord 4 (s.buf ind) (4 * j) = getWord 4 (s.buf ind) (4 * j') → j = j') :
    ∃ s', l.foldlM (truncEntry sb ind) s = .ok s' ∧
      Frees sb {b | b ≠ 0 ∧ ∃ j ∈ l, getWord 4 (s.buf ind) (4 * j) = b} s s' ∧
      s'.itable = s.itable := by
  induction l generalizing s with
  | nil =>
    refine ⟨s, rfl, ?_, rfl⟩
    simpa using Frees.refl s
  | cons j l ih =>
    obtain ⟨hjl, hl⟩ := List.nodup_cons.mp hl
    obtain ⟨s₁, hstep, hfree, htable⟩ : ∃ s₁, s.truncEntry sb ind j = .ok s₁ ∧
        Frees sb {b | b ≠ 0 ∧ getWord 4 (s.buf ind) (4 * j) = b} s s₁ ∧
        s₁.itable = s.itable := by
      unfold truncEntry
      by_cases hj : getWord 4 (s.buf ind) (4 * j) = 0
      · rw [if_neg (not_not.mpr hj), setOf_nonzero_eq, if_pos hj]
        exact ⟨s, rfl, .refl s, rfl⟩
      · rw [if_pos hj, setOf_nonzero_eq, if_neg hj]
        exact bfree_of_bit (hbit j (by simp) hj).1 (hbit j (by simp) hj).2
    have hold : s₁.buf ind = s.buf ind := hfree.buf ind hind
    obtain ⟨s', hfold, hfree', htable'⟩ := ih hl
      (by
        intro j' hj' h0
        rw [hold] at h0 ⊢
        obtain ⟨hlt, hb⟩ := hbit j' (by simp [hj']) h0
        refine ⟨hlt, (hfree.bit _ hlt).mpr ⟨hb, ?_⟩⟩
        rintro ⟨-, heq⟩
        exact hjl (hinj j' (by simp [hj']) j (by simp) h0 heq.symm ▸ hj'))
      (by
        rw [hold]
        exact fun j₁ h₁ j₂ h₂ => hinj j₁ (by simp [h₁]) j₂ (by simp [h₂]))
    refine ⟨s', ?_, ?_, htable'.trans htable⟩
    · rw [List.foldlM_cons, hstep]
      exact hfold
    · convert hfree.trans hfree' using 1
      ext b
      simp only [Set.mem_ofPred_eq, Set.mem_union, List.mem_cons, exists_eq_or_imp,
        and_or_left, hold]

/-! ## The whole of `itrunc` -/

structure Truncates (sb : Superblock) (k : ℕ) (s s' : Fs) : Prop where
  sound : Sound sb s' (s'.dinode sb)
  table : ∀ l ≠ k, s'.itable l = s.itable l
  self : s'.itable k = { s.itable k with size := 0, addrs := fun _ => 0 }
  written : s'.dinode sb (s.itable k).inum = (s'.itable k).toDinode
  other : ∀ i < sb.ninodes, i ≠ (s.itable k).inum → s'.dinode sb i = s.dinode sb i
  buf : ∀ c, sb.nmeta ≤ c → s'.buf c = s.buf c
  settled : ∀ c o, s.Settled c o → s'.Settled c o

/-- The blocks that the two loops and the last call of `bfree` give back are
all those that the inode refers to. -/
theorem Locked.truncates (h : Locked sb s k) {B : Set ℕ} {s₁ : Fs} (hfree : Frees sb B s s₁)
    (htable : Readdressed k (fun _ => 0) s s₁)
    (hB : ∀ b, b ∈ B ↔ ∃ p, s.refs sb k ((s.itable k).inum, p) = some b) :
    Truncates sb k s
      ((s₁.setInode k { s₁.itable k with size := 0 }).iupdate sb k) := by
  set s₂ := s₁.setInode k { s₁.itable k with size := 0 } with hs₂
  have hself : s₂.itable k = { s.itable k with size := 0, addrs := fun _ => 0 } := by
    rw [hs₂, setInode_itable, update_self, htable.2]
  have hinum : (s₂.itable k).inum = (s.itable k).inum := by rw [hself]
  have hlt : (s₂.itable k).inum < sb.ninodes := hinum ▸ h.inum_lt
  have hfits : (s₂.itable k).Fits := by
    rw [hself]
    exact ⟨by simp, fun _ => by simp⟩
  have hother : ∀ i < sb.ninodes, i ≠ (s.itable k).inum →
      s₂.inodes sb k i = s.inodes sb k i := by
    intro i hi hne
    rw [inodes_of_ne hne, inodes_of_ne (hinum ▸ hne)]
    exact hfree.dinode i hi
  -- the inode refers to nothing any more, the others to what they did
  have hrefs : s₂.refs sb k =
      fun x => if x.1 ≠ (s.itable k).inum then s.refs sb k x else none := by
    funext ⟨i, p⟩
    by_cases hi : i = (s.itable k).inum
    · subst hi
      simp only [ne_eq, not_true_eq_false, if_false]
      have hzero : (s₂.itable k).blockAt s₂.buf p = 0 := by
        rw [hself]
        cases p <;> simp [Dinode.blockAt]
      rw [refs, slots_eq_none h.inum_lt, ← hinum, inodes_inum, hzero]
      rw [← hinum, inodes_inum, hself]
      exact h.type_ne
    · simp only [ne_eq, hi, not_false_eq_true, if_true]
      ext c
      rw [refs, refs, slots_eq_some, slots_eq_some]
      refine and_congr_right fun hin => ?_
      rw [hother i hin hi]
      refine and_congr_right fun ht => ?_
      have hblock : (s.inodes sb k i).blockAt s₂.buf p = (s.inodes sb k i).blockAt s.buf p := by
        refine Dinode.blockAt_congr rfl (fun hind => ?_) p
        have hx : s.refs sb k (i, .indirect) = some _ := slots_eq_some.mpr ⟨hin, ht, hind, rfl⟩
        exact hfree.buf _ (h.sound.nmeta_le hx)
      rw [hblock]
  have hsound : Sound sb s₂ (s₂.inodes sb k) := by
    refine ⟨?_, ?_, ?_⟩
    · have hres := h.sound.owned.restrict fun x => x.1 ≠ (s.itable k).inum
      convert hres using 1
      swap
      · exact hrefs
      ext c
      rw [Set.mem_sdiff, Set.mem_ofPred_eq, Set.mem_ofPred_eq, Set.mem_ofPred_eq]
      have hlost : (∃ x : ℕ × Pos, ¬x.1 ≠ (s.itable k).inum ∧ s.refs sb k x = some c) ↔ c ∈ B := by
        rw [hB]
        constructor
        · rintro ⟨⟨i, p⟩, hi, hx⟩
          obtain rfl := not_not.mp hi
          exact ⟨p, hx⟩
        · rintro ⟨p, hx⟩
          exact ⟨(_, p), not_not.mpr rfl, hx⟩
      constructor
      · rintro ⟨hc, hbit⟩
        obtain ⟨hold, hnot⟩ := (hfree.bit c hc).mp hbit
        exact ⟨⟨hc, hold⟩, fun hx => hnot (hlost.mp hx)⟩
      · rintro ⟨⟨hc, hold⟩, hx⟩
        exact ⟨hc, (hfree.bit c hc).mpr ⟨hold, fun hin => hx (hlost.mpr hin)⟩⟩
    · intro i hi ht bn hbn
      by_cases hik : i = (s.itable k).inum
      · rw [hik, ← hinum, inodes_inum, hself] at hbn
        simp at hbn
      · rw [hother i hi hik] at ht hbn
        change bn < MAXFILE ∧ (s₂.refs sb k (i, .ofBlock bn)).isSome
        rw [hrefs]
        simp only [ne_eq, hik, not_false_eq_true, if_true]
        exact h.sound.mapped i hi ht bn hbn
    · intro c hc
      apply hfree.clean
      apply h.sound.clean
      refine hc.imp_right ?_
      rintro ⟨i, hi⟩
      change s₂.refs sb k (i, .indirect) = some c at hi
      rw [hrefs] at hi
      dsimp only at hi
      split_ifs at hi
      exact ⟨i, hi⟩
  refine ⟨sound_iupdate hsound hlt hfits, ?_, hself, ?_, ?_, ?_,
    fun c o hc => .logWrite (.inl (hfree.settled c o hc))⟩
  · intro l hl
    rw [iupdate_itable, hs₂, setInode_itable, update_of_ne hl, htable.1 l hl]
  · rw [iupdate_dinode hfits, ← hinum, inodes_inum, iupdate_itable]
  · intro i hi hne
    rw [iupdate_dinode hfits, hother i hi hne, inodes_of_ne hne]
  · intro c hc
    rw [iupdate_buf hlt hc]
    exact hfree.buf c hc

theorem itrunc_spec (h : Locked sb s k) : ∃ s', s.itrunc sb k = .ok s' ∧ Truncates sb k s s' := by
  have hat : ∀ p, (s.itable k).blockAt s.buf p ≠ 0 →
      s.refs sb k ((s.itable k).inum, p) = some ((s.itable k).blockAt s.buf p) :=
    fun p hp => (refs_inum_eq_some h hp).mpr rfl
  have hinj : ∀ p q, (s.itable k).blockAt s.buf p ≠ 0 →
      (s.itable k).blockAt s.buf p = (s.itable k).blockAt s.buf q → p = q := by
    intro p q hp heq
    exact (Prod.mk.inj (h.sound.owned.inj (hat p hp) (heq ▸ hat q (heq ▸ hp)))).2
  obtain ⟨s₁, a, hloop, hfree, htable, hzero, hlast⟩ :=
    truncDirect_foldlM (s := s) (k := k) (List.nodup_finRange NDIRECT)
      (fun j _ hj => ⟨h.sound.lt_size (hat (.direct j) hj), h.sound.bit (hat (.direct j) hj)⟩)
      (fun j _ j' _ hj heq => Pos.direct.inj (hinj (.direct j) (.direct j') hj heq))
  have hind : (s₁.itable k).addrs (Fin.last NDIRECT) =
      (s.itable k).addrs (Fin.last NDIRECT) := by
    rw [htable.2]
    exact hlast _ fun j _ => (Fin.castSucc_ne_last j).symm
  have hadirect : ∀ j : Fin NDIRECT, a j.castSucc = 0 := fun j => hzero j (List.mem_finRange j)
  unfold itrunc
  simp only [hloop, hind, bind, Except.bind]
  by_cases h0 : (s.itable k).addrs (Fin.last NDIRECT) = 0
  · rw [if_neg (not_not.mpr h0)]
    refine ⟨_, rfl, h.truncates hfree ?_ ?_⟩
    · have ha : a = fun _ => 0 := by
        funext j
        cases j using Fin.lastCases with
        | last => rw [← h0, ← hind, htable.2]
        | cast j => exact hadirect j
      rwa [ha] at htable
    · intro b
      constructor
      · rintro ⟨hb, j, -, rfl⟩
        exact ⟨.direct j, hat (.direct j) hb⟩
      · rintro ⟨p, hp⟩
        obtain ⟨-, -, hb, hpb⟩ := slots_eq_some.mp hp
        rw [inodes_inum] at hpb
        cases p with
        | direct j => exact ⟨hb, j, List.mem_finRange j, hpb⟩
        | indirect => exact absurd (hpb ▸ h0) hb
        | entry j =>
          simp only [Dinode.blockAt, if_pos h0] at hpb
          exact absurd hpb.symm hb
  · rw [if_pos h0]
    set ind := (s.itable k).addrs (Fin.last NDIRECT) with hind'
    have hslot : s.refs sb k ((s.itable k).inum, .indirect) = some ind := hat .indirect h0
    have hindm := h.sound.nmeta_le hslot
    have hbuf : s₁.buf ind = s.buf ind := hfree.buf ind hindm
    have hentry : ∀ j : Fin NINDIRECT,
        (s.itable k).blockAt s.buf (.entry j) = getWord 4 (s.buf ind) (4 * j) := by
      intro j
      simp only [Dinode.blockAt, ← hind', if_neg h0]
    -- a direct block is neither the indirect block nor one of its entries
    have hnot : ∀ p, (s.itable k).blockAt s.buf p ≠ 0 → (∀ j, p ≠ .direct j) →
        (s.itable k).blockAt s.buf p ∉
          {b | b ≠ 0 ∧ ∃ j ∈ List.finRange NDIRECT, (s.itable k).addrs j.castSucc = b} := by
      rintro p hp hpd ⟨-, j, -, hj⟩
      exact hpd j (hinj p (.direct j) hp hj.symm)
    obtain ⟨s₂, hloop', hfree', htable'⟩ :=
      truncEntry_foldlM (s := s₁) (l := List.finRange NINDIRECT)
        (List.nodup_finRange NINDIRECT) hindm
        (by
          intro j _ hj
          rw [hbuf, ← hentry] at hj ⊢
          have hlt := h.sound.lt_size (hat (.entry j) hj)
          exact ⟨hlt, (hfree.bit _ hlt).mpr
            ⟨h.sound.bit (hat (.entry j) hj), hnot _ hj (by simp)⟩⟩)
        (by
          intro j _ j' _ hj heq
          rw [hbuf, ← hentry, ← hentry] at heq
          rw [hbuf, ← hentry] at hj
          exact Pos.entry.inj (hinj (.entry j) (.entry j') hj heq))
    have hlt := h.sound.lt_size hslot
    have hbit₂ : s₂.bit sb ind = true := by
      rw [hfree'.bit _ hlt, hfree.bit _ hlt]
      refine ⟨⟨h.sound.bit hslot, hnot .indirect h0 (by simp)⟩, ?_⟩
      rintro ⟨-, j, -, hj⟩
      rw [hbuf, ← hentry] at hj
      exact Pos.noConfusion (hinj .indirect (.entry j) h0 hj.symm)
    obtain ⟨s₃, hs₃, hfree'', htable''⟩ := bfree_of_bit hlt hbit₂
    simp only [hloop', hs₃]
    refine ⟨_, rfl, h.truncates ((hfree.trans hfree').trans hfree'').setInode ?_ ?_⟩
    · have hset := readdressed_setAddr (k := k) (b := 0) (j := Fin.last NDIRECT) htable''
      have hadr : Readdressed k a s s₂ := by
        refine ⟨fun l hl => ?_, ?_⟩
        · rw [htable', htable.1 l hl]
        · rw [htable', htable.2]
      convert hadr.trans hset using 1
      funext j
      cases j using Fin.lastCases with
      | last => simp
      | cast j =>
        rw [update_of_ne (Fin.castSucc_ne_last j), hadr.2]
        exact (hadirect j).symm
    · intro b
      simp only [Set.mem_union, Set.mem_ofPred_eq, Set.mem_singleton_iff]
      constructor
      · rintro ((⟨hb, j, -, rfl⟩ | ⟨hb, j, -, rfl⟩) | rfl)
        · exact ⟨.direct j, hat (.direct j) hb⟩
        · rw [hbuf, ← hentry] at hb ⊢
          exact ⟨.entry j, hat (.entry j) hb⟩
        · exact ⟨.indirect, hslot⟩
      · rintro ⟨p, hp⟩
        obtain ⟨-, -, hb, hpb⟩ := slots_eq_some.mp hp
        rw [inodes_inum] at hpb
        cases p with
        | direct j => exact .inl (.inl ⟨hb, j, List.mem_finRange j, hpb⟩)
        | indirect => exact .inr hpb.symm
        | entry j =>
          rw [hentry] at hpb
          exact .inl (.inr ⟨hb, j, List.mem_finRange j, by rw [hbuf, hpb]⟩)

end Fs

end Xv6
