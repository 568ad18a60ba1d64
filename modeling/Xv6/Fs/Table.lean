import Xv6.Fs.File

/-!
# The inode table

Between operations every valid entry of the table is a copy of its inode on
disk, and no inode has two entries.  `Inv` adds this to the soundness of the
volume; each function of the inode and directory layers keeps it.
-/

namespace Xv6

open Lib
open Function (update_self update_of_ne update_eq_self)

namespace Fs

variable {sb : Superblock} {s s' : Fs} {b i k l inum off n avail fuel : ℕ} {ip : Inode}

theorem sound_setInode {ino : ℕ → Dinode} (h : Sound sb s ino) : Sound sb (s.setInode k ip) ino :=
  ⟨h.owned, h.mapped, h.clean⟩

structure Inv (sb : Superblock) (s : Fs) : Prop where
  sound : Sound sb s (s.dinode sb)
  lt_ninode : ∀ k, 0 < (s.itable k).ref → k < NINODE
  inum_lt : ∀ k, 0 < (s.itable k).ref → (s.itable k).inum < sb.ninodes
  unique : ∀ k l, 0 < (s.itable k).ref → 0 < (s.itable l).ref →
    (s.itable k).inum = (s.itable l).inum → k = l
  loaded : ∀ k, 0 < (s.itable k).ref → (s.itable k).valid = true →
    (s.itable k).type ≠ 0 ∧ (s.itable k).toDinode = s.dinode sb (s.itable k).inum

namespace Inv

theorem inodes_eq (h : Inv sb s) (hk : 0 < (s.itable k).ref) (hv : (s.itable k).valid = true) :
    s.inodes sb k = s.dinode sb := by
  rw [inodes, (h.loaded k hk hv).2, update_eq_self]

theorem locked (h : Inv sb s) (hk : 0 < (s.itable k).ref) (hv : (s.itable k).valid = true) :
    Locked sb s k :=
  ⟨h.inum_lt k hk, (h.loaded k hk hv).1, h.inodes_eq hk hv ▸ h.sound⟩

theorem of_written (h : Inv sb s) (hk : 0 < (s.itable k).ref) (hsound : Sound sb s' (s'.dinode sb))
    (htable : ∀ l ≠ k, s'.itable l = s.itable l)
    (hother : ∀ i < sb.ninodes, i ≠ (s.itable k).inum → s'.dinode sb i = s.dinode sb i)
    (hinum : (s'.itable k).inum = (s.itable k).inum)
    (hself : 0 < (s'.itable k).ref → (s'.itable k).valid = true →
      (s'.itable k).type ≠ 0 ∧ (s'.itable k).toDinode = s'.dinode sb (s'.itable k).inum) :
    Inv sb s' := by
  have hin : ∀ l, 0 < (s'.itable l).ref →
      0 < (s.itable l).ref ∧ (s'.itable l).inum = (s.itable l).inum := by
    intro l hl
    by_cases hlk : l = k
    · subst hlk
      exact ⟨hk, hinum⟩
    · rw [htable l hlk] at hl ⊢
      exact ⟨hl, rfl⟩
  refine ⟨hsound, fun l hl => h.lt_ninode l (hin l hl).1, ?_, ?_, ?_⟩
  · intro l hl
    rw [(hin l hl).2]
    exact h.inum_lt l (hin l hl).1
  · intro l m hl hm heq
    rw [(hin l hl).2, (hin m hm).2] at heq
    exact h.unique l m (hin l hl).1 (hin m hm).1 heq
  · intro l hl hv
    by_cases hlk : l = k
    · subst hlk
      exact hself hl hv
    · have hne : (s.itable l).inum ≠ (s.itable k).inum :=
        fun heq => hlk (h.unique l k (hin l hl).1 hk heq)
      rw [htable l hlk] at hl hv ⊢
      rw [hother _ (h.inum_lt l hl) hne]
      exact h.loaded l hl hv

theorem setInode (h : Inv sb s)
    (hip : 0 < ip.ref → k < NINODE ∧ ip.inum < sb.ninodes ∧
      (∀ l ≠ k, 0 < (s.itable l).ref → (s.itable l).inum ≠ ip.inum) ∧
      (ip.valid = true → ip.type ≠ 0 ∧ ip.toDinode = s.dinode sb ip.inum)) :
    Inv sb (s.setInode k ip) := by
  have hself : (s.setInode k ip).itable k = ip := update_self ..
  have htable : ∀ l ≠ k, (s.setInode k ip).itable l = s.itable l :=
    fun l hl => update_of_ne hl ..
  refine ⟨sound_setInode h.sound, ?_, ?_, ?_, ?_⟩
  · intro l hl
    by_cases hlk : l = k
    · subst hlk
      rw [hself] at hl
      exact (hip hl).1
    · rw [htable l hlk] at hl
      exact h.lt_ninode l hl
  · intro l hl
    by_cases hlk : l = k
    · subst hlk
      rw [hself] at hl ⊢
      exact (hip hl).2.1
    · rw [htable l hlk] at hl ⊢
      exact h.inum_lt l hl
  · intro l m hl hm heq
    by_cases hlk : l = k <;> by_cases hmk : m = k
    · rw [hlk, hmk]
    · subst hlk
      rw [hself] at hl heq
      rw [htable m hmk] at hm heq
      exact absurd heq.symm ((hip hl).2.2.1 m hmk hm)
    · subst hmk
      rw [hself] at hm heq
      rw [htable l hlk] at hl heq
      exact absurd heq ((hip hm).2.2.1 l hlk hl)
    · rw [htable l hlk] at hl heq
      rw [htable m hmk] at hm heq
      exact h.unique l m hl hm heq
  · intro l hl hv
    by_cases hlk : l = k
    · subst hlk
      rw [hself] at hl hv ⊢
      exact (hip hl).2.2.2 hv
    · rw [htable l hlk] at hl hv ⊢
      exact h.loaded l hl hv

theorem setRef (h : Inv sb s) (hk : 0 < (s.itable k).ref) (r : ℕ) :
    Inv sb (s.setInode k { s.itable k with ref := r }) := by
  apply h.setInode
  intro _
  exact ⟨h.lt_ninode k hk, h.inum_lt k hk, fun l hl hpos heq => hl (h.unique l k hpos hk heq),
    h.loaded k hk⟩

end Inv

/-! ## Entries -/

theorem iget_cases (s : Fs) (inum : ℕ) :
    s.iget inum = .error "iget: no inodes" ∨
      (∃ k, 0 < (s.itable k).ref ∧ (s.itable k).inum = inum ∧
        s.iget inum = .ok (k, s.setInode k { s.itable k with ref := (s.itable k).ref + 1 })) ∨
      ∃ k < NINODE, (s.itable k).ref = 0 ∧
        (∀ l < NINODE, 0 < (s.itable l).ref → (s.itable l).inum ≠ inum) ∧
        s.iget inum =
          .ok (k, s.setInode k { s.itable k with inum := inum, ref := 1, valid := false }) := by
  unfold iget
  cases hfind : (List.range NINODE).find?
      fun k => 0 < (s.itable k).ref ∧ (s.itable k).inum = inum with
  | some k =>
    have hk := List.find?_some hfind
    rw [decide_eq_true_eq] at hk
    exact .inr (.inl ⟨k, hk.1, hk.2, rfl⟩)
  | none =>
    have hnone : ∀ l < NINODE, 0 < (s.itable l).ref → (s.itable l).inum ≠ inum := by
      intro l hl hpos heq
      have := List.find?_eq_none.mp hfind l (List.mem_range.mpr hl)
      rw [decide_eq_true_eq] at this
      exact this ⟨hpos, heq⟩
    cases hempty : (List.range NINODE).find? fun k => (s.itable k).ref = 0 with
    | some k =>
      have hk := List.find?_some hempty
      rw [decide_eq_true_eq] at hk
      have hlt := List.mem_range.mp (List.mem_of_find?_eq_some hempty)
      exact .inr (.inr ⟨k, hlt, hk, hnone, rfl⟩)
    | none => exact .inl rfl

theorem Inv.iget (h : Inv sb s) (hi : inum < sb.ninodes) :
    s.iget inum = .error "iget: no inodes" ∨ ∃ k s', s.iget inum = .ok (k, s') ∧ Inv sb s' := by
  rcases iget_cases s inum with herr | ⟨k, hk, -, hok⟩ | ⟨k, hlt, hk, hnone, hok⟩
  · exact .inl herr
  · exact .inr ⟨k, _, hok, h.setRef hk _⟩
  · refine .inr ⟨k, _, hok, h.setInode fun _ => ⟨hlt, hi, ?_, fun hv => by cases hv⟩⟩
    exact fun l _ hl => hnone l (h.lt_ninode l hl) hl

theorem Inv.ilock (h : Inv sb s) (hk : 0 < (s.itable k).ref) :
    s.ilock sb k = .error "ilock: no type" ∨ ∃ s', s.ilock sb k = .ok s' ∧ Inv sb s' := by
  unfold Fs.ilock
  simp only [if_neg (by omega : ¬(s.itable k).ref < 1)]
  split_ifs with hv ht
  · exact .inr ⟨s, rfl, h⟩
  · exact .inl rfl
  · refine .inr ⟨_, rfl, h.setInode fun _ => ⟨h.lt_ninode k hk, h.inum_lt k hk, ?_, fun _ => ?_⟩⟩
    · exact fun l hl hpos heq => hl (h.unique l k hpos hk heq)
    · exact ⟨ht, rfl⟩

theorem sound_setType_zero (h : Sound sb s (s.inodes sb k))
    (haddrs : (s.itable k).addrs = fun _ => 0)
    (hs' : s' = s.setInode k { s.itable k with type := 0 }) : Sound sb s' (s'.inodes sb k) := by
  have hself : s'.itable k = { s.itable k with type := 0 } := by
    rw [hs', setInode_itable, update_self]
  have hinum : (s'.itable k).inum = (s.itable k).inum := by rw [hself]
  have hother : ∀ i ≠ (s.itable k).inum, s'.inodes sb k i = s.inodes sb k i := by
    intro i hi
    rw [inodes_of_ne hi, inodes_of_ne (hinum ▸ hi), hs']
    rfl
  have hzero : (s'.inodes sb k (s.itable k).inum).type = 0 := by
    rw [← hinum, inodes_inum, hself]
  have hbuf : s'.buf = s.buf := by rw [hs', setInode_buf]
  apply h.of_same
  · intro c _
    rw [hs']
    rfl
  · funext ⟨i, p⟩
    by_cases hi : i = (s.itable k).inum
    · subst hi
      have hat : (s.inodes sb k (s.itable k).inum).blockAt s.buf p = 0 := by
        rw [inodes_inum]
        cases p <;> simp [Dinode.blockAt, haddrs]
      rw [slots, slots, if_neg (fun hx => hx.2.1 hzero), if_neg (fun hx => hx.2.2 hat)]
    · rw [slots, slots, hbuf]
      simp only [hother i hi]
  · intro i _ ht
    have hi : i ≠ (s.itable k).inum := by
      rintro rfl
      exact ht hzero
    rw [hother i hi] at ht ⊢
    exact .inr ⟨ht, rfl⟩
  · intro c _ hc
    rw [hs']
    exact hc

theorem Inv.iput (h : Inv sb s) (hk : 0 < (s.itable k).ref) :
    ∃ s', s.iput sb k = .ok s' ∧ Inv sb s' := by
  unfold Fs.iput
  by_cases hfree : (s.itable k).ref = 1 ∧ (s.itable k).valid = true ∧ (s.itable k).nlink = 0
  swap
  · simp only [if_neg hfree, bind, Except.bind]
    exact ⟨_, rfl, h.setRef hk _⟩
  obtain ⟨s₁, hs₁, htr⟩ := itrunc_spec (h.locked hk hfree.2.1)
  simp only [if_pos hfree, hs₁, bind, Except.bind]
  refine ⟨_, rfl, ?_⟩
  set s₂ := s₁.setInode k { s₁.itable k with type := 0 } with hs₂
  have haddrs : (s₁.itable k).addrs = fun _ => 0 := by rw [htr.self]
  have hinum₁ : (s₁.itable k).inum = (s.itable k).inum := by rw [htr.self]
  have hself₂ : s₂.itable k = { s₁.itable k with type := 0 } := by
    rw [hs₂, setInode_itable, update_self]
  have hinum₂ : (s₂.itable k).inum = (s.itable k).inum := by rw [hself₂, hinum₁]
  have hinodes₁ : s₁.inodes sb k = s₁.dinode sb := by
    rw [inodes, hinum₁, ← htr.written, update_eq_self]
  have hsound₂ : Sound sb s₂ (s₂.inodes sb k) :=
    sound_setType_zero (hinodes₁ ▸ htr.sound) haddrs hs₂
  have hfits : (s₂.itable k).Fits := by
    rw [hself₂, htr.self]
    exact ⟨by simp, fun _ => by simp⟩
  have hsound₃ := sound_iupdate hsound₂ (hinum₂ ▸ h.inum_lt k hk) hfits
  -- the last reference is gone, so nothing is asked of the entry any more
  apply h.of_written hk (sound_setInode (sound_setInode hsound₃))
  · intro l hl
    simp only [setInode_itable, update_of_ne hl, iupdate_itable, hs₂]
    exact htr.table l hl
  · intro i hi hne
    change (s₂.iupdate sb k).dinode sb i = _
    rw [iupdate_dinode hfits, inodes_of_ne (hinum₂ ▸ hne)]
    exact htr.other i hi hne
  · simp only [setInode_itable, update_self, iupdate_itable, hinum₂]
  · intro hpos
    exfalso
    have href : (s₂.itable k).ref = 1 := by
      rw [hself₂, htr.self]
      exact hfree.1
    simp only [setInode_itable, update_self, iupdate_itable, href] at hpos
    omega

theorem Inv.alloc (h : Inv sb s) (hi : i < sb.ninodes) (hfree : (s.dinode sb i).type = 0)
    (type : Short) {d : Dinode} (hd : d = { Dinode.zero with type := type })
    (hs' : s' = s.logWrite (sb.iblock i) (d.write (s.buf (sb.iblock i)) (i % IPB))) :
    Inv sb s' := by
  have hdinode : ∀ j, s'.dinode sb j = if j = i then d else s.dinode sb j := by
    intro j
    rw [hs', dinode_logWrite]
    rw [hd]
    exact ⟨Dinode.fits_zero.size, Dinode.fits_zero.addrs⟩
  have hbuf : ∀ c, sb.nmeta ≤ c → s'.buf c = s.buf c := by
    intro c hc
    have := sb.iblock_lt hi
    rw [hs', logWrite_buf, update_of_ne (by omega)]
  have htable : s'.itable = s.itable := by rw [hs', logWrite_itable]
  have hsound : Sound sb s' (s'.dinode sb) := by
    apply h.sound.of_same
    · intro c _
      rw [hs', bit_logWrite_iblock hi]
    · funext ⟨j, p⟩
      by_cases hj : j = i
      · subst hj
        have hat : (s'.dinode sb j).blockAt s'.buf p = 0 := by
          rw [hdinode, if_pos rfl, hd]
          cases p <;> simp [Dinode.blockAt, Dinode.zero]
        rw [slots, slots, if_neg (fun hx => hx.2.2 hat), if_neg (fun hx => hx.2.1 hfree)]
      · ext b
        rw [slots_eq_some, slots_eq_some, hdinode, if_neg hj]
        refine and_congr_right fun hjn => and_congr_right fun ht => ?_
        have hat : (s.dinode sb j).blockAt s'.buf p = (s.dinode sb j).blockAt s.buf p := by
          refine Dinode.blockAt_congr rfl (fun hind => hbuf _ ?_) p
          have hx : slots sb s.buf (s.dinode sb) (j, .indirect) = some _ :=
            slots_eq_some.mpr ⟨hjn, ht, hind, rfl⟩
          exact h.sound.nmeta_le hx
        rw [hat]
    · intro j _ ht
      rw [hdinode] at ht ⊢
      split_ifs with hj
      · exact .inl (by rw [hd]; rfl)
      · rw [if_neg hj] at ht
        exact .inr ⟨ht, rfl⟩
    · intro c _ hc
      rw [hs']
      exact .logWrite (.inl hc)
  refine ⟨hsound, by rw [htable]; exact h.lt_ninode, by rw [htable]; exact h.inum_lt,
    by rw [htable]; exact h.unique, ?_⟩
  intro k hk hv
  rw [htable] at hk hv ⊢
  obtain ⟨ht, hcopy⟩ := h.loaded k hk hv
  refine ⟨ht, ?_⟩
  have hne : (s.itable k).inum ≠ i := by
    intro heq
    rw [hcopy, heq] at ht
    exact ht hfree
  rw [hdinode, if_neg hne, hcopy]

theorem Inv.ialloc (h : Inv sb s) (type : Short) :
    s.ialloc sb type = .error "iget: no inodes" ∨
      ∃ r s', s.ialloc sb type = .ok (r, s') ∧ Inv sb s' := by
  unfold Fs.ialloc
  cases hfind : (List.range' 1 (sb.ninodes - 1)).find?
      fun inum => (s.dinode sb inum).type = 0 with
  | none => exact .inr ⟨none, s, rfl, h⟩
  | some inum =>
    have hfree := List.find?_some hfind
    rw [decide_eq_true_eq] at hfree
    have hmem := List.mem_range'_1.mp (List.mem_of_find?_eq_some hfind)
    have hlt : inum < sb.ninodes := by omega
    have hinv := h.alloc hlt hfree type rfl rfl
    rcases hinv.iget hlt with herr | ⟨k, s', hok, hinv'⟩
    · left
      simp only [herr, bind, Except.bind]
    · right
      simp only [hok, bind, Except.bind]
      exact ⟨some k, s', rfl, hinv'⟩

/-! ## Operations on a locked entry -/

theorem Inv.of_writes {tot top : ℕ} {data : ℕ → UInt8} (h : Inv sb s)
    (hk : 0 < (s.itable k).ref) (hv : (s.itable k).valid = true)
    (hw : Writes sb k off tot top data s s') : Inv sb s' := by
  obtain ⟨a, hself⟩ := hw.self
  have hinum : (s'.itable k).inum = (s.itable k).inum := by rw [hself]
  apply h.of_written hk hw.sound hw.table hw.other hinum
  intro _ _
  rw [hinum, hw.written]
  refine ⟨?_, rfl⟩
  rw [hself]
  exact (h.loaded k hk hv).1

theorem Inv.writei (h : Inv sb s) (hk : 0 < (s.itable k).ref) (hv : (s.itable k).valid = true)
    (src : Source) (hoff : off < 2 ^ 32) (hn : n < 2 ^ 32) :
    ∃ r s', s.writei sb k src off n = .ok (r, s') ∧ Inv sb s' := by
  by_cases hwrap : off + n < 2 ^ 32
  swap
  · exact ⟨-1, s, writei_of_wrap (by omega) hoff hn, h⟩
  by_cases hout : (s.itable k).size < off ∨ MAXFILE * BSIZE < off + n
  · exact ⟨-1, s, writei_of_invalid hout hwrap, h⟩
  obtain ⟨tot, top, s', hok, hw, -⟩ :=
    writei_of_valid src (h.locked hk hv) (by omega : off ≤ (s.itable k).size)
      (by omega : off + n ≤ MAXFILE * BSIZE)
  exact ⟨tot, s', hok, h.of_writes hk hv hw⟩

theorem Inv.itrunc (h : Inv sb s) (hk : 0 < (s.itable k).ref) (hv : (s.itable k).valid = true) :
    ∃ s', s.itrunc sb k = .ok s' ∧ Inv sb s' := by
  obtain ⟨s', hok, htr⟩ := itrunc_spec (h.locked hk hv)
  have hinum : (s'.itable k).inum = (s.itable k).inum := by rw [htr.self]
  refine ⟨s', hok, h.of_written hk htr.sound htr.table htr.other hinum fun _ _ => ?_⟩
  rw [hinum, htr.written]
  refine ⟨?_, rfl⟩
  rw [htr.self]
  exact (h.loaded k hk hv).1

/-- A caller changes the link count and device numbers of an inode and writes it back. -/
theorem Inv.iupdate (h : Inv sb s) (hk : 0 < (s.itable k).ref) (hv : (s.itable k).valid = true)
    (major minor nlink : Short) :
    Inv sb ((s.setInode k
      { s.itable k with major := major, minor := minor, nlink := nlink }).iupdate sb k) := by
  set s₁ := s.setInode k { s.itable k with major := major, minor := minor, nlink := nlink } with hs₁
  have hself : s₁.itable k =
      { s.itable k with major := major, minor := minor, nlink := nlink } := by
    rw [hs₁, setInode_itable, update_self]
  have hinum : (s₁.itable k).inum = (s.itable k).inum := by rw [hself]
  have hlt := h.inum_lt k hk
  obtain ⟨ht, hcopy⟩ := h.loaded k hk hv
  have hother : ∀ i ≠ (s.itable k).inum, s₁.inodes sb k i = s.dinode sb i := by
    intro i hi
    rw [inodes_of_ne (hinum ▸ hi)]
    rfl
  have hsame : ∀ i, (s₁.inodes sb k i).type = (s.dinode sb i).type ∧
      (s₁.inodes sb k i).size = (s.dinode sb i).size ∧
      (s₁.inodes sb k i).addrs = (s.dinode sb i).addrs := by
    intro i
    by_cases hi : i = (s.itable k).inum
    · subst hi
      rw [← hcopy, ← hinum, inodes_inum, hself]
      exact ⟨rfl, rfl, rfl⟩
    · rw [hother i hi]
      exact ⟨rfl, rfl, rfl⟩
  have hsound₁ : Sound sb s₁ (s₁.inodes sb k) := by
    apply h.sound.of_same
    · exact fun c _ => rfl
    · apply slots_congr
      intro i _
      exact ⟨(hsame i).1, fun _ p => Dinode.blockAt_congr (hsame i).2.2 (fun _ => rfl) p⟩
    · intro i _ hti
      rw [(hsame i).1] at hti
      exact .inr ⟨hti, (hsame i).2.1⟩
    · exact fun c _ hc => hc
  have hfits : (s₁.itable k).Fits := by
    have hold := h.sound.fits hlt (hcopy ▸ ht)
    rw [← hcopy] at hold
    rw [hself]
    exact ⟨hold.size, hold.addrs⟩
  apply h.of_written hk (sound_iupdate hsound₁ (hinum ▸ hlt) hfits)
  · intro l hl
    rw [iupdate_itable, hs₁, setInode_itable, update_of_ne hl]
  · intro i _ hi
    rw [iupdate_dinode hfits, hother i hi]
  · rw [iupdate_itable, hinum]
  · intro _ _
    rw [iupdate_itable, iupdate_dinode hfits, inodes_inum]
    refine ⟨?_, rfl⟩
    rw [hself]
    exact ht

/-- Recycling a buffer loses only bytes that no one logged, and those are file data. -/
theorem Inv.evict (h : Inv sb s) (b : ℕ) : Inv sb (s.evict b) := by
  by_cases hclean : s.Clean b
  · have hsame : s.evict b = s := by
      unfold Fs.evict setBuf
      rw [show s.disk b = s.buf b from hclean, update_eq_self]
    rwa [hsame]
  have hb : sb.nmeta ≤ b := by
    by_contra hb
    exact hclean (h.sound.clean b (.inl (by omega)))
  have hold : ∀ c ≠ b, (s.evict b).buf c = s.buf c := fun c hc => update_of_ne hc ..
  have hkeep : Keeps sb s (s.evict b) := keeps_of_data hb hold
  have hslots : slots sb (s.evict b).buf ((s.evict b).dinode sb) =
      slots sb s.buf (s.dinode sb) := by
    apply slots_congr
    intro i hi
    rw [hkeep.dinode i hi]
    refine ⟨rfl, fun ht p => Dinode.blockAt_congr rfl (fun hind => hold _ fun heq => hclean ?_) p⟩
    have hx : slots sb s.buf (s.dinode sb) (i, .indirect) = some _ :=
      slots_eq_some.mpr ⟨hi, ht, hind, rfl⟩
    exact heq ▸ h.sound.clean _ (.inr ⟨i, hx⟩)
  refine ⟨h.sound.of_same hkeep.bit hslots ?_ ?_, h.lt_ninode, h.inum_lt, h.unique, ?_⟩
  · intro i hi ht
    rw [hkeep.dinode i hi] at ht ⊢
    exact .inr ⟨ht, rfl⟩
  · intro c _ hc
    by_cases hcb : c = b
    · exact absurd (hcb ▸ hc) hclean
    · exact hc.setBuf hcb
  · intro k hk hv
    change _ ∧ (s.itable k).toDinode = (s.evict b).dinode sb (s.itable k).inum
    rw [hkeep.dinode _ (h.inum_lt k hk)]
    exact h.loaded k hk hv

/-! ## Directories -/

theorem readDirent_cases (h : Locked sb s k) (hoff : off < 2 ^ 32) (msg : Panic) :
    s.readDirent sb k off msg = .error msg ∨ ∃ de, s.readDirent sb k off msg = .ok (de, s) := by
  obtain ⟨r, out, hread, -⟩ := readi_spec 16 h hoff (by decide : 16 < 2 ^ 32)
  unfold readDirent
  simp only [hread, bind, Except.bind]
  split_ifs
  · exact .inl rfl
  · exact .inr ⟨_, rfl⟩

theorem Locked.lt_of_lt_size (h : Locked sb s k) (hoff : off < (s.itable k).size) :
    off + 16 < 2 ^ 32 := by
  have := h.sound.size_le h.inum_lt (by rw [inodes_inum]; exact h.type_ne)
  rw [inodes_inum] at this
  unfold MAXFILE NINDIRECT NDIRECT BSIZE at this
  omega

theorem dirlookupLoop_cases (h : Locked sb s k) (name : Bytes) (fuel off : ℕ) :
    dirlookupLoop sb k name fuel s off = .error "dirlookup read" ∨
      ∃ r, dirlookupLoop sb k name fuel s off = .ok (r, s) := by
  induction fuel generalizing off with
  | zero => exact .inr ⟨none, rfl⟩
  | succ fuel ih =>
    unfold dirlookupLoop
    by_cases hlt : off < (s.itable k).size
    swap
    · exact .inr ⟨none, if_neg hlt⟩
    rw [if_pos hlt]
    rcases readDirent_cases h (Nat.lt_of_add_right_lt (h.lt_of_lt_size hlt)) "dirlookup read" with
      herr | ⟨de, hde⟩
    · exact .inl (by simp only [herr, bind, Except.bind])
    · simp only [hde, bind, Except.bind]
      split_ifs
      · exact .inr ⟨_, rfl⟩
      · exact ih _

theorem dirlinkLoop_cases (h : Locked sb s k) (fuel : ℕ) (hoff : off < 2 ^ 32) :
    dirlinkLoop sb k fuel s off = .error "dirlink read" ∨
      ∃ off' < 2 ^ 32, dirlinkLoop sb k fuel s off = .ok (off', s) := by
  induction fuel generalizing off with
  | zero => exact .inr ⟨off, hoff, rfl⟩
  | succ fuel ih =>
    unfold dirlinkLoop
    by_cases hlt : off < (s.itable k).size
    swap
    · exact .inr ⟨off, hoff, if_neg hlt⟩
    rw [if_pos hlt]
    rcases readDirent_cases h hoff "dirlink read" with herr | ⟨de, hde⟩
    · exact .inl (by simp only [herr, bind, Except.bind])
    · simp only [hde, bind, Except.bind]
      split_ifs
      · exact .inr ⟨_, hoff, rfl⟩
      · exact ih (h.lt_of_lt_size hlt)

/-- An entry taken by `iget` and given back at once is as if it had not been taken,
whatever the inode number. -/
theorem Inv.iput_iget (h : Inv sb s) {s₁ : Fs} (hget : s.iget inum = .ok (k, s₁)) :
    ∃ s', s₁.iput sb k = .ok s' ∧ Inv sb s' := by
  rcases iget_cases s inum with herr | ⟨l, hl, -, hok⟩ | ⟨l, hlt, hl, -, hok⟩
  · rw [herr] at hget
    cases hget
  · rw [hok] at hget
    obtain ⟨rfl, rfl⟩ := Prod.mk.inj (Except.ok.inj hget)
    apply (h.setRef hl _).iput
    simp
  · rw [hok] at hget
    obtain ⟨rfl, rfl⟩ := Prod.mk.inj (Except.ok.inj hget)
    unfold Fs.iput
    simp only [setInode_itable, update_self, Bool.false_eq_true, false_and, and_false,
      if_false, bind, Except.bind]
    refine ⟨_, rfl, ?_⟩
    have hback : Inv sb
        (s.setInode l { s.itable l with inum := inum, ref := 0, valid := false }) :=
      h.setInode fun h0 => absurd h0 (lt_irrefl 0)
    convert hback using 1
    simp [Fs.setInode]

theorem Inv.dirlink (h : Inv sb s) (hk : 0 < (s.itable k).ref) (hv : (s.itable k).valid = true)
    (name : Bytes) (inum : ℕ) :
    (∃ msg ∈ ["dirlookup not DIR", "dirlookup read", "iget: no inodes", "dirlink read"],
      s.dirlink sb k name inum = .error msg) ∨
      ∃ r s', s.dirlink sb k name inum = .ok (r, s') ∧ Inv sb s' := by
  have hlock := h.locked hk hv
  unfold Fs.dirlink dirlookup
  by_cases hdir : (s.itable k).type ≠ T_DIR
  · refine .inl ⟨"dirlookup not DIR", by simp, ?_⟩
    rw [if_pos hdir]
    rfl
  rw [if_neg hdir]
  rcases dirlookupLoop_cases hlock name ((s.itable k).size / 16 + 1) 0 with
    herr | ⟨found, hfound⟩
  · refine .inl ⟨"dirlookup read", by simp, ?_⟩
    simp only [herr, bind, Except.bind]
  simp only [hfound, bind, Except.bind]
  cases found with
  | some x =>
    obtain ⟨inum', off⟩ := x
    cases hget : s.iget inum' with
    | error msg =>
      rcases iget_cases s inum' with herr | ⟨l, -, -, hok⟩ | ⟨l, -, -, -, hok⟩
      · rw [hget] at herr
        cases herr
        exact .inl ⟨"iget: no inodes", by simp, by simp only [hget]⟩
      · rw [hget] at hok
        cases hok
      · rw [hget] at hok
        cases hok
    | ok r =>
      obtain ⟨l, s₁⟩ := r
      obtain ⟨s', hput, hinv⟩ := h.iput_iget hget
      right
      simp only [hget, hput]
      exact ⟨-1, s', rfl, hinv⟩
  | none =>
    rcases dirlinkLoop_cases hlock ((s.itable k).size / 16 + 1)
      (by decide : 0 < 2 ^ 32) with herr | ⟨off, hoff, hok⟩
    · exact .inl ⟨"dirlink read", by simp, by simp only [herr]⟩
    · obtain ⟨r, s', hw, hinv⟩ := h.writei hk hv
        ⟨(⟨inum, strncpy name⟩ : Dirent).toBytes, 16⟩ hoff (by decide : 16 < 2 ^ 32)
      right
      simp only [hok, hw]
      exact ⟨_, s', rfl, hinv⟩

end Fs

end Xv6
