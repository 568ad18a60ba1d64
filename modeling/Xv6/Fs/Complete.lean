import Xv6.Fs.Nodes
import Xv6.Fs.Saved

/-!
# Complete writes, and what others do meanwhile

A call of `writei` that can read its source and finds its blocks writes all its bytes.
Operations on other inodes leave a file in use as it is.
-/

namespace Xv6

open Lib

/-! ## Writes that find their blocks -/

namespace Fs

variable {sb : Superblock} {s t : Fs} {k n tot off fuel : ℕ} {src : Source}

/-- Every block that the loop of `writei` asks `bmap` for is there or is allocated. -/
def allocates (sb : Superblock) (k n : ℕ) (src : Source) : ℕ → Fs → (tot off : ℕ) → Bool
  | 0, _, _, _ => true
  | fuel + 1, s, tot, off =>
    if tot < n then
      match s.bmap sb k (off / BSIZE) with
      | .error _ => false
      | .ok (addr, s) =>
        let m := min (n - tot) (BSIZE - off % BSIZE)
        addr ≠ 0 && allocates sb k n src fuel
          (s.logWrite addr (blit (s.buf addr) (off % BSIZE) m fun j => src.byte (tot + j)))
          (tot + m) (off + m)
    else true

theorem writeLoop_of_allocates (hall : allocates sb k n src fuel s tot off = true)
    (havail : n ≤ src.avail) (htot : tot ≤ n) (hfuel : n - tot ≤ fuel) :
    ∃ t, writeLoop sb k n src fuel s tot off = .ok (n, off + (n - tot), t) := by
  induction fuel generalizing s tot off with
  | zero =>
    obtain rfl : tot = n := by omega
    exact ⟨s, by rw [writeLoop, Nat.sub_self, Nat.add_zero]⟩
  | succ fuel ih =>
    by_cases hlt : tot < n
    · rw [allocates, if_pos hlt] at hall
      rw [writeLoop, if_pos hlt]
      cases hmap : s.bmap sb k (off / BSIZE) with
      | error msg => simp [hmap] at hall
      | ok r =>
        obtain ⟨addr, s₁⟩ := r
        rw [hmap] at hall
        simp only [Bool.and_eq_true, decide_eq_true_eq] at hall
        have hmod := Nat.mod_lt off (by decide : 0 < BSIZE)
        obtain ⟨t, hok⟩ := ih hall.2 (by omega) (by omega)
        refine ⟨t, ?_⟩
        simp only [bind, Except.bind, if_neg hall.1]
        rw [if_neg (by omega), hok, Nat.add_assoc]
        congr 4
        omega
    · obtain rfl : tot = n := by omega
      exact ⟨s, by rw [writeLoop, if_neg hlt, Nat.sub_self, Nat.add_zero]⟩

theorem Inv.writei_complete {x : Node} (h : Inv sb s) (hk : s.Loaded k)
    (hx : s.node sb (s.itable k).inum = some x) (hoff : off ≤ x.data.length)
    (hmax : off + n ≤ MAXFILE * BSIZE) (hall : allocates sb k n src n s 0 off = true)
    (havail : n ≤ src.avail) :
    ∃ t, s.writei sb k src off n = .ok (n, t) ∧
      Edits sb k { x with data := overwrite x.data off ((List.range n).map src.byte) } s t := by
  have h32 : off + n < 2 ^ 32 := hmax.trans_lt (by decide)
  have hsize : x.data.length = (s.itable k).size := by
    have hnode := h.node_of_loaded hk
    rw [hx] at hnode
    obtain rfl := Option.some.inj hnode
    exact Dinode.length_contents _ _
  obtain ⟨t₁, hloop⟩ := writeLoop_of_allocates hall havail (Nat.zero_le n) (Nat.sub_le n 0)
  have hends := h.edits_writei hk hx src (by omega : off < 2 ^ 32) (by omega : n < 2 ^ 32)
  obtain ⟨t, hok⟩ : ∃ t, s.writei sb k src off n = .ok ((n : ℤ), t) := by
    unfold Fs.writei
    rw [Nat.mod_eq_of_lt h32, if_neg (by omega), if_neg (by omega), hloop]
    exact ⟨_, rfl⟩
  obtain ⟨data, hedit, hdata⟩ := hends.of_ok hok
  rcases hdata havail with hbad | ⟨tot, htot, hdata⟩
  · have := congrArg Prod.fst hbad
    dsimp only at this
    omega
  · obtain rfl : n = tot := by
      dsimp only at htot
      omega
    exact ⟨t, hok, hdata ▸ hedit⟩

/-! ## Operations on other inodes -/

/-- Operations that do not change the inode of entry `k`. -/
def Op.Leaves (k : ℕ) : Op → Prop
  | .iget _ | .idup _ | .ilock _ | .readi _ _ _ _ | .evict _ => True
  | .ialloc type => type ≠ 0
  | .iput l | .writei l _ _ _ | .itrunc l | .dirlink l _ _ | .iupdate l _ _ _ => l ≠ k

instance (k : ℕ) : (op : Op) → Decidable (op.Leaves k)
  | .iget _ | .idup _ | .ilock _ | .readi _ _ _ _ | .evict _ => .isTrue trivial
  | .ialloc type => inferInstanceAs (Decidable (type ≠ 0))
  | .iput l | .writei l _ _ _ | .itrunc l | .dirlink l _ _ | .iupdate l _ _ _ =>
    inferInstanceAs (Decidable (l ≠ k))

/-- Entry `k` and its inode are as before. -/
structure KeepsFile (sb : Superblock) (k : ℕ) (s t : Fs) : Prop where
  inv : Inv sb t
  loaded : t.Loaded k
  inum : (t.itable k).inum = (s.itable k).inum
  node : t.node sb (s.itable k).inum = s.node sb (s.itable k).inum

theorem KeepsFile.trans {u : Fs} (h : KeepsFile sb k s t) (h' : KeepsFile sb k t u) :
    KeepsFile sb k s u where
  inv := h'.inv
  loaded := h'.loaded
  inum := h'.inum.trans h.inum
  node := by
    rw [← h.node, ← h.inum, h'.node]

theorem KeepsFile.of_entry (hk : s.Loaded k) (hinv : Inv sb t) (hsame : t.itable k = s.itable k)
    (hnode : t.node sb (s.itable k).inum = s.node sb (s.itable k).inum) : KeepsFile sb k s t := by
  refine ⟨hinv, ?_, by rw [hsame], hnode⟩
  unfold Loaded Held at *
  rwa [hsame]

theorem Edits.keepsFile {l : ℕ} {y : Node} (h : Inv sb s) (hk : s.Loaded k) (hl : s.Held l)
    (hne : l ≠ k) (he : Edits sb l y s t) : KeepsFile sb k s t where
  inv := he.inv
  loaded := he.table.loaded hk
  inum := ((he.table k).2 hk.1).1
  node := by
    rw [he.node, Function.update_of_ne]
    exact fun heq => hne (h.unique l k hl hk.1 heq.symm)

theorem OnEntry.keepsFile {l : ℕ} (hk : s.Loaded k) (hinv : Inv sb t) (hon : OnEntry l s t)
    (hself : l = k → t.Loaded k)
    (hnode : t.node sb (s.itable k).inum = s.node sb (s.itable k).inum) : KeepsFile sb k s t := by
  by_cases hl : k = l
  · subst hl
    exact ⟨hinv, hself rfl, hon.inum, hnode⟩
  · exact .of_entry hk hinv (hon.table k hl) hnode

theorem Gets.keepsFile {i l : ℕ} (hk : s.Loaded k) (hinv : Inv sb t)
    (h : Gets i s (.ok (l, t))) : KeepsFile sb k s t := by
  generalize hr : (Except.ok (l, t) : Except Panic (ℕ × Fs)) = r at h
  cases h with
  | full => cases hr
  | @found m hm hi =>
    obtain ⟨rfl, rfl⟩ := Prod.mk.inj (Except.ok.inj hr)
    refine OnEntry.keepsFile hk hinv ⟨fun j hj => Function.update_of_ne hj _ _, by simp⟩ ?_ rfl
    rintro rfl
    exact ⟨by simp [Held], by simpa using hk.2⟩
  | @fresh m hlt hm hnew =>
    obtain ⟨rfl, rfl⟩ := Prod.mk.inj (Except.ok.inj hr)
    have hne : k ≠ l := by
      rintro rfl
      exact absurd hk.1 (by simp [Held, hm])
    exact .of_entry hk hinv (Function.update_of_ne hne _ _) rfl

theorem SameVolume.node (h : SameVolume s t) : t.node sb = s.node sb := by
  funext i
  unfold Fs.node dinode
  rw [h.1]

theorem Inv.keepsFile_evict (h : Inv sb s) (hk : s.Loaded k)
    (hsaved : s.Saved sb (s.itable k).inum) (b : ℕ) : KeepsFile sb k s (s.evict b) := by
  obtain ⟨ht, hcopy⟩ := h.loaded k hk.1 hk.2
  have hi := h.inum_lt k hk.1
  refine .of_entry hk (h.evict b) rfl ?_
  unfold Fs.node Dinode.node
  rw [h.dinode_evict hi, h.contents_evict hi (hcopy ▸ ht) hsaved]

theorem Inv.keepsFile_dirlink {l inum : ℕ} {name : Bytes} {r : ℤ} (h : Inv sb s) (hk : s.Loaded k)
    (hl : s.Loaded l) (hne : l ≠ k) (hinv : Inv sb t)
    (hok : s.dirlink sb l name inum = .ok (r, t)) : KeepsFile sb k s t := by
  rcases h.dirlink_cases hl hok with ⟨num, m, s₁, hget, hput⟩ | ⟨src, off, hoff, r', -, hw⟩
  · obtain ⟨u, hu, hvol, htable⟩ := iput_of_iget sb hget
    cases hu.symm.trans hput
    exact .of_entry hk hinv ((htable k).2 hk.1) (by rw [hvol.node])
  · obtain ⟨data, hedit, -⟩ := (h.edits_writei hl (h.node_of_loaded hl) src hoff
      (by decide : 16 < 2 ^ 32)).of_ok hw
    exact hedit.keepsFile h hk hl.1 hne

/-- Operations on other inodes leave the file unsaved at most by recycling its buffers. -/
theorem Inv.exec_leaves {op : Op} (h : Inv sb s) (hk : s.Loaded k) (ha : op.Allowed sb s)
    (hop : op.Leaves k) (hevict : (∃ b, op = .evict b) → s.Saved sb (s.itable k).inum)
    (hok : s.exec sb op = .ok t) : KeepsFile sb k s t := by
  have hinv : Inv sb t := by
    rcases h.exec ha with ⟨msg, -, herr⟩ | ⟨t', hok', hinv⟩
    · rw [herr] at hok
      cases hok
    · rw [hok'] at hok
      exact Except.ok.inj hok ▸ hinv
  cases op with
  | iget inum =>
    obtain ⟨⟨l, u⟩, hget, rfl⟩ := exists_of_map_eq_ok hok
    exact Gets.keepsFile hk hinv (hget ▸ gets_iget s inum)
  | ialloc type =>
    obtain ⟨⟨l, u⟩, hal, rfl⟩ := exists_of_map_eq_ok hok
    have hallocs := h.allocs hop
    rw [hal] at hallocs
    cases hallocs with
    | none _ => exact ⟨h, hk, rfl, rfl⟩
    | @some i m u t hi hlt hfree hinvu htable hnode hget =>
      have hne : (s.itable k).inum ≠ i := by
        rintro rfl
        rw [h.node_of_loaded hk] at hfree
        cases hfree
      have hu : KeepsFile sb k s u :=
        .of_entry hk hinvu (by rw [htable]) (by rw [hnode, Function.update_of_ne hne])
      exact hu.trans (Gets.keepsFile hu.loaded hinv (hget ▸ gets_iget u i))
  | idup l =>
    obtain rfl : s.idup l = t := Except.ok.inj hok
    refine OnEntry.keepsFile hk hinv
      ⟨fun j hj => Function.update_of_ne hj _ _, by simp [idup]⟩ ?_ rfl
    rintro rfl
    exact ⟨by simp [Held, idup], by simpa [idup] using hk.2⟩
  | ilock l =>
    have hlocks := h.locks ha
    change s.ilock sb l = .ok t at hok
    rw [hok] at hlocks
    cases hlocks with
    | done hinv hon href hv hnode =>
      refine hon.keepsFile hk hinv ?_ (by rw [hnode])
      rintro rfl
      exact ⟨by rw [Held, href]; exact hk.1, hv⟩
  | iput l =>
    have hdrops := h.drops ha
    change s.iput sb l = .ok t at hok
    rw [hok] at hdrops
    have hne : l ≠ k := hop
    cases hdrops with
    | kept hinv hon _ _ hnode _ =>
      exact hon.keepsFile hk hinv (fun heq => absurd heq hne) (by rw [hnode])
    | freed hinv hon _ _ _ _ _ hnode =>
      refine hon.keepsFile hk hinv (fun heq => absurd heq hne) ?_
      rw [hnode, Function.update_of_ne]
      exact fun heq => hne (h.unique l k ha hk.1 heq.symm)
  | readi l off n avail =>
    obtain ⟨⟨hl, hv⟩, hoff, hn⟩ := ha
    obtain ⟨r, out, hread, -⟩ := readi_spec avail (h.locked hl hv) hoff hn
    obtain rfl : s = t := by simpa [Fs.exec, hread, Except.map] using hok
    exact ⟨h, hk, rfl, rfl⟩
  | writei l src off n =>
    obtain ⟨hl, hoff, hn⟩ := ha
    have hends := h.edits_writei hl (h.node_of_loaded hl) src hoff hn
    obtain ⟨r, hw, rfl⟩ := exists_of_map_eq_ok hok
    obtain ⟨data, hedit, -⟩ := hends.of_ok hw
    exact hedit.keepsFile h hk hl.1 hop
  | itrunc l =>
    obtain ⟨t', hok', hedit⟩ := h.edits_itrunc ha (h.node_of_loaded ha)
    obtain rfl : t' = t := Except.ok.inj (hok'.symm.trans hok)
    exact hedit.keepsFile h hk ha.1 hop
  | dirlink l name inum =>
    obtain ⟨r, hlink, rfl⟩ := exists_of_map_eq_ok hok
    exact h.keepsFile_dirlink hk ha hop hinv hlink
  | iupdate l major minor nlink =>
    obtain rfl := Except.ok.inj hok
    exact (h.edits_iupdate ha (h.node_of_loaded ha) major minor nlink).keepsFile h hk ha.1 hop
  | evict b =>
    obtain rfl := Except.ok.inj hok
    exact h.keepsFile_evict hk (hevict ⟨b, rfl⟩) b

theorem Inv.saved_leaves {op : Op} (h : Inv sb s) (hk : s.Loaded k) (ha : op.Allowed sb s)
    (hop : op.Leaves k) (hok : s.exec sb op = .ok t) (hsaved : s.Saved sb (s.itable k).inum) :
    t.Saved sb (s.itable k).inum := by
  obtain ⟨ht, hcopy⟩ := h.loaded k hk.1 hk.2
  refine h.saved_exec (h.inum_lt k hk.1) (hcopy ▸ ht) hsaved ha ?_ hok
  rintro l src off n rfl heq
  exact absurd (h.unique l k ha.1.1 hk.1 heq.symm) hop

end Fs

end Xv6
