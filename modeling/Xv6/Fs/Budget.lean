import Xv6.Fs.Exclusive

/-!
# The blocks that a write logs

A chunk of `filewrite` is one call of `writei` in one operation, which may log
`MAXOPBLOCKS` different blocks.  The loop of `writei` logs at most two blocks for each
block of the file it writes to, and besides them the indirect block and the bitmap block
that it was taken from.
-/

namespace Xv6

namespace Fs

variable {sb : Superblock} {s t u : Fs} {k bn addr n off tot fuel : ℕ} {src : Source}
  {D E : Finset ℕ}

def ind (s : Fs) (k : ℕ) : ℕ := (s.itable k).addrs (Fin.last NDIRECT)

/-- From `s` to `t` blocks of `D` are logged, and if there is an indirect block also that
one and, if it is new, one block of the bitmap. -/
structure Logs (k : ℕ) (D : Finset ℕ) (s t : Fs) : Prop where
  keeps : s.ind k ≠ 0 → t.ind k = s.ind k
  logged : ∃ new y, t.logged = s.logged ++ new ∧
    ∀ b ∈ new, b ∈ D ∨ t.ind k ≠ 0 ∧ (b = t.ind k ∨ s.ind k = 0 ∧ b = y)

namespace Logs

theorem refl (s : Fs) : Logs k ∅ s s :=
  ⟨fun _ => rfl, [], 0, (List.append_nil _).symm, fun _ h => nomatch h⟩

theorem trans (h : Logs k D s t) (h' : Logs k E t u) : Logs k (D ∪ E) s u := by
  obtain ⟨new, y, hnew, hin⟩ := h.logged
  obtain ⟨new', y', hnew', hin'⟩ := h'.logged
  refine ⟨fun hs => ?_, new ++ new', if t.ind k = 0 then y' else y, ?_, fun b hb => ?_⟩
  · have ht := h.keeps hs
    rw [h'.keeps (ht ▸ hs), ht]
  · rw [hnew', hnew, List.append_assoc]
  · rcases List.mem_append.mp hb with hb | hb
    · refine (hin b hb).imp (Finset.mem_union_left E) ?_
      rintro ⟨ht, hor⟩
      rw [if_neg ht, h'.keeps ht]
      exact ⟨ht, hor⟩
    · refine (hin' b hb).imp (Finset.mem_union_right D) ?_
      rintro ⟨hu, hor⟩
      refine ⟨hu, hor.imp_right ?_⟩
      rintro ⟨ht, rfl⟩
      rw [if_pos ht]
      refine ⟨?_, rfl⟩
      by_contra hs
      exact hs (h.keeps hs ▸ ht)

theorem mono (h : Logs k D s t) (hsub : D ⊆ E) : Logs k E s t := by
  obtain ⟨new, y, hnew, hin⟩ := h.logged
  exact ⟨h.keeps, new, y, hnew, fun b hb => (hin b hb).imp_left (hsub ·)⟩

theorem of_same (h : Logs k D s t) (hlog : u.logged = t.logged) (htable : u.itable = t.itable) :
    Logs k D s u := by
  have hind : u.ind k = t.ind k := by rw [ind, htable, ind]
  obtain ⟨new, y, hnew, hin⟩ := h.logged
  refine ⟨fun hs => hind.trans (h.keeps hs), new, y, hlog.trans hnew, ?_⟩
  rwa [hind]

theorem card_le (h : Logs k D s t) :
    ∃ new, t.logged = s.logged ++ new ∧ new.toFinset.card ≤ D.card + 2 := by
  obtain ⟨new, y, hnew, hin⟩ := h.logged
  refine ⟨new, hnew, ?_⟩
  have hsub : new.toFinset ⊆ D ∪ {t.ind k, y} := by
    intro b hb
    rw [List.mem_toFinset] at hb
    rw [Finset.mem_union, Finset.mem_insert, Finset.mem_singleton]
    rcases hin b hb with h | ⟨-, rfl | ⟨-, rfl⟩⟩
    · exact .inl h
    · exact .inr (.inl rfl)
    · exact .inr (.inr rfl)
  have hpair : ({t.ind k, y} : Finset ℕ).card ≤ 2 := Finset.card_le_two
  have hle := (Finset.card_le_card hsub).trans (Finset.card_union_le _ _)
  omega

theorem logWrite (b : ℕ) (x : Block) (s : Fs) : Logs k {b} s (s.logWrite b x) :=
  ⟨fun _ => rfl, [b], 0, rfl, fun c hc => .inl (by simpa using hc)⟩

end Logs

/-! ## `bmap` -/

theorem balloc_logged (sb : Superblock) (s : Fs) : ∃ b t, s.balloc sb = (b, t) ∧
    t.itable = s.itable ∧ (b = 0 ∧ t = s ∨ ∃ y, t.logged = s.logged ++ [y, b]) := by
  unfold balloc
  cases s.ballocScan sb with
  | none => exact ⟨0, s, rfl, rfl, .inl ⟨rfl, rfl⟩⟩
  | some b => exact ⟨b, _, rfl, rfl, .inr ⟨sb.bblock b, by simp [bzero, Fs.logWrite]⟩⟩

theorem ind_congr (h : t.itable = s.itable) : t.ind k = s.ind k := by
  rw [ind, h, ind]

theorem Logs.balloc {b : ℕ} (htable : t.itable = s.itable)
    (h : b = 0 ∧ t = s ∨ ∃ y, t.logged = s.logged ++ [y, b]) :
    ∃ D, Logs k D s t ∧ (insert b D).card ≤ 2 := by
  rcases h with ⟨rfl, rfl⟩ | ⟨y, hlog⟩
  · exact ⟨∅, .refl t, by simp⟩
  · refine ⟨{y, b}, ⟨fun _ => ind_congr htable, [y, b], 0, hlog, fun c hc => .inl ?_⟩, ?_⟩
    · simpa using hc
    · rw [Finset.insert_eq_of_mem (by simp)]
      exact Finset.card_le_two

theorem ind_setAddr_castSucc (i : Fin NDIRECT) (addr : ℕ) :
    (s.setAddr k i.castSucc addr).ind k = s.ind k := by
  simp [ind, setAddr, setInode, Function.update_of_ne (Fin.castSucc_lt_last i).ne']

theorem Logs.setAddr (h : Logs k D s t) (i : Fin NDIRECT) (addr : ℕ) :
    Logs k D s (t.setAddr k i.castSucc addr) := by
  obtain ⟨new, y, hnew, hin⟩ := h.logged
  refine ⟨fun hs => ?_, new, y, hnew, fun b hb => ?_⟩
  · rw [ind_setAddr_castSucc, h.keeps hs]
  · rw [ind_setAddr_castSucc]
    exact hin b hb

theorem loadAddr_direct (sb : Superblock) (s : Fs) (k : ℕ) (i : Fin NDIRECT) :
    ∃ addr t D, s.loadAddr sb k i.castSucc = (addr, t) ∧ Logs k D s t ∧
      (insert addr D).card ≤ 2 := by
  unfold loadAddr
  split_ifs with haddr
  · obtain ⟨b, t, hb, htable, hlog⟩ := balloc_logged sb s
    obtain ⟨D, hlogs, hcard⟩ := Logs.balloc (k := k) htable hlog
    simp only [hb]
    split_ifs with hb0
    · exact ⟨0, t, D, rfl, hlogs, hb0 ▸ hcard⟩
    · exact ⟨b, _, D, rfl, hlogs.setAddr i b, hcard⟩
  · exact ⟨_, s, ∅, rfl, .refl s, by simp⟩

theorem loadAddr_last (sb : Superblock) (s : Fs) (k : ℕ) :
    ∃ addr t, s.loadAddr sb k (Fin.last NDIRECT) = (addr, t) ∧
      (addr ≠ 0 ∧ t.ind k = addr ∧ Logs k ∅ s t ∨
        addr = 0 ∧ ∃ D, Logs k D s t ∧ (insert 0 D).card ≤ 2) := by
  unfold loadAddr
  split_ifs with haddr
  · obtain ⟨b, t, hb, htable, hlog⟩ := balloc_logged sb s
    simp only [hb]
    split_ifs with hb0
    · obtain ⟨D, hlogs, hcard⟩ := Logs.balloc (k := k) htable hlog
      exact ⟨0, t, rfl, .inr ⟨rfl, D, hlogs, hb0 ▸ hcard⟩⟩
    · have hind : (t.setAddr k (Fin.last NDIRECT) b).ind k = b := by
        simp [ind, Fs.setAddr, setInode]
      obtain ⟨y, hlog⟩ := hlog.resolve_left fun h => hb0 h.1
      refine ⟨b, _, rfl, .inl ⟨hb0, hind, fun hs => absurd haddr hs, [y, b], y, hlog,
        fun c hc => ?_⟩⟩
      rw [hind]
      right
      refine ⟨hb0, ?_⟩
      rcases List.mem_cons.mp hc with rfl | hc
      · exact .inr ⟨haddr, rfl⟩
      · exact .inl (List.mem_singleton.mp hc)
  · exact ⟨_, s, rfl, .inl ⟨haddr, rfl, .refl s⟩⟩

theorem Logs.logWrite_ind (h : Logs k D s t) (hind : t.ind k ≠ 0) (x : Block) :
    Logs k D s (t.logWrite (t.ind k) x) := by
  obtain ⟨new, y, hnew, hin⟩ := h.logged
  refine ⟨h.keeps, new ++ [t.ind k], y, ?_, fun b hb => ?_⟩
  · rw [← List.append_assoc, ← hnew]
    rfl
  · change b ∈ D ∨ t.ind k ≠ 0 ∧ (b = t.ind k ∨ s.ind k = 0 ∧ b = y)
    rcases List.mem_append.mp hb with hb | hb
    · exact hin b hb
    · exact .inr ⟨hind, .inl (List.mem_singleton.mp hb)⟩

theorem bmap_logs (sb : Superblock) (s : Fs) (k : ℕ) (hbn : bn < MAXFILE) :
    ∃ addr t D, s.bmap sb k bn = .ok (addr, t) ∧ Logs k D s t ∧ (insert addr D).card ≤ 2 := by
  unfold bmap
  split_ifs with hdir hlt
  · obtain ⟨addr, t, D, hload, hlogs, hcard⟩ := loadAddr_direct sb s k ⟨bn, hdir⟩
    exact ⟨addr, t, D, by rw [hload], hlogs, hcard⟩
  · obtain ⟨ind, t, hload, ⟨hind0, hind, hlogs⟩ | ⟨rfl, D, hlogs, hcard⟩⟩ := loadAddr_last sb s k
    · simp only [hload, if_neg hind0]
      by_cases hword : Lib.getWord 4 (t.buf ind) (4 * (bn - NDIRECT)) = 0
      · obtain ⟨b, u, hb, htable, hlog⟩ := balloc_logged sb t
        obtain ⟨D, hlogs', hcard⟩ := Logs.balloc (k := k) htable hlog
        have hu : u.ind k = ind := (ind_congr htable).trans hind
        have htrans := hlogs.trans hlogs'
        rw [Finset.empty_union] at htrans
        simp only [if_pos hword, hb]
        by_cases hb0 : b = 0
        · exact ⟨0, u, D, if_pos hb0, htrans, hb0 ▸ hcard⟩
        · refine ⟨b, _, D, if_neg hb0, ?_, hcard⟩
          rw [← hu]
          exact htrans.logWrite_ind (hu ▸ hind0) _
      · exact ⟨_, t, ∅, if_neg hword, hlogs, by simp⟩
    · simp only [hload, if_pos]
      exact ⟨0, t, D, rfl, hlogs, hcard⟩
  · unfold MAXFILE at hbn
    omega

theorem bmap_mapped (sb : Superblock) (hbn : bn < MAXFILE)
    (h : (s.itable k).blockAt s.buf (.ofBlock bn) ≠ 0) :
    s.bmap sb k bn = .ok ((s.itable k).blockAt s.buf (.ofBlock bn), s) := by
  unfold bmap
  by_cases hdir : bn < NDIRECT
  · rw [Pos.ofBlock_of_lt hdir] at h ⊢
    change (s.itable k).addrs (Fin.castSucc ⟨bn, hdir⟩) ≠ 0 at h
    rw [dif_pos hdir, loadAddr, if_neg h]
    rfl
  · have hlt : bn - NDIRECT < NINDIRECT := by
      unfold MAXFILE at hbn
      omega
    rw [Pos.ofBlock_of_le (Nat.le_of_not_lt hdir) hlt] at h ⊢
    unfold Dinode.blockAt at h ⊢
    dsimp only at h ⊢
    by_cases hind : (s.itable k).addrs (Fin.last NDIRECT) = 0
    · exact absurd (if_pos hind) h
    · rw [if_neg hind] at h ⊢
      rw [dif_neg hdir, if_pos hlt, loadAddr, if_neg hind]
      simp only [if_neg hind, if_neg h]

/-! ## `writei` -/

/-- The number of blocks that `m` bytes at `off` touch. -/
def rounds (off m : ℕ) : ℕ := (off % BSIZE + m + (BSIZE - 1)) / BSIZE

theorem rounds_next {m : ℕ} (hmin : m = min (n - tot) (BSIZE - off % BSIZE))
    (hlt : tot + m < n) : rounds (off + m) (n - (tot + m)) + 1 = rounds off (n - tot) := by
  have hm : m = BSIZE - off % BSIZE := by omega
  have hmod : (off + m) % BSIZE = 0 := by
    have := Nat.mod_lt off (by decide : 0 < BSIZE)
    have := Nat.div_add_mod off BSIZE
    unfold BSIZE at *
    omega
  unfold rounds
  rw [hmod]
  unfold BSIZE at *
  omega

/-- Each pass logs at most two blocks, and one if the block is there. -/
theorem writeLoop_logs (sb : Superblock) (k n : ℕ) (src : Source) (s : Fs) (tot off : ℕ)
    (hfuel : n - tot ≤ fuel)
    (hmax : off + (n - tot) ≤ MAXFILE * BSIZE) :
    ∃ tot' off' t D, writeLoop sb k n src fuel s tot off = .ok (tot', off', t) ∧ Logs k D s t ∧
      (n ≤ tot → D = ∅) ∧ D.card ≤ 2 * rounds off (n - tot) ∧
      ((s.itable k).blockAt s.buf (.ofBlock (off / BSIZE)) ≠ 0 → tot < n →
        D.card + 1 ≤ 2 * rounds off (n - tot)) := by
  induction fuel generalizing s tot off with
  | zero =>
    exact ⟨tot, off, s, ∅, rfl, .refl s, fun _ => rfl, by simp, fun _ h => by omega⟩
  | succ fuel ih =>
    by_cases hlt : tot < n
    swap
    · exact ⟨tot, off, s, ∅, by rw [writeLoop, if_neg hlt], .refl s, fun _ => rfl, by simp,
        fun _ h => absurd h hlt⟩
    have hbn : off / BSIZE < MAXFILE := by
      unfold MAXFILE NINDIRECT NDIRECT BSIZE at *
      omega
    have hone : 1 ≤ rounds off (n - tot) := by
      unfold rounds BSIZE
      omega
    obtain ⟨addr, s₁, D, hmap, hlogs, hcard, hthere⟩ : ∃ addr s₁ D,
        s.bmap sb k (off / BSIZE) = .ok (addr, s₁) ∧ Logs k D s s₁ ∧ (insert addr D).card ≤ 2 ∧
          ((s.itable k).blockAt s.buf (.ofBlock (off / BSIZE)) ≠ 0 → D = ∅) := by
      by_cases hthere : (s.itable k).blockAt s.buf (.ofBlock (off / BSIZE)) = 0
      · obtain ⟨addr, s₁, D, hmap, hlogs, hcard⟩ := bmap_logs sb s k hbn
        exact ⟨addr, s₁, D, hmap, hlogs, hcard, fun h => absurd hthere h⟩
      · exact ⟨_, s, ∅, bmap_mapped sb hbn hthere, .refl s, by simp, fun _ => rfl⟩
    have hle : D.card ≤ (insert addr D).card := Finset.card_le_card (Finset.subset_insert _ _)
    rw [writeLoop, if_pos hlt, hmap]
    simp only [bind, Except.bind]
    by_cases haddr : addr = 0
    · refine ⟨tot, off, s₁, D, if_pos haddr, hlogs, fun h => by omega, by omega, fun h _ => ?_⟩
      rw [hthere h, Finset.card_empty]
      omega
    rw [if_neg haddr]
    obtain ⟨m, hm⟩ : ∃ m, m = min (n - tot) (BSIZE - off % BSIZE) := ⟨_, rfl⟩
    rw [← hm]
    have hpos : 0 < m := by
      have := Nat.mod_lt off (by decide : 0 < BSIZE)
      omega
    by_cases hav : src.avail < tot + m
    · refine ⟨tot, off, _, D, if_pos hav, hlogs.of_same rfl rfl, fun h => by omega, by omega,
        fun h _ => ?_⟩
      rw [hthere h, Finset.card_empty]
      omega
    rw [if_neg hav]
    -- `addr` is logged now, and the rest of the loop has one block less to go
    obtain ⟨tot', off', t, E, hok, hrest, hdone, hE, -⟩ := ih (s₁.logWrite addr _)
      (tot + m) (off + m) (by omega) (by omega)
    have hE' : E.card + 2 ≤ 2 * rounds off (n - tot) := by
      by_cases hmore : tot + m < n
      · have := rounds_next hm hmore
        omega
      · rw [hdone (by omega), Finset.card_empty]
        omega
    have hall : Logs k (insert addr D ∪ E) s t := by
      refine ((hlogs.trans (.logWrite addr _ s₁)).mono ?_).trans hrest
      rw [Finset.union_comm, ← Finset.insert_eq]
    have hcard' := Finset.card_union_le (insert addr D) E
    refine ⟨tot', off', t, insert addr D ∪ E, hok, hall, fun h => by omega, by omega, fun h _ => ?_⟩
    rw [hthere h, insert_empty_eq, Finset.card_singleton] at hcard'
    rw [hthere h, insert_empty_eq]
    omega

/-- A chunk of `filewrite` logs at most `MAXOPBLOCKS` different blocks. -/
theorem write_chunk_fits (sb : Superblock) (s : Fs) (k off n : ℕ) (src : Source)
    (hmapped : ∀ bn, bn * BSIZE < (s.itable k).size →
      (s.itable k).blockAt s.buf (.ofBlock bn) ≠ 0)
    (hoff : off ≤ (s.itable k).size) (hn : n ≤ (MAXOPBLOCKS - 1 - 1 - 2) / 2 * BSIZE) :
    ∃ r t new, s.writei sb k src off n = .ok (r, t) ∧ t.logged = s.logged ++ new ∧
      new.toFinset.card ≤ MAXOPBLOCKS := by
  have hrefuse : ∃ new, s.logged = s.logged ++ new ∧ new.toFinset.card ≤ MAXOPBLOCKS :=
    ⟨[], (List.append_nil _).symm, Nat.zero_le _⟩
  unfold writei
  by_cases hwrap : (s.itable k).size < off ∨ (off + n) % 2 ^ 32 < off
  · obtain ⟨new, hnew⟩ := hrefuse
    exact ⟨-1, s, new, if_pos hwrap, hnew⟩
  by_cases hbig : MAXFILE * BSIZE < (off + n) % 2 ^ 32
  · obtain ⟨new, hnew⟩ := hrefuse
    exact ⟨-1, s, new, by rw [if_neg hwrap, if_pos hbig], hnew⟩
  have hmax : off + (n - 0) ≤ MAXFILE * BSIZE := by
    unfold MAXFILE NINDIRECT NDIRECT MAXOPBLOCKS BSIZE at *
    omega
  obtain ⟨tot, off', t, D, hloop, hlogs, hdone, hcard, hthere⟩ :=
    writeLoop_logs sb k n src s 0 off (Nat.sub_le n 0) hmax
  -- an unaligned write touches one more block, and that one is there
  have hD : D.card + 3 ≤ MAXOPBLOCKS := by
    by_cases hn0 : n = 0
    · rw [hdone hn0.le]
      decide
    by_cases halign : off % BSIZE = 0
    · unfold rounds at hcard
      rw [halign] at hcard
      unfold MAXOPBLOCKS BSIZE at *
      omega
    · have hbelow : off / BSIZE * BSIZE < (s.itable k).size := by
        have := Nat.div_add_mod' off BSIZE
        omega
      have hless := hthere (hmapped _ hbelow) (Nat.pos_of_ne_zero hn0)
      unfold rounds at hless
      unfold MAXOPBLOCKS BSIZE at *
      omega
  obtain ⟨new, hnew, hle⟩ := hlogs.card_le
  rw [if_neg hwrap, if_neg hbig, hloop]
  refine ⟨tot, _, new ++ [sb.iblock (t.itable k).inum], rfl, ?_, ?_⟩
  · rw [← List.append_assoc, ← hnew]
    split_ifs <;> simp [iupdate, Fs.logWrite, setInode]
  · rw [List.toFinset_append]
    have := Finset.card_union_le new.toFinset [sb.iblock (t.itable k).inum].toFinset
    simp only [List.toFinset_cons, List.toFinset_nil, insert_empty_eq,
      Finset.card_singleton] at this ⊢
    omega

/-- The first chunk of a new file. -/
theorem write_chunk_fits_first : ∃ r t new,
    formatted.writei mkfsSuper 0 ⟨fun _ => 1, 3072⟩ 0 3072 = .ok (r, t) ∧
      t.logged = formatted.logged ++ new ∧ new.toFinset.card ≤ MAXOPBLOCKS :=
  write_chunk_fits mkfsSuper formatted 0 0 3072 ⟨fun _ => 1, 3072⟩
    (fun _ h => absurd h (Nat.not_lt_zero _)) (Nat.zero_le _) (by decide)

end Fs

end Xv6
