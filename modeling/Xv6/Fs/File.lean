import Xv6.Fs.Truncate

/-!
# Reading and writing inode content

The loops of `readi` and `writei` go through a file in chunks that end at
block boundaries.  One lemma says what storing a chunk does; the loops are
inductions on the bytes that are left.
-/

namespace Xv6

open Lib
open Function (update update_self update_of_ne update_eq_self)

def Dinode.byte (d : Dinode) (buf : ℕ → Block) (j : ℕ) : UInt8 :=
  buf (d.blockAt buf (.ofBlock (j / BSIZE))) (j % BSIZE)

def Dinode.contents (d : Dinode) (buf : ℕ → Block) : List UInt8 :=
  (List.range d.size).map (d.byte buf)

namespace Fs

variable {sb : Superblock} {s s' : Fs} {b c i k bn o m n off tot avail fuel : ℕ}
  {data : ℕ → UInt8} {src : Source}

theorem chunk_bounds (off n : ℕ) (hn : 0 < n) :
    0 < min n (BSIZE - off % BSIZE) ∧ min n (BSIZE - off % BSIZE) ≤ n ∧
      off % BSIZE + min n (BSIZE - off % BSIZE) ≤ BSIZE := by
  unfold BSIZE
  omega

theorem div_mod_of_chunk {j : ℕ} (h : off % BSIZE + j < BSIZE) :
    (off + j) / BSIZE = off / BSIZE ∧ (off + j) % BSIZE = off % BSIZE + j := by
  unfold BSIZE at *
  omega

/-! ## Reading -/

theorem Locked.ref_of_lt_size (h : Locked sb s k) {j : ℕ} (hj : j < (s.itable k).size) :
    ∃ b, j / BSIZE < MAXFILE ∧
      s.refs sb k ((s.itable k).inum, .ofBlock (j / BSIZE)) = some b := by
  have hsize : j / BSIZE * BSIZE < (s.inodes sb k (s.itable k).inum).size := by
    rw [inodes_inum]
    exact (Nat.div_mul_le_self j BSIZE).trans_lt hj
  obtain ⟨hlt, hsome⟩ := h.sound.mapped _ h.inum_lt
    (by rw [inodes_inum]; exact h.type_ne) _ hsize
  obtain ⟨b, hb⟩ := Option.isSome_iff_exists.mp hsome
  exact ⟨b, hlt, hb⟩

theorem blockAt_of_refs {p : Pos} (h : s.refs sb k ((s.itable k).inum, p) = some b) :
    (s.itable k).blockAt s.buf p = b := by
  obtain ⟨-, -, -, hb⟩ := slots_eq_some.mp h
  rwa [inodes_inum] at hb

/-- The loop of `readi` ends at `n`, or where the copy fails. -/
theorem readLoop_spec (avail : ℕ) (h : Locked sb s k) (dst : List UInt8) (hfuel : n - tot ≤ fuel)
    (htot : tot ≤ n) (hoff : off + (n - tot) ≤ (s.itable k).size) :
    ∃ r out, readLoop sb k n avail fuel s tot off dst = .ok (r, out, s) ∧
      (r = n ∧ out = dst ++ (List.range (n - tot)).map
        (fun j => (s.itable k).byte s.buf (off + j)) ∨ r = -1 ∧ avail < n) := by
  induction fuel generalizing tot off dst with
  | zero =>
    have : tot = n := by omega
    exact ⟨tot, dst, rfl, .inl (by simp [this])⟩
  | succ fuel ih =>
    unfold readLoop
    by_cases hlt : tot < n
    swap
    · have : tot = n := by omega
      exact ⟨tot, dst, if_neg hlt, .inl (by simp [this])⟩
    obtain ⟨b, hbn, hb⟩ := h.ref_of_lt_size (by omega : off < (s.itable k).size)
    have hb0 : b ≠ 0 := (slots_eq_some.mp hb).2.2.1
    obtain ⟨hm0, hmn, hmB⟩ := chunk_bounds off (n - tot) (by omega)
    rw [if_pos hlt, bmap_of_ref hbn hb]
    simp only [bind, Except.bind, if_neg hb0]
    generalize hm : min (n - tot) (BSIZE - off % BSIZE) = m at *
    split_ifs with havail
    · exact ⟨_, _, rfl, .inr ⟨rfl, by omega⟩⟩
    have hrest : n - (tot + m) ≤ fuel := by omega
    have hoff' : off + m + (n - (tot + m)) ≤ (s.itable k).size := by omega
    obtain ⟨r, out, hout, ⟨hr, rfl⟩ | hfail⟩ := ih
      (dst ++ (List.range m).map fun j => s.buf b (off % BSIZE + j)) hrest (by omega) hoff'
    swap
    · exact ⟨r, out, hout, .inr hfail⟩
    refine ⟨r, _, hout, .inl ⟨hr, ?_⟩⟩
    have hsplit : n - tot = m + (n - (tot + m)) := by omega
    rw [List.append_assoc, hsplit, List.range_add, List.map_append, List.map_map]
    congr 2
    · apply List.map_congr_left
      intro j hj
      have hlt' : off % BSIZE + j < BSIZE := by
        have := List.mem_range.mp hj
        omega
      obtain ⟨h1, h2⟩ := div_mod_of_chunk hlt'
      rw [Dinode.byte, h1, h2, blockAt_of_refs hb]
    · apply List.map_congr_left
      intro j _
      simp only [Function.comp_apply, Nat.add_assoc]

/-- `readi` changes nothing.  It delivers the bytes of the file from `off` on, at most `n` of
them, unless the copy fails or `off + n` wraps. -/
theorem readi_spec (avail : ℕ) (h : Locked sb s k) (hoff : off < 2 ^ 32) (hn : n < 2 ^ 32) :
    ∃ r out, s.readi sb k off n avail = .ok (r, out, s) ∧
      (off + n < 2 ^ 32 → r = (min n ((s.itable k).size - off) : ℕ) ∧
          out = (((s.itable k).contents s.buf).drop off).take n ∨
        r = -1 ∧ avail < min n ((s.itable k).size - off)) ∧
      (2 ^ 32 ≤ off + n → r = 0 ∧ out = []) := by
  unfold readi
  by_cases hout : (s.itable k).size < off ∨ (off + n) % 2 ^ 32 < off
  · refine ⟨0, [], if_pos hout, fun h32 => .inl ?_, fun _ => ⟨rfl, rfl⟩⟩
    rw [Nat.mod_eq_of_lt h32] at hout
    have hzero : min n ((s.itable k).size - off) = 0 := by omega
    rw [hzero, List.drop_eq_nil_of_le (by simp [Dinode.contents]; omega), List.take_nil]
    exact ⟨rfl, rfl⟩
  -- the sum has not wrapped
  have h32 : (off + n) % 2 ^ 32 = off + n := by omega
  rw [if_neg hout, h32]
  dsimp only
  generalize hn' : (if (s.itable k).size < off + n then (s.itable k).size - off else n) = n'
  have hmin : n' = min n ((s.itable k).size - off) := by
    split_ifs at hn' <;> omega
  obtain ⟨r, out, hread, hspec⟩ := readLoop_spec avail h [] (le_refl (n' - 0))
    (Nat.zero_le n') (by omega : off + (n' - 0) ≤ (s.itable k).size)
  refine ⟨r, out, hread, fun _ => ?_, fun _ => by omega⟩
  rw [← hmin]
  refine hspec.imp_left fun ⟨hr, hbytes⟩ => ⟨hr, ?_⟩
  rw [hbytes]
  apply List.ext_getElem
  · simp [Dinode.contents, hmin]
  · intro j h1 h2
    simp [Dinode.contents]

theorem readi_full (h : Locked sb s k) (h32 : off + n < 2 ^ 32) :
    ∃ out : List UInt8, s.readi sb k off n n = .ok (↑out.length, out, s) ∧
      out = (((s.itable k).contents s.buf).drop off).take n := by
  obtain ⟨r, out, hread, hspec, -⟩ := readi_spec n h (by omega : off < 2 ^ 32)
    (by omega : n < 2 ^ 32)
  obtain ⟨rfl, rfl⟩ | ⟨-, hshort⟩ := hspec h32
  · refine ⟨_, ?_, rfl⟩
    rw [hread, List.length_take, List.length_drop, Dinode.contents, List.length_map,
      List.length_range]
  · omega

/-! ## Writing -/

theorem Locked.write_chunk (h : Locked sb s k) (hbn : bn < MAXFILE)
    (hb : s.refs sb k ((s.itable k).inum, .ofBlock bn) = some b) (hom : o + m ≤ BSIZE)
    {bytes : ℕ → UInt8} (hdata : ∀ j < m, bytes j = data (bn * BSIZE + o + j))
    (hbuf : s'.buf = update s.buf b (blit (s.buf b) o m bytes))
    (htable : s'.itable = s.itable) (hclean : ∀ c ≠ b, s.Clean c → s'.Clean c) :
    Locked sb s' k ∧ Wrote sb k (bn * BSIZE + o) (bn * BSIZE + o + m) data s s' := by
  have hbm := h.sound.nmeta_le hb
  have hold : ∀ c ≠ b, s'.buf c = s.buf c := by
    intro c hc
    rw [hbuf, update_of_ne hc]
  have hkeep : Keeps sb s s' := keeps_of_data hbm hold
  -- no indirect block is the block written to
  have hind : ∀ i c, s.refs sb k (i, .indirect) = some c → c ≠ b := by
    rintro i c hc rfl
    exact Pos.ofBlock_ne_indirect bn (Prod.mk.inj (h.sound.owned.inj hb hc)).2
  have hinodes : ∀ i < sb.ninodes, s'.inodes sb k i = s.inodes sb k i := by
    intro i hi
    by_cases hik : i = (s.itable k).inum
    · subst hik
      rw [inodes_inum, ← htable, inodes_inum]
    · rw [inodes_of_ne hik, inodes_of_ne (htable ▸ hik), hkeep.dinode i hi]
  have hrefs : s'.refs sb k = s.refs sb k := by
    apply slots_congr
    intro i hi
    rw [hinodes i hi]
    refine ⟨rfl, fun ht p => Dinode.blockAt_congr rfl (fun h0 => hold _ ?_) p⟩
    have hx : s.refs sb k (i, .indirect) = some _ := slots_eq_some.mpr ⟨hi, ht, h0, rfl⟩
    exact hind i _ hx
  have hsound : Sound sb s' (s'.inodes sb k) := by
    apply h.sound.of_same hkeep.bit hrefs
    · intro i hi ht
      rw [hinodes i hi] at ht ⊢
      exact .inr ⟨ht, rfl⟩
    · rintro c (hc | ⟨i, hc⟩) hcl
      · exact hclean c (by omega) hcl
      · exact hclean c (hind i c hc) hcl
  refine ⟨⟨by rw [htable]; exact h.inum_lt, by rw [htable]; exact h.type_ne, hsound⟩,
    fun l _ => by rw [htable], ⟨_, by rw [htable]⟩, hkeep.dinode, ?_, ?_, ?_⟩
  · intro x c hx
    rw [hrefs, hx]
  · intro i p c hi _ hx
    apply hold
    rintro rfl
    exact hi (Prod.mk.inj (h.sound.owned.inj hx hb)).1
  · intro bn' c o' hbn' ho' hx
    by_cases hbb : bn' = bn
    · subst hbb
      obtain rfl : b = c := Option.some.inj (hb.symm.trans hx)
      rw [hbuf, update_self, blit]
      by_cases hin : o ≤ o' ∧ o' < o + m
      · have hsum : bn' * BSIZE + o + (o' - o) = bn' * BSIZE + o' := by omega
        rw [if_pos hin, if_pos (by omega), hdata _ (by omega), hsum]
      · rw [if_neg hin, if_neg (by omega)]
    · have hc : c ≠ b := by
        rintro rfl
        exact hbb (Pos.ofBlock_inj hbn' hbn (Prod.mk.inj (h.sound.owned.inj hx hb)).2)
      rw [hold c hc, if_neg]
      unfold BSIZE at *
      omega

/-- A write of `data` that went from offset `off` to `off'`, and copied bytes up to `top`,
did not touch byte `o` of block `bn`, or put there what was there. -/
def Untouched (sb : Superblock) (k off' top : ℕ) (data : ℕ → UInt8) (s : Fs) (bn b o : ℕ) : Prop :=
  bn * BSIZE + o < off' ∨ top ≤ bn * BSIZE + o ∨
    s.refs sb k ((s.itable k).inum, .ofBlock bn) = some b ∧ data (bn * BSIZE + o) = s.buf b o

/-- What the loop of `writei` leaves behind when it has come from offset `off`
to `off'`: the bytes in between are stored and logged.  A failed copy may have changed
bytes above `off'`, up to `top`. -/
structure Stored (sb : Superblock) (k off off' top : ℕ) (data : ℕ → UInt8) (s s' : Fs) :
    Prop where
  locked : Locked sb s' k
  wrote : Wrote sb k off top data s s'
  stored : ∀ j, off ≤ j → j < off' → ∃ b,
    s'.refs sb k ((s.itable k).inum, .ofBlock (j / BSIZE)) = some b ∧
      s'.buf b (j % BSIZE) = data j ∧ s'.Settled b (j % BSIZE)
  settled : ∀ b, ∀ o < BSIZE, s.Settled b o →
    (∀ bn < MAXFILE, s'.refs sb k ((s.itable k).inum, .ofBlock bn) = some b →
      Untouched sb k off' top data s bn b o) → s'.Settled b o

theorem Stored.start (h : Locked sb s' k) (hwrote : Wrote sb k off off data s s')
    (hset : ∀ b o, s.Settled b o → s'.Settled b o) : Stored sb k off off off data s s' where
  locked := h
  wrote := hwrote
  stored := by omega
  settled b o _ hb _ := hset b o hb

theorem Untouched.trans {off' top mid : ℕ} {s₁ : Fs} (h : Untouched sb k off' top data s bn b o)
    (hbn : bn < MAXFILE) (ho : o < BSIZE) (hwrote : Wrote sb k off mid data s s₁) :
    Untouched sb k off' top data s₁ bn b o := by
  refine h.imp_right (.imp_right ?_)
  rintro ⟨hx, hdata⟩
  rw [hwrote.bytes bn b o hbn ho hx, hdata, ite_self, hwrote.inum_eq]
  exact ⟨hwrote.kept _ _ hx, rfl⟩

theorem Stored.cons {off' top : ℕ} {s₁ s₂ : Fs} (hmap : Wrote sb k off off data s s₁)
    (hb : s₁.refs sb k ((s.itable k).inum, .ofBlock (off / BSIZE)) = some b)
    (hbn : off / BSIZE < MAXFILE) (hm : off % BSIZE + m ≤ BSIZE)
    (hchunk : Wrote sb k off (off + m) data s₁ s₂)
    (hset : ∀ c o, s.Settled c o ∨ c = b → s₂.Settled c o)
    (hrest : Stored sb k (off + m) off' top data s₂ s') (htop : off + m ≤ top) :
    Stored sb k off off' top data s s' := by
  have hinum₁ := hmap.inum_eq
  have hinum₂ := hchunk.inum_eq
  have hwrote := hmap.trans hchunk le_rfl (by omega)
  have hb' : s'.refs sb k ((s.itable k).inum, .ofBlock (off / BSIZE)) = some b :=
    hrest.wrote.kept _ _ (hchunk.kept _ _ hb)
  refine ⟨hrest.locked, hwrote.trans hrest.wrote (by omega) htop, ?_, ?_⟩
  · intro j hlo hhi
    by_cases hj : j < off + m
    · have hlt' : off % BSIZE + (j - off) < BSIZE := by omega
      obtain ⟨hdiv, hmod⟩ := div_mod_of_chunk hlt'
      rw [Nat.add_sub_cancel' hlo] at hdiv hmod
      have hjj : off / BSIZE * BSIZE + j % BSIZE = j := by
        rw [← hdiv]
        exact Nat.div_add_mod' j BSIZE
      have hjB : j % BSIZE < BSIZE := Nat.mod_lt j (by decide)
      rw [hdiv]
      have hb₁ : s₁.refs sb k ((s₁.itable k).inum, .ofBlock (off / BSIZE)) = some b := by
        rw [hinum₁, hb]
      have hb₂ : s₂.refs sb k ((s₂.itable k).inum, .ofBlock (off / BSIZE)) = some b := by
        rw [hinum₂]
        exact hchunk.kept _ _ hb₁
      refine ⟨b, hb', ?_, hrest.settled b _ hjB (hset b _ (.inr rfl)) fun bn' hbn' hx => .inl ?_⟩
      · rw [hrest.wrote.bytes _ b _ hbn hjB hb₂, hjj, if_neg (by omega),
          hchunk.bytes _ b _ hbn hjB hb₁, hjj, if_pos ⟨hlo, hj⟩]
      · rw [hinum₂, hinum₁] at hx
        have hat : bn' = off / BSIZE :=
          Pos.ofBlock_inj hbn' hbn (Prod.mk.inj (hrest.locked.sound.owned.inj hx hb')).2
        rwa [hat, hjj]
    · obtain ⟨b', hb', hval⟩ := hrest.stored j (by omega) hhi
      exact ⟨b', by rwa [hinum₂, hinum₁] at hb', hval⟩
  · intro c o ho hc hout
    refine hrest.settled c o ho (hset c o (.inl hc)) fun bn' hbn' hx => ?_
    rw [hinum₂, hinum₁] at hx
    exact (hout bn' hbn' hx).trans hbn' ho hwrote

/-- Where the loop of `writei`, started at `off`, begins the chunk that holds offset `j`. -/
def chunkStart (off j : ℕ) : ℕ := max off (j / BSIZE * BSIZE)

theorem chunkStart_of_chunk {j : ℕ} (h : off % BSIZE + j < BSIZE) :
    chunkStart off (off + j) = off := by
  unfold chunkStart BSIZE at *
  omega

theorem chunkStart_next {j : ℕ} (hm : m = BSIZE - off % BSIZE) (hj : off + m ≤ j) :
    chunkStart (off + m) j = chunkStart off j := by
  unfold chunkStart BSIZE at *
  omega

/-- Which bytes above the end `off'` of a write have changed: none, when it was complete or
met a full disk above the size `z` of the file; or those of the chunk in which the copy
failed, up to the byte it failed at.  `e` is where the readable source bytes end. -/
def Strays (avail n z off e off' top : ℕ) : Prop :=
  top = off' ∧ (n ≤ avail ∨ z ≤ off' ∧ off' ≤ chunkStart off e) ∨
    avail < n ∧ off' = chunkStart off e ∧ top = e

/-- The loop of `writei`.  The bytes end up where `data` says; with `n` readable
source bytes the loop stops early only on a full disk. -/
theorem writeLoop_spec (src : Source) (data : ℕ → UInt8) (h : Locked sb s k)
    (hfuel : n - tot ≤ fuel) (htot : tot ≤ n)
    (hoff : off + (n - tot) ≤ MAXFILE * BSIZE)
    (hdata : ∀ j, tot ≤ j → data (off + (j - tot)) = src.byte j) :
    ∃ tot' off' top s', writeLoop sb k n src fuel s tot off = .ok (tot', off', s') ∧
      Stored sb k off off' top data s s' ∧ tot ≤ tot' ∧ tot' ≤ n ∧ off' = off + (tot' - tot) ∧
      off' ≤ top ∧ (n ≤ src.avail → top = off' ∧ (tot' = n ∨ Full sb s')) ∧
      (tot ≤ src.avail →
        Strays src.avail n (s.itable k).size off (off + (src.avail - tot)) off' top) := by
  induction fuel generalizing s tot off with
  | zero =>
    have : tot = n := by omega
    exact ⟨tot, off, off, s, rfl, .start h (.refl s) fun _ _ hset => hset, le_rfl, htot, by omega,
      le_rfl, fun _ => ⟨rfl, .inl this⟩, fun hav => .inl ⟨rfl, .inl (this ▸ hav)⟩⟩
  | succ fuel ih =>
    unfold writeLoop
    by_cases hlt : tot < n
    swap
    · have : tot = n := by omega
      exact ⟨tot, off, off, s, if_neg hlt, .start h (.refl s) fun _ _ hset => hset, le_rfl, htot,
        by omega, le_rfl, fun _ => ⟨rfl, .inl this⟩, fun hav => .inl ⟨rfl, .inl (this ▸ hav)⟩⟩
    have hbn : off / BSIZE < MAXFILE := by
      unfold MAXFILE NINDIRECT NDIRECT BSIZE at *
      omega
    obtain ⟨addr, s₁, hmap, hload⟩ := bmap_spec h hbn
    rw [if_pos hlt, hmap]
    simp only [bind, Except.bind]
    by_cases haddr : addr = 0
    · rw [if_pos haddr]
      -- the blocks below the size are mapped
      have hsize : (s.itable k).size ≤ off := by
        by_contra hlt
        obtain ⟨b, -, hb⟩ := h.ref_of_lt_size (Nat.lt_of_not_le hlt)
        rw [bmap_of_ref hbn hb] at hmap
        obtain ⟨rfl, rfl⟩ := Prod.mk.inj (Except.ok.inj hmap)
        exact (slots_eq_some.mp hb).2.2.1 haddr
      exact ⟨tot, off, off, s₁, rfl,
        .start hload.locked (hload.wrote off data) fun _ _ hset => hset.bmap hmap, le_rfl, htot,
        by omega, le_rfl, fun _ => ⟨rfl, .inr (hload.full haddr)⟩,
        fun _ => .inl ⟨rfl, .inr ⟨hsize, le_max_left ..⟩⟩⟩
    rw [if_neg haddr]
    obtain ⟨hm0, hmn, hmB⟩ := chunk_bounds off (n - tot) (by omega)
    generalize hm : min (n - tot) (BSIZE - off % BSIZE) = m at *
    have hb := hload.ref haddr
    have hinum := (hload.wrote off data).inum_eq
    have hbase : off / BSIZE * BSIZE + off % BSIZE = off := Nat.div_add_mod' off BSIZE
    have hbytes : ∀ j, src.byte (tot + j) = data (off + j) := by
      intro j
      rw [← hdata (tot + j) (by omega), Nat.add_sub_cancel_left]
    -- storing the first `m'` bytes of the chunk
    have hchunk : ∀ m' ≤ m, ∀ s₂ : Fs, s₂.itable = s₁.itable →
        s₂.buf = update s₁.buf addr
          (blit (s₁.buf addr) (off % BSIZE) m' fun j => src.byte (tot + j)) →
        (∀ c ≠ addr, s₁.Clean c → s₂.Clean c) →
        Locked sb s₂ k ∧ Wrote sb k off (off + m') data s₁ s₂ := by
      intro m' hm' s₂ htab hbuf hcl
      have hstore : Locked sb s₂ k ∧ Wrote sb k (off / BSIZE * BSIZE + off % BSIZE)
          (off / BSIZE * BSIZE + off % BSIZE + m') data s₁ s₂ :=
        hload.locked.write_chunk hbn (by rw [hinum]; exact hb) (by omega)
          (fun j _ => by rw [hbytes, hbase]) hbuf htab hcl
      rwa [hbase] at hstore
    split_ifs with havail
    · obtain ⟨hlocked, hwrote⟩ := hchunk (src.avail - tot) (by omega)
        (s₁.setBuf addr (blit (s₁.buf addr) (off % BSIZE) (src.avail - tot) fun j =>
          src.byte (tot + j))) rfl rfl (fun c hc hcl => hcl.setBuf hc)
      refine ⟨tot, off, off + (src.avail - tot), _, rfl,
        ⟨hlocked, (hload.wrote off data).trans hwrote le_rfl (by omega), by omega, ?_⟩, le_rfl,
        htot, by omega, by omega, by omega,
        fun hav => .inr ⟨by omega, (chunkStart_of_chunk (by omega)).symm, rfl⟩⟩
      intro b o ho hset hout
      have hset₁ : s₁.Settled b o := hset.bmap hmap
      by_cases hbb : b = addr
      swap
      · change s₁.disk b o = update s₁.buf addr _ b o
        rw [update_of_ne hbb]
        exact hset₁
      -- the bytes of the block outside the failed copy, and those copied over themselves
      subst hbb
      have huntouched := hout (off / BSIZE) hbn (hwrote.kept _ _ hb)
      change s₁.disk b o = update s₁.buf b _ b o
      rw [update_self, blit]
      split_ifs with hin
      · have hpos : off + (o - off % BSIZE) = off / BSIZE * BSIZE + o := by omega
        obtain ⟨hx, hdata'⟩ := (huntouched.resolve_left (by omega)).resolve_left (by omega)
        have hsame : s₁.buf b o = s.buf b o := by
          rw [(hload.wrote off data).bytes _ b o hbn ho hx, if_neg (by omega)]
        rw [hbytes, hpos, hdata', ← hsame]
        exact hset₁
      · exact hset₁
    · obtain ⟨hlocked, hwrote⟩ := hchunk m le_rfl
        (s₁.logWrite addr (blit (s₁.buf addr) (off % BSIZE) m fun j => src.byte (tot + j)))
        rfl rfl (fun c _ hcl => .logWrite (.inl hcl))
      have hdata' : ∀ j, tot + m ≤ j → data (off + m + (j - (tot + m))) = src.byte j := by
        intro j hj
        have hsum : off + m + (j - (tot + m)) = off + (j - tot) := by omega
        rw [hsum, hdata j (by omega)]
      obtain ⟨tot', off', top, s', hloop, hst, h1, h2, h3, h4, h5, hstray⟩ :=
        ih hlocked (by omega) (by omega) (by omega) hdata'
      refine ⟨tot', off', top, s', hloop,
        .cons (hload.wrote off data) hb hbn hmB hwrote ?_ hst (by omega), by omega, h2, by omega,
        h4, h5, fun hav => ?_⟩
      · exact fun c o hc => .logWrite (hc.imp_left fun hset => hset.bmap hmap)
      · have hend : off + m + (src.avail - (tot + m)) = off + (src.avail - tot) := by omega
        obtain ⟨addrs, hself⟩ := ((hload.wrote off data).trans hwrote le_rfl (by omega)).self
        rcases hstray (by omega) with ⟨htop, hdone⟩ | ⟨hshort, hoff', htop⟩
        · rw [hself, hend] at hdone
          refine .inl ⟨htop, ?_⟩
          by_cases hshort : src.avail < n
          · rw [chunkStart_next (by omega) (by omega)] at hdone
            exact hdone
          · exact .inl (Nat.le_of_not_lt hshort)
        · rw [hend] at hoff' htop
          rw [chunkStart_next (by omega) (by omega)] at hoff'
          exact .inr ⟨hshort, hoff', htop⟩

theorem Locked.setSize {z : ℕ} (h : Locked sb s k)
    (hmapped : ∀ bn, bn * BSIZE < z → bn < MAXFILE ∧
      (s.refs sb k ((s.itable k).inum, .ofBlock bn)).isSome)
    (hs' : s' = s.setInode k { s.itable k with size := z }) :
    Locked sb s' k ∧ s'.refs sb k = s.refs sb k := by
  have hself : s'.itable k = { s.itable k with size := z } := by
    rw [hs', setInode_itable, update_self]
  have hinum : (s'.itable k).inum = (s.itable k).inum := by rw [hself]
  have hother : ∀ i ≠ (s.itable k).inum, s'.inodes sb k i = s.inodes sb k i := by
    intro i hi
    rw [inodes_of_ne hi, inodes_of_ne (hinum ▸ hi), hs']
    rfl
  have hrefs : s'.refs sb k = s.refs sb k := by
    apply slots_congr
    intro i _
    by_cases hi : i = (s.itable k).inum
    · subst hi
      rw [inodes_inum, ← hinum, inodes_inum, hself, hs']
      exact ⟨rfl, fun _ p => Dinode.blockAt_congr rfl (fun _ => rfl) p⟩
    · rw [hother i hi, hs']
      exact ⟨rfl, fun _ _ => rfl⟩
  refine ⟨⟨hinum ▸ h.inum_lt, by rw [hself]; exact h.type_ne, ⟨?_, ?_, ?_⟩⟩, hrefs⟩
  · change Owned _ _ (s'.refs sb k)
    rw [hrefs, hs']
    exact h.sound.owned
  · intro i hi ht bn hbn
    change bn < MAXFILE ∧ (s'.refs sb k (i, .ofBlock bn)).isSome
    rw [hrefs]
    by_cases hik : i = (s.itable k).inum
    · subst hik
      rw [← hinum, inodes_inum, hself] at hbn
      exact hmapped bn hbn
    · rw [hother i hik] at ht hbn
      exact h.sound.mapped i hi ht bn hbn
  · intro c hc
    rw [hs']
    apply h.sound.clean c
    refine hc.imp_right ?_
    rintro ⟨i, hi⟩
    change s'.refs sb k (i, .indirect) = some c at hi
    rw [hrefs] at hi
    exact ⟨i, hi⟩

theorem byte_congr {d d' : Dinode} {buf buf' : ℕ → Block} {j : ℕ}
    (hat : d'.blockAt buf' (.ofBlock (j / BSIZE)) = d.blockAt buf (.ofBlock (j / BSIZE)))
    (hbuf : buf' (d.blockAt buf (.ofBlock (j / BSIZE))) (j % BSIZE) =
      buf (d.blockAt buf (.ofBlock (j / BSIZE))) (j % BSIZE)) : d'.byte buf' j = d.byte buf j := by
  rw [Dinode.byte, Dinode.byte, hat, hbuf]

/-- What a call of `writei` that passes its checks does. -/
structure Writes (sb : Superblock) (k off tot top : ℕ) (data : ℕ → UInt8) (s s' : Fs) :
    Prop where
  sound : Sound sb s' (s'.dinode sb)
  table : ∀ l ≠ k, s'.itable l = s.itable l
  self : ∃ addrs, s'.itable k =
    { s.itable k with size := max (s.itable k).size (off + tot), addrs := addrs }
  written : s'.dinode sb (s.itable k).inum = (s'.itable k).toDinode
  other : ∀ i < sb.ninodes, i ≠ (s.itable k).inum → s'.dinode sb i = s.dinode sb i
  stored : ∀ j, off ≤ j → j < off + tot → (s'.itable k).byte s'.buf j = data j ∧
    s'.Settled ((s'.itable k).blockAt s'.buf (.ofBlock (j / BSIZE))) (j % BSIZE)
  bytes : ∀ j < (s.itable k).size, (s'.itable k).byte s'.buf j =
    if off ≤ j ∧ j < top then data j else (s.itable k).byte s.buf j
  contents : ∀ i < sb.ninodes, i ≠ (s.itable k).inum → (s.dinode sb i).type ≠ 0 →
    (s'.dinode sb i).contents s'.buf = (s.dinode sb i).contents s.buf
  refs : ∀ x b, s.refs sb k x = some b → slots sb s'.buf (s'.dinode sb) x = some b
  settled : ∀ b, ∀ o < BSIZE, s.Settled b o →
    (∀ bn < MAXFILE, slots sb s'.buf (s'.dinode sb) ((s.itable k).inum, .ofBlock bn) = some b →
      Untouched sb k (off + tot) top data s bn b o) → s'.Settled b o

theorem Writes.kept (h : Writes sb k off tot top data s s') {j : ℕ} (hj : j < (s.itable k).size)
    (hout : j < off ∨ top ≤ j) : (s'.itable k).byte s'.buf j = (s.itable k).byte s.buf j := by
  rw [h.bytes j hj, if_neg (by omega)]

theorem Stored.writes {off' top : ℕ} {s₁ : Fs} (h : Locked sb s k)
    (hst : Stored sb k off off' top data s s₁) (hoff : off ≤ (s.itable k).size)
    (hle : off ≤ off') (hmax : off' ≤ MAXFILE * BSIZE)
    (hs' : s' = (s₁.setInode k
      { s₁.itable k with size := max (s₁.itable k).size off' }).iupdate sb k) :
    Writes sb k off (off' - off) top data s s' := by
  obtain ⟨a, hself₁⟩ := hst.wrote.self
  have hinum₁ := hst.wrote.inum_eq
  have hsize₁ : (s₁.itable k).size = (s.itable k).size := by rw [hself₁]
  -- the blocks below the new size are mapped
  have hmapped : ∀ bn, bn * BSIZE < max (s₁.itable k).size off' →
      bn < MAXFILE ∧ (s₁.refs sb k ((s₁.itable k).inum, .ofBlock bn)).isSome := by
    intro bn hbn
    have hB : bn * BSIZE / BSIZE = bn := Nat.mul_div_cancel bn (by decide)
    by_cases hold : bn * BSIZE < (s₁.itable k).size
    · obtain ⟨b, hlt, hb⟩ := hst.locked.ref_of_lt_size hold
      rw [hB] at hlt hb
      exact ⟨hlt, Option.isSome_iff_exists.mpr ⟨b, hb⟩⟩
    · obtain ⟨b, hb, -⟩ := hst.stored (bn * BSIZE) (by omega) (by omega)
      rw [hB, ← hinum₁] at hb
      refine ⟨?_, Option.isSome_iff_exists.mpr ⟨b, hb⟩⟩
      unfold BSIZE at *
      omega
  set s₂ := s₁.setInode k { s₁.itable k with size := max (s₁.itable k).size off' } with hs₂
  obtain ⟨hlocked, hrefs⟩ := hst.locked.setSize hmapped hs₂
  have hself₂ : s₂.itable k =
      { s.itable k with size := max (s.itable k).size (off + (off' - off)), addrs := a } := by
    rw [hs₂, setInode_itable, update_self, hself₁, Nat.add_sub_cancel' hle]
  have hinum₂ : (s₂.itable k).inum = (s.itable k).inum := by rw [hself₂]
  have hfits : (s₂.itable k).Fits := by
    have := hlocked.sound.fits hlocked.inum_lt (by rw [inodes_inum]; exact hlocked.type_ne)
    rwa [inodes_inum] at this
  have htable' : s'.itable = s₂.itable := by rw [hs', iupdate_itable]
  -- blocks of files lie above the inode area, which is all that `iupdate` changes
  have hbuf' : ∀ c, sb.nmeta ≤ c → s'.buf c = s₁.buf c := by
    intro c hc
    rw [hs', iupdate_buf hlocked.inum_lt hc]
    rfl
  have hrefs' : slots sb s'.buf (s'.dinode sb) = s₁.refs sb k := by
    rw [hs', slots_iupdate hlocked.sound hlocked.inum_lt hfits, hrefs]
  have hwritten : s'.dinode sb (s.itable k).inum = (s'.itable k).toDinode := by
    rw [htable', hs', iupdate_dinode hfits, ← hinum₂, inodes_inum]
  have hother : ∀ i < sb.ninodes, i ≠ (s.itable k).inum → s'.dinode sb i = s.dinode sb i := by
    intro i hi hne
    rw [hs', iupdate_dinode hfits, inodes_of_ne (hinum₂ ▸ hne)]
    exact hst.wrote.dinode i hi
  -- reading a byte of an inode through one of its places
  have hat : ∀ i p b, s₁.refs sb k (i, p) = some b → (s'.dinode sb i).blockAt s'.buf p = b := by
    intro i p b hb
    rw [← hrefs'] at hb
    exact (slots_eq_some.mp hb).2.2.2
  have hset' : ∀ b o, s₁.Settled b o → s'.Settled b o := by
    intro b o hb
    rw [hs']
    exact .logWrite (.inl hb)
  refine ⟨?_, ?_, ⟨a, by rw [htable', hself₂]⟩, hwritten, hother, ?_, ?_, ?_, ?_, ?_⟩
  · rw [hs']
    exact sound_iupdate hlocked.sound hlocked.inum_lt hfits
  · intro l hl
    rw [htable', hs₂, setInode_itable, update_of_ne hl, hst.wrote.table l hl]
  · intro j hlo hhi
    obtain ⟨b, hb, hval, hset⟩ := hst.stored j hlo (by omega)
    rw [← hwritten, Dinode.byte, hat _ _ b hb, hbuf' b (hst.locked.sound.nmeta_le hb), hval]
    exact ⟨rfl, hset' b _ hset⟩
  · intro j hj
    obtain ⟨b, hlt, hb⟩ := h.ref_of_lt_size hj
    have hb₁ := hst.wrote.kept _ _ hb
    have hval := hst.wrote.bytes _ b _ hlt (Nat.mod_lt j (by decide)) hb
    rw [Nat.div_add_mod' j BSIZE] at hval
    rw [← hwritten, Dinode.byte, hat _ _ b hb₁, hbuf' b (hst.locked.sound.nmeta_le hb₁), hval,
      Dinode.byte, blockAt_of_refs hb]
  · intro i hi hne ht
    unfold Dinode.contents
    rw [hother i hi hne]
    apply List.map_congr_left
    intro j hj
    have hsize : j / BSIZE * BSIZE < (s.inodes sb k i).size := by
      rw [inodes_of_ne hne]
      exact (Nat.div_mul_le_self j BSIZE).trans_lt (List.mem_range.mp hj)
    obtain ⟨-, hsome⟩ := h.sound.mapped i hi (by rwa [inodes_of_ne hne]) _ hsize
    obtain ⟨b, hb⟩ := Option.isSome_iff_exists.mp hsome
    have hb₁ := hst.wrote.kept _ _ hb
    have hold := (slots_eq_some.mp hb).2.2.2
    rw [inodes_of_ne hne] at hold
    apply byte_congr
    · rw [hold, ← hother i hi hne]
      exact hat i _ b hb₁
    · rw [hold, hbuf' b (hst.locked.sound.nmeta_le hb₁),
        hst.wrote.others i _ b hne (Pos.ofBlock_ne_indirect _) hb]
  · intro x b hx
    rw [hrefs']
    exact hst.wrote.kept x b hx
  · intro b o ho hb hout
    rw [hrefs', Nat.add_sub_cancel' hle] at hout
    exact hset' b o (hst.settled b o ho hb hout)

theorem writei_of_invalid
    (hout : (s.itable k).size < off ∨ MAXFILE * BSIZE < off + n) (h32 : off + n < 2 ^ 32) :
    s.writei sb k src off n = .ok (-1, s) := by
  unfold writei
  rw [Nat.mod_eq_of_lt h32]
  by_cases hoff : (s.itable k).size < off ∨ off + n < off
  · rw [if_pos hoff]
  · rw [if_neg hoff, if_pos (by omega)]

theorem writei_of_wrap (h : 2 ^ 32 ≤ off + n) (hoff : off < 2 ^ 32) (hn : n < 2 ^ 32) :
    s.writei sb k src off n = .ok (-1, s) := by
  unfold writei
  rw [if_pos (by omega)]

theorem writei_of_valid (src : Source) (h : Locked sb s k) (hoff : off ≤ (s.itable k).size)
    (hmax : off + n ≤ MAXFILE * BSIZE) :
    ∃ (tot top : ℕ) (s' : Fs), s.writei sb k src off n = .ok (↑tot, s') ∧
      Writes sb k off tot top (fun j => src.byte (j - off)) s s' ∧ tot ≤ n ∧
      (n ≤ src.avail → top = off + tot ∧ (tot = n ∨ Full sb s')) ∧
      Strays src.avail n (s.itable k).size off (off + src.avail) (off + tot) top := by
  have h32 : off + n < 2 ^ 32 := hmax.trans_lt (by decide)
  obtain ⟨tot, off', top, s₁, hloop, hst, -, htot, hoff', -, hfull, hstray⟩ :=
    writeLoop_spec src (fun j => src.byte (j - off)) h (Nat.sub_le n 0) (Nat.zero_le n) (by omega)
      (fun j _ => by simp only [Nat.sub_zero, Nat.add_sub_cancel_left])
  have hoff'' : off' - off = tot := by omega
  -- both branches of the last test set the size to the larger of the two
  have hsize : (if (s₁.itable k).size < off' then
      s₁.setInode k { s₁.itable k with size := off' } else s₁) =
        s₁.setInode k { s₁.itable k with size := max (s₁.itable k).size off' } := by
    split_ifs with hlt
    · rw [max_eq_right hlt.le]
    · rw [max_eq_left (Nat.le_of_not_lt hlt)]
      unfold setInode
      rw [update_eq_self]
  obtain rfl : off' = off + tot := by omega
  refine ⟨tot, top, _, ?_, hoff'' ▸ hst.writes h hoff (by omega) (by omega) rfl, htot, ?_,
    hstray (Nat.zero_le _)⟩
  · unfold writei
    rw [Nat.mod_eq_of_lt h32, if_neg (by omega), if_neg (by omega), hloop]
    simp only [bind, Except.bind, hsize]
  · intro hav
    obtain ⟨htop, hdone⟩ := hfull hav
    refine ⟨by omega, hdone.imp_right fun hf c hc => ?_⟩
    have hinum : (s₁.itable k).inum < sb.ninodes := hst.wrote.inum_eq ▸ h.inum_lt
    rw [iupdate_bit (by simpa using hinum)]
    exact hf c hc

end Fs

end Xv6
