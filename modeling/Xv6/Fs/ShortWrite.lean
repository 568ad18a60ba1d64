import Xv6.Fs.Contents
import Xv6.Fs.Saved

/-!
# Short writes

`either_copyin` copies user bytes straight into the buffer of a block, and a
copy that fails part way leaves the bytes it has copied there, logged by no one.
A write that stops early changes only the bytes it reports exactly when these
bytes lie above the end of the file or are those that the file had.
-/

namespace Xv6

open Lib

namespace Fs

variable {sb : Superblock} {s s' : Fs} {b c j k n o off : ℕ} {bs : List ℕ} {src : Source}

/-- The buffers of the blocks `bs` are recycled, one after the other. -/
def recycle (s : Fs) (bs : List ℕ) : Fs := bs.foldl evict s

theorem recycle_itable : (s.recycle bs).itable = s.itable := by
  induction bs generalizing s with
  | nil => rfl
  | cons b bs ih => exact ih

theorem Settled.recycle (h : s.Settled c o) : (s.recycle bs).buf c o = s.buf c o := by
  induction bs generalizing s with
  | nil => rfl
  | cons b bs ih =>
    exact (ih (settled_evict (.inl h))).trans h.evict

theorem Inv.recycle (h : Inv sb s) (bs : List ℕ) : Inv sb (s.recycle bs) := by
  induction bs generalizing s with
  | nil => exact h
  | cons b bs ih => exact ih (h.evict b)

theorem Loaded.recycle (h : s.Loaded k) : (s.recycle bs).Loaded k := by
  rwa [Loaded, Held, recycle_itable]

def blockOf (s : Fs) (k j : ℕ) : ℕ := (s.itable k).blockAt s.buf (.ofBlock (j / BSIZE))

theorem Inv.saved_iff (h : Inv sb s) (hk : s.Loaded k) : s.Saved sb (s.itable k).inum ↔
    ∀ j < (s.itable k).size, s.Settled (s.blockOf k j) (j % BSIZE) := by
  unfold Saved
  rw [← (h.loaded k hk.1 hk.2).2]
  rfl

/-- The tests of `writei` that come before any copying. -/
def Refused (s : Fs) (k off n : ℕ) : Prop :=
  (s.itable k).size < off ∨ MAXFILE * BSIZE < off + n

/-- In the chunk in which the copy fails, the source has up to there the bytes that the
file has already. -/
def StraysEqual (s : Fs) (k : ℕ) (src : Source) (off : ℕ) : Prop :=
  ∀ j < (s.itable k).size, chunkStart off (off + src.avail) ≤ j → j < off + src.avail →
    src.byte (j - off) = (s.itable k).byte s.buf j

/-- The write changes only the bytes it reports: whichever buffers are recycled afterwards,
`readi` finds every other byte below the old size as it was. -/
def WritesReported (sb : Superblock) (s : Fs) (k : ℕ) (src : Source) (off n : ℕ) : Prop :=
  ∃ (r : ℤ) (s' : Fs), s.writei sb k src off n = .ok (r, s') ∧
    ∀ (bs : List ℕ) (off' n' : ℕ), off' + n' < 2 ^ 32 →
      ∃ out : List UInt8,
        (s'.recycle bs).readi sb k off' n' n' = .ok (↑out.length, out, s'.recycle bs) ∧
        ∀ j < (s.itable k).size, (j : ℤ) < off ∨ off + r ≤ j → off' ≤ j → j < off' + n' →
          out[j - off']? = some ((s.itable k).byte s.buf j)

theorem writei_of_refused (h : s.Refused k off n) (hoff : off < 2 ^ 32) (hn : n < 2 ^ 32) :
    s.writei sb k src off n = .ok (-1, s) := by
  by_cases hwrap : off + n < 2 ^ 32
  · exact writei_of_invalid h hwrap
  · exact writei_of_wrap (Nat.le_of_not_lt hwrap) hoff hn

/-- The indirect block of a file is never recycled with unlogged changes. -/
theorem Inv.blockOf_recycle (h : Inv sb s) (hk : s.Loaded k) (bs : List ℕ) :
    (s.recycle bs).blockOf k j = s.blockOf k j := by
  have hlocked := h.locked hk.1 hk.2
  unfold blockOf
  rw [recycle_itable]
  refine Dinode.blockAt_congr rfl (fun hind => funext fun o => ?_) _
  have hx := (refs_inum_eq_some (p := .indirect) hlocked hind).mpr rfl
  exact Settled.recycle (congrFun (hlocked.sound.clean _ (.inr ⟨_, hx⟩)) o)

theorem Inv.readi_bytes (h : Inv sb s) (hk : s.Loaded k) (h32 : off + n < 2 ^ 32) :
    ∃ out : List UInt8, s.readi sb k off n n = .ok (↑out.length, out, s) ∧
      ∀ j < (s.itable k).size, off ≤ j → j < off + n →
        out[j - off]? = some ((s.itable k).byte s.buf j) := by
  obtain ⟨_, hread, rfl⟩ := readi_full (h.locked hk.1 hk.2) h32
  refine ⟨_, hread, fun j hsize hlo hhi => ?_⟩
  rw [List.getElem?_take_of_lt (by omega), List.getElem?_drop, Nat.add_sub_cancel' hlo,
    Dinode.getElem?_contents, if_pos hsize]

theorem Inv.byte_recycle (h : Inv sb s) (hk : s.Loaded k) :
    ((s.recycle bs).itable k).byte (s.recycle bs).buf j =
      (s.recycle bs).buf (s.blockOf k j) (j % BSIZE) := by
  rw [← h.blockOf_recycle hk bs]
  rfl

/-- A state in which the old bytes outside a range are in the file and settled. -/
theorem Inv.writesReported {r : ℤ} (h : Inv sb s') (hk : s'.Loaded k)
    (hok : s.writei sb k src off n = .ok (r, s'))
    (hsize : (s.itable k).size ≤ (s'.itable k).size)
    (hkeep : ∀ j < (s.itable k).size, (j : ℤ) < off ∨ off + r ≤ j →
      (s'.itable k).byte s'.buf j = (s.itable k).byte s.buf j ∧
        s'.Settled (s'.blockOf k j) (j % BSIZE)) : WritesReported sb s k src off n := by
  refine ⟨r, s', hok, fun bs off' n' h32 => ?_⟩
  obtain ⟨out, hread, hbytes⟩ := (h.recycle bs).readi_bytes hk.recycle h32
  refine ⟨out, hread, fun j hj hrange hlo hhi => ?_⟩
  obtain ⟨hbyte, hset⟩ := hkeep j hj hrange
  rw [hbytes j (by rw [recycle_itable]; omega) hlo hhi, h.byte_recycle hk, hset.recycle, ← hbyte]
  rfl

/-- Conversely, such a byte reads as before, with whichever buffers recycled. -/
theorem Inv.byte_of_writesReported {r : ℤ} (h : Inv sb s) (h' : Inv sb s') (hk : s.Loaded k)
    (hk' : s'.Loaded k) (hok : s.writei sb k src off n = .ok (r, s'))
    (hkeep : WritesReported sb s k src off n) (hsize : (s.itable k).size ≤ (s'.itable k).size)
    (bs : List ℕ) (hj : j < (s.itable k).size) (hrange : (j : ℤ) < off ∨ off + r ≤ j) :
    (s'.recycle bs).buf (s'.blockOf k j) (j % BSIZE) = (s.itable k).byte s.buf j := by
  obtain ⟨r', s₁, hok', hread⟩ := hkeep
  obtain ⟨rfl, rfl⟩ := Prod.mk.inj (Except.ok.inj (hok.symm.trans hok'))
  have hlt : j + 1 < 2 ^ 32 := by
    obtain ⟨b, hbn, -⟩ := (h.locked hk.1 hk.2).ref_of_lt_size hj
    unfold MAXFILE NINDIRECT NDIRECT BSIZE at *
    omega
  obtain ⟨out, hout, hold⟩ := hread bs j 1 hlt
  obtain ⟨out', hout', hnew⟩ := (h'.recycle bs).readi_bytes hk'.recycle hlt
  obtain rfl : out = out' := (Prod.mk.inj (Prod.mk.inj (Except.ok.inj (hout.symm.trans hout'))).2).1
  have hsome := (hnew j (by rw [recycle_itable]; omega) le_rfl (by omega)).symm.trans
    (hold j hj hrange le_rfl (by omega))
  rw [← h'.byte_recycle hk', Option.some.inj hsome]

theorem Inv.writesReported_of_refused (h : Inv sb s) (hk : s.Loaded k)
    (hoff : off < 2 ^ 32) (hn : n < 2 ^ 32) (hout : s.Refused k off n) :
    WritesReported sb s k src off n ↔ s.Saved sb (s.itable k).inum := by
  have hok : s.writei sb k src off n = .ok (-1, s) := writei_of_refused hout hoff hn
  rw [h.saved_iff hk]
  constructor
  · intro hkeep j hj
    have hbyte := h.byte_of_writesReported h hk hk hok hkeep le_rfl [s.blockOf k j] hj (by omega)
    change Function.update s.buf (s.blockOf k j) (s.disk (s.blockOf k j)) _ _ = _ at hbyte
    rwa [Function.update_self] at hbyte
  · intro hset
    exact h.writesReported hk hok le_rfl fun j hj _ => ⟨rfl, hset j hj⟩

/-- A call that passes the tests: the bytes of a failed chunk are in the file. -/
theorem Inv.writesReported_of_valid (h : Inv sb s) (hk : s.Loaded k)
    (hsaved : s.Saved sb (s.itable k).inum) (hout : ¬ s.Refused k off n) :
    WritesReported sb s k src off n ↔ n ≤ src.avail ∨ s.StraysEqual k src off := by
  unfold Refused at hout
  rw [h.saved_iff hk] at hsaved
  obtain ⟨tot, top, s', hok, hw, -, -, hstray⟩ :=
    writei_of_valid src (h.locked hk.1 hk.2) (by omega : off ≤ (s.itable k).size)
      (by omega : off + n ≤ MAXFILE * BSIZE)
  obtain ⟨addrs, hself⟩ := hw.self
  have hinv : Inv sb s' := h.of_writes hk.1 hk.2 hw
  have hload : s'.Loaded k := by
    rw [Loaded, Held, hself]
    exact hk
  have hsize : (s.itable k).size ≤ (s'.itable k).size := by
    rw [hself]
    exact le_max_left ..
  constructor
  · intro hkeep
    rcases hstray with ⟨htop, hdone⟩ | ⟨hshort, hstart, htop⟩
    · -- a full disk is met above the size, and so above every copied byte of the file
      refine hdone.imp_right fun hfull j hj hlo _ => ?_
      omega
    · refine .inr fun j hj hlo hhi => ?_
      have hbyte := h.byte_of_writesReported hinv hk hload hok hkeep hsize [] hj (by omega)
      have hnew := hw.bytes j hj
      rw [if_pos (by unfold chunkStart at hlo; omega)] at hnew
      exact hnew.symm.trans hbyte
  · intro hequal
    refine hinv.writesReported hload hok hsize fun j hj hrange => ?_
    -- a byte above the reported range that was copied is one that was there already
    have hstrayed : off ≤ j → j < top → src.byte (j - off) = (s.itable k).byte s.buf j := by
      intro hlo hhi
      rcases hstray with ⟨htop, -⟩ | ⟨hshort, hstart, htop⟩
      · omega
      · exact (hequal.resolve_left (by omega)) j hj (by omega) (by omega)
    have hbyte : (s'.itable k).byte s'.buf j = (s.itable k).byte s.buf j := by
      rw [hw.bytes j hj]
      split_ifs with hin
      · exact hstrayed hin.1 hin.2
      · rfl
    obtain ⟨b, hlt, hb⟩ := (h.locked hk.1 hk.2).ref_of_lt_size hj
    have hblock : s.blockOf k j = b := blockAt_of_refs hb
    have hslot := hw.refs _ _ hb
    have hblock' : s'.blockOf k j = b := by
      rw [blockOf, ← hw.written]
      exact (slots_eq_some.mp hslot).2.2.2
    refine ⟨hbyte, ?_⟩
    rw [hblock']
    refine hw.settled b _ (Nat.mod_lt j (by decide)) (hblock ▸ hsaved j hj) fun bn hbn hx => ?_
    obtain rfl : bn = j / BSIZE :=
      Pos.ofBlock_inj hbn hlt (Prod.mk.inj (hw.sound.owned.inj hx hslot)).2
    unfold Untouched
    rw [Nat.div_add_mod' j BSIZE]
    by_cases hin : off ≤ j ∧ j < top
    · exact .inr (.inr ⟨hb, hblock ▸ hstrayed hin.1 hin.2⟩)
    · omega

/-- On a file whose bytes are logged as they are cached, a write changes only the bytes it
reports exactly when it is refused, when no byte of the source is out of reach, or when the bytes
it copied before it failed are above the end of the file or there already.  That the bytes are
logged is needed as well: a refused write, which does nothing, shows it. -/
theorem short_write_exact (h : Inv sb s) (hk : s.Loaded k) (hoff : off < 2 ^ 32)
    (hn : n < 2 ^ 32) :
    (s.Saved sb (s.itable k).inum → (WritesReported sb s k src off n ↔
      s.Refused k off n ∨ n ≤ src.avail ∨ s.StraysEqual k src off)) ∧
    (s.Refused k off n → (WritesReported sb s k src off n ↔
      s.Saved sb (s.itable k).inum)) := by
  refine ⟨fun hsaved => ?_, h.writesReported_of_refused hk hoff hn⟩
  by_cases hout : s.Refused k off n
  · exact iff_of_true ((h.writesReported_of_refused hk hoff hn hout).mpr hsaved) (.inl hout)
  · rw [h.writesReported_of_valid hk hsaved hout, or_iff_right hout]

def twoBytes : List Op :=
  [.ialloc T_FILE, .ilock 0, .writei 0 ⟨fun j => .ofNat (j + 1), 2⟩ 0 2]

/-- Only the first byte of the source can be read: a write that is too long is refused, one
of both bytes leaves the first byte behind unless it is the one the file has. -/
theorem short_write_exact_twoBytes : ∃ s, Run (step mkfsSuper) formatted twoBytes s ∧
    WritesReported mkfsSuper s 0 ⟨fun _ => 9, 1⟩ 0 (MAXFILE * BSIZE + 1) ∧
    WritesReported mkfsSuper s 0 ⟨fun _ => 1, 1⟩ 0 2 ∧
    ¬ WritesReported mkfsSuper s 0 ⟨fun _ => 9, 1⟩ 0 2 := by
  obtain ⟨s, hrun, hs⟩ := Run.exists_of_any
    (P := fun s => s.Loaded 0 ∧ (s.itable 0).size = 2 ∧ (s.itable 0).byte s.buf 0 = 1 ∧
      ∀ j < 2, s.disk (s.blockOf 0 j) (j % BSIZE) = s.buf (s.blockOf 0 j) (j % BSIZE))
    (by decide +kernel : (twoBytes.foldlM (step mkfsSuper) formatted).any _)
  obtain ⟨hload, hsize, hbyte, hset⟩ := of_decide_eq_true hs
  have hinv := inv_of_run
    (inv_iff.mpr ⟨exclusive_formatted, noHoles_formatted, coherent_formatted⟩) hrun
  have hsaved : s.Saved mkfsSuper (s.itable 0).inum :=
    (hinv.saved_iff hload).mpr fun j hj => hset j (by omega)
  refine ⟨s, hrun,
    ((short_write_exact hinv hload (by decide) (by decide)).1 hsaved).mpr (.inl (.inr ?_)),
    ((short_write_exact hinv hload (by decide) (by decide)).1 hsaved).mpr (.inr (.inr ?_)),
    fun hkeep => ?_⟩
  · decide
  · intro j _ _ hj
    obtain rfl : j = 0 := by simpa using hj
    exact hbyte.symm
  · rcases ((short_write_exact hinv hload (by decide) (by decide)).1 hsaved).mp hkeep with
      (hout | hout) | hav | hequal
    · omega
    · exact absurd hout (by decide)
    · exact absurd hav (by decide)
    · have hnine := hequal 0 (by omega) (by decide) (by decide)
      rw [hbyte] at hnine
      exact absurd hnine (by decide)

/-- The bytes that `readi` copies out of the file of entry 0. -/
def firstBytes (s : Fs) (n : ℕ) : Option (List UInt8) :=
  (s.readi mkfsSuper 0 0 n n).toOption.map fun r => r.2.1

/-- The copy fails at the second byte of the chunk: `writei` returns 0, yet the first byte
of the file reads as changed while its buffer is cached, and as before once the buffer has
been recycled. -/
theorem short_write_strays : ∃ s s', Run (step mkfsSuper) formatted twoBytes s ∧
    s.firstBytes 2 = some [1, 2] ∧
    s.writei mkfsSuper 0 ⟨fun _ => 9, 1⟩ 0 2 = .ok (0, s') ∧
    s'.firstBytes 2 = some [9, 2] ∧
    (s'.recycle [s'.blockOf 0 0]).firstBytes 2 = some [1, 2] := by
  obtain ⟨s, hrun, hs⟩ := Run.exists_of_any
    (P := fun s => s.firstBytes 2 = some [1, 2] ∧
      (s.writei mkfsSuper 0 ⟨fun _ => 9, 1⟩ 0 2).toOption.any fun r : ℤ × Fs =>
        r.1 = 0 ∧ r.2.firstBytes 2 = some [9, 2] ∧
          (r.2.recycle [r.2.blockOf 0 0]).firstBytes 2 = some [1, 2])
    (by decide +kernel : (twoBytes.foldlM (step mkfsSuper) formatted).any _)
  obtain ⟨hbefore, hafter⟩ := of_decide_eq_true hs
  cases hok : s.writei mkfsSuper 0 ⟨fun _ => 9, 1⟩ 0 2 with
  | error e => simp [hok, Except.toOption] at hafter
  | ok r =>
    obtain ⟨tot, s'⟩ := r
    simp only [hok, Except.toOption, Option.any_some, decide_eq_true_eq] at hafter
    obtain ⟨rfl, hcached, hreread⟩ := hafter
    exact ⟨s, s', hrun, hbefore, hok, hcached, hreread⟩

end Fs

end Xv6
