import Xv6.Fs.Nodes
import Xv6.Sys.Path

/-!
# Reading never allocates

`readi` calls `bmap`, which allocates a block where it finds none.  Below the size of an
inode it always finds one, whatever was written, truncated, linked and unlinked before,
so reading changes nothing.
-/

namespace Xv6.Fs

open Lib

variable {sb : Superblock} {s t u : Fs} {k : ℕ} {ops : List Op}

theorem isdiremptyLoop_cases (h : Locked sb s k) (fuel off : ℕ) :
    Caller.isdiremptyLoop sb k fuel s off = .error "isdirempty: readi" ∨
      ∃ r, Caller.isdiremptyLoop sb k fuel s off = .ok (r, s) := by
  induction fuel generalizing off with
  | zero => exact .inr ⟨true, rfl⟩
  | succ fuel ih =>
    unfold Caller.isdiremptyLoop
    by_cases hlt : off < (s.itable k).size
    swap
    · exact .inr ⟨true, if_neg hlt⟩
    have hoff : off < 2 ^ 32 := Nat.lt_of_add_right_lt (h.lt_of_lt_size hlt)
    rw [if_pos hlt]
    rcases readDirent_cases h hoff "isdirempty: readi" with herr | ⟨de, hde⟩
    · exact .inl (by simp only [herr, bind, Except.bind])
    · simp only [hde, bind, Except.bind]
      split_ifs
      · exact .inr ⟨_, rfl⟩
      · exact ih _

/-- Apart from the inode that it gets, `dirlookup` changes nothing. -/
theorem dirlookup_state (h : Locked sb s k) {name : Bytes} {found : Option (ℕ × ℕ)}
    (hok : s.dirlookup sb k name = .ok (found, t)) :
    t = s ∨ ∃ inum l, s.iget inum = .ok (l, t) := by
  unfold dirlookup at hok
  split_ifs at hok
  rcases dirlookupLoop_cases h name ((s.itable k).size / 16 + 1) 0 with hloop | ⟨x, hloop⟩
  · simp [hloop, bind, Except.bind] at hok
  simp only [hloop, bind, Except.bind] at hok
  cases x with
  | none => exact .inl (Prod.mk.inj (Except.ok.inj hok)).2.symm
  | some x =>
    cases hget : s.iget x.1 with
    | error msg => simp [hget] at hok
    | ok r =>
      simp only [hget] at hok
      obtain ⟨-, rfl⟩ := Prod.mk.inj (Except.ok.inj hok)
      exact .inr ⟨x.1, r.1, hget⟩

/-- After any operations no inode has a hole, so `readi` changes nothing at all, and
neither do its callers.  It stops short only if the copy fails, or if `off + n` wraps. -/
theorem reading_never_allocates (hex : Exclusive sb s) (hholes : NoHoles sb s)
    (hco : Coherent sb s) (hrun : Run (step sb) s ops t) :
    NoHoles sb t ∧
    (∀ k off n avail, t.Loaded k → off < 2 ^ 32 → n < 2 ^ 32 →
      ∃ r out, t.readi sb k off n avail = .ok (r, out, t) ∧
        (off + n < 2 ^ 32 → r = (min n ((t.itable k).size - off) : ℕ) ∨
          r = -1 ∧ avail < min n ((t.itable k).size - off)) ∧
        (2 ^ 32 ≤ off + n → r = 0)) ∧
    (∀ k name found u, t.Loaded k → t.dirlookup sb k name = .ok (found, u) →
      u.buf = t.buf ∧ u.disk = t.disk ∧ u.logged = t.logged ∧
        ∀ i < sb.ninodes, u.dinode sb i = t.dinode sb i) ∧
    (∀ k fuel off r u, t.Loaded k → Caller.isdiremptyLoop sb k fuel t off = .ok (r, u) →
      u = t) := by
  have hinv : Inv sb t := inv_of_run (inv_iff.mpr ⟨hex, hholes, hco⟩) hrun
  refine ⟨(inv_iff.mp hinv).2.1, fun k off n avail hk hoff hn => ?_,
    fun k name found u hk hok => ?_, fun k fuel off r u hk hok => ?_⟩
  · obtain ⟨r, out, hread, hr, hwrap⟩ := readi_spec avail (hinv.locked hk.1 hk.2) hoff hn
    exact ⟨r, out, hread, fun h32 => (hr h32).imp_left And.left, fun h32 => (hwrap h32).1⟩
  · rcases dirlookup_state (hinv.locked hk.1 hk.2) hok with rfl | ⟨inum, l, hget⟩
    · exact ⟨rfl, rfl, rfl, fun _ _ => rfl⟩
    · have hgets := gets_iget t inum
      rw [hget] at hgets
      cases hgets with
      | found _ _ => exact ⟨rfl, rfl, rfl, fun _ _ => rfl⟩
      | fresh _ _ _ => exact ⟨rfl, rfl, rfl, fun _ _ => rfl⟩
  · rcases isdiremptyLoop_cases (hinv.locked hk.1 hk.2) fuel off with herr | ⟨r', hr'⟩
    · cases herr.symm.trans hok
    · cases hr'.symm.trans hok
      rfl

def threeBytes : List Op :=
  [.ialloc T_FILE, .ilock 0, .writei 0 ⟨fun j => .ofNat (j + 1), 3⟩ 0 3]

theorem run_threeBytes : ∃ t, Run (step mkfsSuper) formatted threeBytes t ∧ t.Loaded 0 ∧
    (t.itable 0).size = 3 := by
  obtain ⟨t, hrun, ht⟩ := Run.exists_of_any
    (P := fun t => t.Loaded 0 ∧ (t.itable 0).size = 3)
    (by decide +kernel : (threeBytes.foldlM (step mkfsSuper) formatted).any _)
  exact ⟨t, hrun, of_decide_eq_true ht⟩

theorem reading_never_allocates_threeBytes : ∃ t, Run (step mkfsSuper) formatted threeBytes t ∧
    ∃ out, t.readi mkfsSuper 0 1 100 100 = .ok (2, out, t) := by
  obtain ⟨t, hrun, hload, hsize⟩ := run_threeBytes
  obtain ⟨-, hread, -⟩ := reading_never_allocates exclusive_formatted noHoles_formatted
    coherent_formatted hrun
  obtain ⟨r, out, hok, hr, -⟩ := hread 0 1 100 100 hload (by decide) (by decide)
  rw [hsize] at hr
  rcases hr (by decide) with rfl | ⟨-, hshort⟩
  · exact ⟨t, hrun, out, hok⟩
  · omega

/-- `read(fd, buf, -1)` at offset 1 of a file of three bytes returns 0, though two bytes are
there and could be copied. -/
theorem reading_wraps : ∃ t, Run (step mkfsSuper) formatted threeBytes t ∧
    (t.itable 0).size = 3 ∧
    ∃ out, t.readi mkfsSuper 0 1 (2 ^ 32 - 1) (2 ^ 32) = .ok (0, out, t) := by
  obtain ⟨t, hrun, hload, hsize⟩ := run_threeBytes
  have hinv := inv_of_run
    (inv_iff.mpr ⟨exclusive_formatted, noHoles_formatted, coherent_formatted⟩) hrun
  obtain ⟨r, out, hok, -, hzero⟩ := readi_spec (2 ^ 32) (hinv.locked hload.1 hload.2)
    (by decide : 1 < 2 ^ 32) (by decide : 2 ^ 32 - 1 < 2 ^ 32)
  obtain ⟨rfl, rfl⟩ := hzero (by decide)
  exact ⟨t, hrun, hsize, [], hok⟩

end Xv6.Fs
