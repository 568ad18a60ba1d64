import Xv6.Dir.Basic

/-!
# Searching a directory

`dirlookup` and the loop of `dirlink` read the slots of a directory one after
the other.  On a directory file of whole slots no read fails, so the searches
deliver what the table of slots says.
-/

namespace Xv6

open Lib

namespace Fs

variable {sb : Superblock} {s t : Fs} {k n : ℕ} {name : Bytes}

def entries (s : Fs) (k : ℕ) : List (Option (DirName × ℕ)) :=
  slotsOf ((s.itable k).contents s.buf)

@[simp] theorem length_entries (s : Fs) (k : ℕ) :
    (s.entries k).length = (s.itable k).size / 16 := by
  rw [entries, length_slotsOf, Dinode.length_contents]

theorem entries_congr (hbuf : t.buf = s.buf)
    (hk : (t.itable k).toDinode = (s.itable k).toDinode) : t.entries k = s.entries k := by
  rw [entries, entries, hbuf, hk]

/-- Inside a directory file of whole slots every entry can be read. -/
theorem readDirent_spec (h : Locked sb s k) (hsize : 16 ∣ (s.itable k).size)
    (hn : 16 * n < (s.itable k).size) (msg : Panic) :
    ∃ de, s.readDirent sb k (16 * n) msg = .ok (de, s) ∧ (s.entries k)[n]? = some de.slot := by
  obtain ⟨_, hread, rfl⟩ := readi_full h (h.lt_of_lt_size hn)
  have hlen : ((((s.itable k).contents s.buf).drop (16 * n)).take 16).length = 16 := by
    rw [List.length_take, List.length_drop, Dinode.length_contents]
    omega
  refine ⟨Dirent.ofBytes _, ?_, getElem?_slotsOf (by rw [Dinode.length_contents]; omega)⟩
  simp only [readDirent, hread, bind, Except.bind, hlen]
  rfl

/-- What the loop of `dirlookup` finds from slot `n` on. -/
def Finds (s : Fs) (k : ℕ) (name : Bytes) (n : ℕ) : Option (ℕ × ℕ) → Prop
  | some (inum, off) => ∃ i, off = 16 * i ∧ SlotMap.Binds (s.entries k) (cstring DIRSIZ name) inum i
  | none => ∀ inum i, n ≤ i → ¬ SlotMap.Binds (s.entries k) (cstring DIRSIZ name) inum i

theorem dirlookupLoop_spec (h : Locked sb s k) (hsize : 16 ∣ (s.itable k).size) (name : Bytes)
    {fuel : ℕ} (hfuel : (s.itable k).size / 16 < fuel + n) :
    ∃ found, dirlookupLoop sb k name fuel s (16 * n) = .ok (found, s) ∧ Finds s k name n found := by
  induction fuel generalizing n with
  | zero =>
    refine ⟨none, rfl, fun inum i hi hb => ?_⟩
    have hlt := hb.lt
    rw [length_entries] at hlt
    omega
  | succ fuel ih =>
    rw [dirlookupLoop]
    split_ifs with hlt
    swap
    · refine ⟨none, rfl, fun inum i hi hb => ?_⟩
      have hlt := hb.lt
      rw [length_entries] at hlt
      omega
    obtain ⟨de, hread, hslot⟩ := readDirent_spec h hsize hlt "dirlookup read"
    simp only [hread, bind, Except.bind]
    split_ifs with hde
    · refine ⟨some (de.inum, 16 * n), rfl, n, rfl, ?_⟩
      rw [SlotMap.Binds, hslot, Dirent.slot, if_neg hde.1, (namecmp_eq_zero_iff _ _).mp hde.2]
    · obtain ⟨found, hloop, hfound⟩ := ih (n := n + 1) (by omega)
      rw [(by omega : 16 * n + 16 = 16 * (n + 1))]
      refine ⟨found, hloop, ?_⟩
      cases found with
      | some x => exact hfound
      | none =>
        intro inum i hi hb
        rcases Nat.eq_or_lt_of_le hi with rfl | hi
        · -- slot `n` has just been passed over
          rw [SlotMap.Binds, hslot, Dirent.slot] at hb
          split_ifs at hb with h0
          · simp at hb
          · simp only [Option.some_inj, Prod.mk.injEq] at hb
            exact hde ⟨h0, (namecmp_eq_zero_iff _ _).mpr hb.1.symm⟩
        · exact hfound inum i hi hb

theorem dirlinkLoop_spec (h : Locked sb s k) (hsize : 16 ∣ (s.itable k).size) {fuel : ℕ}
    (hfuel : (s.itable k).size / 16 < fuel + n) (hn : 16 * n ≤ (s.itable k).size)
    (hlive : ∀ i < n, ∃ x, (s.entries k)[i]? = some (some x)) :
    dirlinkLoop sb k fuel s (16 * n) = .ok (16 * SlotMap.place (s.entries k), s) := by
  induction fuel generalizing n with
  | zero => omega
  | succ fuel ih =>
    rw [dirlinkLoop]
    split_ifs with hlt
    swap
    · rw [SlotMap.place_eq (by rw [length_entries]; omega) hlive
        (.inr (by rw [length_entries]; omega))]
    obtain ⟨de, hread, hslot⟩ := readDirent_spec h hsize hlt "dirlink read"
    simp only [hread, bind, Except.bind]
    split_ifs with h0
    · rw [Dirent.slot, if_pos h0] at hslot
      rw [SlotMap.place_eq (by rw [length_entries]; omega) hlive (.inl hslot)]
    · rw [(by omega : 16 * n + 16 = 16 * (n + 1))]
      refine ih (by omega) (by omega) fun i hi => ?_
      rcases Nat.lt_succ_iff_lt_or_eq.mp hi with hi | rfl
      · exact hlive i hi
      · exact ⟨_, hslot.trans (by rw [Dirent.slot, if_neg h0])⟩

end Fs

end Xv6
