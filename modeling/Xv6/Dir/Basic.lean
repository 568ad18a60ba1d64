import Xv6.Fs.Contents
import Xv6.Lib.SlotMap

/-!
# Directories as slots

A directory file is a sequence of 16-byte slots.  What the functions of `fs.c`
see of a slot is whether it is empty, and otherwise its inode number and its
name up to the first NUL, of at most `DIRSIZ` bytes.
-/

namespace Xv6

open Lib

abbrev DirName := List UInt8

/-- The first `n` bytes at `p`, up to the first NUL. -/
def cstring (n : ℕ) (p : Bytes) : DirName := ((List.range n).map p).takeWhile (· ≠ 0)

/-- What a directory entry says. -/
def Dirent.slot (de : Dirent) : Option (DirName × ℕ) :=
  if de.inum = 0 then none else some (cstring DIRSIZ de.name, de.inum)

def slotsOf (l : List UInt8) : List (Option (DirName × ℕ)) :=
  (List.range (l.length / 16)).map fun n => (Dirent.ofBytes ((l.drop (16 * n)).take 16)).slot

/-! ### Names -/

theorem cstring_succ (n : ℕ) (p : Bytes) :
    cstring (n + 1) p = if p 0 = 0 then [] else p 0 :: cstring n fun i => p (i + 1) := by
  rw [cstring, List.range_succ_eq_map, List.map_cons, List.takeWhile_cons, List.map_map]
  by_cases hp : p 0 = 0
  · simp [hp]
  · simp [hp, cstring, Function.comp_def]

theorem strncmp_eq_zero_iff (n : ℕ) (p q : Bytes) :
    strncmp n p q = 0 ↔ cstring n p = cstring n q := by
  induction n generalizing p q with
  | zero => simp [strncmp, cstring]
  | succ n ih =>
    have hbyte : (p 0).toNat - (q 0).toNat = (0 : ℤ) ↔ p 0 = q 0 := by
      rw [sub_eq_zero, Nat.cast_inj, UInt8.toNat_inj]
    rw [strncmp, cstring_succ, cstring_succ]
    by_cases hp : p 0 = 0
    · rw [if_neg fun h => h.1 hp, hbyte, if_pos hp, hp]
      by_cases hq : q 0 = 0
      · simp [hq]
      · simp [hq, Ne.symm hq]
    · by_cases hpq : p 0 = q 0
      · rw [if_pos ⟨hp, hpq⟩, ih, if_neg hp, if_neg (hpq ▸ hp), hpq, List.cons_inj_right]
      · rw [if_neg fun h => hpq h.2, hbyte, if_neg hp]
        by_cases hq : q 0 = 0
        · simp [hq, hp]
        · simp [hq, hpq]

theorem namecmp_eq_zero_iff (p q : Bytes) :
    namecmp p q = 0 ↔ cstring DIRSIZ p = cstring DIRSIZ q :=
  strncmp_eq_zero_iff DIRSIZ p q

theorem cstring_congr {n : ℕ} {p q : Bytes} (h : ∀ i < n, p i = q i) :
    cstring n p = cstring n q := by
  rw [cstring, cstring, List.map_congr_left fun i hi => h i (List.mem_range.mp hi)]

theorem strncpy_succ {t : Bytes} (ht : t 0 ≠ 0) (i : ℕ) :
    strncpy t (i + 1) = strncpy (fun i => t (i + 1)) i := by
  simp [strncpy, List.range_succ_eq_map, List.any_map, Function.comp_def, ht]

/-- `strncpy` keeps a name, padded or cut off at `DIRSIZ`. -/
theorem cstring_strncpy (n : ℕ) (t : Bytes) : cstring n (strncpy t) = cstring n t := by
  induction n generalizing t with
  | zero => rfl
  | succ n ih =>
    have h0 : strncpy t 0 = t 0 := rfl
    rw [cstring_succ, cstring_succ, h0]
    split_ifs with ht
    · rfl
    · rw [← ih fun i => t (i + 1)]
      simp only [strncpy_succ ht]

/-! ### Slots -/

@[simp] theorem length_slotsOf (l : List UInt8) : (slotsOf l).length = l.length / 16 := by
  simp [slotsOf]

theorem getElem?_slotsOf {l : List UInt8} {n : ℕ} (hn : n < l.length / 16) :
    (slotsOf l)[n]? = some (Dirent.ofBytes ((l.drop (16 * n)).take 16)).slot := by
  rw [slotsOf, List.getElem?_map, List.getElem?_range hn]
  rfl

theorem take_drop_overwrite {l new : List UInt8} {j n : ℕ} (hj : 16 * j ≤ l.length)
    (hnew : new.length = 16) : ((overwrite l (16 * j) new).drop (16 * n)).take 16 =
      if n = j then new else (l.drop (16 * n)).take 16 := by
  apply List.ext_getElem?
  intro m
  rw [List.getElem?_take, List.getElem?_drop, getElem?_overwrite hj, hnew]
  split_ifs with hm hin hnj hnj hnj
  · congr 1
    omega
  · omega
  · omega
  · rw [List.getElem?_take, if_pos hm, List.getElem?_drop]
  · rw [List.getElem?_eq_none (by omega)]
  · rw [List.getElem?_take, if_neg hm]

theorem slotsOf_overwrite {l new : List UInt8} {j : ℕ} (hl : 16 ∣ l.length)
    (hj : j ≤ l.length / 16) (hnew : new.length = 16) :
    slotsOf (overwrite l (16 * j) new) =
      SlotMap.put (slotsOf l) j (Dirent.ofBytes new).slot := by
  have hoff : 16 * j ≤ l.length := by omega
  have hlen : (overwrite l (16 * j) new).length = max l.length (16 * j + 16) := by
    simp only [overwrite, List.length_append, List.length_take, List.length_drop, hnew]
    omega
  apply List.ext_getElem?
  intro n
  rw [SlotMap.getElem?_put (by simpa using hj)]
  rcases Nat.lt_or_ge n ((overwrite l (16 * j) new).length / 16) with hn | hn
  · rw [getElem?_slotsOf hn, take_drop_overwrite hoff hnew]
    split_ifs with hnj
    · rfl
    · rw [getElem?_slotsOf (by omega)]
  · rw [List.getElem?_eq_none (by simpa using hn), if_neg (by omega),
      List.getElem?_eq_none (by simp; omega)]

theorem slot_of_toBytes {name : Bytes} {inum : ℕ} (h1 : 1 ≤ inum) (h2 : inum ≤ 65535) :
    (Dirent.ofBytes ((List.range 16).map (⟨inum, strncpy name⟩ : Dirent).toBytes)).slot =
      some (cstring DIRSIZ name, inum) := by
  set de : Dirent := ⟨inum, strncpy name⟩
  have hbyte : ∀ i < 16, ((List.range 16).map de.toBytes).getD i 0 = de.toBytes i := by
    intro i hi
    simp [List.getD_eq_getElem?_getD, List.getElem?_range hi]
  have hinum : (Dirent.ofBytes ((List.range 16).map de.toBytes)).inum = inum := by
    calc getWord 2 (fun i => ((List.range 16).map de.toBytes).getD i 0) 0
        = getWord 2 de.toBytes 0 := getWord_congr fun i hi => hbyte _ (by omega)
      _ = inum := getWord_setWord_self 2 _ 0 (by change inum < 256 ^ 2; omega)
  have hname : cstring DIRSIZ (Dirent.ofBytes ((List.range 16).map de.toBytes)).name =
      cstring DIRSIZ name := by
    rw [← cstring_strncpy DIRSIZ name]
    refine cstring_congr fun i hi => ?_
    have hi : i < 14 := hi
    calc ((List.range 16).map de.toBytes).getD (2 + i) 0
        = de.toBytes (2 + i) := hbyte _ (by omega)
      _ = de.name (2 + i - 2) := setWord_of_outside _ (by omega)
      _ = strncpy name i := by rw [Nat.add_sub_cancel_left]
  rw [Dirent.slot, hinum, hname, if_neg (by omega)]

theorem slot_of_zero : (Dirent.ofBytes (List.replicate 16 0)).slot = none := by decide

end Xv6
