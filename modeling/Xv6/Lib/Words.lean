import Mathlib

/-!
# Little-endian words inside a byte array

A region of memory is a function from offsets to bytes.  `getWord k m off`
reads `k` bytes at `off` as an unsigned little-endian number and `setWord`
stores one.
-/

namespace Xv6.Lib

/-- The bytes of a memory region, by offset. -/
abbrev Bytes := ℕ → UInt8

def getWord : ℕ → Bytes → ℕ → ℕ
  | 0, _, _ => 0
  | k + 1, m, off => (m off).toNat + 256 * getWord k m (off + 1)

def setWord : ℕ → Bytes → ℕ → ℕ → Bytes
  | 0, m, _, _ => m
  | k + 1, m, off, v =>
    setWord k (Function.update m off (UInt8.ofNat v)) (off + 1) (v / 256)

theorem getWord_lt (k : ℕ) (m : Bytes) (off : ℕ) : getWord k m off < 256 ^ k := by
  induction k generalizing off with
  | zero => simp [getWord]
  | succ k ih =>
    have hbyte := (m off).toNat_lt
    have hrest := ih (off + 1)
    rw [getWord, pow_succ]
    omega

theorem getWord_congr {k off : ℕ} {m m' : Bytes}
    (h : ∀ i < k, m (off + i) = m' (off + i)) : getWord k m off = getWord k m' off := by
  induction k generalizing off with
  | zero => rfl
  | succ k ih =>
    have hhead : m off = m' off := h 0 (Nat.succ_pos k)
    have htail : getWord k m (off + 1) = getWord k m' (off + 1) := by
      apply ih
      intro i hi
      have := h (i + 1) (by omega)
      simpa [Nat.add_assoc, Nat.add_comm 1 i] using this
    rw [getWord, getWord, hhead, htail]

theorem setWord_of_outside {k off v x : ℕ} (m : Bytes) (h : x < off ∨ off + k ≤ x) :
    setWord k m off v x = m x := by
  induction k generalizing m off v with
  | zero => rfl
  | succ k ih =>
    rw [setWord, ih _ (by omega), Function.update_of_ne (by omega)]

theorem getWord_setWord_self (k : ℕ) (m : Bytes) (off : ℕ) {v : ℕ} (hv : v < 256 ^ k) :
    getWord k (setWord k m off v) off = v := by
  induction k generalizing m off v with
  | zero => simp only [pow_zero] at hv; simp [getWord]; omega
  | succ k ih =>
    have hdiv : v / 256 < 256 ^ k := by
      rw [pow_succ] at hv
      omega
    rw [getWord, setWord, ih _ _ hdiv, setWord_of_outside _ (by omega),
      Function.update_self]
    simp only [UInt8.toNat_ofNat']
    omega

theorem getWord_setWord_of_disjoint {j k off off' v : ℕ} (m : Bytes)
    (h : off' + j ≤ off ∨ off + k ≤ off') :
    getWord j (setWord k m off v) off' = getWord j m off' := by
  apply getWord_congr
  intro i hi
  exact setWord_of_outside m (by omega)

/-- Store consecutive `k`-byte words from `off` on. -/
def setWords (k : ℕ) : Bytes → ℕ → List ℕ → Bytes
  | m, _, [] => m
  | m, off, v :: vs => setWords k (setWord k m off v) (off + k) vs

theorem setWords_of_outside {k off x : ℕ} {vs : List ℕ} (m : Bytes)
    (h : x < off ∨ off + k * vs.length ≤ x) : setWords k m off vs x = m x := by
  induction vs generalizing m off with
  | nil => rfl
  | cons v vs ih =>
    rw [List.length_cons, Nat.mul_succ] at h
    rw [setWords, ih _ (by omega), setWord_of_outside _ (by omega)]

theorem getWord_setWords_of_disjoint {j k off off' : ℕ} {vs : List ℕ} (m : Bytes)
    (h : off' + j ≤ off ∨ off + k * vs.length ≤ off') :
    getWord j (setWords k m off vs) off' = getWord j m off' := by
  apply getWord_congr
  intro i hi
  exact setWords_of_outside m (by omega)

theorem getWord_setWords {k off : ℕ} {vs : List ℕ} (m : Bytes) (hvs : ∀ v ∈ vs, v < 256 ^ k)
    {i : ℕ} (hi : i < vs.length) :
    getWord k (setWords k m off vs) (off + k * i) = vs[i] := by
  induction vs generalizing m off i with
  | nil => simp at hi
  | cons v vs ih =>
    cases i with
    | zero =>
      rw [setWords, Nat.mul_zero, Nat.add_zero, getWord_setWords_of_disjoint _ (by omega),
        getWord_setWord_self _ _ _ (hvs v (by simp))]
      rfl
    | succ i =>
      have hi' : i < vs.length := by simpa using hi
      have htail : getWord k (setWords k (setWord k m off v) (off + k) vs) (off + k + k * i) =
          vs[i] := ih _ (fun w hw => hvs w (by simp [hw])) hi'
      rw [setWords, Nat.mul_succ, List.getElem_cons_succ, ← htail]
      congr 1
      omega

theorem getWord_zero (k off : ℕ) : getWord k (fun _ => 0) off = 0 := by
  induction k generalizing off with
  | zero => rfl
  | succ k ih => simp [getWord, ih]

end Xv6.Lib
