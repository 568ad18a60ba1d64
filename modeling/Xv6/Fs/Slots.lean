import Xv6.Fs.Volume
import Xv6.Lib.Ownership

/-!
# Who refers to a block

The places of an inode that can hold a block number are its direct addresses,
its indirect address, and the entries of its indirect block.  A volume is
sound when these places own the blocks of the free map exclusively, and when
no file has a hole below its size.
-/

namespace Xv6

open Lib

/-- The places of an inode that hold a block number. -/
inductive Pos
  | direct (j : Fin NDIRECT)
  | indirect
  | entry (j : Fin NINDIRECT)
  deriving DecidableEq

def Pos.ofAddr (j : Fin (NDIRECT + 1)) : Pos := Fin.lastCases .indirect .direct j

/-- The place of block `bn` of a file, for `bn < MAXFILE`. -/
def Pos.ofBlock (bn : ℕ) : Pos :=
  if h : bn < NDIRECT then .direct ⟨bn, h⟩
  else .entry ⟨(bn - NDIRECT) % NINDIRECT, Nat.mod_lt _ (by decide)⟩

@[simp] theorem Pos.ofAddr_castSucc (j : Fin NDIRECT) : Pos.ofAddr j.castSucc = .direct j := by
  simp [ofAddr]

@[simp] theorem Pos.ofAddr_last : Pos.ofAddr (Fin.last NDIRECT) = .indirect := by
  simp [ofAddr]

theorem Pos.ofBlock_of_lt {bn : ℕ} (h : bn < NDIRECT) : Pos.ofBlock bn = .direct ⟨bn, h⟩ :=
  dif_pos h

theorem Pos.ofBlock_of_le {bn : ℕ} (h : NDIRECT ≤ bn) (h' : bn - NDIRECT < NINDIRECT) :
    Pos.ofBlock bn = .entry ⟨bn - NDIRECT, h'⟩ := by
  rw [ofBlock, dif_neg (Nat.not_lt.mpr h)]
  simp only [Nat.mod_eq_of_lt h']

theorem Pos.ofBlock_ne_indirect (bn : ℕ) : Pos.ofBlock bn ≠ .indirect := by
  unfold ofBlock
  split <;> simp

theorem Pos.ofBlock_inj {bn bn' : ℕ} (h : bn < MAXFILE) (h' : bn' < MAXFILE)
    (heq : Pos.ofBlock bn = Pos.ofBlock bn') : bn = bn' := by
  unfold MAXFILE at h h'
  rcases Nat.lt_or_ge bn NDIRECT with hlt | hge
  · rcases Nat.lt_or_ge bn' NDIRECT with hlt' | hge'
    · simpa [ofBlock_of_lt hlt, ofBlock_of_lt hlt'] using heq
    · simp [ofBlock_of_lt hlt, ofBlock_of_le hge' (by omega)] at heq
  · rcases Nat.lt_or_ge bn' NDIRECT with hlt' | hge'
    · simp [ofBlock_of_lt hlt', ofBlock_of_le hge (by omega)] at heq
    · simp [ofBlock_of_le hge (by omega), ofBlock_of_le hge' (by omega)] at heq
      omega

namespace Dinode

/-- The block number in place `p` of an inode, `0` if there is none. -/
def blockAt (d : Dinode) (buf : ℕ → Block) : Pos → ℕ
  | .direct j => d.addrs j.castSucc
  | .indirect => d.addrs (Fin.last NDIRECT)
  | .entry j =>
    if d.addrs (Fin.last NDIRECT) = 0 then 0
    else getWord 4 (buf (d.addrs (Fin.last NDIRECT))) (4 * j)

@[simp] theorem blockAt_ofAddr (d : Dinode) (buf : ℕ → Block) (j : Fin (NDIRECT + 1)) :
    d.blockAt buf (.ofAddr j) = d.addrs j := by
  cases j using Fin.lastCases with
  | last | cast j => simp [blockAt]

theorem blockAt_congr {d d' : Dinode} {buf buf' : ℕ → Block} (hd : d'.addrs = d.addrs)
    (hbuf : d.addrs (Fin.last NDIRECT) ≠ 0 →
      buf' (d.addrs (Fin.last NDIRECT)) = buf (d.addrs (Fin.last NDIRECT))) (p : Pos) :
    d'.blockAt buf' p = d.blockAt buf p := by
  cases p with
  | direct j | indirect => simp [blockAt, hd]
  | entry j =>
    simp only [blockAt, hd]
    split_ifs with hind
    · rfl
    · rw [hbuf hind]

end Dinode

/-- The block that place `x.2` of inode `x.1` refers to, if that inode is allocated. -/
def slots (sb : Superblock) (buf : ℕ → Block) (ino : ℕ → Dinode) (x : ℕ × Pos) : Option ℕ :=
  if x.1 < sb.ninodes ∧ (ino x.1).type ≠ 0 ∧ (ino x.1).blockAt buf x.2 ≠ 0 then
    some ((ino x.1).blockAt buf x.2)
  else none

variable {sb : Superblock} {buf buf' : ℕ → Block} {ino ino' : ℕ → Dinode} {s s' : Fs}
  {b c i : ℕ} {p : Pos} {x : ℕ × Pos}

theorem slots_eq_some : slots sb buf ino (i, p) = some b ↔
    i < sb.ninodes ∧ (ino i).type ≠ 0 ∧ b ≠ 0 ∧ (ino i).blockAt buf p = b := by
  unfold slots
  split_ifs with h
  · rw [Option.some.injEq]
    constructor
    · rintro rfl
      exact ⟨h.1, h.2.1, h.2.2, rfl⟩
    · exact fun h' => h'.2.2.2
  · simp only [false_iff, not_and]
    rintro hi ht hb rfl
    exact h ⟨hi, ht, hb⟩

theorem slots_eq_none (hi : i < sb.ninodes) (ht : (ino i).type ≠ 0) :
    slots sb buf ino (i, p) = none ↔ (ino i).blockAt buf p = 0 := by
  constructor
  · intro h
    by_contra href
    rw [slots, if_pos ⟨hi, ht, href⟩] at h
    cases h
  · intro href
    exact if_neg fun h => h.2.2 href

theorem slots_congr (h : ∀ i < sb.ninodes, (ino' i).type = (ino i).type ∧
      ((ino i).type ≠ 0 → ∀ p, (ino' i).blockAt buf' p = (ino i).blockAt buf p)) :
    slots sb buf' ino' = slots sb buf ino := by
  funext ⟨i, p⟩
  ext b
  rw [slots_eq_some, slots_eq_some]
  refine and_congr_right fun hi => ?_
  obtain ⟨htype, href⟩ := h i hi
  rw [htype]
  refine and_congr_right fun ht => ?_
  rw [href ht p]

theorem slots_eq_update (hi : i < sb.ninodes) (ht : (ino i).type ≠ 0) (hb : b ≠ 0)
    (hother : ∀ j < sb.ninodes, j ≠ i → (ino' j).type = (ino j).type ∧
      ((ino j).type ≠ 0 → ∀ q, (ino' j).blockAt buf' q = (ino j).blockAt buf q))
    (htype : (ino' i).type = (ino i).type) (hp : (ino' i).blockAt buf' p = b)
    (hself : ∀ q, q ≠ p → (ino' i).blockAt buf' q = (ino i).blockAt buf q) :
    slots sb buf' ino' = Function.update (slots sb buf ino) (i, p) (some b) := by
  funext ⟨j, q⟩
  by_cases hx : (j, q) = (i, p)
  · obtain ⟨rfl, rfl⟩ := Prod.mk.inj hx
    rw [Function.update_self, slots_eq_some]
    exact ⟨hi, htype ▸ ht, hb, hp⟩
  · rw [Function.update_of_ne hx]
    ext c
    rw [slots_eq_some, slots_eq_some]
    refine and_congr_right fun hj => ?_
    by_cases hji : j = i
    · subst hji
      rw [htype, hself q fun h => hx (by rw [h])]
    · obtain ⟨htype', href⟩ := hother j hj hji
      rw [htype']
      refine and_congr_right fun htj => ?_
      rw [href htj q]

/-- The volume of `s`, with `ino` as its inodes. -/
structure Sound (sb : Superblock) (s : Fs) (ino : ℕ → Dinode) : Prop where
  owned : Owned {b | b < sb.nmeta} {b | b < sb.size ∧ s.bit sb b = true}
    (slots sb s.buf ino)
  mapped : ∀ i < sb.ninodes, (ino i).type ≠ 0 → ∀ bn, bn * BSIZE < (ino i).size →
    bn < MAXFILE ∧ (slots sb s.buf ino (i, .ofBlock bn)).isSome
  clean : ∀ b, b < sb.nmeta ∨ (∃ i, slots sb s.buf ino (i, .indirect) = some b) → s.Clean b

namespace Sound

theorem bit_of_lt_nmeta (h : Sound sb s ino) : ∀ c < sb.nmeta, s.bit sb c = true :=
  fun _ hc => (h.owned.used_iff.mpr (.inl hc)).2

theorem nmeta_le (h : Sound sb s ino) (hx : slots sb s.buf ino x = some b) : sb.nmeta ≤ b :=
  Nat.le_of_not_lt (h.owned.not_fixed hx)

theorem lt_size (h : Sound sb s ino) (hx : slots sb s.buf ino x = some b) : b < sb.size :=
  (h.owned.mem_used hx).1

theorem bit (h : Sound sb s ino) (hx : slots sb s.buf ino x = some b) : s.bit sb b = true :=
  (h.owned.mem_used hx).2

theorem ne_of_free (h : Sound sb s ino) (hfree : s.bit sb b = false)
    (hx : slots sb s.buf ino x = some c) : c ≠ b := by
  rintro rfl
  simp [h.bit hx] at hfree

theorem size_le (h : Sound sb s ino) (hi : i < sb.ninodes) (ht : (ino i).type ≠ 0) :
    (ino i).size ≤ MAXFILE * BSIZE := by
  by_contra hlt
  exact lt_irrefl _ (h.mapped i hi ht MAXFILE (by omega)).1

theorem fits (h : Sound sb s ino) (hi : i < sb.ninodes) (ht : (ino i).type ≠ 0) :
    (ino i).Fits := by
  refine ⟨(h.size_le hi ht).trans_lt (by decide), fun j => ?_⟩
  by_cases hj : (ino i).addrs j = 0
  · rw [hj]
    decide
  · have hslot : slots sb s.buf ino (i, .ofAddr j) = some ((ino i).addrs j) :=
      slots_eq_some.mpr ⟨hi, ht, hj, by simp⟩
    have := h.lt_size hslot
    have := sb.size_lt
    omega

theorem of_same (h : Sound sb s ino) (hbit : ∀ c < sb.size, s'.bit sb c = s.bit sb c)
    (hslots : slots sb s'.buf ino' = slots sb s.buf ino)
    (hino : ∀ i < sb.ninodes, (ino' i).type ≠ 0 →
      (ino' i).size = 0 ∨ (ino i).type ≠ 0 ∧ (ino' i).size = (ino i).size)
    (hclean : ∀ c, c < sb.nmeta ∨ (∃ i, slots sb s.buf ino (i, .indirect) = some c) →
      s.Clean c → s'.Clean c) : Sound sb s' ino' := by
  have hused : {b | b < sb.size ∧ s'.bit sb b = true} = {b | b < sb.size ∧ s.bit sb b = true} := by
    ext c
    exact and_congr_right fun hc => by rw [hbit c hc]
  refine ⟨by rw [hused, hslots]; exact h.owned, ?_, ?_⟩
  · intro i hi ht bn hbn
    rcases hino i hi ht with hsize | ⟨ht', hsize⟩
    · simp [hsize] at hbn
    · rw [hsize] at hbn
      rw [hslots]
      exact h.mapped i hi ht' bn hbn
  · intro c hc
    rw [hslots] at hc
    exact hclean c hc (h.clean c hc)

end Sound

end Xv6
