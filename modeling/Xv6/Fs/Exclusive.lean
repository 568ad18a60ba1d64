import Xv6.Fs.Table
import Xv6.Lib.Run

/-!
# Exclusive block ownership

Any sequence of whole operations on inodes, with copies that fail anywhere and
a disk that fills up anywhere, keeps the free map and the inodes in step: a
bit is set exactly for the metadata blocks and for the blocks that one place of
one allocated inode refers to.
-/

namespace Xv6

open Lib

namespace Fs

inductive Op
  | iget (inum : ℕ)
  | ialloc (type : Short)
  | idup (k : ℕ)
  | ilock (k : ℕ)
  | iput (k : ℕ)
  | readi (k off n avail : ℕ)
  | writei (k : ℕ) (src : Source) (off n : ℕ)
  | itrunc (k : ℕ)
  | dirlink (k : ℕ) (name : Bytes) (inum : ℕ)
  /-- The caller has set the other fields of `ip` and calls `iupdate`. -/
  | iupdate (k : ℕ) (major minor nlink : Short)
  /-- Between operations a buffer is recycled. -/
  | evict (b : ℕ)

def Held (s : Fs) (k : ℕ) : Prop := 0 < (s.itable k).ref

/-- Entry `k` is in use and has been locked since it was taken. -/
def Loaded (s : Fs) (k : ℕ) : Prop := s.Held k ∧ (s.itable k).valid = true

instance (s : Fs) (k : ℕ) : Decidable (s.Held k) := inferInstanceAs (Decidable (_ < _))
instance (s : Fs) (k : ℕ) : Decidable (s.Loaded k) := inferInstanceAs (Decidable (_ ∧ _))

/-- What the callers of an operation guarantee; offsets and lengths are `uint`. -/
def Op.Allowed (sb : Superblock) (s : Fs) : Op → Prop
  | .iget inum => inum < sb.ninodes
  | .ialloc _ | .evict _ => True
  | .idup k | .ilock k | .iput k => s.Held k
  | .readi k off n _ | .writei k _ off n => s.Loaded k ∧ off < 2 ^ 32 ∧ n < 2 ^ 32
  | .itrunc k | .dirlink k _ _ | .iupdate k _ _ _ => s.Loaded k

instance (sb : Superblock) (s : Fs) : (op : Op) → Decidable (op.Allowed sb s)
  | .iget inum => inferInstanceAs (Decidable (inum < sb.ninodes))
  | .ialloc _ | .evict _ => .isTrue trivial
  | .idup k | .ilock k | .iput k => inferInstanceAs (Decidable (s.Held k))
  | .readi k off n _ | .writei k _ off n =>
    inferInstanceAs (Decidable (s.Loaded k ∧ off < 2 ^ 32 ∧ n < 2 ^ 32))
  | .itrunc k | .dirlink k _ _ | .iupdate k _ _ _ => inferInstanceAs (Decidable (s.Loaded k))

variable (sb : Superblock)

def exec (s : Fs) : Op → Except Panic Fs
  | .iget inum => (s.iget inum).map Prod.snd
  | .ialloc type => (s.ialloc sb type).map Prod.snd
  | .idup k => .ok (s.idup k)
  | .ilock k => s.ilock sb k
  | .iput k => s.iput sb k
  | .readi k off n avail => (s.readi sb k off n avail).map fun r => r.2.2
  | .writei k src off n => (s.writei sb k src off n).map Prod.snd
  | .itrunc k => s.itrunc sb k
  | .dirlink k name inum => (s.dirlink sb k name inum).map Prod.snd
  | .iupdate k major minor nlink =>
    .ok ((s.setInode k
      { s.itable k with major := major, minor := minor, nlink := nlink }).iupdate sb k)
  | .evict b => .ok (s.evict b)

def step (s : Fs) (op : Op) : Option Fs :=
  if op.Allowed sb s then (s.exec sb op).toOption else none

/-- The block that a place of an inode on disk refers to. -/
def owner (s : Fs) (x : ℕ × Pos) : Option ℕ := slots sb s.buf (s.dinode sb) x

/-- A bit is set iff its block is a metadata block or is referred to by exactly one
place of exactly one allocated inode; such places refer to data blocks only and
never share one. -/
structure Exclusive (s : Fs) : Prop where
  bit_iff : ∀ b < sb.size,
    s.bit sb b = true ↔ b < sb.nmeta ∨ ∃! x, s.owner sb x = some b
  data : ∀ x b, s.owner sb x = some b → sb.nmeta ≤ b ∧ b < sb.size
  unshared : ∀ x y b, s.owner sb x = some b → s.owner sb y = some b → x = y

/-- No allocated inode has an unmapped block below its size. -/
def NoHoles (s : Fs) : Prop :=
  ∀ i < sb.ninodes, (s.dinode sb i).type ≠ 0 → ∀ bn, bn * BSIZE < (s.dinode sb i).size →
    bn < MAXFILE ∧ (s.dinode sb i).blockAt s.buf (.ofBlock bn) ≠ 0

/-- The table holds at most one entry for an inode, valid entries are copies of their
inodes on disk, and only file data may have changes that were never logged. -/
structure Coherent (s : Fs) : Prop where
  lt_ninode : ∀ k, s.Held k → k < NINODE
  inum_lt : ∀ k, s.Held k → (s.itable k).inum < sb.ninodes
  unique : ∀ k l, s.Held k → s.Held l → (s.itable k).inum = (s.itable l).inum → k = l
  copy : ∀ k, s.Loaded k →
    (s.itable k).type ≠ 0 ∧ (s.itable k).toDinode = s.dinode sb (s.itable k).inum
  clean : ∀ b, b < sb.nmeta ∨ (∃ i, s.owner sb (i, .indirect) = some b) → s.Clean b

variable {sb} {s t : Fs} {ops : List Op} {op : Op} {b : ℕ} {msg : Panic}

theorem owned_iff_exclusive :
    Owned {b | b < sb.nmeta} {b | b < sb.size ∧ s.bit sb b = true} (s.owner sb) ↔
      Exclusive sb s := by
  constructor
  · intro h
    refine ⟨fun b hb => ?_, fun x b hx => ?_, fun x y b => h.inj⟩
    · exact ⟨fun hbit => h.mem_used_iff_existsUnique.mp ⟨hb, hbit⟩,
        fun hor => (h.mem_used_iff_existsUnique.mpr hor).2⟩
    · exact ⟨Nat.le_of_not_lt (h.not_fixed hx), (h.mem_used hx).1⟩
  · intro h
    refine ⟨fun hx hy => h.unshared _ _ _ hx hy, fun hx => Nat.not_lt.mpr (h.data _ _ hx).1, ?_⟩
    intro b
    constructor
    · rintro ⟨hb, hbit⟩
      exact ((h.bit_iff b hb).mp hbit).imp_right ExistsUnique.exists
    · rintro (hb | ⟨x, hx⟩)
      · have hlt : b < sb.size := lt_of_lt_of_le hb sb.nmeta_le_size
        exact ⟨hlt, (h.bit_iff b hlt).mpr (.inl hb)⟩
      · have hlt := (h.data x b hx).2
        exact ⟨hlt, (h.bit_iff b hlt).mpr (.inr ⟨x, hx, fun y hy => h.unshared _ _ _ hy hx⟩)⟩

theorem inv_iff : Inv sb s ↔ Exclusive sb s ∧ NoHoles sb s ∧ Coherent sb s := by
  have hmapped : ∀ i < sb.ninodes, (s.dinode sb i).type ≠ 0 → ∀ bn,
      ((slots sb s.buf (s.dinode sb) (i, .ofBlock bn)).isSome ↔
        (s.dinode sb i).blockAt s.buf (.ofBlock bn) ≠ 0) := by
    intro i hi ht bn
    rw [← Option.ne_none_iff_isSome, Ne, slots_eq_none hi ht]
  constructor
  · intro h
    refine ⟨owned_iff_exclusive.mp h.sound.owned, ?_, h.lt_ninode, h.inum_lt, h.unique,
      fun k hk => h.loaded k hk.1 hk.2, h.sound.clean⟩
    intro i hi ht bn hbn
    exact (h.sound.mapped i hi ht bn hbn).imp_right (hmapped i hi ht bn).mp
  · rintro ⟨hex, hholes, hco⟩
    refine ⟨⟨owned_iff_exclusive.mpr hex, ?_, hco.clean⟩, hco.lt_ninode, hco.inum_lt, hco.unique,
      fun k hk hv => hco.copy k ⟨hk, hv⟩⟩
    intro i hi ht bn hbn
    exact (hholes i hi ht bn hbn).imp_right (hmapped i hi ht bn).mpr

def panics : List Panic :=
  ["iget: no inodes", "ilock: no type", "dirlookup not DIR", "dirlookup read", "dirlink read"]

theorem Inv.exec (h : Inv sb s) (ha : op.Allowed sb s) :
    (∃ msg ∈ panics, s.exec sb op = .error msg) ∨ ∃ s', s.exec sb op = .ok s' ∧ Inv sb s' := by
  cases op with
  | iget inum =>
    rcases h.iget ha with herr | ⟨k, s', hok, hinv⟩
    · exact .inl ⟨"iget: no inodes", by simp [panics], by rw [Fs.exec, herr]; rfl⟩
    · exact .inr ⟨s', by rw [Fs.exec, hok]; rfl, hinv⟩
  | ialloc type =>
    rcases h.ialloc type with herr | ⟨r, s', hok, hinv⟩
    · exact .inl ⟨"iget: no inodes", by simp [panics], by rw [Fs.exec, herr]; rfl⟩
    · exact .inr ⟨s', by rw [Fs.exec, hok]; rfl, hinv⟩
  | idup k => exact .inr ⟨_, rfl, h.setRef ha _⟩
  | ilock k =>
    rcases h.ilock ha with herr | ⟨s', hok, hinv⟩
    · exact .inl ⟨"ilock: no type", by simp [panics], herr⟩
    · exact .inr ⟨s', hok, hinv⟩
  | iput k => exact .inr (h.iput ha)
  | readi k off n avail =>
    obtain ⟨⟨hk, hv⟩, hoff, hn⟩ := ha
    obtain ⟨r, out, hok, -⟩ := readi_spec avail (h.locked hk hv) hoff hn
    exact .inr ⟨s, by rw [Fs.exec, hok]; rfl, h⟩
  | writei k src off n =>
    obtain ⟨⟨hk, hv⟩, hoff, hn⟩ := ha
    obtain ⟨r, s', hok, hinv⟩ := h.writei hk hv src hoff hn
    exact .inr ⟨s', by rw [Fs.exec, hok]; rfl, hinv⟩
  | itrunc k => exact .inr (h.itrunc ha.1 ha.2)
  | dirlink k name inum =>
    rcases h.dirlink ha.1 ha.2 name inum with ⟨msg, hmsg, herr⟩ | ⟨r, s', hok, hinv⟩
    · refine .inl ⟨msg, ?_, by rw [Fs.exec, herr]; rfl⟩
      simp only [panics, List.mem_cons, List.not_mem_nil, or_false] at hmsg ⊢
      tauto
    · exact .inr ⟨s', by rw [Fs.exec, hok]; rfl, hinv⟩
  | iupdate k major minor nlink => exact .inr ⟨_, rfl, h.iupdate ha.1 ha.2 major minor nlink⟩
  | evict b => exact .inr ⟨_, rfl, h.evict b⟩

theorem inv_of_run (h : Inv sb s) (hrun : Run (step sb) s ops t) : Inv sb t := by
  apply hrun.state_invariant h
  intro u op v hu hstep
  unfold step at hstep
  split_ifs at hstep with ha
  rcases hu.exec ha with ⟨msg, -, herr⟩ | ⟨v', hok, hinv⟩
  · rw [herr] at hstep
    cases hstep
  · rw [hok] at hstep
    cases hstep
    exact hinv

/-- Ownership is exclusive after every sequence of operations.  Hence `balloc` never
hands out a block in use and `bfree` is never called on a free block. -/
theorem exclusive_ownership (hex : Exclusive sb s) (hholes : NoHoles sb s)
    (hco : Coherent sb s) (hrun : Run (step sb) s ops t) :
    Exclusive sb t ∧ NoHoles sb t ∧ Coherent sb t ∧
      (∀ b t', t.balloc sb = (b, t') → b ≠ 0 → sb.nmeta ≤ b ∧ ∀ x, t.owner sb x ≠ some b) ∧
      ∀ op msg, op.Allowed sb t → t.exec sb op = .error msg → msg ≠ "freeing free block" := by
  have hinv : Inv sb t := inv_of_run (inv_iff.mpr ⟨hex, hholes, hco⟩) hrun
  obtain ⟨hex', hholes', hco'⟩ := inv_iff.mp hinv
  refine ⟨hex', hholes', hco', ?_, ?_⟩
  · intro b t' hb hb0
    rcases balloc_cases hinv.sound.bit_of_lt_nmeta with ⟨hnone, -⟩ | ⟨c, u, hc, -, hcm, ha⟩
    · rw [hnone] at hb
      exact absurd (Prod.mk.inj hb).1.symm hb0
    · obtain ⟨rfl, -⟩ := Prod.mk.inj (hc.symm.trans hb)
      exact ⟨hcm, fun x hx => hinv.sound.ne_of_free ha.free hx rfl⟩
  · rintro op msg ha herr rfl
    rcases hinv.exec ha with ⟨m, hm, hexec⟩ | ⟨v, hok, -⟩
    · rw [herr] at hexec
      cases hexec
      simp [panics] at hm
    · rw [herr] at hok
      cases hok

/-! ## A freshly formatted volume -/

/-- The geometry that `mkfs` gives to a volume of `FSSIZE` blocks: 46 metadata blocks. -/
def mkfsSuper : Superblock where
  size := 2000
  nblocks := 1954
  ninodes := 200
  inodestart := 32
  bmapstart := 45
  size_lt := by decide
  inodes_before i hi := by unfold IPB BSIZE; omega
  bmapstart_le := by decide
  bitmap_before b hb := by unfold BPB BSIZE; omega

/-- No inode is allocated and the bits of the metadata blocks are set. -/
def formatted : Fs where
  buf b := if b = 45 then fun i => if i < 5 then 255 else if i = 5 then 63 else 0 else fun _ => 0
  disk b := if b = 45 then fun i => if i < 5 then 255 else if i = 5 then 63 else 0 else fun _ => 0
  itable _ := { Dinode.zero with inum := 0, ref := 0, valid := false }
  logged := []

theorem formatted_dinode {i : ℕ} (hi : i < mkfsSuper.ninodes) :
    (formatted.dinode mkfsSuper i).type = 0 := by
  have hne : mkfsSuper.iblock i ≠ 45 := (mkfsSuper.iblock_lt_bmapstart hi).ne
  unfold dinode formatted
  simp only [if_neg hne, Dinode.read, getWord_zero]
  rfl

theorem formatted_owner (x : ℕ × Pos) : formatted.owner mkfsSuper x = none :=
  if_neg fun h => h.2.1 (formatted_dinode h.1)

theorem exclusive_formatted : Exclusive mkfsSuper formatted := by
  have hbits : ∀ b < 2000, formatted.bit mkfsSuper b = true ↔ b < 46 := by decide +kernel
  refine ⟨fun b hb => ?_, fun x b hx => ?_, fun x y b hx => ?_⟩
  · simp only [formatted_owner, reduceCtorEq, existsUnique_false, or_false]
    exact hbits b hb
  · simp [formatted_owner] at hx
  · simp [formatted_owner] at hx

theorem noHoles_formatted : NoHoles mkfsSuper formatted :=
  fun _ hi ht => absurd (formatted_dinode hi) ht

theorem coherent_formatted : Coherent mkfsSuper formatted := by
  have hfree : ∀ k, ¬formatted.Held k := fun k => lt_irrefl 0
  exact ⟨fun k hk => absurd hk (hfree k), fun k hk => absurd hk (hfree k),
    fun k l hk => absurd hk (hfree k), fun k hk => absurd hk.1 (hfree k), fun _ _ => rfl⟩

/-- A file is created and written, with a copy that fails in the second block; its
blocks are given back when the last reference goes. -/
def failedWrite : List Op :=
  [.ialloc T_FILE, .ilock 0, .writei 0 ⟨fun _ => 7, 1500⟩ 0 3000, .evict 47, .iput 0]

theorem exclusive_ownership_failedWrite : ∃ t,
    Run (step mkfsSuper) formatted failedWrite t ∧ Exclusive mkfsSuper t := by
  obtain ⟨t, ht⟩ := Option.isSome_iff_exists.mp
    (by decide +kernel : (failedWrite.foldlM (step mkfsSuper) formatted).isSome)
  have hrun := Run.iff_foldlM.mpr ht
  exact ⟨t, hrun, (exclusive_ownership exclusive_formatted noHoles_formatted coherent_formatted
    hrun).1⟩

end Fs

end Xv6
