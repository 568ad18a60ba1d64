import Xv6.Fs.Slots

/-!
# Mapping the blocks of a file

While an operation holds entry `k` of the inode table, the inode in that entry
is newer than its copy on disk.  `Locked` says that the volume is sound when
the entry is taken in place of that copy; `Wrote` says what an operation on
the entry may have changed.
-/

namespace Xv6

open Lib
open Function (update update_self update_of_ne)

namespace Fs

/-- The on-disk inodes, with entry `k` of the table in place of its own copy. -/
def inodes (sb : Superblock) (s : Fs) (k : ℕ) : ℕ → Dinode :=
  update (s.dinode sb) (s.itable k).inum (s.itable k).toDinode

def refs (sb : Superblock) (s : Fs) (k : ℕ) : ℕ × Pos → Option ℕ :=
  slots sb s.buf (s.inodes sb k)

variable {sb : Superblock} {s s' s₁ : Fs} {b c i k bn : ℕ} {lo mid hi : ℕ} {data : ℕ → UInt8}

@[simp] theorem inodes_inum : s.inodes sb k (s.itable k).inum = (s.itable k).toDinode :=
  update_self ..

theorem inodes_of_ne (h : i ≠ (s.itable k).inum) : s.inodes sb k i = s.dinode sb i :=
  update_of_ne h ..

/-- The state inside an operation on entry `k`, whose inode is allocated. -/
structure Locked (sb : Superblock) (s : Fs) (k : ℕ) : Prop where
  inum_lt : (s.itable k).inum < sb.ninodes
  type_ne : (s.itable k).type ≠ 0
  sound : Sound sb s (s.inodes sb k)

/-- `Wrote sb k lo hi data s s'`: from `s` to `s'`, entry `k` has gained some
blocks and the mapped bytes `lo ≤ j < hi` of its file have become `data j`.
No other block that a file uses has changed. -/
structure Wrote (sb : Superblock) (k lo hi : ℕ) (data : ℕ → UInt8) (s s' : Fs) : Prop where
  table : ∀ l ≠ k, s'.itable l = s.itable l
  self : ∃ addrs, s'.itable k = { s.itable k with addrs := addrs }
  dinode : ∀ i < sb.ninodes, s'.dinode sb i = s.dinode sb i
  kept : ∀ x b, s.refs sb k x = some b → s'.refs sb k x = some b
  others : ∀ i p b, i ≠ (s.itable k).inum → p ≠ .indirect → s.refs sb k (i, p) = some b →
    s'.buf b = s.buf b
  bytes : ∀ bn b o, bn < MAXFILE → o < BSIZE →
    s.refs sb k ((s.itable k).inum, .ofBlock bn) = some b →
    s'.buf b o = if lo ≤ bn * BSIZE + o ∧ bn * BSIZE + o < hi then data (bn * BSIZE + o)
      else s.buf b o

namespace Wrote

theorem inum_eq (h : Wrote sb k lo hi data s s') : (s'.itable k).inum = (s.itable k).inum := by
  obtain ⟨addrs, hself⟩ := h.self
  rw [hself]

theorem refl (s : Fs) : Wrote sb k lo lo data s s := by
  refine ⟨fun _ _ => rfl, ⟨_, rfl⟩, fun _ _ => rfl, fun _ _ h => h, fun _ _ _ _ _ _ => rfl, ?_⟩
  intro bn b o _ _ _
  rw [if_neg (by omega)]

theorem trans (h : Wrote sb k lo mid data s s₁) (h' : Wrote sb k mid hi data s₁ s')
    (hlo : lo ≤ mid) (hhi : mid ≤ hi) : Wrote sb k lo hi data s s' := by
  refine ⟨?_, ?_, ?_, fun x b hx => h'.kept x b (h.kept x b hx), ?_, ?_⟩
  · intro l hl
    rw [h'.table l hl, h.table l hl]
  · obtain ⟨a, ha⟩ := h.self
    obtain ⟨a', ha'⟩ := h'.self
    exact ⟨a', by rw [ha', ha]⟩
  · intro i hi
    rw [h'.dinode i hi, h.dinode i hi]
  · intro i p b hne hp hx
    rw [h'.others i p b (h.inum_eq ▸ hne) hp (h.kept _ _ hx), h.others i p b hne hp hx]
  · intro bn b o hbn ho hx
    rw [h'.bytes bn b o hbn ho (h.inum_eq ▸ h.kept _ _ hx), h.bytes bn b o hbn ho hx]
    split_ifs <;> first | rfl | omega

end Wrote

/-! ## Allocating a block for a place -/

/-- A block taken from the free map goes to an empty place of the inode.  `s₁` is the
state after `balloc`, `s'` the one after the block number has been stored. -/
theorem Locked.assign {p : Pos} (h : Locked sb s k) (ha : Allocates sb s b s₁)
    (hempty : s.refs sb k ((s.itable k).inum, p) = none)
    (hrefs : s'.refs sb k = update (s.refs sb k) ((s.itable k).inum, p) (some b))
    (htable : ∀ l ≠ k, s'.itable l = s.itable l)
    (hself : ∃ addrs, s'.itable k = { s.itable k with addrs := addrs })
    (hkeep : Keeps sb s₁ s') (hclean : ∀ c, s₁.Clean c → s'.Clean c)
    (hbuf : ∀ x c, x.2 ≠ .indirect → s.refs sb k x = some c → s'.buf c = s₁.buf c) :
    Locked sb s' k ∧ ∀ lo data, Wrote sb k lo lo data s s' := by
  obtain ⟨addrs, hself⟩ := hself
  have hinum : (s'.itable k).inum = (s.itable k).inum := by rw [hself]
  have hdinode : ∀ i < sb.ninodes, s'.dinode sb i = s.dinode sb i := fun i hi =>
    (hkeep.dinode i hi).trans (ha.dinode i hi)
  have hsame : ∀ i < sb.ninodes, (s'.inodes sb k i).type = (s.inodes sb k i).type ∧
      (s'.inodes sb k i).size = (s.inodes sb k i).size := by
    intro i hi
    by_cases hik : i = (s.itable k).inum
    · subst hik
      rw [inodes_inum, ← hinum, inodes_inum, hself]
      exact ⟨rfl, rfl⟩
    · rw [inodes_of_ne hik, inodes_of_ne (hinum ▸ hik), hdinode i hi]
      exact ⟨rfl, rfl⟩
  have hkept : ∀ x c, s.refs sb k x = some c → s'.refs sb k x = some c := by
    intro x c hx
    have hne : x ≠ ((s.itable k).inum, p) := by
      rintro rfl
      rw [hempty] at hx
      cases hx
    rw [hrefs, update_of_ne hne, hx]
  -- a block already referred to is not the one `balloc` found free
  have hdata : ∀ x c, x.2 ≠ .indirect → s.refs sb k x = some c → s'.buf c = s.buf c := by
    intro x c hp hx
    rw [hbuf x c hp hx, ha.buf c (h.sound.nmeta_le hx) (h.sound.ne_of_free ha.free hx)]
  refine ⟨⟨hinum ▸ h.inum_lt, by rw [hself]; exact h.type_ne, ⟨?_, ?_, ?_⟩⟩, fun lo data =>
    ⟨htable, ⟨addrs, hself⟩, hdinode, hkept, fun i p b _ hp hx => hdata _ b hp hx, ?_⟩⟩
  · have hused : {c | c < sb.size ∧ s'.bit sb c = true} =
        insert b {c | c < sb.size ∧ s.bit sb c = true} := by
      ext c
      rw [Set.mem_insert_iff, Set.mem_ofPred_eq, Set.mem_ofPred_eq]
      constructor
      · rintro ⟨hc, hbit⟩
        rw [hkeep.bit c hc, ha.bit c hc, Bool.or_eq_true, decide_eq_true_eq] at hbit
        exact hbit.imp_right fun hbit => ⟨hc, hbit⟩
      · rintro (rfl | ⟨hc, hbit⟩)
        · exact ⟨ha.lt, by simp [hkeep.bit c ha.lt, ha.bit c ha.lt]⟩
        · exact ⟨hc, by simp [hkeep.bit c hc, ha.bit c hc, hbit]⟩
    have hfree : b ∉ {c | c < sb.size ∧ s.bit sb c = true} := by
      rintro ⟨-, hbit⟩
      simp [ha.free] at hbit
    have hassign := h.sound.owned.assign hempty hfree
    rw [← hused] at hassign
    change Owned _ _ (s'.refs sb k)
    rw [hrefs]
    exact hassign
  · intro i hi ht bn hbn
    rw [(hsame i hi).1] at ht
    rw [(hsame i hi).2] at hbn
    obtain ⟨hlt, hsome⟩ := h.sound.mapped i hi ht bn hbn
    obtain ⟨c, hc⟩ := Option.isSome_iff_exists.mp hsome
    exact ⟨hlt, Option.isSome_iff_exists.mpr ⟨c, hkept _ _ hc⟩⟩
  · rintro c (hc | ⟨i, hi⟩)
    · exact hclean c (ha.clean c (.inl (h.sound.clean c (.inl hc))))
    · change s'.refs sb k (i, .indirect) = some c at hi
      rw [hrefs] at hi
      by_cases hx : (i, Pos.indirect) = ((s.itable k).inum, p)
      · rw [hx, update_self] at hi
        exact hclean c (ha.clean c (.inr (Option.some.inj hi).symm))
      · rw [update_of_ne hx] at hi
        exact hclean c (ha.clean c (.inl (h.sound.clean c (.inr ⟨i, hi⟩))))
  · intro bn c o _ _ hx
    rw [if_neg (by omega), hdata _ c (Pos.ofBlock_ne_indirect bn) hx]

/-- What `loadAddr` and `bmap` promise: the place is filled, or the disk is full. -/
structure Loads (sb : Superblock) (k : ℕ) (p : Pos) (s : Fs) (addr : ℕ) (s' : Fs) : Prop where
  locked : Locked sb s' k
  wrote : ∀ lo data, Wrote sb k lo lo data s s'
  full : addr = 0 → Full sb s'
  ref : addr ≠ 0 → s'.refs sb k ((s.itable k).inum, p) = some addr

theorem refs_inum_eq_some (h : Locked sb s k) {p : Pos} (hb : b ≠ 0) :
    s.refs sb k ((s.itable k).inum, p) = some b ↔ (s.itable k).blockAt s.buf p = b := by
  rw [refs, slots_eq_some, inodes_inum]
  exact ⟨fun h => h.2.2.2, fun hp => ⟨h.inum_lt, h.type_ne, hb, hp⟩⟩

theorem refs_inum_eq_none (h : Locked sb s k) {p : Pos} :
    s.refs sb k ((s.itable k).inum, p) = none ↔ (s.itable k).blockAt s.buf p = 0 := by
  rw [refs, slots_eq_none h.inum_lt (by rw [inodes_inum]; exact h.type_ne), inodes_inum]

theorem Loads.of_present {p : Pos} (h : Locked sb s k) (hb : b ≠ 0)
    (hp : (s.itable k).blockAt s.buf p = b) : Loads sb k p s b s :=
  ⟨h, fun _ _ => .refl s, fun h => absurd h hb, fun _ => (refs_inum_eq_some h hb).mpr hp⟩

theorem Locked.ref_other (h : Locked sb s k) (ha : Allocates sb s b s₁)
    (hinum : (s'.itable k).inum = (s.itable k).inum) (hkeep : Keeps sb s₁ s')
    (hbuf : ∀ i c, i ≠ (s.itable k).inum → s.refs sb k (i, .indirect) = some c →
      s'.buf c = s₁.buf c)
    (hi : i < sb.ninodes) (hne : i ≠ (s.itable k).inum) :
    (s'.inodes sb k i).type = (s.inodes sb k i).type ∧ ((s.inodes sb k i).type ≠ 0 →
      ∀ p, (s'.inodes sb k i).blockAt s'.buf p = (s.inodes sb k i).blockAt s.buf p) := by
  have hdinode : s'.inodes sb k i = s.inodes sb k i := by
    rw [inodes_of_ne hne, inodes_of_ne (hinum ▸ hne), hkeep.dinode i hi, ha.dinode i hi]
  rw [hdinode]
  refine ⟨rfl, fun ht p => Dinode.blockAt_congr rfl (fun hind => ?_) p⟩
  have hx : s.refs sb k (i, .indirect) = some _ :=
    slots_eq_some.mpr ⟨hi, ht, hind, rfl⟩
  rw [hbuf i _ hne hx, ha.buf _ (h.sound.nmeta_le hx) (h.sound.ne_of_free ha.free hx)]

theorem loadAddr_spec (h : Locked sb s k) (j : Fin (NDIRECT + 1)) :
    ∃ addr s', s.loadAddr sb k j = (addr, s') ∧ Loads sb k (.ofAddr j) s addr s' := by
  unfold loadAddr
  split_ifs with hj
  swap
  · exact ⟨_, s, rfl, .of_present h hj (Dinode.blockAt_ofAddr ..)⟩
  rcases balloc_cases h.sound.bit_of_lt_nmeta with ⟨hb, hfull⟩ | ⟨b, s₁, hb, hb0, hbm, ha⟩
  · exact ⟨0, s, by simp only [hb, if_pos], h, fun _ _ => .refl s, fun _ => hfull,
      fun h => absurd rfl h⟩
  refine ⟨b, s₁.setAddr k j b, by simp only [hb, if_neg hb0], ?_⟩
  set s' := s₁.setAddr k j b with hs'
  have hself : s'.itable k =
      { s.itable k with addrs := update (s.itable k).addrs j b } := by
    rw [hs', setAddr, setInode_itable, update_self, ha.itable]
  have hinum : (s'.itable k).inum = (s.itable k).inum := by rw [hself]
  have hkeep : Keeps sb s₁ s' := ⟨fun _ _ => rfl, fun _ _ => rfl⟩
  have hempty : s.refs sb k ((s.itable k).inum, .ofAddr j) = none :=
    (refs_inum_eq_none h).mpr (by rw [Dinode.blockAt_ofAddr, hj])
  have hrefs : s'.refs sb k =
      update (s.refs sb k) ((s.itable k).inum, .ofAddr j) (some b) := by
    apply slots_eq_update h.inum_lt (by rw [inodes_inum]; exact h.type_ne) hb0
    · intro i hi hne
      exact h.ref_other ha hinum hkeep (fun _ _ _ _ => rfl) hi hne
    · rw [inodes_inum, ← hinum, inodes_inum, hself]
    · rw [← hinum, inodes_inum, Dinode.blockAt_ofAddr, hself]
      exact update_self ..
    · intro q hq
      rw [inodes_inum, ← hinum, inodes_inum, hself]
      cases q with
      | direct j' =>
        have hne : j'.castSucc ≠ j := by
          rintro rfl
          exact hq (Pos.ofAddr_castSucc j').symm
        simp [Dinode.blockAt, update_of_ne hne]
      | indirect =>
        have hne : Fin.last NDIRECT ≠ j := by
          rintro rfl
          exact hq Pos.ofAddr_last.symm
        simp [Dinode.blockAt, update_of_ne hne]
      | entry j' =>
        by_cases hlast : Fin.last NDIRECT = j
        · -- the new indirect block has no entries yet
          subst hlast
          simp only [Dinode.blockAt, update_self, if_neg hb0, if_pos hj]
          rw [hs', setAddr_buf, ha.zero, getWord_zero]
        · simp only [Dinode.blockAt, update_of_ne hlast]
          split_ifs with hind
          · rfl
          · have hx := (refs_inum_eq_some (p := .indirect) h hind).mpr rfl
            rw [hs', setAddr_buf, ha.buf _ (h.sound.nmeta_le hx)
              (h.sound.ne_of_free ha.free hx)]
  obtain ⟨hlocked, hwrote⟩ := h.assign ha hempty hrefs
    (fun l hl => by rw [hs', setAddr, setInode_itable, update_of_ne hl, ha.itable])
    ⟨_, hself⟩ hkeep (fun _ hc => hc) (fun _ _ _ _ => rfl)
  refine ⟨hlocked, hwrote, fun h => absurd h hb0, ?_⟩
  intro _
  rw [hrefs, update_self]

theorem Loads.trans {p q : Pos} {addr addr' : ℕ} {s₂ : Fs} (h : Loads sb k p s addr s₁)
    (h' : Loads sb k q s₁ addr' s₂) : Loads sb k q s addr' s₂ := by
  refine ⟨h'.locked, fun lo data => (h.wrote lo data).trans (h'.wrote lo data) le_rfl le_rfl,
    h'.full, ?_⟩
  rw [← (h.wrote 0 fun _ => 0).inum_eq]
  exact h'.ref

theorem Locked.loads_entry (h : Locked sb s k) (ha : Allocates sb s b s₁) (hb0 : b ≠ 0) {ind : ℕ}
    (hind : s.refs sb k ((s.itable k).inum, .indirect) = some ind) (j : Fin NINDIRECT)
    (hempty : getWord 4 (s.buf ind) (4 * j) = 0) :
    Loads sb k (.entry j) s b (s₁.logWrite ind (setWord 4 (s₁.buf ind) (4 * j) b)) := by
  set s' := s₁.logWrite ind (setWord 4 (s₁.buf ind) (4 * j) b) with hs'
  obtain ⟨-, -, hind0, haddr⟩ := slots_eq_some.mp hind
  rw [inodes_inum] at haddr
  change (s.itable k).addrs (Fin.last NDIRECT) = ind at haddr
  have htable : s'.itable = s.itable := ha.itable
  have hindm := h.sound.nmeta_le hind
  have hold : s₁.buf ind = s.buf ind := ha.buf ind hindm (h.sound.ne_of_free ha.free hind)
  have hkeep : Keeps sb s₁ s' := keeps_of_data hindm fun c hc => update_of_ne hc ..
  -- the indirect block belongs to this place only
  have hne : ∀ x c, x ≠ ((s.itable k).inum, Pos.indirect) → s.refs sb k x = some c →
      s'.buf c = s₁.buf c := by
    intro x c hx hxc
    have hc : c ≠ ind := fun hc => hx (h.sound.owned.inj hxc (hc ▸ hind))
    exact update_of_ne hc ..
  have hslot : s.refs sb k ((s.itable k).inum, .entry j) = none := by
    rw [refs_inum_eq_none h]
    simp only [Dinode.blockAt, haddr, if_neg hind0, hempty]
  have hb32 : b < 256 ^ 4 := ha.lt.trans (sb.size_lt.trans (by decide))
  have hrefs : s'.refs sb k =
      update (s.refs sb k) ((s.itable k).inum, .entry j) (some b) := by
    apply slots_eq_update h.inum_lt (by rw [inodes_inum]; exact h.type_ne) hb0
    · intro i hi hik
      refine h.ref_other ha (by rw [htable]) hkeep (fun i c hne' hc => hne _ c ?_ hc) hi hik
      simp [hne']
    · rw [inodes_inum, ← htable, inodes_inum]
    · rw [← htable, inodes_inum, htable]
      simp only [Dinode.blockAt, haddr, if_neg hind0]
      rw [hs', logWrite_buf, update_self, getWord_setWord_self _ _ _ hb32]
    · intro q hq
      rw [inodes_inum, ← htable, inodes_inum, htable]
      cases q with
      | direct j' => rfl
      | indirect => rfl
      | entry j' =>
        have hj' : (j' : ℕ) ≠ j := fun h => hq (by rw [Fin.ext h])
        simp only [Dinode.blockAt, haddr, if_neg hind0]
        rw [hs', logWrite_buf, update_self, getWord_setWord_of_disjoint _ (by omega),
          hold]
  obtain ⟨hlocked, hwrote⟩ := h.assign ha hslot hrefs
    (fun l _ => by rw [htable]) ⟨_, by rw [htable]⟩ hkeep (fun _ hc => .logWrite (.inl hc))
    (fun x c hx hc => hne x c (fun hx' => hx (by rw [hx'])) hc)
  refine ⟨hlocked, hwrote, fun h => absurd h hb0, ?_⟩
  intro _
  rw [hrefs, update_self]

theorem bmap_spec (h : Locked sb s k) (hbn : bn < MAXFILE) :
    ∃ addr s', s.bmap sb k bn = .ok (addr, s') ∧ Loads sb k (.ofBlock bn) s addr s' := by
  unfold bmap
  split_ifs with hdir hlt
  · obtain ⟨addr, s', hload, hspec⟩ := loadAddr_spec h (Fin.castSucc ⟨bn, hdir⟩)
    refine ⟨addr, s', by rw [hload], ?_⟩
    rwa [Pos.ofBlock_of_lt hdir, ← Pos.ofAddr_castSucc]
  · obtain ⟨ind, s₁, hload, hspec⟩ := loadAddr_spec h (Fin.last NDIRECT)
    rw [Pos.ofAddr_last] at hspec
    rw [Pos.ofBlock_of_le (Nat.le_of_not_lt hdir) hlt]
    simp only [hload]
    by_cases hind : ind = 0
    · rw [if_pos hind]
      exact ⟨0, s₁, rfl, hspec.locked, hspec.wrote, fun _ => hspec.full hind, fun h => absurd rfl h⟩
    have href := hspec.ref hind
    rw [← (hspec.wrote 0 fun _ => 0).inum_eq] at href
    rw [if_neg hind]
    by_cases hword : getWord 4 (s₁.buf ind) (4 * (bn - NDIRECT)) = 0
    · rw [if_pos hword]
      rcases balloc_cases hspec.locked.sound.bit_of_lt_nmeta with
        ⟨hb, hfull⟩ | ⟨b, s₂, hb, hb0, -, ha⟩
      · exact ⟨0, s₁, by simp only [hb, if_pos], hspec.locked, hspec.wrote, fun _ => hfull,
          fun h => absurd rfl h⟩
      · exact ⟨b, _, by simp only [hb, if_neg hb0],
          hspec.trans (hspec.locked.loads_entry ha hb0 href ⟨_, hlt⟩ hword)⟩
    · rw [if_neg hword]
      rw [refs_inum_eq_some hspec.locked hind] at href
      change (s₁.itable k).addrs (Fin.last NDIRECT) = ind at href
      refine ⟨_, s₁, rfl, hspec.trans (.of_present hspec.locked hword ?_)⟩
      simp only [Dinode.blockAt, href, if_neg hind]
  · unfold MAXFILE at hbn
    omega

theorem Settled.loadAddr {o : ℕ} (h : s.Settled c o) (j : Fin (NDIRECT + 1)) :
    (s.loadAddr sb k j).2.Settled c o := by
  unfold Fs.loadAddr
  split_ifs with hj
  · dsimp only
    split_ifs
    · exact h.balloc
    · exact (h.balloc : (s.balloc sb).2.Settled c o)
  · exact h

theorem Settled.bmap {o addr : ℕ} (h : s.Settled c o) (hok : s.bmap sb k bn = .ok (addr, s')) :
    s'.Settled c o := by
  unfold Fs.bmap at hok
  split_ifs at hok with hdir hlt
  · obtain rfl := (Prod.mk.inj (Except.ok.inj hok)).2
    exact h.loadAddr _
  · have hload : (s.loadAddr sb k (Fin.last NDIRECT)).2.Settled c o := h.loadAddr _
    dsimp only at hok
    split_ifs at hok
    · obtain rfl := (Prod.mk.inj (Except.ok.inj hok)).2
      exact hload
    · obtain rfl := (Prod.mk.inj (Except.ok.inj hok)).2
      exact hload.balloc
    · obtain rfl := (Prod.mk.inj (Except.ok.inj hok)).2
      exact .logWrite (.inl hload.balloc)
    · obtain rfl := (Prod.mk.inj (Except.ok.inj hok)).2
      exact hload

theorem bmap_of_ref (hbn : bn < MAXFILE)
    (hb : s.refs sb k ((s.itable k).inum, .ofBlock bn) = some b) : s.bmap sb k bn = .ok (b, s) := by
  obtain ⟨-, -, hb0, hat⟩ := slots_eq_some.mp hb
  rw [inodes_inum] at hat
  unfold MAXFILE at hbn
  unfold bmap
  split_ifs with hdir hlt
  · rw [Pos.ofBlock_of_lt hdir] at hat
    change (s.itable k).addrs (Fin.castSucc ⟨bn, hdir⟩) = b at hat
    rw [loadAddr, hat, if_neg hb0]
  · rw [Pos.ofBlock_of_le (Nat.le_of_not_lt hdir) hlt] at hat
    by_cases hind : (s.itable k).addrs (Fin.last NDIRECT) = 0
    · simp only [Dinode.blockAt, if_pos hind] at hat
      exact absurd hat.symm hb0
    · simp only [Dinode.blockAt, if_neg hind] at hat
      simp only [loadAddr, if_neg hind, hat, if_neg hb0]
  · omega

end Fs

end Xv6
