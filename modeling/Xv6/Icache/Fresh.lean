import Xv6.Icache.Coherence
import Xv6.Fs.Basic

/-!
# What `ilock` delivers

An unlocked entry agrees with the inode on disk, and so does one that `ilock`
has just locked.  In particular an inode that `ialloc` picks while `iput` is
still busy freeing it is the new one for whoever locks it first.
-/

namespace Xv6.Icache

open Lib

variable {P R : Type} [DecidableEq P] [DecidableEq R] [Fintype P] [Fintype R]
  {s t : State P R} {i : Fin NINODE} {p : P} {r : R} {k : Key} {ninodes : ℕ} {e : Event P R}

/-- The step copies an in-memory inode to the on-disk inode `k`. -/
def Event.updates (s : State P R) (k : Key) : Event P R → Bool
  | .iupdate _ i => (s.entry i).key = k
  | .free p =>
    match s.pc p with
    | .freeing .flush i => (s.entry i).key = k
    | .freeing .flushFree i => (s.entry i).key = k
    | _ => false
  | _ => false

omit [DecidableEq P] [DecidableEq R] in
theorem Inv.copy_of_unlocked (h : Inv s) (hi : 0 < (s.entry i).ref)
    (hv : (s.entry i).valid = true) (hl : (s.entry i).lock = none) :
    (s.entry i).copy = s.dinode (s.entry i).key := by
  have hclean : (s.entry i).dirty = false := by
    by_contra hd
    exact h.locks.dirty i (by simpa using hd) hl
  refine (h.synced i hi hv fun p hp => ?_).equal hclean
  exact h.locks.not_of_unlocked hl p (.inr ⟨_, hp⟩)

theorem Inv.copy_of_load (h : Inv s) (he : Effect ninodes s (.load p) t)
    (hp : s.pc p = .loading i r) : (t.entry i).copy = s.dinode (s.entry i).key ∧
      (t.entry i).valid = true ∧ (t.entry i).lock = some (p, some r) := by
  obtain ⟨hl, hclean⟩ := h.locks.loading p i r hp
  cases he with
  | @cached _ r' i' hp' hv =>
    obtain ⟨rfl, rfl⟩ := Pc.loading.inj (hp.symm.trans hp')
    have href := h.ref_pos_of_lock (i := i) (by simp [hl])
    have hs := h.synced i href hv (h.locks.pc_ne hl (by simp [hp]))
    exact ⟨hs.equal hclean, hv, hl⟩
  | @load _ r' i' hp' hv hty =>
    obtain ⟨rfl, rfl⟩ := Pc.loading.inj (hp.symm.trans hp')
    simp only [State.setPc, State.setEntry, Function.update_self]
    exact ⟨trivial, trivial, hl⟩

omit [Fintype P] [Fintype R] in
theorem dinode_of_effect (he : Effect ninodes s e t) (hk : (s.dinode k).type ≠ 0)
    (hu : e.updates s k = false) : t.dinode k = s.dinode k := by
  cases he with
  | iget hp ht => rw [ht.frame.2.1]
  | iupdate hp hi =>
    exact Function.update_of_ne (Ne.symm (by simpa [Event.updates] using hu)) _ _
  | @free p i g hp =>
    cases g with
    | flush =>
      exact Function.update_of_ne (Ne.symm (by simpa [Event.updates, hp] using hu)) _ _
    | flushFree =>
      exact Function.update_of_ne (Ne.symm (by simpa [Event.updates, hp] using hu)) _ _
    | _ => rfl
  | @claim p dev inum type hp hty =>
    have hne : k ≠ (dev, inum) := by
      rintro rfl
      exact hk hty
    exact Function.update_of_ne hne _ _
  | igetNew hp ht =>
    rw [← ht.frame.2.1]
    rfl
  | _ => rfl

omit [DecidableEq P] [DecidableEq R] in
/-- A process that is freeing an inode which is free on disk has written it for
the last time. -/
theorem Inv.flushed (h : Inv s) {g : Stage} (hp : s.pc p = .freeing g i)
    (hk : (s.dinode (s.entry i).key).type = 0) : g.Flushed := by
  by_contra hg
  rw [Stage.Flushed, not_or] at hg
  have hl := (h.locks.freeing p g i hp).1
  have hs := h.synced i (h.ref_pos_of_lock (by simp [hl])) (h.loaded p g i hp hg.2)
    (h.locks.pc_ne hl (by simp [hp, hg.1]))
  exact hs.used hk

structure Coherent (ninodes : ℕ) (s : State P R) : Prop where
  /-- an entry in use that is loaded and not locked agrees with the disk -/
  unlocked : ∀ i, 0 < (s.entry i).ref → (s.entry i).valid = true → (s.entry i).lock = none →
    (s.entry i).copy = s.dinode (s.entry i).key
  /-- `ilock` returns with the inode as it is on disk -/
  ilock : ∀ p i r t, s.pc p = .loading i r → step ninodes s (.load p) = some t →
    (t.entry i).copy = s.dinode (s.entry i).key ∧ (t.entry i).valid = true ∧
      (t.entry i).lock = some (p, some r)
  /-- when `ialloc` picks an inode, whoever is still freeing it has written it
  for the last time -/
  flushed : ∀ p dev inum type t, s.pc p = .scanning dev inum type →
    step ninodes s (.scan p) = some t → t.pc p = .claimed (dev, inum) →
      ∀ q g i, s.pc q = .freeing g i → (s.entry i).key = (dev, inum) → g.Flushed
  /-- and until somebody updates the new inode, `ilock` delivers it as `ialloc`
  has initialised it -/
  ialloc : ∀ p dev inum type t, s.pc p = .scanning dev inum type →
    step ninodes s (.scan p) = some t → t.pc p = .claimed (dev, inum) →
      ∀ tr u, Run (guarded (fun u e => e.updates u (dev, inum) = false) (step ninodes)) t tr u →
        ∀ q i r v, u.pc q = .loading i r → (u.entry i).key = (dev, inum) →
          step ninodes u (.load q) = some v → (v.entry i).copy = fresh type

omit [Fintype R] in
theorem claim_of_step {dev inum : ℕ} {type : FileType} (hp : s.pc p = .scanning dev inum type)
    (hstep : step ninodes s (.scan p) = some t) (ht : t.pc p = .claimed (dev, inum)) :
    (s.dinode (dev, inum)).type = 0 ∧ t.dinode (dev, inum) = fresh type := by
  cases effect_of_step hstep with
  | @claim _ dev' inum' type' hp' hty =>
    obtain ⟨rfl, rfl, rfl⟩ := Pc.scanning.inj (hp.symm.trans hp')
    exact ⟨hty, Function.update_self _ _ _⟩
  | next hp' => simp [State.setPc] at ht
  | full hp' => simp [State.setPc] at ht

/-- In every state that any interleaving of `iget`, `idup`, `ilock`, `iunlock`,
changes under the lock, `iupdate`, `iput` and `ialloc` reaches, the inode table
agrees with the disk. -/
theorem icache_coherent {dinode : Key → Dinode} {tr : List (Event P R)}
    (hrun : Run (step ninodes) (boot dinode) tr s) : Coherent ninodes s := by
  have h := inv_of_run hrun
  refine ⟨fun i => h.copy_of_unlocked, fun p i r t hp hstep => ?_,
    fun p dev inum type t hp hstep ht => ?_, fun p dev inum type t hp hstep ht => ?_⟩
  · exact h.copy_of_load (effect_of_step hstep) hp
  · intro q g i hq hk
    exact h.flushed hq (hk ▸ (claim_of_step hp hstep ht).1)
  · intro tr' u hrun' q i r v hq hk hload
    have hdisk : Inv u ∧ u.dinode (dev, inum) = fresh type := by
      refine hrun'.state_invariant (I := fun u => Inv u ∧ u.dinode (dev, inum) = fresh type)
        ⟨h.effect (effect_of_step hstep), (claim_of_step hp hstep ht).2⟩ ?_
      rintro w e x ⟨hw, hfresh⟩ hx
      obtain ⟨hno, hx⟩ := guarded_eq_some.mp hx
      have hx := effect_of_step hx
      have hty : (w.dinode (dev, inum)).type ≠ 0 := by
        rw [hfresh]
        exact type.2
      exact ⟨hw.effect hx, (dinode_of_effect hx hty hno).trans hfresh⟩
    rw [(hdisk.1.copy_of_load (effect_of_step hload) hq).1, hk, hdisk.2]

/-- One process frees inode 1 while another one allocates it: `ialloc` picks the
inode, and finds the old entry, before `iput` has marked it as not loaded. -/
def freeWhileAlloc {P R : Type} [OfNat P 0] [OfNat P 1] [OfNat R 0] [OfNat R 1] :
    List (Event P R) :=
  [.iget 0 (1, 1) 0, .ilock 0 0, .acquiresleep 0, .load 0, .iunlock 0 ⟨0, by decide⟩, .iput 0 0,
    .test 0, .free 0, .free 0, .free 0, .free 0, .ialloc 1 1 ⟨T_DEVICE, by decide⟩, .scan 1,
    .igetNew 1 1, .ilock 1 1, .free 0, .free 0, .drop 0, .acquiresleep 1, .load 1]

theorem icache_coherent_freeWhileAlloc : ∃ s : State (Fin 2) (Fin 2),
    Run (step 10) (boot fun _ => { Dinode.zero with type := T_FILE }) freeWhileAlloc s ∧
      (∃ i, (s.entry i).ref = 1 ∧ (s.entry i).copy.type = T_DEVICE) ∧ Coherent 10 s := by
  obtain ⟨s, hrun, hs⟩ := Run.exists_of_any
    (P := fun s => ∃ i, (s.entry i).ref = 1 ∧ (s.entry i).copy.type = T_DEVICE)
    (by decide +kernel : ((freeWhileAlloc (P := Fin 2) (R := Fin 2)).foldlM (step 10)
      (boot fun _ => { Dinode.zero with type := T_FILE })).any _ = true)
  exact ⟨s, hrun, of_decide_eq_true hs, icache_coherent hrun⟩

end Xv6.Icache
