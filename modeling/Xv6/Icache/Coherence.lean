import Xv6.Icache.Basic

/-!
# The inode cache is coherent

Between its `iupdate` and `ip->valid = 0` a freeing `iput` leaves an entry that
looks loaded while the inode may already belong to somebody else.  It holds
the sleep-lock until the entry is marked as not loaded, and the reference count
tells that nobody else relied on the entry when it took the lock.
-/

namespace Xv6.Icache

open Lib
open Function (update update_apply update_eq_self update_of_ne update_self)

variable {P R : Type}

/-- References that a process in `iput` still counts for. -/
def Pc.drops (i : Fin NINODE) : Pc R → ℕ
  | .putting j => if j = i then 1 else 0
  | .freeing _ j => if j = i then 1 else 0
  | .dropping j => if j = i then 1 else 0
  | _ => 0

/-- Whether a stored reference leads to entry `i`. -/
def leads (i : Fin NINODE) (o : Option (Fin NINODE)) : ℕ := if o = some i then 1 else 0

/-- `iput` has written the free inode to disk. -/
def Stage.Flushed (g : Stage) : Prop := g = .clear ∨ g = .unlock

/-- Who holds, or waits for, a sleep-lock, and what they rely on. -/
structure Locks (s : State P R) : Prop where
  acquiring : ∀ p i r, s.pc p = .acquiring i r → s.tok r = some i
  loading : ∀ p i r, s.pc p = .loading i r →
    (s.entry i).lock = some (p, some r) ∧ (s.entry i).dirty = false
  held : ∀ i p r, (s.entry i).lock = some (p, some r) → s.tok r = some i
  freeing : ∀ p g i, s.pc p = .freeing g i →
    (s.entry i).lock = some (p, none) ∧ (g.Flushed → (s.entry i).dirty = false)
  freed : ∀ i p, (s.entry i).lock = some (p, none) → ∃ g, s.pc p = .freeing g i
  dirty : ∀ i, (s.entry i).dirty = true → (s.entry i).lock ≠ none

/-- What a loaded entry has to do with the inode on disk. -/
structure Synced (s : State P R) (i : Fin NINODE) : Prop where
  used : (s.dinode (s.entry i).key).type ≠ 0
  equal : (s.entry i).dirty = false → (s.entry i).copy = s.dinode (s.entry i).key
  typed : (∀ p, s.pc p ≠ .freeing .flushFree i) → (s.entry i).copy.type ≠ 0

structure Inv [Fintype P] [Fintype R] (s : State P R) : Prop where
  ref : ∀ i, (s.entry i).ref = (∑ r, leads i (s.tok r)) + ∑ p, (s.pc p).drops i
  unique : ∀ i j, 0 < (s.entry i).ref → 0 < (s.entry j).ref → (s.entry i).key = (s.entry j).key →
    i = j
  locks : Locks s
  synced : ∀ i, 0 < (s.entry i).ref → (s.entry i).valid = true →
    (∀ p, s.pc p ≠ .freeing .clear i) → Synced s i
  loaded : ∀ p g i, s.pc p = .freeing g i → g ≠ .unlock → (s.entry i).valid = true

variable {s t : State P R} {i j : Fin NINODE} {p : P} {r : R}
  {k : Key} {ninodes : ℕ} {e : Event P R}

/-! ### Locks -/

theorem Locks.holder (h : Locks s) (hp : s.pc p = .idle) (hi : s.holdingsleep p i) :
    ∃ r, (s.entry i).lock = some (p, some r) := by
  rw [State.holdingsleep, Option.map_eq_some_iff] at hi
  obtain ⟨⟨q, o⟩, hl, rfl⟩ := hi
  cases o with
  | some r => exact ⟨r, hl⟩
  | none =>
    obtain ⟨g, hg⟩ := h.freed i q hl
    simp [hp] at hg

/-- What a process has to respect when it is at `c`. -/
def Pc.Fits (s : State P R) (p : P) : Pc R → Prop
  | .acquiring i r => s.tok r = some i
  | .loading i r => (s.entry i).lock = some (p, some r) ∧ (s.entry i).dirty = false
  | .freeing g i =>
    (s.entry i).lock = some (p, none) ∧ (g.Flushed → (s.entry i).dirty = false)
  | _ => True

theorem same_lock {x : Entry P R} (ht : t.entry = update s.entry i x)
    (hl : x.lock = (s.entry i).lock) (hd : x.dirty = (s.entry i).dirty) (j : Fin NINODE) :
    (t.entry j).lock = (s.entry j).lock ∧ (t.entry j).dirty = (s.entry j).dirty := by
  rw [ht, update_apply]
  split_ifs with hji
  · rw [hji]
    exact ⟨hl, hd⟩
  · exact ⟨rfl, rfl⟩

theorem other_lock {x : Entry P R} (ht : t.entry = update s.entry i x) (j : Fin NINODE)
    (hj : j ≠ i) : (t.entry j).lock = (s.entry j).lock ∧ (t.entry j).dirty = (s.entry j).dirty := by
  rw [ht, update_of_ne hj]
  exact ⟨rfl, rfl⟩

theorem Locks.alone {o : Option R} (h : Locks s) (hl : (s.entry i).lock = some (p, o)) {q : P}
    (hq : q ≠ p) : ¬ ((∃ r, s.pc q = .loading i r) ∨ ∃ g, s.pc q = .freeing g i) := by
  rintro (⟨r, hr⟩ | ⟨g, hg⟩)
  · have hl' := (h.loading q i r hr).1
    simp [hl, hq.symm] at hl'
  · have hl' := (h.freeing q g i hg).1
    simp [hl, hq.symm] at hl'

theorem Locks.pc_ne {o : Option R} {g : Stage} (h : Locks s)
    (hl : (s.entry i).lock = some (p, o)) (hp : s.pc p ≠ .freeing g i) (q : P) :
    s.pc q ≠ .freeing g i := by
  by_cases hqp : q = p
  · exact hqp ▸ hp
  · exact fun hq => h.alone hl hqp (.inr ⟨g, hq⟩)

theorem Locks.not_of_unlocked (h : Locks s) (hl : (s.entry i).lock = none) (q : P) :
    ¬ ((∃ r, s.pc q = .loading i r) ∨ ∃ g, s.pc q = .freeing g i) := by
  rintro (⟨r, hr⟩ | ⟨g, hg⟩)
  · simp [(h.loading q i r hr).1] at hl
  · simp [(h.freeing q g i hg).1] at hl

section

variable [DecidableEq R]

theorem tok_of_fresh {o : Option (Fin NINODE)} (ht : t.tok = update s.tok r o)
    (hr : s.tok r = none) (r' : R) (j : Fin NINODE) (hj : s.tok r' = some j) :
    t.tok r' = some j := by
  have hne : r' ≠ r := by
    rintro rfl
    simp [hr] at hj
  rw [ht, update_of_ne hne, hj]

theorem Refers.frame (ht : Refers s k r t) : t.pc = s.pc ∧ t.dinode = s.dinode ∧
    (∀ j, (t.entry j).lock = (s.entry j).lock ∧ (t.entry j).dirty = (s.entry j).dirty) ∧
      ∀ r' j, s.tok r' = some j → t.tok r' = some j := by
  cases ht with
  | hit hr hi hk | miss hr hk hi =>
    exact ⟨rfl, rfl, same_lock rfl (by rfl) (by rfl), tok_of_fresh rfl hr⟩

end

section

variable [DecidableEq P]

theorem Locks.change {c : Pc R} (h : Locks s) (i : Fin NINODE) (p : P)
    (hc : t.pc = update s.pc p c)
    (hx : ∀ j ≠ i, (t.entry j).lock = (s.entry j).lock ∧ (t.entry j).dirty = (s.entry j).dirty)
    (htok : ∀ r j, s.Relied r → s.tok r = some j → t.tok r = some j)
    (hfits : c.Fits t p)
    (hother : ∀ q ≠ p, (∃ r, s.pc q = .loading i r) ∨ (∃ g, s.pc q = .freeing g i) →
      (t.entry i).lock = (s.entry i).lock ∧ (t.entry i).dirty = (s.entry i).dirty)
    (hheld : ∀ q r, (t.entry i).lock = some (q, some r) → t.tok r = some i)
    (hfreed : ∀ q, (t.entry i).lock = some (q, none) → ∃ g, t.pc q = .freeing g i)
    (hdirty : (t.entry i).dirty = true → (t.entry i).lock ≠ none)
    (hleave : ∀ g j, s.pc p = .freeing g j → j = i) : Locks t := by
  have hp : t.pc p = c := by rw [hc, update_self]
  have hq : ∀ q ≠ p, t.pc q = s.pc q := fun q hqp => by rw [hc, update_of_ne hqp]
  refine ⟨fun q j r hj => ?_, fun q j r hj => ?_, fun j q r hj => ?_, fun q g j hj => ?_,
    fun j q hj => ?_, fun j hj => ?_⟩
  · by_cases hqp : q = p
    · subst hqp
      rw [hp] at hj
      exact (hj ▸ hfits :)
    · rw [hq q hqp] at hj
      exact htok r j (.inl ⟨q, j, hj⟩) (h.acquiring q j r hj)
  · by_cases hqp : q = p
    · subst hqp
      rw [hp] at hj
      exact (hj ▸ hfits :)
    · rw [hq q hqp] at hj
      obtain ⟨hlock, hclean⟩ := h.loading q j r hj
      by_cases hji : j = i
      · subst hji
        obtain ⟨hl, hd⟩ := hother q hqp (.inl ⟨r, hj⟩)
        exact ⟨hl.trans hlock, hd.trans hclean⟩
      · exact ⟨(hx j hji).1.trans hlock, (hx j hji).2.trans hclean⟩
  · by_cases hji : j = i
    · subst hji
      exact hheld q r hj
    · rw [(hx j hji).1] at hj
      exact htok r j (.inr ⟨j, q, hj⟩) (h.held j q r hj)
  · by_cases hqp : q = p
    · subst hqp
      rw [hp] at hj
      exact (hj ▸ hfits :)
    · rw [hq q hqp] at hj
      obtain ⟨hlock, hclean⟩ := h.freeing q g j hj
      by_cases hji : j = i
      · subst hji
        obtain ⟨hl, hd⟩ := hother q hqp (.inr ⟨g, hj⟩)
        exact ⟨hl.trans hlock, fun hg => hd.trans (hclean hg)⟩
      · exact ⟨(hx j hji).1.trans hlock, fun hg => (hx j hji).2.trans (hclean hg)⟩
  · by_cases hji : j = i
    · subst hji
      exact hfreed q hj
    · rw [(hx j hji).1] at hj
      obtain ⟨g, hg⟩ := h.freed j q hj
      have hqp : q ≠ p := by
        rintro rfl
        exact hji (hleave g j hg)
      exact ⟨g, (hq q hqp).trans hg⟩
  · by_cases hji : j = i
    · subst hji
      exact hdirty hj
    · rw [(hx j hji).2] at hj
      rw [(hx j hji).1]
      exact h.dirty j hj

theorem Locks.move {c : Pc R} (h : Locks s) (p : P) (hc : t.pc = update s.pc p c)
    (hx : ∀ j, (t.entry j).lock = (s.entry j).lock ∧ (t.entry j).dirty = (s.entry j).dirty)
    (htok : ∀ r j, s.Relied r → s.tok r = some j → t.tok r = some j)
    (hfits : c.Fits t p) (hleave : ∀ g j, s.pc p ≠ .freeing g j) : Locks t := by
  refine h.change ⟨0, by decide⟩ p hc (fun j _ => hx j) htok hfits
    (fun q _ _ => hx _) (fun q r hq => ?_) (fun q hq => ?_) (fun hd => ?_)
    fun g j hj => absurd hj (hleave g j)
  · rw [(hx _).1] at hq
    exact htok r _ (.inr ⟨_, q, hq⟩) (h.held _ q r hq)
  · rw [(hx _).1] at hq
    obtain ⟨g, hg⟩ := h.freed _ q hq
    have hqp : q ≠ p := by
      rintro rfl
      exact hleave g _ hg
    exact ⟨g, by rw [hc, update_of_ne hqp, hg]⟩
  · rw [(hx _).2] at hd
    rw [(hx _).1]
    exact h.dirty _ hd

theorem Locks.stage {g g' : Stage} {x : Entry P R} (h : Locks s) (hp : s.pc p = .freeing g i)
    (hc : t.pc = update s.pc p (.freeing g' i))
    (hx : t.entry = update s.entry i x) (htok : t.tok = s.tok)
    (hxl : x.lock = (s.entry i).lock) (hxd : g'.Flushed → x.dirty = false) : Locks t := by
  have hold := (h.freeing p g i hp).1
  have hi : t.entry i = x := by rw [hx, update_self]
  have hl : (t.entry i).lock = some (p, none) := by rw [hi, hxl, hold]
  refine h.change i p hc (other_lock hx) (fun r j _ hj => htok ▸ hj) ⟨hl, hi ▸ hxd⟩
    (fun q hq hne => absurd hne (h.alone hold hq)) (fun q r hq => ?_) (fun q hq => ⟨g', ?_⟩)
    (fun _ => by simp [hl]) fun g'' j hj => ?_
  · simp [hl] at hq
  · obtain rfl : p = q := by simpa [hl] using hq
    rw [hc, update_self]
  · rw [hp, Pc.freeing.injEq] at hj
    exact hj.2.symm

theorem pc_ne_of_update {c d : Pc R} (hc : t.pc = update s.pc p c) (hp : s.pc p ≠ d)
    (h : ∀ q, t.pc q ≠ d) (q : P) : s.pc q ≠ d := by
  by_cases hqp : q = p
  · exact hqp ▸ hp
  · have hq := h q
    rwa [hc, update_of_ne hqp] at hq

end

variable [DecidableEq P] [DecidableEq R] in
theorem Locks.effect (h : Locks s) (he : Effect ninodes s e t) : Locks t := by
  have hself (p : P) : s.pc = update s.pc p (s.pc p) :=
    (update_eq_self p s.pc).symm
  have htoks : ∀ r j, s.Relied r → s.tok r = some j → s.tok r = some j := fun _ _ _ hr => hr
  cases he with
  | @iget p k r _ hp ht =>
    obtain ⟨hpc, -, hlock, htok⟩ := ht.frame
    exact h.move p (hpc.trans (hself p)) hlock (fun r j _ => htok r j) (by simp [hp, Pc.Fits])
      (by simp [hp])
  | @idup p r r' i hp hr hr' =>
    exact h.move p (hself p) (same_lock rfl (by rfl) (by rfl))
      (fun r j _ => tok_of_fresh rfl hr' r j) (by simp [hp, Pc.Fits]) (by simp [hp])
  | @ilock p r i hp hr => exact h.move p rfl (fun _ => ⟨rfl, rfl⟩) htoks hr (by simp [hp])
  | @acquiresleep p r i hp hi =>
    have hclean : (s.entry i).dirty = false := by
      by_contra hd
      exact h.dirty i (by simpa using hd) hi
    refine h.change i p rfl (other_lock rfl) htoks ?_
      (fun q _ hne => absurd hne (h.not_of_unlocked hi q)) (fun q r' hq => ?_) (fun q hq => ?_)
      (fun hd => ?_) (by simp [hp])
    · simp [Pc.Fits, State.setPc, State.setEntry, hclean]
    · simp only [State.setPc, State.setEntry, update_self, Option.some_inj,
        Prod.mk.injEq] at hq
      exact hq.2 ▸ h.acquiring p i r hp
    · simp [State.setPc, State.setEntry] at hq
    · simp [State.setPc, State.setEntry]
  | cached hp hi | ialloc hp | claim hp hty | next hp | full hp =>
    exact h.move _ rfl (fun _ => ⟨rfl, rfl⟩) htoks trivial (by simp [hp])
  | load hp hi hty | put hp | drop hp =>
    exact h.move _ rfl (same_lock rfl (by rfl) (by rfl)) htoks trivial (by simp [hp])
  | @modify p i major minor nlink size addrs hp hi =>
    obtain ⟨r, hl⟩ := h.holder hp hi
    refine h.change i p (hself p) (other_lock rfl) htoks (by simp [hp, Pc.Fits])
      (fun q hq hne => absurd hne (h.alone hl hq)) (fun q r' hq => ?_) (fun q hq => ?_)
      (fun _ => ?_)
      (by simp [hp])
    · exact h.held i q r' (by simpa [State.setEntry] using hq)
    · exact h.freed i q (by simpa [State.setEntry] using hq)
    · simp [State.setEntry, hl]
  | @iupdate p i hp hi =>
    obtain ⟨r, hl⟩ := h.holder hp hi
    refine h.change i p (hself p) (other_lock rfl) htoks (by simp [hp, Pc.Fits])
      (fun q hq hne => absurd hne (h.alone hl hq)) (fun q r' hq => ?_) (fun q hq => ?_)
      (fun _ => ?_)
      (by simp [hp])
    · exact h.held i q r' (by simpa [State.iupdate, State.setEntry, State.setDinode] using hq)
    · exact h.freed i q (by simpa [State.iupdate, State.setEntry, State.setDinode] using hq)
    · simp [State.iupdate, State.setEntry, State.setDinode, hl]
  | @iunlock p i hp hi hd =>
    obtain ⟨r, hl⟩ := h.holder hp hi
    refine h.change i p (hself p) (other_lock rfl) htoks (by simp [hp, Pc.Fits])
      (fun q hq hne => absurd hne (h.alone hl hq)) (fun q r' hq => ?_) (fun q hq => ?_)
      (fun hd' => ?_) (by simp [hp])
    · simp [State.setEntry] at hq
    · simp [State.setEntry] at hq
    · simp [State.setEntry, hd] at hd'
  | @iput p r i hp hr hrel =>
    refine h.move p rfl (fun _ => ⟨rfl, rfl⟩) (fun r' j hr' hj => ?_) trivial (by simp [hp])
    have hne : r' ≠ r := by
      rintro rfl
      exact hrel hr'
    simpa [State.setPc, State.setTok, update_of_ne hne] using hj
  | @last p i hp hi hv hl =>
    refine h.change i p rfl (other_lock rfl) htoks ?_
      (fun q _ hne => absurd hne (h.not_of_unlocked hl q)) (fun q r' hq => ?_)
      (fun q hq => ⟨.trunc, ?_⟩) (fun hd => ?_) (by simp [hp])
    · simp [Pc.Fits, State.setPc, State.setEntry, Stage.Flushed]
    · simp [State.setPc, State.setEntry] at hq
    · obtain rfl : p = q := by simpa [State.setPc, State.setEntry] using hq
      simp [State.setPc]
    · simp [State.setPc, State.setEntry]
  | @free p i g hp =>
    obtain ⟨hl, hclean⟩ := h.freeing p g i hp
    cases g with
    | trunc => exact h.stage hp rfl rfl rfl (by rfl) (by simp [Stage.Flushed])
    | flush => exact h.stage hp rfl rfl rfl (by rfl) (by simp [Stage.Flushed])
    | untype => exact h.stage hp rfl rfl rfl (by rfl) (by simp [Stage.Flushed])
    | flushFree => exact h.stage hp rfl rfl rfl (by rfl) (by simp)
    | clear => exact h.stage hp rfl rfl rfl (by rfl) fun _ => hclean (.inl rfl)
    | unlock =>
      have hnone : ((s.free p i .unlock).entry i).lock = none := by
        simp [State.free, State.setPc, State.setEntry]
      refine h.change i p rfl (other_lock rfl) htoks trivial
        (fun q hq hne => absurd hne (h.alone hl hq)) (by simp [hnone]) (by simp [hnone])
        (fun hd => ?_) fun g' j hj => ?_
      · simp [State.free, State.setPc, State.setEntry, hclean (.inr rfl)] at hd
      · rw [hp, Pc.freeing.injEq] at hj
        exact hj.2.symm
  | @igetNew p k r u hp ht =>
    obtain ⟨hpc, -, hlock, htok⟩ := ht.frame
    have hpc' : (u.setPc p .idle).pc = update s.pc p .idle := by rw [State.setPc, hpc]
    exact h.move p hpc' hlock (fun r j _ => htok r j) trivial (by simp [hp])

/-! ### Copies -/

/-- Neither the number nor the contents of an entry change. -/
structure SameCopy (x y : Entry P R) : Prop where
  key : y.key = x.key
  valid : y.valid = x.valid
  copy : y.copy = x.copy
  dirty : y.dirty = x.dirty

theorem sameCopy_update {x : Entry P R} (ht : t.entry = update s.entry i x)
    (hx : SameCopy (s.entry i) x) (j : Fin NINODE) : SameCopy (s.entry j) (t.entry j) := by
  rw [ht, update_apply]
  split_ifs with hji
  · exact hji ▸ hx
  · exact ⟨rfl, rfl, rfl, rfl⟩

theorem Synced.congr (h : Synced s j) (hx : SameCopy (s.entry j) (t.entry j))
    (hd : t.dinode (s.entry j).key = s.dinode (s.entry j).key)
    (hpc : (∀ p, t.pc p ≠ .freeing .flushFree j) → ∀ p, s.pc p ≠ .freeing .flushFree j) :
    Synced t j := by
  refine ⟨?_, fun hdirty => ?_, fun hp => ?_⟩
  · rw [hx.key, hd]
    exact h.used
  · rw [hx.copy, hx.key, hd]
    exact h.equal (hx.dirty ▸ hdirty)
  · rw [hx.copy]
    exact h.typed (hpc hp)

theorem ref_update_eq {x : Entry P R} (ht : t.entry = update s.entry i x)
    (hx : x.ref = (s.entry i).ref) (j : Fin NINODE) : (t.entry j).ref = (s.entry j).ref := by
  rw [ht, update_apply]
  split_ifs with hji
  · rw [hx, hji]
  · rfl

theorem ref_pos_update {x : Entry P R} (ht : t.entry = update s.entry i x)
    (hx : 0 < x.ref → 0 < (s.entry i).ref) (j : Fin NINODE) (hj : 0 < (t.entry j).ref) :
    0 < (s.entry j).ref := by
  rw [ht, update_apply] at hj
  split_ifs at hj with hji
  · exact hji ▸ hx hj
  · exact hj

/-! ### Reference counts -/

variable [Fintype P] [Fintype R]

theorem inv_boot (dinode : Key → Dinode) : Inv (boot dinode : State P R) := by
  refine ⟨fun i => ?_, ?_, ⟨?_, ?_, ?_, ?_, ?_, ?_⟩, ?_, ?_⟩
  · simp [boot, leads, Pc.drops]
  all_goals exact nofun

theorem Inv.ref_pos_of_tok (h : Inv s) (hr : s.tok r = some i) : 0 < (s.entry i).ref := by
  have hle := le_sum (leads i) s.tok r
  have href := h.ref i
  rw [hr, leads, if_pos rfl] at hle
  omega

theorem Inv.ref_pos_of_drops (h : Inv s) (hp : 0 < (s.pc p).drops i) : 0 < (s.entry i).ref := by
  have hle := le_sum (Pc.drops i) s.pc p
  have href := h.ref i
  omega

theorem Inv.ref_pos_of_lock (h : Inv s) (hl : (s.entry i).lock ≠ none) : 0 < (s.entry i).ref := by
  cases hi : (s.entry i).lock with
  | none => exact absurd hi hl
  | some x =>
    obtain ⟨p, o⟩ := x
    cases o with
    | some r => exact h.ref_pos_of_tok (h.locks.held i p r hi)
    | none =>
      obtain ⟨g, hg⟩ := h.locks.freed i p hi
      exact h.ref_pos_of_drops (p := p) (by simp [hg, Pc.drops])

variable [DecidableEq P]

theorem Inv.move {c : Pc R} (h : Inv s) (p : P) (hc : t.pc = update s.pc p c)
    (hp : ∀ g j, s.pc p ≠ .freeing g j) (hx : ∀ j, SameCopy (s.entry j) (t.entry j))
    (hd : t.dinode = s.dinode) (href : ∀ j, 0 < (t.entry j).ref → 0 < (s.entry j).ref)
    (hcount : ∀ i, (t.entry i).ref = (∑ r, leads i (t.tok r)) + ∑ p, (t.pc p).drops i)
    (hlocks : Locks t) (hload : ∀ g j, c = .freeing g j → (s.entry j).valid = true) : Inv t := by
  refine ⟨hcount, fun i j hi hj hij => ?_, hlocks, fun i hi hv hclear => ?_, fun q g i hq hg => ?_⟩
  · rw [(hx i).key, (hx j).key] at hij
    exact h.unique i j (href i hi) (href j hj) hij
  · rw [(hx i).valid] at hv
    have hs := h.synced i (href i hi) hv (pc_ne_of_update hc (hp _ _) hclear)
    exact hs.congr (hx i) (by rw [hd]) (pc_ne_of_update hc (hp _ _))
  · rw [(hx i).valid]
    by_cases hqp : q = p
    · rw [hqp, hc, update_self] at hq
      exact hload g i hq
    · rw [hc, update_of_ne hqp] at hq
      exact h.loaded q g i hq hg

theorem Inv.ref_same {c : Pc R} (h : Inv s) (p : P) (hc : t.pc = update s.pc p c)
    (htok : t.tok = s.tok) (hx : ∀ j, (t.entry j).ref = (s.entry j).ref)
    (hdrops : ∀ j, c.drops j = (s.pc p).drops j) (j : Fin NINODE) :
    (t.entry j).ref = (∑ r, leads j (t.tok r)) + ∑ p, (t.pc p).drops j := by
  have hsum := sum_update (Pc.drops j) s.pc p c
  have hold := h.ref j
  have hj := hdrops j
  rw [hx, htok, hc]
  omega

theorem Inv.count_drop (h : Inv s) (hp : ∀ j, (s.pc p).drops j = if i = j then 1 else 0)
    (hx : t.entry = update s.entry i { s.entry i with ref := (s.entry i).ref - 1 })
    (htok : t.tok = s.tok) (hc : t.pc = update s.pc p .idle) (j : Fin NINODE) :
    (t.entry j).ref = (∑ r, leads j (t.tok r)) + ∑ p, (t.pc p).drops j := by
  have hsum := sum_update (Pc.drops j) s.pc p .idle
  have hold := h.ref j
  have hidle : (Pc.idle : Pc R).drops j = 0 := rfl
  rw [hp j, hidle] at hsum
  rw [hx, htok, hc]
  by_cases hji : j = i
  · subst hji
    rw [if_pos rfl] at hsum
    simp only [update_self]
    omega
  · rw [if_neg (Ne.symm hji)] at hsum
    simp only [update_of_ne hji]
    omega

theorem Inv.drop (h : Inv s) (hp : ∀ j, (s.pc p).drops j = if i = j then 1 else 0)
    (hpf : ∀ g j, s.pc p ≠ .freeing g j)
    (hlocks : Locks ((s.setEntry i { s.entry i with ref := (s.entry i).ref - 1 }).setPc p .idle)) :
    Inv ((s.setEntry i { s.entry i with ref := (s.entry i).ref - 1 }).setPc p .idle) := by
  refine h.move p rfl hpf (sameCopy_update rfl ⟨rfl, rfl, rfl, rfl⟩) rfl
    (ref_pos_update rfl fun hpos => ?_) (h.count_drop hp rfl rfl rfl) hlocks nofun
  exact hpos.trans_le (Nat.sub_le _ _)

theorem Inv.touch {c : Pc R} {x : Entry P R} (h : Inv s) (p : P)
    (hc : t.pc = update s.pc p c) (hx : t.entry = update s.entry i x)
    (htok : t.tok = s.tok) (hd : ∀ k ≠ (s.entry i).key, t.dinode k = s.dinode k)
    (hi : 0 < (s.entry i).ref) (hxk : x.key = (s.entry i).key) (hxr : x.ref = (s.entry i).ref)
    (hp : ∀ g j, s.pc p = .freeing g j → j = i) (hdrops : ∀ j, c.drops j = (s.pc p).drops j)
    (hsync : x.valid = true → (∀ p, t.pc p ≠ .freeing .clear i) → Synced t i) (hlocks : Locks t)
    (hload : ∀ q g, t.pc q = .freeing g i → g ≠ .unlock → x.valid = true)
    (hcf : ∀ g j, c = .freeing g j → j = i) : Inv t := by
  have hti : t.entry i = x := by rw [hx, update_self]
  have htj : ∀ j ≠ i, t.entry j = s.entry j := fun j hj => by rw [hx, update_of_ne hj]
  have href := ref_update_eq hx hxr
  have hkey : ∀ j, (t.entry j).key = (s.entry j).key := by
    intro j
    by_cases hji : j = i
    · rw [hji, hti, hxk]
    · rw [htj j hji]
  refine ⟨h.ref_same p hc htok href hdrops, fun a b ha hb hab => ?_, hlocks,
    fun j hj hv hclear => ?_, fun q g j hq hg => ?_⟩
  · rw [href] at ha hb
    rw [hkey, hkey] at hab
    exact h.unique a b ha hb hab
  · by_cases hji : j = i
    · subst hji
      exact hsync (hti ▸ hv) hclear
    · have hne : ∀ g, s.pc p ≠ .freeing g j := fun g hg => hji (hp g j hg)
      rw [htj j hji] at hj hv
      have hs := h.synced j hj hv (pc_ne_of_update hc (hne _) hclear)
      refine hs.congr ?_ (hd _ fun heq => hji (h.unique j i hj hi heq)) (pc_ne_of_update hc (hne _))
      rw [htj j hji]
      exact ⟨rfl, rfl, rfl, rfl⟩
  · by_cases hji : j = i
    · subst hji
      rw [hti]
      exact hload q g hq hg
    · have hqp : q ≠ p := by
        rintro rfl
        rw [hc, update_self] at hq
        exact hji (hcf g j hq)
      rw [htj j hji]
      rw [hc, update_of_ne hqp] at hq
      exact h.loaded q g j hq hg

theorem Inv.free {g : Stage} (h : Inv s) (hp : s.pc p = .freeing g i)
    (hlocks : Locks (s.free p i g)) : Inv (s.free p i g) := by
  have hl := (h.locks.freeing p g i hp).1
  have href : 0 < (s.entry i).ref := h.ref_pos_of_lock (by simp [hl])
  have hne : ∀ g' ≠ g, ∀ q, s.pc q ≠ .freeing g' i := fun g' hg' =>
    h.locks.pc_ne hl (by simp [hp, hg'.symm])
  have hleave : ∀ g' j, s.pc p = .freeing g' j → j = i := by
    intro g' j hj
    rw [hp, Pc.freeing.injEq] at hj
    exact hj.2.symm
  have hsame : ∀ g₁ g₂ j, (Pc.freeing g₁ i : Pc R) = .freeing g₂ j → j = i := by
    intro g₁ g₂ j hj
    exact (Pc.freeing.inj hj).2.symm
  have hs : g ≠ .clear → (s.entry i).valid = true → Synced s i := fun hg hv =>
    h.synced i href hv (hne _ (Ne.symm hg))
  have hv : g ≠ .unlock → (s.entry i).valid = true := h.loaded p g i hp
  cases g with
  | trunc =>
    refine h.touch p rfl rfl rfl (fun _ _ => rfl) href rfl rfl hleave (by simp [hp, Pc.drops])
      (fun _ _ => ?_) hlocks (fun _ _ _ _ => hv (by simp)) (hsame _)
    have hold := hs (by simp) (hv (by simp))
    refine ⟨?_, ?_, fun _ => ?_⟩ <;> simp only [State.free, State.setPc, State.setEntry,
      update_self]
    · exact hold.used
    · simp
    · exact hold.typed (hne _ (by simp))
  | flush =>
    refine h.touch p rfl rfl rfl (fun k hk => update_of_ne hk _ _) href rfl rfl hleave
      (by simp [hp, Pc.drops]) (fun _ _ => ?_) hlocks (fun _ _ _ _ => hv (by simp)) (hsame _)
    have htyped := (hs (by simp) (hv (by simp))).typed (hne _ (by simp))
    refine ⟨?_, fun _ => ?_, fun _ => ?_⟩ <;> simp only [State.free, State.iupdate, State.setPc,
      State.setDinode, State.setEntry, update_self]
    · exact htyped
    · exact htyped
  | untype =>
    refine h.touch p rfl rfl rfl (fun _ _ => rfl) href rfl rfl hleave (by simp [hp, Pc.drops])
      (fun _ _ => ?_) hlocks (fun _ _ _ _ => hv (by simp)) (hsame _)
    have hold := hs (by simp) (hv (by simp))
    refine ⟨?_, ?_, fun hq => ?_⟩
    · simpa [State.free, State.setPc, State.setEntry] using hold.used
    · simp [State.free, State.setPc, State.setEntry]
    · exact absurd (by simp [State.free, State.setPc]) (hq p)
  | flushFree =>
    refine h.touch p rfl rfl rfl (fun k hk => update_of_ne hk _ _) href rfl rfl hleave
      (by simp [hp, Pc.drops]) (fun _ hq => ?_) hlocks (fun _ _ _ _ => hv (by simp)) (hsame _)
    exact absurd (by simp [State.free, State.setPc]) (hq p)
  | clear =>
    refine h.touch p rfl rfl rfl (fun _ _ => rfl) href rfl rfl hleave (by simp [hp, Pc.drops])
      (fun hv _ => Bool.noConfusion hv) hlocks (fun q g' hq hg' => ?_) (hsame _)
    -- only this process frees the inode, and it is at its last stage
    by_cases hqp : q = p
    · subst hqp
      simp only [State.free, State.setPc, update_self, Pc.freeing.injEq] at hq
      exact absurd hq.1.symm hg'
    · simp only [State.free, State.setPc, State.setEntry, update_of_ne hqp] at hq
      exact absurd (.inr ⟨g', hq⟩) (h.locks.alone hl hqp)
  | unlock =>
    refine h.touch p rfl rfl rfl (fun _ _ => rfl) href rfl rfl hleave (by simp [hp, Pc.drops])
      (fun hv _ => ?_) hlocks (fun q g' hq _ => ?_) nofun
    · refine (hs (by simp) hv).congr ?_ rfl fun _ => hne _ (by simp)
      simp only [State.free, State.setPc, State.setEntry, update_self]
      exact ⟨rfl, rfl, rfl, rfl⟩
    · have hqp : q ≠ p := by
        rintro rfl
        simp [State.free, State.setPc] at hq
      simp only [State.free, State.setPc, State.setEntry, update_of_ne hqp] at hq
      exact absurd (.inr ⟨g', hq⟩) (h.locks.alone hl hqp)

variable [DecidableEq R]

/-- A step that changes one entry, one process and one reference keeps the
counts if the changes add up. -/
theorem ref_update (h : ∀ i, (s.entry i).ref = (∑ r, leads i (s.tok r)) + ∑ p, (s.pc p).drops i)
    (i : Fin NINODE) (x : Entry P R) (p : P) (c : Pc R) (r : R) (o : Option (Fin NINODE))
    (hx : t.entry = update s.entry i x) (hc : t.pc = update s.pc p c)
    (ho : t.tok = update s.tok r o)
    (hi : x.ref + (leads i (s.tok r) + (s.pc p).drops i) =
      (s.entry i).ref + (leads i o + c.drops i))
    (hj : ∀ j ≠ i, leads j o + c.drops j = leads j (s.tok r) + (s.pc p).drops j)
    (j : Fin NINODE) :
    (t.entry j).ref = (∑ r, leads j (t.tok r)) + ∑ p, (t.pc p).drops j := by
  have hold := h j
  have htok := sum_update (leads j) s.tok r o
  have hpc := sum_update (Pc.drops j) s.pc p c
  rw [hx, hc, ho]
  by_cases hji : j = i
  · subst hji
    simp only [update_self]
    omega
  · have hadd := hj j hji
    simp only [update_of_ne hji]
    omega

theorem Inv.count_refer {c : Pc R} {x : Entry P R} (h : Inv s) (p : P) (hr : s.tok r = none)
    (hx : t.entry = update s.entry i x) (hxr : x.ref = (s.entry i).ref + 1)
    (htok : t.tok = update s.tok r (some i)) (hc : t.pc = update s.pc p c)
    (hdrops : ∀ j, c.drops j = (s.pc p).drops j) (j : Fin NINODE) :
    (t.entry j).ref = (∑ r, leads j (t.tok r)) + ∑ p, (t.pc p).drops j := by
  refine ref_update h.ref i x p c r (some i) hx hc htok ?_ (fun j hj => ?_) j
  · have hi := hdrops i
    simp only [hr, leads, hxr, reduceCtorEq, if_false, if_true]
    omega
  · simp [hr, leads, hj.symm, hdrops j]

theorem Inv.refers {c : Pc R} {u : State P R} (h : Inv s) (p : P) (ht : Refers s k r t)
    (hp : ∀ g j, s.pc p ≠ .freeing g j)
    (hu : u.entry = t.entry ∧ u.tok = t.tok ∧ u.dinode = t.dinode)
    (hc : u.pc = update s.pc p c) (hdrops : ∀ j, c.drops j = (s.pc p).drops j)
    (hlocks : Locks u)
    (hcf : ∀ g j, c ≠ .freeing g j) : Inv u := by
  obtain ⟨hentry, htok, hdinode⟩ := hu
  cases ht with
  | @hit i hr hi hk =>
    exact h.move p hc hp (sameCopy_update hentry ⟨rfl, rfl, rfl, rfl⟩) hdinode
      (ref_pos_update hentry fun _ => hi) (h.count_refer p hr hentry rfl htok hc hdrops) hlocks
      fun g j hj => absurd hj (hcf g j)
  | @miss i hr hk hi =>
    have hcount := h.count_refer p hr hentry (by simp [hi]) htok hc hdrops
    have hxi : u.entry i = { s.entry i with key := k, ref := 1, valid := false } := by
      rw [hentry]
      exact update_self _ _ _
    have hxj : ∀ j ≠ i, u.entry j = s.entry j := by
      intro j hj
      rw [hentry]
      exact update_of_ne hj _ _
    refine ⟨hcount, fun a b ha hb hab => ?_, hlocks, fun j hj hv hclear => ?_,
      fun q g j hq hg => ?_⟩
    · -- a new entry carries a number that no other entry has
      by_cases hai : a = i <;> by_cases hbi : b = i
      · exact hai.trans hbi.symm
      · rw [hxj b hbi] at hb hab
        rw [hai, hxi] at hab
        exact absurd hab.symm (hk b hb)
      · rw [hxj a hai] at ha hab
        rw [hbi, hxi] at hab
        exact absurd hab (hk a ha)
      · rw [hxj a hai] at ha hab
        rw [hxj b hbi] at hb hab
        exact h.unique a b ha hb hab
    · have hji : j ≠ i := by
        rintro rfl
        simp [hxi] at hv
      rw [hxj j hji] at hj hv
      have hs := h.synced j hj hv (pc_ne_of_update hc (hp _ _) hclear)
      refine hs.congr ?_ ?_ (pc_ne_of_update hc (hp _ _))
      · rw [hxj j hji]
        exact ⟨rfl, rfl, rfl, rfl⟩
      · rw [hdinode]
        rfl
    · rw [hc] at hq
      have hq' : s.pc q = .freeing g j := by
        by_cases hqp : q = p
        · rw [hqp, update_self] at hq
          exact absurd hq (hcf g j)
        · rwa [update_of_ne hqp] at hq
      have hpos := h.ref_pos_of_drops (p := q) (i := j) (by simp [hq', Pc.drops])
      have hji : j ≠ i := by
        rintro rfl
        omega
      rw [hxj j hji]
      exact h.loaded q g j hq' hg

theorem Inv.effect (h : Inv s) (he : Effect ninodes s e t) : Inv t := by
  have hself (p : P) : s.pc = update s.pc p (s.pc p) :=
    (update_eq_self p s.pc).symm
  have hlocks := h.locks.effect he
  cases he with
  | @iget p k r _ hp ht =>
    have hpc := ht.frame.1.trans (hself p)
    exact h.refers p ht (by simp [hp]) ⟨rfl, rfl, rfl⟩ hpc (fun _ => rfl) hlocks (by simp [hp])
  | @idup p r r' i hp hr hr' =>
    exact h.move p (hself p) (by simp [hp]) (sameCopy_update rfl ⟨rfl, rfl, rfl, rfl⟩) rfl
      (ref_pos_update rfl fun _ => h.ref_pos_of_tok hr)
      (h.count_refer p hr' rfl rfl rfl (hself p) fun _ => rfl) hlocks (by simp [hp])
  | @ilock p r i hp hr | @cached p r i hp hi | @ialloc p dev type hp | @next p dev inum type hp
  | @full p dev inum type hp =>
    exact h.move p rfl (by simp [hp]) (fun _ => ⟨rfl, rfl, rfl, rfl⟩) rfl (fun _ hj => hj)
      (h.ref_same p rfl rfl (fun _ => rfl) (by simp [hp, Pc.drops])) hlocks nofun
  | @acquiresleep p r i hp hi =>
    exact h.move p rfl (by simp [hp]) (sameCopy_update rfl ⟨rfl, rfl, rfl, rfl⟩) rfl
      (ref_pos_update rfl fun hj => hj)
      (h.ref_same p rfl rfl (ref_update_eq rfl rfl) (by simp [hp, Pc.drops])) hlocks nofun
  | @load p r i hp hi hty =>
    have href : 0 < (s.entry i).ref := h.ref_pos_of_lock (by simp [(h.locks.loading p i r hp).1])
    refine h.touch p rfl rfl rfl (fun _ _ => rfl) href rfl rfl (by simp [hp])
      (by simp [hp, Pc.drops])
      (fun _ _ => ?_) hlocks (fun _ _ _ _ => rfl) nofun
    refine ⟨?_, fun _ => ?_, fun _ => ?_⟩ <;> simp only [State.setPc, State.setEntry,
      update_self]
    · exact hty
    · exact hty
  | @modify p i major minor nlink size addrs hp hi =>
    obtain ⟨r, hl⟩ := h.locks.holder hp hi
    have href : 0 < (s.entry i).ref := h.ref_pos_of_lock (by simp [hl])
    refine h.touch p (hself p) rfl rfl (fun _ _ => rfl) href rfl rfl (by simp [hp]) (fun _ => rfl)
      (fun hv hclear => ?_) hlocks (fun q g hq hg => h.loaded q g i hq hg) (by simp [hp])
    have hold := h.synced i href hv hclear
    refine ⟨?_, ?_, fun hq => ?_⟩ <;> simp only [State.setEntry, update_self]
    · exact hold.used
    · simp
    · exact hold.typed hq
  | @iupdate p i hp hi =>
    obtain ⟨r, hl⟩ := h.locks.holder hp hi
    have href : 0 < (s.entry i).ref := h.ref_pos_of_lock (by simp [hl])
    refine h.touch p (hself p) rfl rfl (fun k hk => update_of_ne hk _ _) href rfl rfl
      (by simp [hp]) (fun _ => rfl) (fun hv hclear => ?_) hlocks
      (fun q g hq hg => h.loaded q g i hq hg) (by simp [hp])
    have htyped := (h.synced i href hv hclear).typed (h.locks.pc_ne hl (by simp [hp]))
    refine ⟨?_, fun _ => ?_, fun _ => ?_⟩ <;> simp only [State.iupdate, State.setDinode,
      State.setEntry, update_self]
    · exact htyped
    · exact htyped
  | @iunlock p i hp hi hd =>
    exact h.move p (hself p) (by simp [hp]) (sameCopy_update rfl ⟨rfl, rfl, rfl, rfl⟩) rfl
      (ref_pos_update rfl fun hj => hj)
      (h.ref_same p (hself p) rfl (ref_update_eq rfl rfl) fun _ => rfl) hlocks (by simp [hp])
  | @iput p r i hp hr hrel =>
    refine h.move p rfl (by simp [hp]) (fun _ => ⟨rfl, rfl, rfl, rfl⟩) rfl
      (fun _ hj => hj) ?_ hlocks
      nofun
    refine ref_update h.ref i (s.entry i) p _ r none (update_eq_self _ _).symm rfl rfl ?_
      fun j hj => ?_
    · simp [hp, hr, Pc.drops, leads]
    · simp [hp, hr, Pc.drops, leads]
  | @last p i hp hi hv hl =>
    refine h.move p rfl (by simp [hp]) (sameCopy_update rfl ⟨rfl, rfl, rfl, rfl⟩) rfl
      (ref_pos_update rfl fun hj => hj)
      (h.ref_same p rfl rfl (ref_update_eq rfl rfl) (by simp [hp, Pc.drops])) hlocks
      fun g j hj => ?_
    exact (Pc.freeing.inj hj).2 ▸ hv
  | put hp | drop hp => exact h.drop (by simp [hp, Pc.drops]) (by simp [hp]) hlocks
  | free hp => exact h.free hp hlocks
  | @claim p dev inum type hp hty =>
    have hpf : ∀ g j, s.pc p ≠ .freeing g j := by simp [hp]
    refine ⟨h.ref_same p rfl rfl (fun _ => rfl) (by simp [hp, Pc.drops]), h.unique, hlocks,
      fun j hj hv hclear => ?_, fun q g j hq hg => ?_⟩
    · have hold := h.synced j hj hv (pc_ne_of_update rfl (hpf _ _) hclear)
      have hkey : (s.entry j).key ≠ (dev, inum) := fun hk => hold.used (hk ▸ hty)
      exact hold.congr ⟨rfl, rfl, rfl, rfl⟩ (update_of_ne hkey _ _)
        (pc_ne_of_update rfl (hpf _ _))
    · have hqp : q ≠ p := by
        rintro rfl
        simp [State.setPc] at hq
      simp only [State.setPc, State.setDinode, update_of_ne hqp] at hq
      exact h.loaded q g j hq hg
  | @igetNew p k r u hp ht =>
    have hpc : (u.setPc p .idle).pc = update s.pc p .idle := by
      rw [State.setPc, ht.frame.1]
    exact h.refers p ht (by simp [hp]) ⟨rfl, rfl, rfl⟩ hpc (by simp [hp, Pc.drops]) hlocks nofun

theorem inv_of_run {dinode : Key → Dinode} {tr : List (Event P R)}
    (hrun : Run (step ninodes) (boot dinode) tr s) : Inv s :=
  hrun.state_invariant (inv_boot dinode) fun _ _ _ hs he => hs.effect (effect_of_step he)

end Xv6.Icache
