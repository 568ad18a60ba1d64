import Xv6.Bio.Invariant
import Xv6.Lib.WriteBack

/-!
# The buffer cache is a write-back cache

Seen from outside, the buffers are the copies of a write-back cache whose homes
are the sectors of the disk.  Every step of `bio.c` is a step of that cache,
and only the copy of an unreferenced block is ever dropped.
-/

namespace Xv6.Bio

open Lib
open Function (update update_apply update_eq_self update_of_ne update_self)

variable {s t : State} {i j : Fin NBUF} {k : Key} {p : Fin NPROC} {e : Event}

namespace State

def copy (s : State) (k : Key) : Option Block :=
  ((List.finRange NBUF).find? fun i => (s.buf i).valid ∧ (s.buf i).key = k).map
    fun i => (s.buf i).data

def abs (s : State) : WriteBack.Store Key (BitVec 32) Block := ⟨s.copy, s.disk⟩

/-- The contents of a block, as `bread` delivers them. -/
def contents (s : State) (k : Key) : Block := s.abs.fetch sector k

def Busy (s : State) (k : Key) : Prop :=
  ∃ i, (s.buf i).valid = true ∧ (s.buf i).key = k ∧ 0 < (s.buf i).refcnt

end State

def act (s : State) : Event → WriteBack.Act Key Block
  | .bget _ k =>
    match s.lookup k, s.victim with
    | none, some i => if (s.buf i).valid then .evict (s.buf i).key else .skip
    | _, _ => .skip
  | .bread p =>
    match s.pc p with
    | .reading _ k => .read k (s.contents k)
    | _ => .skip
  | .modify _ i x => .write (s.buf i).key x
  | .bwrite _ i => .flush (s.buf i).key
  | _ => .skip

/-- Whoever holds a sleep-lock has seen the block read, or is about to read it. -/
def Loaded (s : State) : Prop :=
  ∀ i p, (s.buf i).lock = some p → (s.buf i).valid = true ∨ ∃ k, s.pc p = .reading i k

theorem Inv.used_of_valid (h : Inv s) (hi : (s.buf i).valid = true) : s.used i = true := by
  by_contra hn
  have hv := (h.aged.fresh i (by simpa using hn)).valid
  exact Bool.noConfusion (hi.symm.trans hv)

theorem Inv.eq_of_valid (h : Inv s) (hi : (s.buf i).valid = true) (hj : s.used j = true)
    (hij : (s.buf i).key = (s.buf j).key) : i = j :=
  h.distinct i j (h.used_of_valid hi) hj hij

theorem Inv.copy_eq_some_iff (h : Inv s) {x : Block} : s.copy k = some x ↔
    ∃ i, (s.buf i).valid = true ∧ (s.buf i).key = k ∧ (s.buf i).data = x := by
  rw [State.copy, Option.map_eq_some_iff]
  constructor
  · rintro ⟨i, hi, hx⟩
    have hik := List.find?_some hi
    rw [decide_eq_true_eq] at hik
    exact ⟨i, hik.1, hik.2, hx⟩
  · rintro ⟨i, hi, hik, hx⟩
    cases hf : (List.finRange NBUF).find? fun i => (s.buf i).valid ∧ (s.buf i).key = k with
    | none =>
      rw [List.find?_eq_none] at hf
      exact absurd (decide_eq_true ⟨hi, hik⟩) (hf i (List.mem_finRange i))
    | some j =>
      have hjk := List.find?_some hf
      rw [decide_eq_true_eq] at hjk
      have hij := h.eq_of_valid hi (h.used_of_valid hjk.1) (hik.trans hjk.2.symm)
      exact ⟨j, rfl, hij ▸ hx⟩

theorem Inv.copy_of_valid (h : Inv s) (hi : (s.buf i).valid = true) :
    s.copy (s.buf i).key = some (s.buf i).data :=
  h.copy_eq_some_iff.mpr ⟨i, hi, rfl, rfl⟩

theorem copy_congr (hv : ∀ i, (t.buf i).valid = (s.buf i).valid)
    (hk : ∀ i, (t.buf i).key = (s.buf i).key) (hd : ∀ i, (t.buf i).data = (s.buf i).data) :
    t.copy = s.copy := by
  funext k
  simp only [State.copy, hv, hk, hd]

theorem copy_update {b : Buf} (hs : Inv s) (ht : Inv t) (hb : t.buf = update s.buf i b)
    (k : Key) : t.copy k = if b.valid ∧ b.key = k then some b.data
      else if (s.buf i).valid ∧ (s.buf i).key = k then none else s.copy k := by
  have hi : t.buf i = b := by rw [hb, update_self]
  have hj : ∀ j ≠ i, t.buf j = s.buf j := fun j hji => by rw [hb, update_of_ne hji]
  split_ifs with hnew hold
  · rw [← hnew.2, ← hi]
    rw [← hi] at hnew
    exact ht.copy_of_valid hnew.1
  · refine Option.eq_none_iff_forall_ne_some.mpr fun x hx => ?_
    obtain ⟨j, hjv, hjk, -⟩ := ht.copy_eq_some_iff.mp hx
    by_cases hji : j = i
    · subst hji
      rw [hi] at hjv hjk
      exact hnew ⟨hjv, hjk⟩
    · rw [hj j hji] at hjv hjk
      exact hji (hs.eq_of_valid hjv (hs.used_of_valid hold.1) (hjk.trans hold.2.symm))
  · ext x
    rw [ht.copy_eq_some_iff, hs.copy_eq_some_iff]
    refine exists_congr fun j => ?_
    by_cases hji : j = i
    · subst hji
      rw [hi]
      constructor
      · exact fun hx => absurd ⟨hx.1, hx.2.1⟩ hnew
      · exact fun hx => absurd ⟨hx.1, hx.2.1⟩ hold
    · rw [hj j hji]

theorem Loaded.change {b : Buf} {c : Pc} (hl : Loaded s) (hb : t.buf = update s.buf i b)
    (hp : t.pc = update s.pc p c) (hne : ∀ j k, s.pc p = .reading j k → j = i)
    (hi : ∀ q, b.lock = some q → b.valid = true ∨ ∃ k, t.pc q = .reading i k) : Loaded t := by
  intro j q hq
  by_cases hji : j = i
  · subst hji
    rw [hb, update_self] at hq ⊢
    exact hi q hq
  · rw [hb, update_of_ne hji] at hq ⊢
    refine (hl j q hq).imp_right fun ⟨k, hk⟩ => ⟨k, ?_⟩
    have hqp : q ≠ p := by
      rintro rfl
      exact hji (hne j k hk)
    rw [hp, update_of_ne hqp, hk]

theorem Loaded.keep {b : Buf} {c : Pc} (hl : Loaded s) (hb : t.buf = update s.buf i b)
    (hp : t.pc = update s.pc p c) (hne : ∀ j k, s.pc p ≠ .reading j k)
    (hlock : b.lock = (s.buf i).lock) (hv : (s.buf i).valid = true → b.valid = true) :
    Loaded t := by
  refine hl.change hb hp (fun j k hk => absurd hk (hne j k)) fun q hq => ?_
  refine (hl i q (hlock ▸ hq)).imp hv fun ⟨k, hk⟩ => ⟨k, ?_⟩
  have hqp : q ≠ p := by
    rintro rfl
    exact hne i k hk
  rw [hp, update_of_ne hqp, hk]

theorem Inv.lock_eq_none (h : Inv s) (hi : (s.buf i).refcnt = 0) : (s.buf i).lock = none := by
  by_contra hn
  have hpos := h.pos_of_lock hn
  omega

theorem Loaded.effect (hl : Loaded s) (h : Inv s) (he : Effect s e t) : Loaded t := by
  have hself {α β : Type} [DecidableEq α] (f : α → β) (a : α) : f = update f a (f a) :=
    (update_eq_self a f).symm
  cases he with
  | hit hp hi | last hp hi | drop hp hi => exact hl.keep rfl rfl (by simp [hp]) rfl fun hv => hv
  | @miss p k i hp hk hi =>
    obtain ⟨l, hlru⟩ := h.lru
    have hnone := h.lock_eq_none (hlru.victim_eq_some hi).1
    exact hl.change rfl rfl (by simp [hp]) (by simp [hnone])
  | @acquiresleep p k i hp hi =>
    refine hl.change rfl rfl (by simp [hp]) fun q hq => .inr ⟨k, ?_⟩
    obtain rfl : p = q := by simpa using hq
    simp [State.setPc]
  | @cached p k i hp hi =>
    refine hl.change (hself s.buf i) rfl (fun j k' hj => ?_) fun _ _ => .inl hi
    rw [hp, Pc.reading.injEq] at hj
    exact hj.1.symm
  | @load p k i hp hi =>
    refine hl.change rfl rfl (fun j k' hj => ?_) fun _ _ => .inl rfl
    rw [hp, Pc.reading.injEq] at hj
    exact hj.1.symm
  | @modify p i x hp hi | @bpin p i hp hi | @bunpin p i hp hn hi =>
    exact hl.keep rfl (hself s.pc p) (by simp [hp]) rfl fun hv => hv
  | bwrite hp hi => exact hl
  | @brelse p i hp hi => exact hl.change rfl rfl (by simp [hp]) (by simp)

theorem loaded_of_run {disk : BitVec 32 → Block} {tr : List Event}
    (hrun : Run step (boot disk) tr s) : Loaded s := by
  have hboth := hrun.state_invariant (I := fun s => Inv s ∧ Loaded s) ⟨inv_boot disk, nofun⟩
    fun _ _ _ ht he => ⟨ht.1.effect (effect_of_step he), ht.2.effect ht.1 (effect_of_step he)⟩
  exact hboth.2

/-! ### The refinement -/

theorem skip_of_update {b : Buf} {busy : Key → Prop} (hb : t.buf = update s.buf i b)
    (hv : b.valid = (s.buf i).valid) (hk : b.key = (s.buf i).key) (hd : b.data = (s.buf i).data)
    (hdisk : t.disk = s.disk) : WriteBack.Step sector busy s.abs .skip t.abs := by
  have hcopy : t.copy = s.copy := by
    refine copy_congr (fun j => ?_) (key_update hb hk) fun j => ?_
    · rw [hb, update_apply]
      split_ifs with hji
      · rw [hv, hji]
      · rfl
    · rw [hb, update_apply]
      split_ifs with hji
      · rw [hd, hji]
      · rfl
  have habs : t.abs = s.abs := by rw [State.abs, State.abs, hcopy, hdisk]
  rw [habs]
  exact .skip

theorem Inv.contents_of_valid (h : Inv s) (hi : (s.buf i).valid = true) (hk : (s.buf i).key = k) :
    s.contents k = (s.buf i).data := by
  change (s.copy k).getD _ = _
  rw [← hk, h.copy_of_valid hi, Option.getD_some]

theorem Inv.copy_of_invalid (h : Inv s) (hu : s.used i = true) (hi : (s.buf i).valid = false)
    (hk : (s.buf i).key = k) : s.copy k = none := by
  refine Option.eq_none_iff_forall_ne_some.mpr fun x hx => ?_
  obtain ⟨j, hjv, hjk, -⟩ := h.copy_eq_some_iff.mp hx
  have hji := h.eq_of_valid hjv hu (hjk.trans hk.symm)
  rw [hji, hi] at hjv
  exact Bool.noConfusion hjv

theorem Inv.evicts (h : Inv s) (ht : Inv t) {b : Buf} (hb : t.buf = update s.buf i b)
    (hi : (s.buf i).refcnt = 0) (hv : b.valid = false) (hdisk : t.disk = s.disk) :
    WriteBack.Step sector s.Busy s.abs
      (if (s.buf i).valid then .evict (s.buf i).key else .skip) t.abs := by
  have hcopy : ∀ k, t.copy k = if (s.buf i).valid ∧ (s.buf i).key = k then none else s.copy k := by
    intro k
    rw [copy_update h ht hb, if_neg (by simp [hv])]
  cases hiv : (s.buf i).valid with
  | true =>
    have habs : t.abs = ⟨update s.copy (s.buf i).key none, s.disk⟩ := by
      rw [State.abs, hdisk, WriteBack.Store.mk.injEq]
      refine ⟨funext fun k => ?_, rfl⟩
      rw [hcopy, update_apply]
      simp [hiv, eq_comm]
    rw [habs]
    refine .evict _ fun ⟨j, hjv, hjk, hpos⟩ => ?_
    have hji := h.eq_of_valid hjv (h.used_of_valid hiv) hjk
    rw [hji, hi] at hpos
    exact lt_irrefl 0 hpos
  | false =>
    have habs : t.abs = s.abs := by
      rw [State.abs, State.abs, hdisk, WriteBack.Store.mk.injEq]
      refine ⟨funext fun k => ?_, rfl⟩
      rw [hcopy, hiv]
      simp
    rw [habs]
    exact .skip

theorem Inv.writes (h : Inv s) (ht : Inv t) {b : Buf} (hb : t.buf = update s.buf i b)
    (hv : b.valid = true) (hk : b.key = (s.buf i).key) (hdisk : t.disk = s.disk) :
    t.abs = ⟨update s.copy (s.buf i).key (some b.data), s.disk⟩ := by
  rw [State.abs, hdisk, WriteBack.Store.mk.injEq]
  refine ⟨funext fun k => ?_, rfl⟩
  rw [copy_update h ht hb, update_apply, hk]
  by_cases hik : k = (s.buf i).key
  · simp [hv, hik]
  · simp [hik, Ne.symm hik]

/-- Every step of the buffer cache is the step of the write-back cache that
`act` names. -/
theorem Inv.refines (h : Inv s) (hl : Loaded s) (he : Effect s e t) :
    WriteBack.Step sector s.Busy s.abs (act s e) t.abs := by
  have ht := h.effect he
  cases he with
  | hit hp hi =>
    simp only [act, hi]
    exact skip_of_update rfl rfl rfl rfl rfl
  | miss hp hk hi =>
    obtain ⟨l, hlru⟩ := h.lru
    simp only [act, hk, hi]
    exact h.evicts ht rfl (hlru.victim_eq_some hi).1 rfl rfl
  | acquiresleep hp hi | brelse hp hi | last hp hi | drop hp hi | bpin hp hi | bunpin hp hn hi =>
    exact skip_of_update rfl rfl rfl rfl rfl
  | @cached p k i hp hi =>
    have hik := ((h.bound p).reading i k hp).1
    have habs : (s.setPc p .idle).abs = ⟨update s.copy k (some (s.contents k)), s.disk⟩ := by
      rw [h.contents_of_valid hi hik, ← hik, ← h.copy_of_valid hi, update_eq_self]
      rfl
    simp only [act, hp]
    rw [habs]
    exact .read k
  | @load p k i hp hi =>
    have hik := ((h.bound p).reading i k hp).1
    have hused := h.used_of_pos (h.pos_of_asked (.inr hp))
    have hfetch : s.contents k = s.disk (sector (s.buf i).key) := by
      change (s.copy k).getD _ = _
      rw [h.copy_of_invalid hused hi hik, hik]
      rfl
    simp only [act, hp]
    rw [h.writes ht rfl rfl rfl rfl, ← hfetch, hik]
    exact .read k
  | @modify p i x hp hi =>
    have hv : (s.buf i).valid = true := by
      refine (hl i p hi).resolve_right fun ⟨k, hk⟩ => ?_
      simp [hp] at hk
    rw [h.writes ht rfl hv rfl rfl]
    refine .write _ _ ?_
    change s.copy _ ≠ none
    simp [h.copy_of_valid hv]
  | @bwrite p i hp hi =>
    have hv : (s.buf i).valid = true := by
      refine (hl i p hi).resolve_right fun ⟨k, hk⟩ => ?_
      simp [hp] at hk
    exact .flush _ _ (h.copy_of_valid hv)

/-! ### Buffers in use -/

/-- What an event leaves in buffer `i`, which held `x`. -/
def Event.left (i : Fin NBUF) (x : Block) : Event → Block
  | .modify _ j y => if j = i then y else x
  | _ => x

theorem kept_update {b : Buf} (hb : t.buf = update s.buf i b) (j : Fin NBUF)
    (hk : b.key = (s.buf i).key) (hv : (s.buf i).valid = true → b.valid = true) :
    (t.buf j).key = (s.buf j).key ∧ ((s.buf j).valid = true → (t.buf j).valid = true) := by
  refine ⟨key_update hb hk j, fun hj => ?_⟩
  rw [hb, update_apply]
  split_ifs with hji
  · exact hv (hji ▸ hj)
  · exact hj

/-- A referenced buffer stays assigned to its block and keeps its contents. -/
theorem Inv.kept (h : Inv s) (he : Effect s e t) (hj : 0 < (s.buf j).refcnt) :
    (t.buf j).key = (s.buf j).key ∧ ((s.buf j).valid = true → (t.buf j).valid = true) := by
  cases he with
  | @miss p k i hp hk hi =>
    obtain ⟨l, hlru⟩ := h.lru
    have hji : j ≠ i := by
      rintro rfl
      exact hj.ne' (hlru.victim_eq_some hi).1
    simp only [State.setPc, State.setBuf, update_of_ne hji, imp_self, and_self]
  | cached hp hi | bwrite hp hi => exact ⟨rfl, fun hv => hv⟩
  | _ => exact kept_update rfl j (by rfl) (by simp)

theorem Inv.act_left (h : Inv s) (he : Effect s e t) (hi : s.used i = true) (x : Block) :
    (act s e).left (s.buf i).key x = e.left i x := by
  cases he with
  | @modify p j y hp hj =>
    have hpos := (Nat.zero_le _).trans_lt (h.pos_of_lock (i := j) (by simp [hj]))
    change (if (s.buf j).key = (s.buf i).key then y else x) = if j = i then y else x
    refine if_congr ⟨fun hk => ?_, fun hji => hji ▸ rfl⟩ rfl rfl
    exact h.distinct j i (h.used_of_pos hpos) hi hk
  | hit hp hj => simp [act, hj, WriteBack.Act.left, Event.left]
  | miss hp hk hj =>
    simp only [act, hk, hj]
    split_ifs <;> rfl
  | cached hp hj | load hp hj => simp [act, hp, WriteBack.Act.left, Event.left]
  | _ => rfl

/-- The data of a referenced buffer changes by the writes of its holder only. -/
theorem Inv.data_left (h : Inv s) (hl : Loaded s) (he : Effect s e t)
    (hi : 0 < (s.buf i).refcnt) (hv : (s.buf i).valid = true) :
    (t.buf i).data = e.left i (s.buf i).data := by
  obtain ⟨hkey, hvalid⟩ := h.kept he hi
  have hcopy := (h.refines hl he).copy_of_busy ⟨i, hv, rfl, hi⟩ (h.copy_of_valid hv)
  change t.copy _ = _ at hcopy
  rw [← hkey, (h.effect he).copy_of_valid (hvalid hv), Option.some_inj, hkey,
    h.act_left he (h.used_of_valid hv)] at hcopy
  exact hcopy

/-- Along a run in which a buffer stays referenced, it holds what was last left
in it. -/
theorem data_of_run {tr : List Event} (h : Inv s) (hl : Loaded s) (hv : (s.buf i).valid = true)
    (hrun : Run (guarded (fun u _ => 0 < (u.buf i).refcnt) step) s tr t) :
    (t.buf i).key = (s.buf i).key ∧ (t.buf i).valid = true ∧
      (t.buf i).data = tr.foldl (fun x e => e.left i x) (s.buf i).data := by
  have hall := hrun.invariant (I := fun tr t => (Inv t ∧ Loaded t) ∧
      (t.buf i).key = (s.buf i).key ∧ (t.buf i).valid = true ∧
        (t.buf i).data = tr.foldl (fun x e => e.left i x) (s.buf i).data)
    ⟨⟨h, hl⟩, rfl, hv, rfl⟩ ?_
  · exact hall.2
  · rintro tr u e v ⟨⟨hu, hlu⟩, hkey, hval, hdata⟩ hstep
    obtain ⟨hpos, hstep⟩ := guarded_eq_some.mp hstep
    have he := effect_of_step hstep
    obtain ⟨hkey', hval'⟩ := hu.kept he hpos
    refine ⟨⟨hu.effect he, hlu.effect hu he⟩, hkey'.trans hkey, hval' hval, ?_⟩
    rw [hu.data_left hlu he hpos hval, hdata, List.foldl_concat]

/-! ### Every call is served -/

/-- What the callers of `bio.c` rely on in one step. -/
structure Served (s : State) (e : Event) (t : State) : Prop where
  /-- a referenced buffer is not recycled -/
  kept : ∀ i, 0 < (s.buf i).refcnt → (t.buf i).key = (s.buf i).key
  /-- the buffer that is recycled was released before every other unreferenced
  one, or has never been used -/
  oldest : ∀ i, (t.buf i).key ≠ (s.buf i).key → (s.buf i).refcnt = 0 ∧
    ∀ j, (s.buf j).refcnt = 0 → s.freed i ≤ s.freed j ∧ (s.used j = false → s.used i = false)
  /-- `bread` returns the locked buffer of the block it was asked for, with the
  contents of the block -/
  returned : ∀ p i k, e = .bread p → s.pc p = .reading i k →
    (t.buf i).key = k ∧ (t.buf i).lock = some p ∧ (t.buf i).data = s.contents k
  /-- all other steps act on the contents of blocks as they should -/
  refines : WriteBack.Step sector s.Busy s.abs (act s e) t.abs

structure Coherent (s : State) : Prop where
  ring : ∃ l, s.links.IsRing l ∧ ∀ i, i ∈ l
  distinct : ∀ i j, s.used i = true → s.used j = true → (s.buf i).key = (s.buf j).key → i = j
  /-- a buffer that is locked or pinned is referenced -/
  referenced : ∀ i, (s.buf i).lock ≠ none ∨ 0 < s.pins i → 0 < (s.buf i).refcnt
  served : ∀ e t, step s e = some t → Served s e t
  /-- the contents of a block are those of its buffer, or those on disk -/
  cached : ∀ i, (s.buf i).valid = true → s.contents (s.buf i).key = (s.buf i).data
  uncached : ∀ k, (∀ i, (s.buf i).valid = true → (s.buf i).key ≠ k) →
    s.contents k = s.disk (sector k)
  /-- while a buffer is referenced, the contents of its block are what was last
  left in it -/
  left : ∀ i tr t, (s.buf i).valid = true →
    Run (guarded (fun u _ => 0 < (u.buf i).refcnt) step) s tr t →
      (t.buf i).key = (s.buf i).key ∧
        t.contents (s.buf i).key = tr.foldl (fun x e => e.left i x) (s.buf i).data

theorem Inv.oldest (h : Inv s) (he : Effect s e t) (hi : (t.buf i).key ≠ (s.buf i).key) :
    (s.buf i).refcnt = 0 ∧
      ∀ j, (s.buf j).refcnt = 0 → s.freed i ≤ s.freed j ∧
        (s.used j = false → s.used i = false) := by
  cases he with
  | @miss p k i' hp hk hi' =>
    obtain ⟨l, hlru⟩ := h.lru
    obtain ⟨hz, hmin⟩ := hlru.victim_eq_some hi'
    obtain rfl : i = i' := by
      by_contra hne
      exact hi (by simp [State.setPc, State.setBuf, update_of_ne hne])
    refine ⟨hz, fun j hj => ⟨hmin j hj, fun hju => ?_⟩⟩
    have hfreed := (h.aged.fresh j hju).freed
    by_contra hused
    have hpos := h.aged.stamped i (by simpa using hused) hz
    have hle := hmin j hj
    omega
  | cached hp hi' | bwrite hp hi' => exact absurd rfl hi
  | _ => exact absurd (key_update rfl (by rfl) i) hi

theorem Inv.returned (h : Inv s) (he : Effect s (.bread p) t) (hp : s.pc p = .reading i k) :
    (t.buf i).key = k ∧ (t.buf i).lock = some p ∧ (t.buf i).data = s.contents k := by
  obtain ⟨hkey, hlock⟩ := (h.bound p).reading i k hp
  cases he with
  | @cached _ k' i' hp' hi =>
    obtain ⟨rfl, rfl⟩ := Pc.reading.inj (hp.symm.trans hp')
    exact ⟨hkey, hlock, (h.contents_of_valid hi hkey).symm⟩
  | @load _ k' i' hp' hi =>
    obtain ⟨rfl, rfl⟩ := Pc.reading.inj (hp.symm.trans hp')
    have hnone := h.copy_of_invalid (h.used_of_pos (h.pos_of_asked (.inr hp))) hi hkey
    have hfetch : s.contents k = s.disk (sector k) := by
      change (s.copy k).getD _ = _
      rw [hnone]
      rfl
    rw [hfetch]
    simp only [State.setPc, State.setBuf, update_self]
    exact ⟨hkey, hlock, by rw [hkey]⟩

/-- In every state that calls following the protocol can reach: the links are
one ring through all buffers, no two buffers are assigned to the same block,
referenced buffers are kept, `bread` returns what was last left in the block's
buffer or the disk, and a miss recycles the least recently released buffer. -/
theorem bcache_coherent {disk : BitVec 32 → Block} {tr : List Event}
    (hrun : Run step (boot disk) tr s) : Coherent s := by
  have h := inv_of_run hrun
  have hl := loaded_of_run hrun
  obtain ⟨l, hlru⟩ := h.lru
  refine ⟨⟨l, hlru.ring, hlru.all⟩, h.distinct, fun i hi => ?_, fun e t hstep => ?_, fun i hi => ?_,
    fun k hk => ?_, fun i tr' t hv hrun' => ?_⟩
  · rcases hi with hi | hi
    · exact (Nat.zero_le _).trans_lt (h.pos_of_lock hi)
    · have hcount := h.refcnt i
      omega
  · have he := effect_of_step hstep
    refine ⟨fun i hi => (h.kept he hi).1, fun i hi => h.oldest he hi, ?_, h.refines hl he⟩
    rintro p i k rfl hp
    exact h.returned he hp
  · exact h.contents_of_valid hi rfl
  · have hnone : s.copy k = none := by
      refine Option.eq_none_iff_forall_ne_some.mpr fun x hx => ?_
      obtain ⟨i, hi, hik, -⟩ := h.copy_eq_some_iff.mp hx
      exact hk i hi hik
    change (s.copy k).getD _ = _
    rw [hnone]
    rfl
  · obtain ⟨hkey, hval, hdata⟩ := data_of_run h hl hv hrun'
    have ht : Inv t := hrun'.of_guarded.state_invariant h fun _ _ _ hu he =>
      hu.effect (effect_of_step he)
    exact ⟨hkey, by rw [← hdata, ht.contents_of_valid hval hkey]⟩

/-- A process reads a block, pins its buffer and releases it. -/
def pinBlock : List Event :=
  let p : Fin NPROC := ⟨0, NPROC_pos⟩
  let i : Fin NBUF := ⟨0, by decide⟩
  [.bget p (1, 7), .acquiresleep p, .bread p, .bpin p i, .brelse p i, .drop p]

theorem bcache_coherent_pinBlock : ∃ s, Run step (boot fun _ _ => 0) pinBlock s ∧
    (∃ i, (s.buf i).refcnt = 1 ∧ (s.buf i).key = (1, 7) ∧ s.pins i = 1) ∧ Coherent s := by
  obtain ⟨s, hrun, hs⟩ := Run.exists_of_any
    (P := fun s => ∃ i, (s.buf i).refcnt = 1 ∧ (s.buf i).key = (1, 7) ∧ s.pins i = 1)
    (by decide +kernel : (pinBlock.foldlM step (boot fun _ _ => 0)).any _ = true)
  exact ⟨s, hrun, of_decide_eq_true hs, bcache_coherent hrun⟩

end Xv6.Bio
