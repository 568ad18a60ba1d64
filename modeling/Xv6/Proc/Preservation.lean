import Xv6.Proc.Invariant

/-!
# Every step keeps the invariant of the process table
-/

namespace Xv6.Proc

open Lib

variable {s s' : State} {p q np : Slot} {c : Pc} {P : Proc}

attribute [local grind] SleepsInWait Proc.Live Proc.kill Proc.sleep Proc.allocproc Proc.freeproc
  State.ret forkFail forkAlloc forkRunnable exitZombie waitSleep Pc.reparented Pc.scanned

/-- Places outside the critical sections of `wait_lock` and outside `exit`. -/
def Pc.plain : Pc → Bool
  | .user | .asleep | .forkScan _ | .waitAcquire _ | .killScan _ _ => true
  | _ => false

theorem Pc.plain_facts (hc : c.plain = true) :
    c ≠ .dead ∧ c.holdsWaitLock = false ∧ c.child = none ∧ (∀ addr, c ≠ .waitAsleep addr) ∧
      c.exits = false ∧ c.reparented = 0 ∧ c.woken = 0 ∧ c.scanned = 0 := by
  cases c <;> simp_all [plain, holdsWaitLock, child, exits, reparented, woken, scanned]

theorem Inv.ne_dead (h : Inv s) (hlive : (s.proc p).Live) : s.pc p ≠ .dead := by
  rw [ne_eq, h.dead p]
  grind

theorem Inv.ready_plain (h : Inv s) (hlive : (s.proc p).Live) (hc : c.plain = true)
    (hw : (s.pc p).wakesInit = false) : Ready s p c := by
  obtain ⟨hdead, hholds, hchild, hawake, hexits, hrep, hwoken, hscan⟩ := Pc.plain_facts hc
  refine ⟨⟨h.ne_dead hlive, hdead⟩, ?_, ?_, hchild, hawake, ?_, ?_, ?_, ?_, ?_, ?_⟩
  · grind
  · simp [hholds]
  · simp [hexits]
  · simp [hrep]
  · rintro status parent j rfl
    simp [Pc.plain] at hc
  · simp [hwoken]
  · simp [hscan]
  · simp [hw]

theorem Inv.goto_plain (h : Inv s) (hlive : (s.proc p).Live) (hc : c.plain = true)
    (hp : (s.pc p).holdsWaitLock = false) : Inv (s.goto p c) := by
  have hw : (s.pc p).wakesInit = false := by
    by_contra hw
    simp [Pc.holds_of_wakesInit (by simpa using hw)] at hp
  refine h.goto (h.ready_plain hlive hc hw) ?_
  rw [hp, (Pc.plain_facts hc).2.1]

theorem Inv.release (h : Inv s) (hrun : (s.proc p).state = .running)
    (hp : (s.pc p).holdsWaitLock = true) (hw : (s.pc p).wakesInit = false) :
    Inv ((s.setWaitLock none).goto p .user) := by
  refine h.thread (h.ready_plain (.inr (.inl hrun)) rfl hw) (by simp [Pc.holdsWaitLock]) ?_
  intro q hq
  simpa [(h.not_holds hp).1] using hq.symm

theorem Inv.ret (h : Inv (s.goto p .user)) (v : ℤ) : Inv (s.ret p v) := by
  refine h.of_states rfl rfl ?_ ?_ ?_
  · grind
  · grind
  · grind

theorem Inv.record (h : Inv s) (e : Family.Event) : Inv (s.record e) :=
  h.of_states rfl rfl (fun _ => rfl) (fun _ => .inl rfl) fun _ hr => ⟨hr, rfl⟩

theorem wakeup_parent (P : Proc) (chan : Option Chan) : (P.wakeup chan).parent = P.parent := by
  unfold Proc.wakeup
  split_ifs <;> rfl

theorem wakeup_state (P : Proc) (chan : Option Chan) :
    (P.wakeup chan).state = P.state ∧ P.wakeup chan = P ∨
      P.state = .sleeping ∧ (P.wakeup chan).state = .runnable := by
  unfold Proc.wakeup
  split_ifs with h
  · exact .inr ⟨h.1, rfl⟩
  · exact .inl ⟨rfl, rfl⟩

theorem Inv.not_lock_of_sleeping (h : Inv s) (hq : (s.proc q).state = .sleeping) :
    s.waitLock ≠ some q := by
  intro hlock
  have := h.running q ((h.holds q).mpr hlock)
  simp [hq] at this

theorem Inv.wake (h : Inv s) (hparent : P.parent = (s.proc q).parent)
    (hstate : P.state = (s.proc q).state ∧ P.chan = (s.proc q).chan ∨
      (s.proc q).state = .sleeping ∧ P.state = .runnable) : Inv (s.setProc q P) := by
  have := h.not_lock_of_sleeping (q := q)
  refine h.of_states rfl rfl ?_ ?_ ?_
  · grind
  · grind
  · grind

theorem Inv.wakeup (h : Inv s) (chan : Option Chan) :
    Inv (s.setProc q ((s.proc q).wakeup chan)) := by
  refine h.wake (wakeup_parent _ _) ?_
  rcases wakeup_state (s.proc q) chan with ⟨hstate, heq⟩ | hwake
  · exact .inl ⟨hstate, by rw [heq]⟩
  · exact .inr hwake

theorem wakeupAt_pc (s : State) (p : Slot) (chan : Option Chan) (q r : Slot) :
    (wakeupAt s p chan q).pc r = s.pc r := by
  unfold wakeupAt
  split_ifs <;> rfl

theorem wakeupAt_self (s : State) (p : Slot) (chan : Option Chan) (q : Slot) :
    (wakeupAt s p chan q).proc p = s.proc p := by
  unfold wakeupAt
  split_ifs with hqp
  · rfl
  · simp [Ne.symm hqp]

theorem Inv.wakeupAt (h : Inv s) (chan : Option Chan) : Inv (wakeupAt s p chan q) := by
  unfold Proc.wakeupAt
  split_ifs
  · exact h
  · exact h.wakeup chan

/-- `wakeup` on its own channel wakes a process that sleeps in `wait`. -/
theorem Inv.not_sleepsInWait_wakeupAt (h : Inv s) (hp : (s.proc p).state = .running) :
    ¬SleepsInWait (Proc.wakeupAt s p (some (.proc q)) q) q := by
  rintro ⟨hsleep, addr, haddr⟩
  unfold Proc.wakeupAt at hsleep haddr
  split_ifs at hsleep haddr with hqp
  · grind
  · have hs : (s.proc q).state = .sleeping := by
      rcases wakeup_state (s.proc q) (some (.proc q)) with ⟨hstate, -⟩ | ⟨hstate, hwake⟩ <;>
        grind
    have := h.asleep q ⟨hs, addr, haddr⟩
    grind [Proc.wakeup]

theorem sleepsInWait_of_wakeupAt {chan : Option Chan} {r : Slot}
    (hr : SleepsInWait (Proc.wakeupAt s p chan q) r) : SleepsInWait s r := by
  obtain ⟨hsleep, addr, haddr⟩ := hr
  unfold Proc.wakeupAt at hsleep haddr
  split_ifs at hsleep haddr with hqp
  · exact ⟨hsleep, addr, haddr⟩
  · refine ⟨?_, addr, haddr⟩
    rcases wakeup_state (s.proc q) chan with ⟨hstate, -⟩ | ⟨hstate, hwake⟩ <;>
      grind


theorem Pc.exits_facts (hc : c.exits = true) :
    c ≠ .dead ∧ c.child = none ∧ (∀ addr, c ≠ .waitAsleep addr) ∧ c.scanned = 0 := by
  cases c <;> simp_all [exits, child, scanned]

theorem Inv.ready_exit (h : Inv s) (hrun : (s.proc p).state = .running) (hp : p ≠ initproc)
    (hc : c.exits = true)
    (hrep : ∀ q : Slot, q.idx < c.reparented → (s.proc q).parent ≠ some p)
    (hwakes : ∀ status parent j, c = .exitWakeup status parent j → (s.proc p).parent = parent)
    (hwoken : ∀ x : Slot, (s.proc p).parent = some x → x.idx < c.woken → ¬SleepsInWait s x)
    (hinit : (s.pc p).wakesInit = true → ¬SleepsInWait s initproc) : Ready s p c := by
  obtain ⟨hdead, hchild, hawake, hscan⟩ := Pc.exits_facts hc
  refine ⟨⟨h.ne_dead (.inr (.inl hrun)), hdead⟩, by simp [hrun], fun _ => hrun, hchild, hawake,
    fun _ => hp, hrep, hwakes, hwoken, by simp [hscan], hinit⟩

theorem Inv.ready_wait (h : Inv s) (hrun : (s.proc p).state = .running)
    (hc : c.exits = false ∧ c.holdsWaitLock = true) (hw : (s.pc p).wakesInit = false)
    (hscan : ∀ q : Slot, q.idx < c.scanned → (s.proc q).parent = some p →
      (s.proc q).state ≠ .zombie) : Ready s p c := by
  have hfacts : c ≠ .dead ∧ c.child = none ∧ (∀ addr, c ≠ .waitAsleep addr) ∧ c.reparented = 0 ∧
      c.woken = 0 := by
    cases c <;> simp_all [Pc.exits, Pc.holdsWaitLock, Pc.child, Pc.reparented, Pc.woken]
  refine ⟨⟨h.ne_dead (.inr (.inl hrun)), hfacts.1⟩, by simp [hrun], fun _ => hrun, hfacts.2.1,
    hfacts.2.2.1, by simp [hc.1], by simp [hfacts], ?_, by simp [hfacts], hscan, by simp [hw]⟩
  rintro status parent j rfl
  simp [Pc.exits] at hc

attribute [local simp] Pc.holdsWaitLock Pc.wakesInit Pc.reparented Pc.woken Pc.exits Pc.scanned

theorem Inv.effect {e : Event} (h : Inv s) (he : Effect s e s') : Inv s' := by
  cases he with
  | fork hrun hpc | wait hrun hpc | kill hrun hpc | forkNext hrun hpc | killNext hrun hpc =>
    exact h.goto_plain (.inr (.inl hrun)) rfl (by simp [hpc])
  | exit hp hrun hpc =>
    refine h.goto (h.ready_exit hrun hp rfl ?_ ?_ ?_ ?_) (by simp [hpc]) <;>
      simp [hpc]
  | forkFull hrun hpc | killNone hrun hpc =>
    exact (h.goto_plain (.inr (.inl hrun)) rfl (by simp [hpc])).ret _
  | @forkFail p np ok hrun hpc hnp =>
    have hparent := h.parent_none np hnp
    refine (h.goto_plain (c := .user) (.inr (.inl hrun)) rfl
      (by simp [hpc])).of_states rfl rfl ?_ ?_ ?_
    · grind
    · grind
    · grind
  | @forkAlloc p np ok hrun hpc hnp =>
    refine h.forkAlloc hrun ?_ rfl s.nextpid hpc hnp ?_ ?_ ?_ <;> grind [State.setProc]
  | forkParent hrun hpc hfree =>
    refine h.forkParent hrun ?_ rfl hpc hfree ?_ ?_ ?_ <;> grind
  | forkRunnable hrun hpc =>
    refine h.forkRunnable hrun ?_ rfl hpc ?_ ?_ ?_ <;> grind
  | @exitAcquire p ok status hrun hpc hfree =>
    have hp := h.ne_initproc (p := p) (by simp [hpc])
    refine h.thread (h.ready_exit hrun hp rfl ?_ ?_ ?_ ?_) (by simp)
      (by grind) <;> simp [hpc]
  | reparent hrun hpc hpp =>
    refine h.reparent hrun ?_ rfl hpc hpp ?_ ?_ ?_ <;> grind
  | @reparentNext p q ok status hrun hpc hq | @reparentDone p ok status i hrun hpc hi =>
    have hp := h.ne_initproc (p := p) (by simp [hpc])
    have hrep := h.reparented p
    refine h.goto (h.ready_exit hrun hp rfl ?_ ?_ ?_ ?_) (by simp [hpc])
    · grind
    all_goals simp [hpc]
  | @initWakeup p j ok status i hrun hpc =>
    have hp := h.ne_initproc (p := p) (by simp [hpc])
    have h' := h.wakeupAt (p := p) (q := j) (some (.proc initproc))
    have hrep := h'.reparented p
    have hpc' : (Proc.wakeupAt s p (some (.proc initproc)) j).pc p =
        .exitReparentWakeup status i j.idx := by
      rw [wakeupAt_pc, hpc]
    have hrun' : ((Proc.wakeupAt s p (some (.proc initproc)) j).proc p).state = .running := by
      rw [wakeupAt_self, hrun]
    refine h'.goto (h'.ready_exit hrun' hp rfl ?_ ?_ ?_ ?_) (by simp [hpc'])
    · simpa [hpc'] using hrep
    · simp
    · simp
    · intro hw
      -- the slot just visited is that of `initproc`
      obtain rfl : j = initproc := by
        have hj : j.idx ≤ initproc.idx := by simpa [hpc'] using hw
        exact Slot.ext (Nat.le_zero.mp hj)
      exact h.not_sleepsInWait_wakeupAt hrun
  | @initWakeupDone p ok status i j hrun hpc hj =>
    have hp := h.ne_initproc (p := p) (by simp [hpc])
    have hrep := h.reparented p
    refine h.goto (h.ready_exit hrun hp rfl ?_ ?_ ?_ ?_) (by simp [hpc])
    · simpa [hpc] using hrep
    · simp
    · simp
    · have := initproc.lt
      have hne : ¬j ≤ initproc.idx := by omega
      simp [hpc, hne]
  | @parentWakeup p j ok status parent hrun hpc =>
    have hp := h.ne_initproc (p := p) (by simp [hpc])
    have h' := h.wakeupAt (p := p) (q := j) (parent.map .proc)
    have hrep := h'.reparented p
    have hwoken := h.woken p
    have hpc' : (Proc.wakeupAt s p (parent.map .proc) j).pc p =
        .exitWakeup status parent j.idx := by
      rw [wakeupAt_pc, hpc]
    have hself := wakeupAt_self s p (parent.map .proc) j
    have hparent : (s.proc p).parent = parent := h.wakes p status parent _ hpc
    refine h'.goto (h'.ready_exit (by rw [hself, hrun]) hp rfl ?_ ?_ ?_ ?_)
      (by simp [hpc'])
    · simpa [hpc'] using hrep
    · rintro _ _ _ ⟨⟩
      rw [hself, hparent]
    · intro x hx hlt hsleep
      rw [hself, hparent] at hx
      subst hx
      rcases Nat.lt_succ_iff_lt_or_eq.mp hlt with hlt | heq
      · exact hwoken x hparent (by simpa [hpc] using hlt) (sleepsInWait_of_wakeupAt hsleep)
      · obtain rfl : x = j := Slot.ext heq
        exact h.not_sleepsInWait_wakeupAt hrun hsleep
    · simp [hpc']
  | @parentWakeupDone p ok status parent j hrun hpc hj =>
    have hp := h.ne_initproc (p := p) (by simp [hpc])
    have hrep := h.reparented p
    have hwoken := h.woken p
    refine h.goto (h.ready_exit hrun hp rfl ?_ ?_ ?_ ?_) (by simp [hpc])
    · simpa [hpc] using hrep
    · simp
    · intro x hx _
      have := x.lt
      exact hwoken x hx (by simp only [hpc, Pc.woken]; omega)
    · simp [hpc]
  | exitZombie hrun hpc =>
    refine h.exitZombie hrun ?_ hpc ?_ ?_ ?_ rfl <;> grind
  | @waitAcquire p ok addr hrun hpc hfree =>
    refine h.thread (h.ready_wait hrun ⟨rfl, rfl⟩ (by simp [hpc]) ?_)
      (by simp) (by grind)
    simp
  | @waitNext p q ok addr havekids havekids' hrun hpc hq
  | @waitDone p ok addr i havekids hrun hpc hi =>
    have hscan := h.scanned p
    refine h.goto (h.ready_wait hrun ⟨rfl, rfl⟩ (by simp [hpc]) ?_)
      (by simp [hpc])
    grind
  | @reap p pp ok addr havekids hrun hpc hpp hz =>
    have hfree : Inv (s.setProc pp (s.proc pp).freeproc) := by
      refine h.freeproc hz ?_ ?_ ?_ ?_ rfl <;> grind
    have hne : p ≠ pp := by grind
    refine Inv.record (Inv.ret ?_ _) _
    exact hfree.release (by simp [hne, hrun]) (by simp [hpc])
      (by simp [hpc])
  | waitFail hrun hpc =>
    exact (h.release hrun (by simp [hpc]) (by simp [hpc])).ret _
  | waitSleep hrun hpc =>
    refine h.waitSleep hrun hpc ?_ ?_ ?_ ?_ rfl <;> grind
  | @killHit p q ok pid hrun hpc hq =>
    have hwake : Inv (s.setProc q (s.proc q).kill) := by
      refine h.wake rfl ?_
      grind
    refine (hwake.goto_plain ?_ rfl (by simp [hpc])).ret _
    grind
  | @schedule p hrun hpc hpc' | yield hrun hlock =>
    refine h.of_states rfl rfl ?_ ?_ ?_
    · grind
    · grind
    · grind
  | @resume p hrun hpc =>
    refine (h.goto_plain (p := p) (c := .user) (.inl hrun) rfl
      (by simp [hpc])).of_states rfl rfl ?_ ?_ ?_
    · grind
    · grind
    · grind
  | @resumeWait p addr hrun hpc =>
    refine (h.goto_plain (p := p) (c := .waitAcquire addr) (.inl hrun) rfl
      (by simp [hpc])).of_states rfl rfl ?_ ?_ ?_
    · grind
    · grind
    · grind
  | @sleep p k hrun hpc =>
    have hp : (s.pc p).holdsWaitLock = false := by simp [hpc]
    have hholds := h.holds p
    refine (h.goto_plain (p := p) (c := .asleep) (.inr (.inl hrun)) rfl hp).of_states rfl rfl
      ?_ ?_ ?_
    · grind
    · grind
    · grind
  | wakeup => exact h.wakeup _

theorem inv_boot : Inv boot := by
  have hpc : ∀ r, boot.pc r = if r = initproc then .user else .dead := by
    simp [boot, Function.update_apply]
  have hstate : ∀ r, (boot.proc r).state = if r = initproc then .runnable else .unused := by
    intro r
    simp only [boot, Function.update_apply]
    split_ifs <;> rfl
  have hparent : ∀ r, (boot.proc r).parent = none := by
    intro r
    simp only [boot, Function.update_apply]
    split_ifs <;> rfl
  have hlock : boot.waitLock = none := rfl
  refine ⟨?_, ?_, ?_⟩ <;> constructor <;>
    grind [Pc.holdsWaitLock, Pc.child, Pc.exits, Pc.woken]

theorem inv_of_run {tr : List Event} (hrun : Run step boot tr s) : Inv s :=
  hrun.state_invariant inv_boot fun _ _ _ h hstep => h.effect (effect_of_step hstep)

end Xv6.Proc
