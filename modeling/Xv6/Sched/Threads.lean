import Xv6.Sched.Simulation

/-!
# Stacks and steps

After every step the stack of each thread still agrees with its state, its lock
and its CPU.  A step touches at most two threads; the others only have to keep
their CPU and the locks they rely on.
-/

namespace Xv6.Sched

open Proc (Slot initproc)
open Lib State
open Function (update)

variable {κ : Type} {s t : State κ} {c d : κ} {p q r : Slot} {k : Pc} {T : List Slot} {l : Lk}

/-- A thread that a step does not touch. -/
structure Unchanged (s t : State κ) (r : Slot) : Prop where
  frame : t.frame r = s.frame r
  state : (t.proc r).state = (s.proc r).state
  chan : (t.proc r).chan = (s.proc r).chan
  lock : t.lock r = s.lock r
  pending : t.pending r = s.pending r
  calls : t.calls r = s.calls r

theorem Thread.congr (h : Thread s r) (hr : Unchanged s t r)
    (hmode : ∀ d, (t.cpu d).mode = .exec r ↔ (s.cpu d).mode = .exec r)
    (hlk : ∀ d l, (s.cpu d).mode = .exec r → s.lk l = some d →
      (∀ x, (s.cpu d).handler = some x → x.lk ≠ l) →
      t.lk l = some d ∧ ∀ x, (t.cpu d).handler = some x → x.lk ≠ l) : Thread t r := by
  cases h with
  | code c k hmode' hframe hlock hstate hneeds =>
    refine .code c k ((hmode c).mpr hmode') (hr.frame.trans hframe) (hr.lock.trans hlock)
      (hr.state.trans hstate) fun l hl => ?_
    obtain ⟨hheld, hx⟩ := hneeds l hl
    exact hlk c l hmode' hheld hx
  | back hcode hdead hstate hused hyield hexec =>
    refine .back ?_ ?_ ?_ ?_ ?_ fun d hd => ?_
    · exact fun k => hr.frame ▸ hcode k
    · exact hr.frame ▸ hdead
    · exact hr.state ▸ hstate
    · exact fun hu => hr.lock.trans (hused (hr.state ▸ hu))
    · exact fun k => hr.frame ▸ hyield k
    · rw [hr.state, hr.lock]
      exact hexec d ((hmode d).mp hd)
  | dead hframe hstate hexec =>
    refine .dead (hr.frame.trans hframe) ?_ fun d hd => hexec d ((hmode d).mp hd)
    rw [hr.state, hr.lock]
    exact hstate

/-- What a step of `c` does to the locks other than `p->lock`. -/
inductive LkStep (s t : State κ) (c : κ) : Prop
  | same (hlk : t.lk = s.lk) (hacq : t.acquired = s.acquired)
  | acquire (l : Lk) (hfree : s.lk l = none) (hlk : t.lk = update s.lk l (some c))
      (hacq : t.acquired = update s.acquired l (s.acquired l + 1))
  | release (l : Lk) (hheld : s.lk l = some c) (hlk : t.lk = update s.lk l none)
      (hacq : t.acquired = s.acquired)
  | both (l : Lk) (hfree : s.lk l = none) (hlk : t.lk = s.lk)
      (hacq : t.acquired = update s.acquired l (s.acquired l + 1))

/-- The other CPUs keep their locks, and nobody else has acquired those in the meantime. -/
theorem LkStep.elsewhere (h : LkStep s t c) (hd : d ≠ c) (l : Lk) :
    (t.lk l = some d ↔ s.lk l = some d) ∧ (s.lk l = some d → t.acquired l = s.acquired l) := by
  cases h with
  | same hlk hacq => simp [hlk, hacq]
  | acquire l' hfree hlk hacq =>
    by_cases hl : l = l'
    · simp [hl, hlk, hfree, Ne.symm hd]
    · simp [hl, hlk, hacq]
  | release l' hheld hlk hacq =>
    by_cases hl : l = l'
    · simp [hl, hlk, hheld, Ne.symm hd]
    · simp [hl, hlk, hacq]
  | both l' hfree hlk hacq =>
    by_cases hl : l = l'
    · simp [hl, hlk, hfree]
    · simp [hl, hlk, hacq]

/-- A thread that `c` neither runs before nor after its step. -/
theorem Thread.of_elsewhere (h : Thread s r) (hr : Unchanged s t r)
    (hcpu : ∀ d ≠ c, t.cpu d = s.cpu d) (hlk : LkStep s t c) (hc : (s.cpu c).mode ≠ .exec r)
    (hc' : (t.cpu c).mode ≠ .exec r) : Thread t r := by
  refine h.congr hr (fun d => ?_) fun d l hd hl hx => ?_
  · by_cases hdc : d = c
    · subst hdc
      exact iff_of_false hc' hc
    · rw [hcpu d hdc]
  · have hdc : d ≠ c := by
      rintro rfl
      exact hc hd
    rw [hcpu d hdc]
    exact ⟨((hlk.elsewhere hdc l).1).mpr hl, hx⟩

theorem ne_exitRelease (hk : k.locked = false) : k ≠ .exitRelease := by
  rintro rfl
  simp [Pc.locked] at hk

/-! ## What the stack of a thread tells -/

theorem Inv.of_unlocked (h : Inv s) (hcur : current s c = some (p, k)) (hk : k.locked = false) :
    s.lock p = none ∧ (s.proc p).state = .running := by
  obtain ⟨-, hlock, hstate, -⟩ := h.of_current hcur
  rw [hk] at hlock
  rw [if_neg (ne_exitRelease hk)] at hstate
  exact ⟨hlock, hstate⟩

/-- A process that waits for a CPU or for a wakeup has `sched` on its stack. -/
theorem Inv.back_of_state (h : Inv s) (hp : (s.proc p).state = .sleeping ∨
      (s.proc p).state = .runnable ∨ (s.proc p).state = .used ∧ s.lock p = none) :
    (∀ k, s.frame p ≠ .code k) ∧ s.frame p ≠ .dead ∧
      ∀ k, s.frame p = .yieldBack k → k.locked = false ∧ k.needs = none := by
  cases h.thread p with
  | code c k hmode hframe hlock hstate hneeds =>
    rw [hstate] at hp
    split_ifs at hp <;> simp at hp
  | back hcode hdead hstate hused hyield hexec => exact ⟨hcode, hdead, hyield⟩
  | dead hframe hstate hexec =>
    rcases hp with hp | hp | ⟨hp, hl⟩
    · simp [hp] at hstate
    · simp [hp] at hstate
    · simp [hp, hl] at hstate

theorem Inv.dead_of_state (h : Inv s) (hp : (s.proc p).state = .unused ∨
      (s.proc p).state = .zombie ∧ s.lock p = none ∨
      (s.proc p).state = .used ∧ s.lock p ≠ none) : s.frame p = .dead := by
  cases h.thread p with
  | code c k hmode hframe hlock hstate hneeds =>
    rcases hp with hp | ⟨hp, hl⟩ | ⟨hp, hl⟩
    all_goals rw [hp] at hstate
    · split_ifs at hstate
    · split_ifs at hstate with hk
      simp [hl, hk, Pc.locked] at hlock
    · split_ifs at hstate
  | back hcode hdead hstate hused hyield hexec =>
    rcases hp with hp | ⟨hp, -⟩ | ⟨hp, hl⟩
    · exact absurd hp hstate.1
    · exact absurd hp hstate.2
    · exact absurd (hused hp) hl
  | dead hframe hstate hexec => exact hframe

/-- Only one CPU can run the thread of the process it has. -/
theorem Inv.eq_of_exec (h : Inv s) (hcur : (s.cpu c).proc = some p)
    (hd : (s.cpu d).mode = .exec p) : d = c := by
  obtain ⟨-, hcur', -⟩ := (h.handover.cpu d).of_running (p := p) (by simp [view, phase, hd])
  exact h.handover.current_inj d c p hcur' hcur

theorem Inv.exec_inj (h : Inv s) (hc : (s.cpu c).mode = .exec p) (hd : (s.cpu d).mode = .exec p) :
    d = c :=
  h.eq_of_exec ((h.handover.cpu c).of_running (p := p) (by simp [view, phase, hc])).2.1 hd

theorem Inv.not_exec (h : Inv s) (hoff : ∀ d, (view s).current d ≠ some p) (d : κ) :
    (s.cpu d).mode ≠ .exec p := by
  intro hd
  exact hoff d ((h.handover.cpu d).of_running (by simp [view, phase, hd])).2.1

theorem Inv.not_exec_of_absent (h : Inv s)
    (hp : (s.proc p).state = .unused ∨ (s.proc p).state = .used) (d : κ) :
    (s.cpu d).mode ≠ .exec p := by
  refine h.not_exec (h.handover.off_cpu_of_absent (p := p) ?_) d
  rcases hp with hp | hp <;> simp [view, hp, status]

theorem Inv.not_exec_of_unlocked (h : Inv s) (hlock : s.lock p = none)
    (hp : (s.proc p).state ≠ .running) (d : κ) : (s.cpu d).mode ≠ .exec p :=
  h.not_exec (h.handover.off_cpu_of_unlocked (p := p) hlock fun hs => hp (status_injective hs)) d

theorem Counted.not_held (h : Counted s) (hnoff : (s.cpu c).noff = 0) : s.lk l ≠ some c := by
  obtain ⟨H, hcard, hH⟩ := h c
  intro hl
  rw [hnoff, Finset.card_eq_zero] at hcard
  subst hcard
  simpa using (hH (.inl l)).mpr hl

theorem Inv.of_yield (h : Inv s) (hcur : current s c = some (p, k)) (hlock : s.lock p = none)
    (hnoff : (s.cpu c).noff = 0) : k.locked = false ∧ k.needs = none := by
  obtain ⟨-, hlock', -, hneeds⟩ := h.of_current hcur
  constructor
  · by_contra hk
    simp [hlock, hk] at hlock'
  · cases hk : k.needs with
    | none => rfl
    | some l => exact absurd (hneeds l hk) (h.counted.not_held hnoff)

theorem Inv.of_yieldBack (h : Inv s) (hframe : s.frame p = .yieldBack k) :
    k.locked = false ∧ k.needs = none := by
  cases h.thread p with
  | code c' k' hmode' hframe' => simp [hframe] at hframe'
  | back hcode hdead hstate hused hyield hexec => exact hyield k hframe
  | dead hframe' => simp [hframe] at hframe'

theorem Inv.woken (h : Inv s) (hlock : s.lock q = none) (hframe : t.frame q = s.frame q)
    (hmode : ∀ d, (t.cpu d).mode = .exec q → (s.cpu d).mode = .exec q)
    (hq : (s.proc q).state = .sleeping) (hstate : (t.proc q).state = .runnable) : Thread t q := by
  obtain ⟨hcode, hdead, hyield⟩ := h.back_of_state (.inl hq)
  refine .back (fun k => hframe ▸ hcode k) (hframe ▸ hdead) (by simp [hstate]) (by simp [hstate])
    (fun k => hframe ▸ hyield k) fun d hd => ?_
  exact absurd (hmode d hd) (h.not_exec_of_unlocked hlock (by simp [hq]) d)

theorem Inv.thread_of_unlocked {m : Pc} (h : Inv s) (hcur : current s c = some (p, k))
    (hk : k.locked = false) (hm : m.locked = false)
    (hcpu : (t.cpu c).mode = (s.cpu c).mode ∧ (t.cpu c).handler = (s.cpu c).handler)
    (hframe : t.frame p = .code m) (hstate : (t.proc p).state = (s.proc p).state)
    (hlock : t.lock p = s.lock p) (hneeds : ∀ l, m.needs = some l → t.lk l = some c) :
    Thread t p := by
  obtain ⟨hhand, hmode, -⟩ := current_eq_some hcur
  obtain ⟨hlock₀, hstate₀⟩ := h.of_unlocked hcur hk
  refine .code c m (hcpu.1.trans hmode) hframe ?_ ?_ fun l hl => ⟨hneeds l hl, ?_⟩
  · rw [hlock, hlock₀, hm]
    rfl
  · rw [hstate, hstate₀, if_neg (ne_exitRelease hm)]
  · simp [hcpu.2, hhand]

theorem state_of_woken {P : Proc} (hp : (s.proc p).state = .running)
    (hP : P.state = (s.proc q).state ∨ (s.proc q).state = .sleeping ∧ P.state = .runnable) :
    ((wakeProc s q P).proc p).state = (s.proc p).state := by
  by_cases hpq : p = q
  · subst hpq
    simpa [wakeProc, hp] using hP
  · simp [wakeProc, hpq]

/-- `wakeup` and `kill` leave a slot as it is, or wake its process and end its call of `sleep`. -/
theorem unchanged_or_woken {P : Proc} (hchan : P.chan = (s.proc q).chan)
    (hP : P.state = (s.proc q).state ∨ (s.proc q).state = .sleeping ∧ P.state = .runnable) :
    Unchanged s (wakeProc s q P) q ∨ (s.proc q).state = .sleeping ∧ P.state = .runnable := by
  refine or_iff_not_imp_right.mpr fun hwake => ⟨rfl, ?_, ?_, rfl, ?_, rfl⟩
  · simpa [wakeProc] using hP.resolve_right hwake
  · simpa [wakeProc] using hchan
  · simp [wakeProc, hwake]

theorem wakeup_chan (chan : Option Chan) (P : Proc) : (P.wakeup chan).chan = P.chan := by
  unfold Proc.wakeup
  split_ifs <;> rfl

theorem state_setParent (s : State κ) (q : Slot) (x : Option Slot) (r : Slot) :
    ((s.setProc q { s.proc q with parent := x }).proc r).state = (s.proc r).state ∧
      ((s.setProc q { s.proc q with parent := x }).proc r).chan = (s.proc r).chan := by
  by_cases hrq : r = q <;> simp [setProc, hrq]

theorem pending_wakeProc {P : Proc} (hr : r ≠ q) :
    (wakeProc s q P).pending r = s.pending r := by
  simp only [wakeProc]
  split_ifs <;> simp [hr]

variable [DecidableEq κ]

attribute [local simp] State.goto State.ret State.acquire State.release setProc acquireProc
  releaseProc setCpu setHandler wakeProc switchOut dispatch forkReady callSleep

/-! ## What a step leaves alone -/

theorem exists_swtchIn (s : State κ) (c : κ) (i : ℕ) :
    ∃ x : Cpu, swtchIn s c i = s.setCpu c x ∧ x.noff = (s.cpu c).noff := by
  unfold swtchIn
  split_ifs <;> exact ⟨_, rfl, rfl⟩

theorem exists_swtchOut (s : State κ) (c : κ) (p : Slot) (i : ℕ) : ∃ (g : Slot → ℕ) (x : Cpu),
    swtchOut s c p i = { s with saved := g }.setCpu c x ∧ x.noff = (s.cpu c).noff ∧
      ∀ r, x.mode ≠ .exec r := by
  unfold swtchOut
  split
  · exact ⟨_, _, rfl, rfl, by simp⟩
  · split <;> exact ⟨s.saved, _, rfl, rfl, by simp⟩

theorem Own.unchanged (ho : Own s c p k T t) (hp : r ≠ p) (hr : r ∉ T) : Unchanged s t r := by
  cases ho with
  | wake | kill =>
    have hq := List.ne_of_not_mem_cons hr
    constructor
    case pending => exact pending_wakeProc hq
    all_goals simp [hp, hq]
  | @reparent q | @forkParent q =>
    have hq := state_setParent s q
    exact ⟨by simp [hp], (hq _ r).1, (hq _ r).2, rfl, rfl, rfl⟩
  | forkAlloc | forkFail | forkReady | forkRunnable | reap =>
    have hq := List.ne_of_not_mem_cons hr
    constructor <;> simp [hp, hq]
  | _ => constructor <;> simp [hp]

theorem Switch.unchanged (hs : Switch s c T t) (hr : r ∉ T) : Unchanged s t r := by
  cases hs with
  | @swtchIn i =>
    obtain ⟨x, hx, -⟩ := exists_swtchIn s c i
    exact hx ▸ ⟨rfl, rfl, rfl, rfl, rfl, rfl⟩
  | @swtchOut p i =>
    obtain ⟨g, x, hx, -⟩ := exists_swtchOut s c p i
    exact hx ▸ ⟨rfl, rfl, rfl, rfl, rfl, rfl⟩
  | look => exact ⟨rfl, rfl, rfl, rfl, rfl, rfl⟩
  | back | dispatch | schedulerBack =>
    have hp := List.ne_of_not_mem_cons hr
    constructor <;> simp [hp]

theorem Handles.unchanged (hh : Handles s c T t) (hr : r ∉ T) : Unchanged s t r := by
  cases hh with
  | wake =>
    have hq := List.ne_of_not_mem_cons hr
    exact ⟨rfl, by simp [hq], by simp [hq], rfl, pending_wakeProc hq, rfl⟩
  | _ => exact ⟨rfl, rfl, rfl, rfl, rfl, rfl⟩

theorem Effect.cpu (he : Effect s c T t) (hd : d ≠ c) : t.cpu d = s.cpu d := by
  cases he with
  | own hcur ho => cases ho <;> simp [hd]
  | switch hhand hs =>
    cases hs with
    | @swtchIn i =>
      obtain ⟨x, hx, -⟩ := exists_swtchIn s c i
      simp [hx, hd]
    | @swtchOut p i =>
      obtain ⟨g, x, hx, -⟩ := exists_swtchOut s c p i
      simp [hx, hd]
    | _ => simp [hd]
  | handles hh => cases hh <;> simp [hd]

theorem Effect.lkStep (he : Effect s c T t) : LkStep s t c := by
  cases he with
  | own hcur ho =>
    cases ho with
    | acquire hk hk' hfree => exact .acquire _ hfree rfl rfl
    | release hheld | exitRelease hheld | waitReturn hk hheld | reap hk hheld
    | sleepRelease hheld => exact .release _ hheld rfl rfl
    | forkParent hfree => exact .both _ hfree (by simp [← hfree]) rfl
    | _ => exact .same rfl rfl
  | switch hhand hs =>
    cases hs with
    | @swtchIn i =>
      obtain ⟨x, hx, -⟩ := exists_swtchIn s c i
      exact hx ▸ .same rfl rfl
    | @swtchOut p i =>
      obtain ⟨g, x, hx, -⟩ := exists_swtchOut s c p i
      exact hx ▸ .same rfl rfl
    | _ => exact .same rfl rfl
  | handles hh =>
    cases hh with
    | interrupt hhand hfree => exact .acquire _ hfree rfl rfl
    | done hhand hheld => exact .release _ hheld rfl rfl
    | _ => exact .same rfl rfl

/-- Only its own thread does the CPU of a thread stop to run. -/
theorem Own.mode_ne (ho : Own s c p k T t) (hmode : (s.cpu c).mode = .exec p) (hr : r ≠ p) :
    (t.cpu c).mode ≠ .exec r := by
  cases ho <;> simp [hmode, Ne.symm hr]

/-! ## The threads that a step touches -/

theorem Inv.thread_own (h : Inv s) (hcur : current s c = some (p, k)) (ho : Own s c p k T t) :
    Thread t p := by
  obtain ⟨hhand, hmode, hframe⟩ := current_eq_some hcur
  obtain ⟨-, hlock, hstate, hheld⟩ := h.of_current hcur
  have unlocked := h.of_unlocked hcur
  have hp : ∀ {q}, (s.proc q).state ≠ .running → k.locked = false → p ≠ q := by
    rintro q hq hk rfl
    exact hq (unlocked hk).2
  have hexec : (t.cpu c).mode ≠ .exec p → ∀ d, (t.cpu d).mode ≠ .exec p := by
    intro hc d hd
    by_cases hdc : d = c
    · exact hc (hdc ▸ hd)
    · rw [(Effect.own hcur ho).cpu hdc] at hd
      exact hdc (h.exec_inj hmode hd)
  cases ho with
  | goto hk hk' hneeds hscan =>
    refine h.thread_of_unlocked hcur hk.unlocked hk'.unlocked ⟨rfl, rfl⟩ (by simp) rfl rfl
      fun l hl => ?_
    rcases hneeds with hn | hn
    · simp [hn] at hl
    · exact hheld l (hn ▸ hl)
  | wakeSelf hk hk' hneeds =>
    exact h.thread_of_unlocked hcur hk.unlocked hk'.unlocked ⟨rfl, rfl⟩ (by simp) rfl rfl
      (by simp [hneeds])
  | @reparent q _ _ hk hk' hneeds =>
    exact h.thread_of_unlocked hcur hk.unlocked hk'.unlocked ⟨rfl, rfl⟩ (by simp)
      (state_setParent s q _ p).1 rfl (by simp [hneeds])
  | ret hk | waitReturn hk =>
    exact h.thread_of_unlocked (m := .run) hcur hk.unlocked rfl (by simp) (by simp) (by simp) rfl
      (by simp [Pc.needs])
  | acquire hk hk' hfree hneeds hscan =>
    refine h.thread_of_unlocked hcur hk.unlocked hk'.unlocked (by simp) (by simp) rfl rfl
      fun l hl => ?_
    rcases hneeds with hn | hn <;> simp [hn] at hl
    simp [hl]
  | release =>
    exact h.thread_of_unlocked (m := .run) hcur rfl rfl (by simp) hframe rfl rfl
      (by simp [Pc.needs])
  | @callSleep _ chan caller hk hl =>
    refine h.thread_of_unlocked (m := .sleepEnter chan caller) hcur hk.unlocked rfl ⟨rfl, rfl⟩
      (by simp) rfl rfl fun l hn => ?_
    obtain rfl : caller.lk = l := by simpa [Pc.needs] using hn
    exact hl.elim id (hheld _)
  | wake hk hk' hneeds =>
    refine h.thread_of_unlocked hcur hk.unlocked hk'.unlocked ⟨rfl, rfl⟩ (by simp) ?_ rfl
      (by simp [hneeds])
    exact state_of_woken (unlocked hk.unlocked).2 (wakeup_state_cases _ _)
  | @kill j _ v hk =>
    refine h.thread_of_unlocked (m := .run) hcur hk.unlocked rfl ⟨rfl, rfl⟩ (by simp) ?_ rfl
      (by simp [Pc.needs])
    simpa using state_of_woken (unlocked hk.unlocked).2 (kill_state_cases (s.proc j))
  | @forkAlloc np _ hk hl hnp =>
    have hpn := hp (q := np) (by simp [hnp]) hk.unlocked
    exact h.thread_of_unlocked (m := .forkInit np) hcur hk.unlocked rfl (by simp) (by simp)
      (by simp [hpn]) (by simp [hpn]) (by simp [Pc.needs])
  | @forkFail np | @forkReady np | @forkRunnable np =>
    have hpn := hp (q := np) (by simp [h.used_of_child hcur rfl]) rfl
    refine h.thread_of_unlocked hcur rfl ?_ (by simp) (by simp; rfl) (by simp [hpn])
      (by simp [hpn]) ?_
    · rfl
    · simp [Pc.needs]
  | @forkParent np pid =>
    exact h.thread_of_unlocked (m := .forkRunnable np pid) hcur rfl rfl (by simp) (by simp)
      (state_setParent s np _ p).1 rfl (by simp [Pc.needs])
  | @reap q _ v hk hl hq hz =>
    have hpq := hp (q := q) (by simp [hz]) hk.unlocked
    exact h.thread_of_unlocked (m := .run) hcur hk.unlocked rfl (by simp) (by simp)
      (by simp [hpq]) rfl (by simp [Pc.needs])
  | exitZombie =>
    refine .code c .exitRelease ?_ ?_ ?_ ?_ (by simp [Pc.needs])
    · simp [hmode]
    · simp
    · simp [Pc.locked]
    · simp
  | @sleepEnter chan caller =>
    refine .code c (.sleepRelease chan caller) ?_ ?_ ?_ ?_ fun l hl => ⟨hheld l hl, ?_⟩
    · simp [hmode]
    · simp
    · simp [Pc.locked]
    · simpa using hstate
    · simp [hhand]
  | @sleepRelease chan caller =>
    refine .code c (.sleepSet chan caller) ?_ ?_ ?_ ?_ (by simp [Pc.needs])
    · simp [hmode]
    · simp
    · simpa [Pc.locked] using hlock
    · simpa using hstate
  | exitRelease =>
    refine .dead (by simp) (.inr (.inl ?_)) (hexec (by simp))
    simpa using hstate
  | sleepSet =>
    refine .back ?_ ?_ ?_ ?_ ?_ fun d hd => absurd hd (hexec (by simp) d) <;> simp [Proc.sleep]
  | yield hl hnoff =>
    refine .back ?_ ?_ ?_ ?_ ?_ fun d hd => absurd hd (hexec (by simp) d)
    case refine_5 => simpa using h.of_yield hcur hl hnoff
    all_goals simp

/-- The other thread of the step, in a slot that no CPU runs. -/
theorem Inv.thread_slot (h : Inv s) (hcur : current s c = some (p, k)) (ho : Own s c p k T t)
    (hq : q ∈ T) (hqp : q ≠ p) : Unchanged s t q ∨ Thread t q := by
  have hmode : (∀ d, (s.cpu d).mode ≠ .exec q) → ∀ d, (t.cpu d).mode ≠ .exec q := by
    intro hoff d
    by_cases hdc : d = c
    · subst hdc
      exact ho.mode_ne (current_eq_some hcur).2.1 hqp
    · rw [(Effect.own hcur ho).cpu hdc]
      exact hoff d
  cases ho with
  | wake hk hk' hneeds hscan hscan' hlock =>
    obtain rfl := List.mem_singleton.mp hq
    rcases unchanged_or_woken (wakeup_chan _ _) (wakeup_state_cases _ _) with hu | ⟨hs, hP⟩
    · exact .inl { hu with frame := by simp [hqp] }
    · exact .inr (h.woken hlock (by simp [hqp]) (fun d hd => hd) hs (by simpa using hP))
  | kill hk hlock =>
    obtain rfl := List.mem_singleton.mp hq
    rcases unchanged_or_woken (s := s) (q := q) (P := (s.proc q).kill) rfl
      (kill_state_cases _) with hu | ⟨hs, hP⟩
    · have hstate := hu.state
      exact .inl { hu with
        frame := by simp [hqp]
        state := by simpa [hqp] using hstate
        chan := by simp [hqp, Proc.kill] }
    · exact .inr (h.woken hlock (by simp [hqp]) (fun d hd => hd) hs (by simpa [hqp] using hP))
  | forkAlloc hk hlock hnp =>
    obtain rfl := List.mem_singleton.mp hq
    have hdead := h.dead_of_state (.inl hnp)
    refine .inr (.dead ?_ (.inr (.inr ?_)) (hmode (h.not_exec_of_absent (.inl hnp))))
    · simpa [hqp] using hdead
    · simp [Proc.allocproc]
  | forkFail hlock =>
    obtain rfl := List.mem_singleton.mp hq
    have hnp := h.used_of_child hcur rfl
    have hdead := h.dead_of_state (.inr (.inr ⟨hnp, by simp [hlock]⟩))
    refine .inr (.dead ?_ (.inl ?_) (hmode (h.not_exec_of_absent (.inr hnp))))
    · simpa [hqp] using hdead
    · simp [hqp, Proc.freeproc]
  | forkReady hlock =>
    obtain rfl := List.mem_singleton.mp hq
    have hnp := h.used_of_child hcur rfl
    have hoff := hmode (h.not_exec_of_absent (.inr hnp))
    refine .inr (.back ?_ ?_ ?_ ?_ ?_ fun d hd => absurd hd (hoff d)) <;> simp [hqp, hnp]
  | forkRunnable hlock =>
    obtain rfl := List.mem_singleton.mp hq
    have hnp := h.used_of_child hcur rfl
    have hoff := hmode (h.not_exec_of_absent (.inr hnp))
    obtain ⟨hcode, hdead, hyield⟩ := h.back_of_state (.inr (.inr ⟨hnp, hlock⟩))
    refine .inr (.back ?_ ?_ ?_ ?_ ?_ fun d hd => absurd hd (hoff d))
    · simpa [hqp] using hcode
    · simpa [hqp] using hdead
    · simp [hqp]
    · simp [hqp]
    · simpa [hqp] using hyield
  | reap hk hheld hlock hz =>
    obtain rfl := List.mem_singleton.mp hq
    have hdead := h.dead_of_state (.inr (.inl ⟨hz, hlock⟩))
    refine .inr (.dead ?_ (.inl ?_) (hmode (h.not_exec_of_unlocked hlock (by simp [hz]))))
    · simpa [hqp] using hdead
    · simp [hqp, Proc.freeproc]
  | _ => simp at hq

theorem Inv.threads_own (h : Inv s) (hcur : current s c = some (p, k)) (ho : Own s c p k T t) :
    ∀ r, Thread t r := by
  have hmode := (current_eq_some hcur).2.1
  intro r
  by_cases hrp : r = p
  · subst hrp
    exact h.thread_own hcur ho
  have hr : Unchanged s t r ∨ Thread t r := by
    by_cases hr : r ∈ T
    · exact h.thread_slot hcur ho hr hrp
    · exact .inl (ho.unchanged hrp hr)
  refine hr.elim (fun hr => (h.thread r).of_elsewhere hr ?_ ?_ ?_ (ho.mode_ne hmode hrp)) id
  · exact fun d hd => (Effect.own hcur ho).cpu hd
  · exact (Effect.own hcur ho).lkStep
  · simp [hmode, Ne.symm hrp]

theorem Inv.thread_of_resume {i : ℕ} (h : Inv s) (hmode : (s.cpu c).mode = .enter i) :
    Thread (s.setCpu c { s.cpu c with mode := .exec (s.cpu c).p }) (s.cpu c).p := by
  obtain ⟨hcur, hstatus, hlock, -⟩ := (h.handover.cpu c).of_entering (k := i)
    (by simp [view, phase, hmode])
  have hrun : (s.proc (s.cpu c).p).state = .running := status_injective hstatus
  cases h.thread (s.cpu c).p with
  | code d k hmode' _ _ _ _ =>
    obtain rfl := h.eq_of_exec hcur hmode'
    simp [hmode] at hmode'
  | back hcode hdead hstate hused hyield hexec =>
    refine .back hcode hdead hstate hused hyield fun d hd => ?_
    by_cases hdc : d = c
    · subst hdc
      exact ⟨hlock, hrun⟩
    · exact hexec d (by simpa [hdc] using hd)
  | dead _ hstate _ => simp [hrun] at hstate

/-- `scheduler` gives up the lock of the process it has switched away from. -/
theorem Inv.thread_of_schedulerBack (h : Inv s) (hmode : (s.cpu c).mode = .back)
    (hcpu : ∀ d ≠ c, t.cpu d = s.cpu d) (hmode' : (t.cpu c).mode = .sched)
    (hframe : t.frame = s.frame) (hproc : t.proc = s.proc) (hlock : t.lock (s.cpu c).p = none) :
    Thread t (s.cpu c).p := by
  obtain ⟨hcur, hstop, -⟩ := (h.handover.cpu c).of_left (by simp [view, phase, hmode])
  have hexec : ∀ d, (t.cpu d).mode ≠ .exec (s.cpu c).p := by
    intro d hd
    by_cases hdc : d = c
    · subst hdc
      simp [hmode'] at hd
    · exact hdc (h.eq_of_exec hcur (hcpu d hdc ▸ hd))
  cases h.thread (s.cpu c).p with
  | code d k hd _ _ _ _ =>
    obtain rfl := h.eq_of_exec hcur hd
    simp [hmode] at hd
  | back hcode hdead hstate hused hyield _ =>
    exact .back (hframe ▸ hcode) (hframe ▸ hdead) (hproc ▸ hstate) (fun _ => hlock)
      (hframe ▸ hyield) fun d hd => absurd hd (hexec d)
  | dead hframe' hstate _ =>
    refine .dead (hframe ▸ hframe') ?_ hexec
    rw [hproc]
    rcases hstate with hstate | hstate | ⟨hstate, -⟩
    · exact .inl hstate
    · exact .inr (.inl hstate)
    · exact absurd (by simp [view, hstate, status]) hstop.ne_fresh

theorem Inv.thread_switch (h : Inv s) (hhand : (s.cpu c).handler = none) (hs : Switch s c T t)
    (hr : r ∈ T) : Thread t r := by
  have hcpu : ∀ d ≠ c, t.cpu d = s.cpu d := fun d hd => (Effect.switch hhand hs).cpu hd
  cases hs with
  | @back p P f k hmode hframe hlock hf =>
    obtain rfl := List.mem_singleton.mp hr
    have hrun := h.running_of_back hmode hframe (by rcases hf with hf | ⟨_, hf⟩ | hf <;> simp [hf])
    have hP : P.state = .running := by
      rcases hf with ⟨-, rfl⟩ | ⟨_, -, -, rfl⟩ | ⟨-, -, rfl⟩ <;> exact hrun
    have hk : k.locked = false ∧ k.needs = none := by
      rcases hf with ⟨rfl, -⟩ | ⟨_, -, rfl, -⟩ | ⟨-, rfl, -⟩
      · exact h.of_yieldBack hframe
      · exact ⟨rfl, rfl⟩
      · exact ⟨rfl, rfl⟩
    refine .code c k ?_ ?_ ?_ ?_ (by simp [hk.2])
    · simp [hmode]
    · simp
    · simp [hk.1]
    · simp [hP, ne_exitRelease hk.1]
  | dispatch hmode hlock hp =>
    obtain rfl := List.mem_singleton.mp hr
    obtain ⟨hcode, hdead, hyield⟩ := h.back_of_state (.inr (.inl hp))
    refine .back hcode hdead (by simp) (by simp) hyield fun d hd => ?_
    by_cases hdc : d = c
    · simp [hdc] at hd
    · exact absurd (by simpa [hdc] using hd) (h.not_exec_of_unlocked hlock (by simp [hp]) d)
  | @swtchIn i hmode =>
    obtain rfl := List.mem_singleton.mp hr
    have hsave : ∀ x : Cpu, (∀ r, x.mode ≠ .exec r) → Thread (s.setCpu c x) (s.cpu c).p :=
      fun x hx => (h.thread _).of_elsewhere (c := c) ⟨rfl, rfl, rfl, rfl, rfl, rfl⟩
        (fun d hd => by simp [hd]) (.same rfl rfl) (by simp [hmode]) (by simpa using hx _)
    rw [swtchIn]
    split
    · exact hsave _ (by simp)
    split
    · exact hsave _ (by simp)
    · exact h.thread_of_resume hmode
  | schedulerBack hmode hlock =>
    obtain rfl := List.mem_singleton.mp hr
    exact h.thread_of_schedulerBack hmode hcpu (by simp) rfl rfl (by simp)
  | look | swtchOut => simp at hr

theorem Switch.mode_ne (hs : Switch s c T t) (hr : r ∉ T) :
    (s.cpu c).mode ≠ .exec r ∧ (t.cpu c).mode ≠ .exec r := by
  cases hs with
  | back hmode =>
    have hp := List.ne_of_not_mem_cons hr
    simp [hmode, Ne.symm hp]
  | @swtchIn i hmode =>
    have hp := List.ne_of_not_mem_cons hr
    rw [Sched.swtchIn]
    split_ifs <;> simp [hmode, Ne.symm hp]
  | @swtchOut p i hmode =>
    obtain ⟨g, x, hx, -, hne⟩ := exists_swtchOut s c p i
    simp [hx, hmode, hne]
  | look hmode | dispatch hmode | schedulerBack hmode => simp [hmode]

/-- A handler has nothing to do with the locks of the thread that it interrupts. -/
theorem Handles.held (hh : Handles s c T t) (hl : s.lk l = some c)
    (hx : ∀ x, (s.cpu c).handler = some x → x.lk ≠ l) :
    t.lk l = some c ∧ ∀ x, (t.cpu c).handler = some x → x.lk ≠ l := by
  cases hh with
  | @interrupt l' hhand hfree =>
    have hne : l ≠ l' := by
      rintro rfl
      simp [hfree] at hl
    simp [hne, hl, Ne.symm hne]
  | next hhand hh' | wake hhand hh' => simpa [hl, hh'] using hx _ hhand
  | done hhand hheld =>
    have hne := Ne.symm (hx _ hhand)
    simp [hne, hl]

theorem Inv.threads_handles (h : Inv s) (hh : Handles s c T t) (r : Slot) : Thread t r := by
  have hmode : ∀ d, (t.cpu d).mode = (s.cpu d).mode := by
    intro d
    by_cases hd : d = c
    · subst hd
      cases hh <;> simp
    · rw [(Effect.handles hh).cpu hd]
  have hr : Unchanged s t r ∨ Thread t r := by
    by_cases hr : r ∈ T
    · cases hh with
      | wake hhand hh' hlock =>
        obtain rfl := List.mem_singleton.mp hr
        rcases unchanged_or_woken (s := s) (wakeup_chan _ _) (wakeup_state_cases _ _)
          with hu | ⟨hs, hP⟩
        · exact .inl { hu with }
        · exact .inr (h.woken hlock rfl (fun d hd => hmode d ▸ hd) hs (by simpa using hP))
      | _ => simp at hr
    · exact .inl (hh.unchanged hr)
  refine hr.elim (fun hr => (h.thread r).congr hr (fun d => by rw [hmode d])
    fun d l _ hl hx => ?_) id
  by_cases hd : d = c
  · subst hd
    exact hh.held hl hx
  · rw [(Effect.handles hh).cpu hd]
    exact ⟨((Effect.handles hh).lkStep.elsewhere hd l).1.mpr hl, hx⟩

theorem Inv.threads (h : Inv s) (he : Effect s c T t) (r : Slot) : Thread t r := by
  cases he with
  | own hcur ho => exact h.threads_own hcur ho r
  | switch hhand hs =>
    by_cases hr : r ∈ T
    · exact h.thread_switch hhand hs hr
    · refine (h.thread r).of_elsewhere (hs.unchanged hr) ?_ ?_ (hs.mode_ne hr).1 (hs.mode_ne hr).2
      · exact fun d hd => (Effect.switch hhand hs).cpu hd
      · exact (Effect.switch hhand hs).lkStep
  | handles hh => exact h.threads_handles hh r

end Xv6.Sched
