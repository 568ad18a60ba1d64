import Xv6.Sched.Threads

/-!
# A process runs on at most one CPU
-/

namespace Xv6.Sched

open Proc (Slot initproc)
open Lib State
open Function (update update_idem update_self update_of_ne)

variable {κ : Type} {s t : State κ} {c : κ} {p q : Slot} {k : Pc} {T : List Slot}

/-- A slot is filled by one thread at most, and is `USED` until then. -/
def Children (s : State κ) : Prop :=
  (∀ r np, (s.frame r).child = some np → (s.proc np).state = .used) ∧
    ∀ r r' np, (s.frame r).child = some np → (s.frame r').child = some np → r = r'

theorem Inv.children_of (h : Inv s)
    (hframe : ∀ r, (t.frame r).child = (s.frame r).child ∨ (t.frame r).child = none)
    (hused : ∀ q, (s.proc q).state = .used → (t.proc q).state = .used ∨
      ∃ r, (s.frame r).child = some q ∧ (t.frame r).child = none) : Children t := by
  have hold : ∀ r np, (t.frame r).child = some np → (s.frame r).child = some np := by
    intro r np hr
    rcases hframe r with hp | hp
    · rw [← hp, hr]
    · simp [hp] at hr
  refine ⟨fun r np hr => ?_,
    fun r r' np hr hr' => h.child_inj r r' np (hold r np hr) (hold r' np hr')⟩
  rcases hused np (h.child_used r np (hold r np hr)) with hnp | ⟨r', hr', hnone⟩
  · exact hnp
  · obtain rfl := h.child_inj r r' np (hold r np hr) hr'
    simp [hnone] at hr

/-- `fork` takes a slot that nobody else can be filling. -/
theorem Inv.children_forkAlloc {P : Proc} (h : Inv s) (hq : (s.proc q).state = .unused)
    (hP : P.state = .used) (hframe : t.frame = update s.frame p (.code (.forkInit q)))
    (hproc : t.proc = update s.proc q P) : Children t := by
  have hfree : ∀ r np, (s.frame r).child = some np → np ≠ q := by
    rintro r _ hr rfl
    rw [h.child_used r _ hr] at hq
    cases hq
  have hp : (t.frame p).child = some q := by simp [hframe, Frame.child, Pc.child]
  have hother : ∀ r ≠ p, (t.frame r).child = (s.frame r).child := fun r hr => by simp [hframe, hr]
  refine ⟨fun r np hr => ?_, fun r r' np hr hr' => ?_⟩
  · by_cases hrp : r = p
    · subst hrp
      obtain rfl : q = np := Option.some_inj.mp (hp.symm.trans hr)
      simp [hproc, hP]
    · rw [hother r hrp] at hr
      simpa [hproc, hfree r np hr] using h.child_used r np hr
  · by_cases hrp : r = p <;> by_cases hrp' : r' = p
    · rw [hrp, hrp']
    · rw [hother r' hrp'] at hr'
      exact absurd (Option.some_inj.mp ((hrp ▸ hr).symm.trans hp)) (hfree r' np hr')
    · rw [hother r hrp] at hr
      exact absurd (Option.some_inj.mp ((hrp' ▸ hr').symm.trans hp)) (hfree r np hr)
    · exact h.child_inj r r' np (hother r hrp ▸ hr) (hother r' hrp' ▸ hr')

variable [DecidableEq κ]

attribute [local simp] State.goto State.ret State.acquire State.release setProc acquireProc
  releaseProc setCpu setHandler wakeProc switchOut dispatch forkReady callSleep

theorem Inv.children_of_own (h : Inv s) (hcur : current s c = some (p, k)) (ho : Own s c p k T t)
    (hp : (t.frame p).child = (s.frame p).child ∨ (t.frame p).child = none)
    (hT : ∀ q ∈ T, q ≠ p → ((t.frame q).child = (s.frame q).child ∨ (t.frame q).child = none) ∧
      ((s.proc q).state = .used → (t.proc q).state = .used ∨
        (s.frame p).child = some q ∧ (t.frame p).child = none)) : Children t := by
  have hother : ∀ r, r ≠ p → r ∉ T → Unchanged s t r := fun r => ho.unchanged
  refine h.children_of (fun r => ?_) fun r hr => ?_
  · by_cases hrp : r = p
    · exact hrp ▸ hp
    by_cases hrT : r ∈ T
    · exact (hT r hrT hrp).1
    · exact .inl (by rw [(hother r hrp hrT).frame])
  · by_cases hrp : r = p
    · rw [hrp, (h.of_current hcur).2.2.1] at hr
      split_ifs at hr
    by_cases hrT : r ∈ T
    · exact ((hT r hrT hrp).2 hr).imp_right fun hr' => ⟨p, hr'⟩
    · exact .inl ((hother r hrp hrT).state.trans hr)

attribute [local simp] Frame.child Pc.child

theorem Inv.children_own (h : Inv s) (hcur : current s c = some (p, k)) (ho : Own s c p k T t) :
    Children t := by
  have hframe := (current_eq_some hcur).2.2
  have step := h.children_of_own hcur ho
  cases ho with
  | goto hk hk' | acquire hk hk' | wakeSelf hk hk' | reparent hk hk' =>
    exact step (.inr (by simpa using hk'.child)) (by simp)
  | ret | callSleep | exitZombie | exitRelease | waitReturn | sleepEnter | sleepRelease
  | sleepSet => exact step (.inr (by simp)) (by simp)
  | release | yield | forkParent => exact step (.inl (by simp [hframe])) (by simp)
  | wake hk hk' =>
    refine step (.inr (by simpa using hk'.child)) fun q hq hqp => ?_
    obtain rfl := List.mem_singleton.mp hq
    refine ⟨.inl (by simp [hqp]), fun hu => .inl ?_⟩
    simpa [hu] using wakeup_state_cases _ (s.proc q)
  | kill hk =>
    refine step (.inr (by simp)) fun q hq hqp => ?_
    obtain rfl := List.mem_singleton.mp hq
    refine ⟨.inl (by simp [hqp]), fun hu => .inl ?_⟩
    simpa [hqp, hu] using kill_state_cases (s.proc q)
  | forkAlloc hk hlock hnp => exact h.children_forkAlloc hnp rfl rfl rfl
  | forkFail | forkRunnable =>
    refine step (.inr (by simp)) fun q hq hqp => ⟨.inl (by simp [hqp]), fun _ => .inr ?_⟩
    simp [hframe, List.mem_singleton.mp hq]
  | forkReady =>
    refine step (.inl (by simp [hframe])) fun q hq hqp => ?_
    obtain rfl := List.mem_singleton.mp hq
    exact ⟨.inr (by simp [hqp]), fun hu => .inl (by simpa using hu)⟩
  | reap hk hheld hlock hz =>
    refine step (.inr (by simp)) fun q hq hqp => ⟨.inl (by simp [hqp]), fun hu => ?_⟩
    rw [List.mem_singleton.mp hq, hz] at hu
    cases hu

theorem Inv.children (h : Inv s) (he : Effect s c T t) : Children t := by
  cases he with
  | own hcur ho => exact h.children_own hcur ho
  | switch hhand hs =>
    refine h.children_of (fun r => ?_) fun r hr => .inl ?_
    · by_cases hrT : r ∈ T
      · cases hs with
        | back hmode hframe hlock hf =>
          obtain rfl := List.mem_singleton.mp hrT
          rcases hf with ⟨rfl, -⟩ | ⟨_, -, rfl, -⟩ | ⟨-, rfl, -⟩ <;> simp [hframe]
        | @swtchIn i =>
          obtain ⟨x, hx, -⟩ := exists_swtchIn s c i
          exact .inl (by rw [hx]; rfl)
        | dispatch | schedulerBack => exact .inl rfl
        | _ => simp at hrT
      · exact .inl (by rw [(hs.unchanged hrT).frame])
    · by_cases hrT : r ∈ T
      · cases hs with
        | @back p P f k hmode hframe hlock hf =>
          obtain rfl := List.mem_singleton.mp hrT
          have hP : P.state = (s.proc r).state := by
            rcases hf with ⟨-, rfl⟩ | ⟨_, -, -, rfl⟩ | ⟨-, -, rfl⟩ <;> rfl
          simpa [hP] using hr
        | @swtchIn i =>
          obtain ⟨x, hx, -⟩ := exists_swtchIn s c i
          rwa [hx]
        | dispatch hmode hlock hp =>
          rw [List.mem_singleton.mp hrT, hp] at hr
          cases hr
        | schedulerBack => exact hr
        | _ => simp at hrT
      · exact (hs.unchanged hrT).state.trans hr
  | handles hh =>
    refine h.children_of (fun r => .inl ?_) fun r hr => .inl ?_
    · cases hh <;> rfl
    · by_cases hrT : r ∈ T
      · cases hh with
        | wake =>
          obtain rfl := List.mem_singleton.mp hrT
          simpa [hr] using wakeup_state_cases _ (s.proc r)
        | _ => simp at hrT
      · exact (hh.unchanged hrT).state.trans hr

/-! ## Counting the locks of a CPU -/

namespace Counted

variable {x : Lk ⊕ Slot} {y : Cpu}

omit [DecidableEq κ] in
theorem of_eq (h : Counted s) (hlk : t.lk = s.lk) (hlock : t.lock = s.lock)
    (hnoff : ∀ d, (t.cpu d).noff = (s.cpu d).noff) : Counted t := by
  intro d
  rw [hnoff d, holder, hlk, hlock]
  exact h d

theorem of_update (h : Counted s) (hlk : t.lk = s.lk) (hlock : t.lock = s.lock)
    (hcpu : t.cpu = update s.cpu c y) (hy : y.noff = (s.cpu c).noff) : Counted t := by
  refine h.of_eq hlk hlock fun d => ?_
  by_cases hd : d = c <;> simp [hcpu, hd, hy]

theorem of_acquire (h : Counted s) (hfree : holder s x = none)
    (hx : holder t = update (holder s) x (some c))
    (hcpu : t.cpu = update s.cpu c y) (hy : y.noff = (s.cpu c).noff + 1) : Counted t := by
  intro d
  obtain ⟨H, h1, h2⟩ := h d
  by_cases hd : d = c
  · subst hd
    refine ⟨insert x H, ?_, fun z => ?_⟩
    · rw [Finset.card_insert_of_notMem (by simp [h2, hfree]), h1, hcpu, update_self, hy]
    · by_cases hz : z = x <;> simp [hz, hx, h2]
  · refine ⟨H, by rw [hcpu, update_of_ne hd, h1], fun z => ?_⟩
    by_cases hz : z = x
    · simp [hz, hx, h2, hfree, Ne.symm hd]
    · simp [hz, hx, h2]

theorem of_release (h : Counted s) (hheld : holder s x = some c)
    (hx : holder t = update (holder s) x none)
    (hcpu : t.cpu = update s.cpu c y) (hy : y.noff = (s.cpu c).noff - 1) : Counted t := by
  intro d
  obtain ⟨H, h1, h2⟩ := h d
  by_cases hd : d = c
  · subst hd
    refine ⟨H.erase x, ?_, fun z => ?_⟩
    · rw [Finset.card_erase_of_mem (by simp [h2, hheld]), h1, hcpu, update_self, hy]
    · by_cases hz : z = x <;> simp [hz, hx, h2]
  · refine ⟨H, by rw [hcpu, update_of_ne hd, h1], fun z => ?_⟩
    by_cases hz : z = x
    · simp [hz, hx, h2, hheld, Ne.symm hd]
    · simp [hz, hx, h2]

theorem effect (h : Counted s) (he : Effect s c T t) : Counted t := by
  have lk : ∀ l v, Sum.elim (update s.lk l v) s.lock =
      update (holder s) (.inl l) v := fun l v => Sum.update_elim_inl.symm
  have lock : ∀ q v, Sum.elim s.lk (update s.lock q v) =
      update (holder s) (.inr q) v := fun q v => Sum.update_elim_inr.symm
  have twice : ∀ {c : κ} {x y : Cpu}, update (update s.cpu c x) c y =
      update s.cpu c y := update_idem ..
  cases he with
  | own hcur ho =>
    cases ho with
    | acquire hk hk' hfree => exact h.of_acquire (x := .inl _) hfree (lk _ _) rfl rfl
    | release hheld | waitReturn hk hheld | reap hk hheld | sleepRelease hheld =>
      exact h.of_release (x := .inl _) hheld (lk _ _) rfl rfl
    | forkAlloc hk hlock | exitZombie hk hlock | sleepEnter hlock =>
      exact h.of_acquire (x := .inr _) hlock (lock _ _) rfl rfl
    | forkFail hlock | forkReady hlock =>
      exact h.of_release (x := .inr _) hlock (lock _ _) rfl rfl
    | forkParent hfree =>
      refine h.of_eq ?_ rfl fun d => ?_
      · simp [← hfree]
      · simp
    | exitRelease hheld => exact h.of_release (x := .inl _) hheld (lk _ _) twice (by simp)
    | sleepSet => exact h.of_update rfl rfl rfl rfl
    | yield hlock => exact h.of_acquire (x := .inr _) hlock (lock _ _) twice (by simp)
    | _ => exact h.of_eq rfl rfl fun _ => rfl
  | switch hhand hs =>
    cases hs with
    | back hmode hframe hlock => exact h.of_release (x := .inr _) hlock (lock _ _) rfl rfl
    | look => exact h.of_update rfl rfl rfl rfl
    | dispatch hmode hlock => exact h.of_acquire (x := .inr _) hlock (lock _ _) twice (by simp)
    | schedulerBack hmode hlock =>
      exact h.of_release (x := .inr _) hlock (lock _ _) twice (by simp)
    | @swtchIn i =>
      obtain ⟨x, hx, hnoff⟩ := exists_swtchIn s c i
      exact hx ▸ h.of_update rfl rfl rfl hnoff
    | @swtchOut p i =>
      obtain ⟨g, x, hx, hnoff, -⟩ := exists_swtchOut s c p i
      exact hx ▸ h.of_update rfl rfl rfl hnoff
  | handles hh =>
    cases hh with
    | interrupt hhand hfree => exact h.of_acquire (x := .inl _) hfree (lk _ _) twice (by simp)
    | next | wake => exact h.of_update rfl rfl rfl rfl
    | done hhand hheld => exact h.of_release (x := .inl _) hheld (lk _ _) twice (by simp)

end Counted

theorem Inv.effect (h : Inv s) (he : Effect s c T t) : Inv t where
  handover := h.handover.move (by decide) (move_of_effect h he)
  thread := h.threads he
  child_used := (h.children he).1
  child_inj := (h.children he).2
  counted := h.counted.effect he

theorem inv_of_run {tr : List (Event κ)} (hrun : Run step (boot κ) tr s) : Inv s :=
  hrun.state_invariant inv_boot fun _ _ _ h hstep =>
    have ⟨_, _, he⟩ := effect_of_step hstep
    h.effect he

/-- `p` gives way on `c`, into or out of `swtch`: it is about to call `sched`,
`swtch` saves its context and loads that of the scheduler, or the scheduler has
not cleared `c->proc`. -/
def Switching (s : State κ) (c : κ) (p : Slot) : Prop :=
  (s.cpu c).mode = .exec p ∧ s.frame p = .code .exitRelease ∨
    (∃ k ≤ 2 * SwtchRegs, (s.cpu c).mode = .leave p k) ∨
    (s.cpu c).mode = .back ∧ (s.cpu c).p = p

omit [DecidableEq κ] in
theorem Inv.switching (h : Inv s) (hcur : (s.cpu c).proc = some p)
    (hp : (s.proc p).state ≠ .running) : s.lock p = some c ∧ Switching s c p := by
  have hstatus : (view s).status p ≠ .running := fun hr => hp (status_injective hr)
  obtain ⟨-, hlock⟩ := ((h.handover.cpu c).status_of_current hcur).resolve_left hstatus
  refine ⟨hlock, ?_⟩
  rcases (h.handover.cpu c).phase_of_stopped hcur hstatus with
    hphase | ⟨k, hk, hphase⟩ | ⟨hphase, hpick⟩
  · have hmode : (s.cpu c).mode = .exec p := phase_injective hphase
    refine .inl ⟨hmode, ?_⟩
    cases h.thread p with
    | code d k _ hframe _ hstate _ =>
      by_cases hk : k = .exitRelease
      · rw [hframe, hk]
      · exact absurd (by simpa [hk] using hstate) hp
    | back hcode hdead hstate hused hyield hexec => exact absurd (hexec c hmode).2 hp
    | dead hframe hstate hexec => exact absurd hmode (hexec c)
  · exact .inr (.inl ⟨k, hk, phase_injective hphase⟩)
  · exact .inr (.inr ⟨phase_injective hphase, hpick⟩)

/-- In every state that any interleaving reaches, on any number of CPUs. -/
theorem runs_on_one_cpu {tr : List (Event κ)} (hrun : Run step (boot κ) tr s) :
    (∀ p, (s.proc p).state = .running → ∃! c, (s.cpu c).proc = some p) ∧
    (∀ c p, (s.cpu c).proc = some p → (s.proc p).state ≠ .running →
      s.lock p = some c ∧ Switching s c p) ∧
    (∀ c k, (s.cpu c).mode = .enter k →
      s.saved (s.cpu c).p = SwtchRegs ∧ (s.proc (s.cpu c).p).state = .running) ∧
    ∀ e t, step s e = some t → ∀ p,
      ((s.proc p).state = .zombie ∨ (s.proc p).state = .used ∨ (s.proc p).state = .unused →
        ∀ c, (t.cpu c).proc = some p → (s.cpu c).proc = some p) ∧
      ((s.proc p).state ≠ .unused → (t.proc p).state = .unused →
        ∀ c, (s.cpu c).stack ≠ some p ∧ (t.cpu c).stack ≠ some p) := by
  have h := inv_of_run hrun
  have effect : ∀ {e t}, step s e = some t → Inv t ∧
      Handover.Move SwtchRegs SwtchSp (view s) (view t) := by
    intro e t hstep
    obtain ⟨c, T, he⟩ := effect_of_step hstep
    exact ⟨h.effect he, move_of_effect h he⟩
  refine ⟨fun p hp => ?_, fun c p hcur hp => h.switching hcur hp, fun c k hmode => ?_,
    fun e t hstep p => ⟨fun hp c hc => ?_, fun hp hp' c => ⟨?_, ?_⟩⟩⟩
  · exact h.handover.existsUnique_of_running (by simp [view, hp, status])
  · obtain ⟨-, hstatus, -, hsaved, -⟩ := (h.handover.cpu c).of_entering (k := k)
      (by simp [view, phase, hmode])
    exact ⟨hsaved, status_injective hstatus⟩
  · refine ((effect hstep).2.current_cases hc).resolve_right fun hready => ?_
    have hp'' : (s.proc p).state = .runnable := status_injective hready
    simp [hp''] at hp
  · refine h.handover.stack_ne (h.handover.off_cpu_of_discard (effect hstep).2 ?_ ?_) c
    · exact fun hfree => hp (status_injective hfree)
    · simp [view, hp', status]
  · have h' := (effect hstep).1
    exact h'.handover.stack_ne
      (h'.handover.off_cpu_of_absent (.inl (by simp [view, hp', status]))) c

/-- `init` is started on one of two CPUs, and an interrupt makes it yield; it is
still in `swtch`. -/
def yieldTrace : List (Event Bool) :=
  List.replicate 31 (.advance false true) ++ [.advance true true, .yield false] ++
    List.replicate 3 (.advance false true)

theorem runs_on_one_cpu_yield : ∃ s, Run step (boot Bool) yieldTrace s ∧
    (s.proc initproc).state ≠ .running ∧ (s.cpu false).proc = some initproc ∧
    s.lock initproc = some false ∧ Switching s false initproc := by
  obtain ⟨s, hrun, hs⟩ := Run.exists_of_any
    (P := fun s : State Bool => decide ((s.proc initproc).state ≠ .running ∧
      (s.cpu false).proc = some initproc))
    (by decide +kernel : (yieldTrace.foldlM step (boot Bool)).any _ = true)
  obtain ⟨hstate, hproc⟩ := of_decide_eq_true hs
  exact ⟨s, hrun, hstate, hproc, (runs_on_one_cpu hrun).2.1 false initproc hproc hstate⟩

end Xv6.Sched
