import Xv6.Sleep.Machine

/-!
# Locks, ends of pipes and sleepers

What holds in every state of the machine: a thread that is in a critical
section has its lock, a thread that is in a call on a pipe has a reference to
its end, and whoever sleeps does so in one of the loops.
-/

namespace Xv6.Sleep

open Proc (Slot)
open Lib

variable {s s' : State} {e : Event} {p q : Slot} {k : ℕ}

/-- The locks are where the threads and the interrupt handlers think they are. -/
structure Locked (s : State) : Prop where
  holds : ∀ p l, (s.frame p).holds = some l → s.lock l = some (.thread p)
  clock : s.clock ≠ none → s.lock .ticks = some .interrupt
  uart : s.uart ≠ none → s.lock .cons = some .interrupt

@[simp] theorem holds_resume (f : Frame) : f.resume.holds = f.holds := by
  cases f <;> rfl

@[simp] theorem holds_nextSlot (f : Frame) : f.nextSlot.holds = f.holds := by
  cases f <;> rfl

theorem holds_of_isIdle {f : Frame} (h : f.isIdle) : f.holds = none := by
  cases f <;> simp_all [Frame.isIdle, Frame.holds]

@[simp] theorem lock_locked (l : Loop) (t : BitVec 32) : (l.locked t).lock = l.lock := by
  cases l with
  | sysSleep id n ticks0 => cases ticks0 <;> rfl
  | _ => rfl

theorem Locked.goto (h : Locked s) {f : Frame} (hf : f.holds = (s.frame p).holds) :
    Locked (s.goto p f) := by
  refine ⟨fun q l hq => ?_, h.clock, h.uart⟩
  rw [State.goto_frame] at hq
  split_ifs at hq with hqp
  · rw [hqp]
    exact h.holds p l (hf ▸ hq)
  · exact h.holds q l hq

theorem Locked.acquire (h : Locked s) {l : Lock} {f : Frame} (hfree : s.lock l = none)
    (hf : f.holds = some l) :
    Locked ((s.setLock l (some (.thread p))).goto p f) := by
  constructor
  · intro q m hq
    have hq' := h.holds q m
    grind
  · have hc := h.clock
    grind
  · have hu := h.uart
    grind

theorem Locked.release (h : Locked s) {l : Lock} {f : Frame} (hp : (s.frame p).holds = some l)
    (hf : f.holds = none) : Locked ((s.setLock l none).goto p f) := by
  have hl : s.lock l = some (.thread p) := h.holds p l hp
  constructor
  · intro q m hq
    have hq' := h.holds q m
    grind
  · have hc := h.clock
    grind
  · have hu := h.uart
    grind

theorem Locked.of_eq (h : Locked s) (hf : s'.frame = s.frame) (hl : s'.lock = s.lock)
    (hc : s'.clock = s.clock) (hu : s'.uart = s.uart) : Locked s' := by
  refine ⟨fun q l hq => ?_, ?_, ?_⟩
  · rw [hl]
    exact h.holds q l (hf ▸ hq)
  · rw [hc, hl]
    exact h.clock
  · rw [hu, hl]
    exact h.uart

theorem Locked.ret (h : Locked s) {l : Lock} (hp : (s.frame p).holds = some l) (id : ℕ) (v : ℤ) :
    Locked (s.ret p l id v) := by
  have hfin : Locked (s.finish l id v) := by
    refine h.of_eq ?_ ?_ ?_ ?_ <;> cases l <;> rfl
  exact (hfin.release (by simpa using hp) rfl).of_eq rfl rfl rfl rfl

theorem Locked.effect (h : Locked s) (he : Effect s e s') : Locked s' := by
  cases he with
  | life | yield | pipealloc | consoleintr => exact h.of_eq rfl rfl rfl rfl
  | schedule hrun => exact (h.goto (holds_resume _)).of_eq rfl rfl rfl rfl
  | wake hf => exact (h.goto (holds_nextSlot _)).of_eq rfl rfl rfl rfl
  | pipewrite hp hend | piperead hp hend | pipeclose hp hend hunused | consoleread hp
  | sysSleep hp =>
    exact (h.goto (by rw [holds_of_isIdle hp.2.2]; rfl)).of_eq rfl rfl rfl rfl
  | acquire hf hfree => exact h.acquire hfree (by simp [Frame.holds])
  | giveUp hf hk => exact h.ret (by simp [hf, Frame.holds]) _ _
  | brokenPipe hf hread | tickRet hf | writeDone hf hj | readDone hf hj =>
    exact h.ret (by rw [hf]; rfl) _ _
  | consRet hf =>
    exact (h.ret (l := .cons) (by rw [hf]; rfl) 0 0).of_eq rfl rfl rfl rfl
  | writeGo hf hread hk | writeEnd hf | writeFull hf hfull | writeFault hf | readGo hf hgo
  | readEnd hf | fullDone hf hj => exact h.goto (by rw [hf]; rfl)
  | doze hf hk hlock => exact h.goto (by rw [hf]; simp [Frame.holds, hlock])
  | put hf hroom hch | take hf hne hok | takeFault hf hne hok | consNext hf =>
    exact (h.goto (by rw [hf]; rfl)).of_eq rfl rfl rfl rfl
  | sleep hf =>
    exact (h.release (f := .asleep _) (by rw [hf]; rfl) rfl).of_eq rfl rfl rfl rfl
  | closeAcquire hf hfree =>
    exact (h.acquire (f := .closeWake _ _ 0) hfree rfl).of_eq rfl rfl rfl rfl
  | closeDone hf hj => exact h.release (by rw [hf]; rfl) rfl
  | clockintr hfree =>
    refine ⟨fun q l hq => ?_, fun _ => by simp, fun hu => ?_⟩
    · have := h.holds q l hq
      grind
    · simpa using h.uart hu
  | consoleWake hfree =>
    refine ⟨fun q l hq => ?_, fun hc => ?_, fun _ => by simp⟩
    · have := h.holds q l hq
      grind
    · simpa using h.clock hc
  | clockWake hj => exact ⟨h.holds, fun _ => h.clock (by simp [hj]), h.uart⟩
  | uartWake hj => exact ⟨h.holds, h.clock, fun _ => h.uart (by simp [hj])⟩
  | clockDone hj =>
    have hl := h.clock hj
    refine ⟨fun q l hq => ?_, by simp, fun hu => ?_⟩
    · have := h.holds q l hq
      grind
    · simpa using h.uart hu
  | uartDone hj =>
    have hl := h.uart hj
    refine ⟨fun q l hq => ?_, fun hc => ?_, by simp⟩
    · have := h.holds q l hq
      grind
    · simpa using h.clock hc

/-! ## The ends of a pipe -/

/-- Threads in a call on a pipe have its end open, and an end is closed once. -/
structure Ends (s : State) : Prop where
  uses : ∀ p k w, (s.frame p).Uses k w → s.ends k w
  isOpen : ∀ k w, s.ends k w → (s.pipe k).isOpen w
  closing : ∀ p k w, s.frame p = .closeAcquire k w → s.ends k w = false ∧ (s.pipe k).isOpen w
  closer : ∀ p q k w, s.frame p = .closeAcquire k w → s.frame q = .closeAcquire k w → p = q

/-- The two frames belong to the same call on a pipe, if any. -/
def Frame.SameUse (f g : Frame) : Prop :=
  (∀ k w, f.Uses k w → g.Uses k w) ∧ ∀ k w, f = .closeAcquire k w → g = .closeAcquire k w

theorem sameUse_resume (f : Frame) : f.resume.SameUse f := by
  cases f with
  | asleep l => cases l <;> exact ⟨fun k w h => by cases w <;> exact h, nofun⟩
  | _ => exact ⟨fun _ _ h => h, fun _ _ h => h⟩

theorem sameUse_nextSlot (f : Frame) : f.nextSlot.SameUse f := by
  cases f <;> exact ⟨fun k w h => by cases w <;> exact h, by simp [Frame.nextSlot]⟩

theorem uses_locked {l : Loop} {t : BitVec 32} {w : Bool}
    (h : (Frame.test (l.locked t)).Uses k w) : (Frame.acquire l).Uses k w := by
  cases l with
  | sysSleep id n ticks0 => cases ticks0 <;> cases w <;> exact h
  | _ => cases w <;> exact h

theorem Ends.of_eq (h : Ends s) (hf : s'.frame = s.frame) (he : s'.ends = s.ends)
    (hp : ∀ k w, (s'.pipe k).isOpen w = (s.pipe k).isOpen w) : Ends s' := by
  refine ⟨fun p k w hu => ?_, fun k w hk => ?_, fun p k w hc => ?_, fun p q k w hc hd => ?_⟩
  · rw [he]
    exact h.uses p k w (hf ▸ hu)
  · rw [hp]
    exact h.isOpen k w (he ▸ hk)
  · rw [he, hp]
    exact h.closing p k w (hf ▸ hc)
  · exact h.closer p q k w (hf ▸ hc) (hf ▸ hd)

theorem Ends.goto (h : Ends s) {f : Frame} (hf : f.SameUse (s.frame p)) : Ends (s.goto p f) := by
  refine ⟨fun q k w hu => ?_, h.isOpen, fun q k w hc => ?_, fun q r k w hc hd => ?_⟩
  · rw [State.goto_frame] at hu
    split_ifs at hu with hq
    · exact h.uses p k w (hf.1 k w hu)
    · exact h.uses q k w hu
  · rw [State.goto_frame] at hc
    split_ifs at hc with hq
    · exact h.closing p k w (hf.2 k w hc)
    · exact h.closing q k w hc
  · have hback : ∀ q, (s.goto p f).frame q = .closeAcquire k w → s.frame q = .closeAcquire k w := by
      intro q hq
      rw [State.goto_frame] at hq
      split_ifs at hq with hqp
      · rw [hqp]
        exact hf.2 k w hq
      · exact hq
    exact h.closer q r k w (hback q hc) (hback r hd)

theorem sameUse_of_not_uses {f g : Frame} (hf : ∀ k w, ¬f.Uses k w)
    (hc : ∀ k w, f ≠ .closeAcquire k w) : f.SameUse g :=
  ⟨fun k w h => absurd h (hf k w), fun k w h => absurd h (hc k w)⟩

theorem sameUse_idle (g : Frame) : Frame.idle.SameUse g :=
  sameUse_of_not_uses (fun _ w h => by cases w <;> exact h) nofun

theorem isOpen_close (P : Pipe) (v w : Bool) :
    (P.close v).isOpen w = if w = v then false else P.isOpen w := by
  cases v <;> cases w <;> rfl

theorem isOpen_init (P : Pipe) (w : Bool) : P.init.isOpen w := by
  cases w <;> rfl

theorem Ends.setPipe (h : Ends s) {P : Pipe} (hP : ∀ w, P.isOpen w = (s.pipe k).isOpen w) :
    Ends (s.setPipe k P) := by
  refine h.of_eq rfl rfl fun l w => ?_
  rw [State.setPipe_pipe]
  split_ifs with hl
  · rw [hl]
    exact hP w
  · rfl

theorem Ends.ret (h : Ends s) (p : Slot) (l : Lock) (id : ℕ) (v : ℤ) : Ends (s.ret p l id v) := by
  have hfin : Ends (s.finish l id v) := by
    cases l with
    | pipe k => exact h.setPipe fun _ => rfl
    | cons | ticks => exact h
  exact (hfin.goto (p := p) (sameUse_idle _)).of_eq rfl rfl fun _ _ => rfl

theorem Ends.enter (h : Ends s) {f : Frame} {w : Bool} (hend : s.ends k w)
    (hf : ∀ l v, f.Uses l v → l = k ∧ v = w) (hc : ∀ l v, f ≠ .closeAcquire l v) :
    Ends (s.goto p f) := by
  refine ⟨fun q l v hu => ?_, h.isOpen, fun q l v hq => ?_, fun q r l v hq hr => ?_⟩
  · rw [State.goto_frame] at hu
    split_ifs at hu
    · obtain ⟨rfl, rfl⟩ := hf l v hu
      exact hend
    · exact h.uses q l v hu
  · have := h.closing q l v
    grind
  · have := h.closer q r l v
    grind

theorem Ends.pipealloc (h : Ends s) (hread : (s.pipe k).readopen = false)
    (hwrite : (s.pipe k).writeopen = false) :
    Ends { s.setPipe k (s.pipe k).init with ends := Function.update s.ends k fun _ => true } := by
  have hshut : ∀ w, (s.pipe k).isOpen w = false := by
    intro w
    cases w
    · exact hread
    · exact hwrite
  refine ⟨fun p l w hu => ?_, fun l w hl => ?_, fun p l w hc => ?_, h.closer⟩
  · by_cases hlk : l = k
    · subst hlk
      simp
    · simpa [hlk] using h.uses p l w hu
  · by_cases hlk : l = k
    · subst hlk
      simpa using isOpen_init _ w
    · simpa [hlk] using h.isOpen l w (by simpa [hlk] using hl)
  · -- an end that is about to be closed is open, so that its page is not free
    have hlk : l ≠ k := by
      rintro rfl
      simpa [hshut w] using (h.closing p l w hc).2
    simpa [hlk] using h.closing p l w hc

theorem Ends.pipeclose (h : Ends s) {w : Bool} (hend : s.ends k w)
    (hunused : ∀ q, ¬(s.frame q).Uses k w) :
    Ends ({ s with ends := Function.update s.ends k (Function.update (s.ends k) w false) }.goto p
      (.closeAcquire k w)) := by
  set ends := Function.update s.ends k (Function.update (s.ends k) w false) with hends
  have hself : ends k w = false := by simp [hends]
  have hother : ∀ l v, ¬(l = k ∧ v = w) → ends l v = s.ends l v := by
    intro l v hne
    by_cases hl : l = k
    · subst hl
      have hv : v ≠ w := fun hv => hne ⟨rfl, hv⟩
      simp [hends, hv]
    · simp [hends, hl]
  have hsub : ∀ l v, ends l v = true → s.ends l v = true := by
    intro l v hl
    by_cases hlv : l = k ∧ v = w
    · rw [hlv.1, hlv.2]
      exact hend
    · rwa [← hother l v hlv]
  refine ⟨fun q l v hu => ?_, fun l v hl => h.isOpen l v (hsub l v hl), fun q l v hq => ?_,
    fun q r l v hq hr => ?_⟩
  · rw [State.goto_frame] at hu
    split_ifs at hu with hqp
    · cases v <;> exact hu.elim
    · have hlv : ¬(l = k ∧ v = w) := by
        rintro ⟨rfl, rfl⟩
        exact hunused q hu
      change ends l v = true
      rw [hother l v hlv]
      exact h.uses q l v hu
  · rw [State.goto_frame] at hq
    change ends l v = false ∧ (s.pipe l).isOpen v
    split_ifs at hq with hqp
    · cases hq
      exact ⟨hself, h.isOpen k w hend⟩
    · obtain ⟨hl, hopen⟩ := h.closing q l v hq
      refine ⟨?_, hopen⟩
      by_contra hne
      exact absurd (hsub l v (by simpa using hne)) (by simp [hl])
  · have hclash : ∀ q, s.frame q ≠ .closeAcquire k w := fun q hq => by
      simpa [hend] using (h.closing q k w hq).1
    have := h.closer q r l v
    have := hclash q
    have := hclash r
    grind

theorem Ends.closeAcquire (h : Ends s) {w : Bool} (hp : s.frame p = .closeAcquire k w)
    {lock : Lock → Option Agent} :
    Ends (({ s with lock := lock }.goto p (.closeWake k w 0)).setPipe k ((s.pipe k).close w)) := by
  have hend : s.ends k w = false := (h.closing p k w hp).1
  have hpipe : ∀ l v, ¬(l = k ∧ v = w) →
      ((({ s with lock := lock }.goto p (.closeWake k w 0)).setPipe k
        ((s.pipe k).close w)).pipe l).isOpen v = (s.pipe l).isOpen v := by
    intro l v hne
    by_cases hl : l = k
    · subst hl
      have hv : v ≠ w := fun hv => hne ⟨rfl, hv⟩
      simp [isOpen_close, hv]
    · simp [hl]
  refine ⟨fun q l v hu => ?_, fun l v hl => ?_, fun q l v hq => ?_, fun q r l v hq hr => ?_⟩
  · rw [State.setPipe_frame, State.goto_frame] at hu
    split_ifs at hu
    · cases v <;> exact hu.elim
    · exact h.uses q l v hu
  · rw [hpipe l v (by rintro ⟨rfl, rfl⟩; simp_all)]
    exact h.isOpen l v hl
  · rw [State.setPipe_frame, State.goto_frame] at hq
    split_ifs at hq with hqp
    rw [hpipe l v (by rintro ⟨rfl, rfl⟩; exact hqp (h.closer q p l v hq hp))]
    exact h.closing q l v hq
  · rw [State.setPipe_frame, State.goto_frame] at hq hr
    split_ifs at hq hr
    exact h.closer q r l v hq hr

theorem Ends.effect (h : Ends s) (he : Effect s e s') : Ends s' := by
  have hsame : ∀ {p : Slot} {f g : Frame}, s.frame p = g →
      (∀ k w, f.Uses k w → g.Uses k w) → (∀ k w, f ≠ .closeAcquire k w) → Ends (s.goto p f) :=
    fun hg hu hc => h.goto ⟨fun k w hf => hg ▸ hu k w hf, fun k w hf => absurd hf (hc k w)⟩
  cases he with
  | life | yield | consoleintr | clockintr | consoleWake | clockWake | uartWake | clockDone
  | uartDone => exact h.of_eq rfl rfl fun _ _ => rfl
  | schedule hrun => exact (h.goto (sameUse_resume _)).of_eq rfl rfl fun _ _ => rfl
  | wake hf => exact (h.goto (sameUse_nextSlot _)).of_eq rfl rfl fun _ _ => rfl
  | pipealloc hread hwrite hfree => exact h.pipealloc hread hwrite
  | @pipewrite p k src n hp hend =>
    have hstart : Ends (s.setPipe k ((s.pipe k).start ⟨s.calls, k, src, n⟩)) :=
      h.setPipe fun _ => rfl
    refine (hstart.enter (p := p) (w := true) hend ?_ (by nofun)).of_eq rfl rfl fun _ _ => rfl
    rintro l (_ | _) hl
    · exact hl.elim
    · exact ⟨hl.symm, rfl⟩
  | @piperead p k dst n hp hend =>
    refine (h.enter (p := p) (w := false) hend ?_ (by nofun)).of_eq rfl rfl fun _ _ => rfl
    rintro l (_ | _) hl
    · exact ⟨hl.symm, rfl⟩
    · exact hl.elim
  | pipeclose hp hend hunused => exact h.pipeclose hend hunused
  | consoleread hp | sysSleep hp =>
    refine (h.goto (sameUse_of_not_uses (fun k w hu => ?_) (by nofun))).of_eq rfl rfl fun _ _ => rfl
    cases w <;> exact hu
  | acquire hf hfree =>
    exact (hsame hf (fun k w => uses_locked) (by nofun)).of_eq rfl rfl fun _ _ => rfl
  | giveUp | brokenPipe | tickRet | writeDone | readDone => exact h.ret _ _ _ _
  | consRet hf => exact (h.ret _ .cons 0 0).of_eq rfl rfl fun _ _ => rfl
  | writeGo hf | writeEnd hf | writeFull hf | writeFault hf | readGo hf | readEnd hf
  | fullDone hf => exact hsame hf (fun k w hu => by cases w <;> exact hu) (by nofun)
  | @doze p l l' hf hk hlock hwrite hread =>
    refine hsame hf (fun k w hu => ?_) (by nofun)
    cases l' with
    | piperead c =>
      rw [(hread c rfl).1]
      cases w <;> exact hu
    | pipewrite c i => exact absurd rfl (hwrite c i)
    | consoleread c n => cases w <;> exact hu.elim
    | sysSleep id n ticks0 => cases w <;> exact hu.elim
  | put hf | take hf | takeFault hf =>
    refine Ends.goto (h.setPipe ?_) ⟨fun k w hu => ?_, ?_⟩
    · exact fun _ => rfl
    · rw [State.setPipe_frame, hf]
      cases w <;> exact hu
    · exact nofun
  | consNext hf =>
    exact (hsame hf (fun k w hu => by cases w <;> exact hu) (by nofun)).of_eq rfl rfl fun _ _ => rfl
  | @sleep p l hf =>
    refine (hsame hf (f := .asleep l) (fun k w hu => ?_) (by nofun)).of_eq rfl rfl fun _ _ => rfl
    cases l <;> cases w <;> exact hu
  | closeAcquire hf hfree => exact h.closeAcquire hf
  | closeDone hf hj => exact (h.goto (sameUse_idle _)).of_eq rfl rfl fun _ _ => rfl

/-! ## Who is asleep -/

/-- A step of the process machine puts to sleep only in `wait`. -/
theorem sleeping_of_effect {l l' : Proc.State} {e : Proc.Event} (he : Proc.Effect l e l')
    (hsleep : ∀ p k, e ≠ .sleep p k) (hq : (l'.proc q).state = .sleeping) :
    ((l.proc q).state = .sleeping ∧ (l'.proc q).chan = (l.proc q).chan) ∨
      (l'.proc q).chan = some (.proc q) ∧ ∃ addr, l.pc q = .waitSleep addr := by
  cases he with
  | @waitSleep p ok addr hrun hpc =>
    by_cases hqp : q = p
    · subst hqp
      exact .inr ⟨by simp [Proc.waitSleep, Proc.sleep], addr, hpc⟩
    · exact .inl (by simpa [Proc.waitSleep, hqp] using hq)
  | sleep => exact absurd rfl (hsleep _ _)
  | initWakeup hrun hpc | parentWakeup hrun hpc =>
    left
    grind [Proc.wakeupAt, Proc.wakeup]
  | _ =>
    left
    grind [Proc.forkFail, Proc.forkAlloc, Proc.forkRunnable, Proc.exitZombie,
      Proc.reap, Proc.kill, Proc.wakeup, Proc.allocproc, Proc.freeproc, Proc.State.setProc]

/-- Whoever sleeps does so on the channel of its loop, or in `wait`. -/
def Sleepers (s : State) : Prop :=
  ∀ p, (s.life.proc p).state = .sleeping →
    (∃ l, s.frame p = .asleep l ∧ (s.life.proc p).chan = some l.chan) ∨
      (s.life.proc p).chan = some (.proc p)

theorem Sleepers.of_awake (h : Sleepers s)
    (hlife : ∀ q, (s'.life.proc q).state = .sleeping →
      (s.life.proc q).state = .sleeping ∧ (s'.life.proc q).chan = (s.life.proc q).chan)
    (hframe : ∀ q, (s'.life.proc q).state = .sleeping →
      s'.frame q = s.frame q ∨ ∀ l, s.frame q ≠ .asleep l) : Sleepers s' := by
  intro q hq
  obtain ⟨hsleep, hchan⟩ := hlife q hq
  rw [hchan]
  rcases h q hsleep with ⟨l, hl, hc⟩ | hc
  · rcases hframe q hq with heq | hne
    · exact .inl ⟨l, heq ▸ hl, hc⟩
    · exact absurd hl (hne l)
  · exact .inr hc

theorem Sleepers.goto (h : Sleepers s) {f : Frame} (hp : ∀ l, s.frame p ≠ .asleep l) :
    Sleepers (s.goto p f) := by
  refine h.of_awake (fun q hq => ⟨hq, rfl⟩) fun q _ => ?_
  rw [State.goto_frame]
  split_ifs with hqp
  · exact .inr (hqp ▸ hp)
  · exact .inl rfl

theorem Sleepers.of_eq (h : Sleepers s) (hl : s'.life = s.life) (hf : s'.frame = s.frame) :
    Sleepers s' := by
  refine h.of_awake (fun q hq => ?_) fun q _ => .inl (by rw [hf])
  rw [hl] at hq ⊢
  exact ⟨hq, rfl⟩

theorem sleeping_wakeup {P : Proc} {chan : Option Chan} (h : (P.wakeup chan).state = .sleeping) :
    P.state = .sleeping ∧ (P.wakeup chan).chan = P.chan := by
  unfold Proc.wakeup at h ⊢
  split_ifs at h ⊢ with hc
  exact ⟨h, rfl⟩

theorem Sleepers.wakeupAt (h : Sleepers s) (chan : Option Chan) (j : Slot) :
    Sleepers { s with life := Proc.wakeupAt s.life p chan j } := by
  refine h.of_awake (fun q hq => ?_) fun q _ => .inl rfl
  change ((Proc.wakeupAt s.life p chan j).proc q).state = .sleeping at hq
  change _ ∧ ((Proc.wakeupAt s.life p chan j).proc q).chan = _
  unfold Proc.wakeupAt at hq ⊢
  by_cases hjp : j = p
  · rw [if_pos hjp] at hq ⊢
    exact ⟨hq, rfl⟩
  · rw [if_neg hjp, Proc.State.setProc_proc] at hq ⊢
    split_ifs at hq ⊢ with hqj
    · rw [hqj]
      exact sleeping_wakeup hq
    · exact ⟨hq, rfl⟩

theorem Sleepers.handler (h : Sleepers s) (chan : Option Chan) (j : Slot) :
    Sleepers { s with life := s.life.setProc j ((s.life.proc j).wakeup chan) } := by
  refine h.of_awake (fun q hq => ?_) fun q _ => .inl rfl
  change ((s.life.setProc j _).proc q).state = .sleeping at hq
  change _ ∧ ((s.life.setProc j _).proc q).chan = _
  rw [Proc.State.setProc_proc] at hq ⊢
  split_ifs at hq ⊢ with hqj
  · rw [hqj]
    exact sleeping_wakeup hq
  · exact ⟨hq, rfl⟩

theorem Sleepers.ret (h : Sleepers s) {l : Lock} (hp : (s.frame p).holds = some l) (id : ℕ)
    (v : ℤ) : Sleepers (s.ret p l id v) := by
  have hfin : Sleepers (s.finish l id v) := by
    refine h.of_eq ?_ ?_ <;> cases l <;> rfl
  have hmove : Sleepers ((s.finish l id v).goto p .idle) := by
    refine hfin.goto fun m hm => ?_
    rw [State.finish_frame] at hm
    simp [hm, Frame.holds] at hp
  refine hmove.of_awake (fun q hq => ?_) fun q _ => .inl rfl
  change ((s.life.ret p v).proc q).state = .sleeping at hq
  change ((s.finish l id v).life.proc q).state = .sleeping ∧ ((s.life.ret p v).proc q).chan =
    ((s.finish l id v).life.proc q).chan
  rw [State.finish_life]
  rw [Proc.State.ret_proc] at hq ⊢
  split_ifs at hq ⊢ with hqp
  · rw [hqp]
    exact ⟨hq, rfl⟩
  · exact ⟨hq, rfl⟩

theorem schedule_proc (l : Proc.State) (p q : Slot) :
    (q ≠ p → (Proc.schedule l p).proc q = l.proc q) ∧
      ((Proc.schedule l p).proc p).state = .running := by
  unfold Proc.schedule
  split <;> simp +contextual

theorem Sleepers.effect (h : Sleepers s) (he : Effect s e s') : Sleepers s' := by
  have hmove : ∀ {p : Slot} {f g : Frame}, s.frame p = g → (∀ l, g ≠ .asleep l) →
      Sleepers (s.goto p f) := fun hf hg => h.goto fun l hl => hg l (hf ▸ hl)
  have hidle : ∀ {p : Slot} {f : Frame}, Free s p → Sleepers (s.goto p f) := by
    intro p f hp
    refine h.goto fun l hl => ?_
    simpa [hl, Frame.isIdle] using hp.2.2
  cases he with
  | @life e l hstep hidle hsched hsleep =>
    intro q hq
    rcases sleeping_of_effect (Proc.effect_of_step hstep) hsleep hq with ⟨hold, hchan⟩ | ⟨hchan, -⟩
    · change (∃ m, s.frame q = .asleep m ∧ (l.proc q).chan = some m.chan) ∨ _
      rw [hchan]
      exact h q hold
    · exact .inr hchan
  | @schedule p hrun =>
    refine h.of_awake (fun q hq => ?_) fun q hq => ?_
    all_goals
      have hqp : q ≠ p := by
        rintro rfl
        have := (schedule_proc s.life q q).2
        exact absurd (hq.symm.trans this) (by decide)
    · have hsame := (schedule_proc s.life p q).1 hqp
      change ((Proc.schedule s.life p).proc q).state = .sleeping at hq
      change _ ∧ ((Proc.schedule s.life p).proc q).chan = _
      rw [hsame] at hq ⊢
      exact ⟨hq, rfl⟩
    · exact .inl (by simp [hqp])
  | @yield p hrun =>
    refine h.of_awake (fun q hq => ?_) fun q _ => .inl rfl
    change ((s.life.setProc p _).proc q).state = .sleeping at hq
    change _ ∧ ((s.life.setProc p _).proc q).chan = _
    rw [Proc.State.setProc_proc] at hq ⊢
    split_ifs at hq ⊢ with hqp
    exact ⟨hq, rfl⟩
  | pipealloc | consoleintr | clockintr | consoleWake | clockDone | uartDone =>
    exact h.of_eq rfl rfl
  | pipewrite hp | piperead hp | pipeclose hp | consoleread hp | sysSleep hp =>
    exact (hidle hp).of_eq rfl rfl
  | acquire hf | writeGo hf | writeEnd hf | writeFull hf | writeFault hf | put hf | readGo hf
  | take hf | takeFault hf | readEnd hf | consNext hf | fullDone hf | closeAcquire hf
  | closeDone hf => exact (hmove hf (by nofun)).of_eq rfl rfl
  | doze hf => exact hmove hf nofun
  | giveUp hf | brokenPipe hf | tickRet hf | writeDone hf | readDone hf =>
    exact h.ret (by rw [hf]; rfl) _ _
  | consRet hf => exact (h.ret (l := .cons) (by rw [hf]; rfl) 0 _).of_eq rfl rfl
  | @sleep p l hf =>
    intro q hq
    by_cases hqp : q = p
    · subst hqp
      exact .inl ⟨l, by simp [State.sleep], by simp [State.sleep, Proc.sleep]⟩
    · have hproc : ((s.sleep p l).life.proc q) = s.life.proc q := by simp [State.sleep, hqp]
      have hframe : (s.sleep p l).frame q = s.frame q := by simp [State.sleep, hqp]
      rw [hproc] at hq ⊢
      rw [hframe]
      exact h q hq
  | @wake p j chan hf =>
    refine Sleepers.goto (h.wakeupAt (some chan) j) fun l hl => ?_
    change s.frame p = .asleep l at hl
    simp [hl, Frame.waking] at hf
  | clockWake hj => exact (h.handler (some chanTicks) _).of_eq rfl rfl
  | uartWake hj => exact (h.handler (some chanCons) _).of_eq rfl rfl

/-! ## Every run -/

structure Inv (s : State) : Prop where
  locked : Locked s
  ends : Ends s
  sleepers : Sleepers s

theorem inv_boot (data : ℕ → ℕ → UInt8) (buf : ℕ → UInt8) : Inv (boot data buf) where
  locked := ⟨nofun, fun h => absurd rfl h, fun h => absurd rfl h⟩
  ends := ⟨fun _ _ w h => by cases w <;> exact h.elim, nofun, nofun, nofun⟩
  sleepers := by
    intro p hp
    simp only [boot, Proc.boot, Function.update_apply] at hp
    split_ifs at hp
    simp [Proc.zero] at hp

theorem Inv.effect (h : Inv s) (he : Effect s e s') : Inv s' :=
  ⟨h.locked.effect he, h.ends.effect he, h.sleepers.effect he⟩

theorem inv_of_run {data : ℕ → ℕ → UInt8} {buf : ℕ → UInt8} {tr : List Event}
    (h : Run step (boot data buf) tr s) : Inv s :=
  h.state_invariant (inv_boot data buf) fun _ _ _ ht he => ht.effect (effect_of_step he)

end Xv6.Sleep
