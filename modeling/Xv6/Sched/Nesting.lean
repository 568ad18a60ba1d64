import Xv6.Lib.Run
import Xv6.Proc.Basic

/-!
# Interrupts off, once for each lock

`push_off` and `pop_off` of `spinlock.c`, with `acquire` and `release` on top of them, and
the switches of `proc.c` between a process and the scheduler of a CPU.  `noff` and
`intena` are kept for each CPU; what they describe is the thread that runs there.
-/

namespace Xv6.Nesting

open Lib
open Function (update update_self update_of_ne)

/-- `noff` and `intena` of `struct cpu`, and the bit `SIE` of `sstatus`. -/
structure Cpu where
  noff : ℕ
  intena : Bool
  sie : Bool

namespace Cpu

/-- `push_off` behind `old = intr_get()` -/
def pushOff (x : Cpu) (old : Bool) : Cpu where
  noff := x.noff + 1
  intena := if x.noff = 0 then old else x.intena
  sie := false

def popOff (x : Cpu) : Except Panic Cpu :=
  if x.sie then .error "pop_off - interruptible"
  else if x.noff < 1 then .error "pop_off"
  else .ok { x with
    noff := x.noff - 1
    sie := if x.noff - 1 = 0 ∧ x.intena then true else x.sie }

end Cpu

/-- A spin lock: `p->lock`, or another one. -/
inductive Lk (τ : Type)
  | proc (p : τ)
  | other (k : ℕ)
deriving DecidableEq

/-- Where a thread is. -/
inductive Pc (τ : Type)
  | code
  /-- In `push_off`, called by `acquire` for a lock or not, with the value of `old`. -/
  | pushing (old : Bool) (l : Option (Lk τ))
  | spinning (l : Lk τ)
  /-- In `sched`, at `swtch` or right behind it, with the value of `intena`. -/
  | sched (intena : Bool)
  /-- A new thread, which is going to start in `forkret`. -/
  | forkret
deriving DecidableEq

/-- The kernel thread of a process, or the thread of a scheduler.  `saved` is where the
interrupted code is while the thread is in `kerneltrap`.  The other fields are
bookkeeping: the calls of `push_off` that wait for their `pop_off`, the locks that wait
for their `release`, and what `intr_get()` was in the outermost `push_off`.  For a thread
that starts with `p->lock` from another one, as `forkret` and the scheduler do, `own` is
what that one leaves in `intena`. -/
structure Thread (τ : Type) where
  pc : Pc τ
  saved : Option (Pc τ)
  pushes : ℕ
  held : List (Lk τ)
  own : Bool

inductive Agent (κ τ : Type)
  | proc (p : τ)
  | sched (c : κ)
deriving DecidableEq

/-- `lock l` is `lk->cpu` while the lock is held. -/
structure State (κ τ : Type) where
  cpu : κ → Cpu
  running : κ → Agent κ τ
  thread : Agent κ τ → Thread τ
  state : τ → ProcState
  lock : Lk τ → Option κ

/-- What the thread on a CPU does. -/
inductive Op (τ : Type)
  /-- Into `push_off`, or into `acquire`. -/
  | enter (l : Option (Lk τ))
  /-- `push_off` from `intr_off()` on, and the check of `acquire`. -/
  | push
  /-- `acquire` gets the lock. -/
  | take
  | popOff
  | release (l : Lk τ)
  | intrOn
  | intrOff
  /-- An interrupt in kernel code. -/
  | trap
  | sret
  /-- `mycpu()->intena = intena` at the end of `sched` -/
  | schedBack

inductive Event (κ τ : Type)
  | exec (c : κ) (op : Op τ)
  /-- `sched`, up to `swtch`, with `p->state` changed to `st`. -/
  | sched (c : κ) (st : ProcState)
  /-- `swtch` in `scheduler` -/
  | swtch (c : κ) (p : τ)
  | wakeup (p : τ)
  | fork (p : τ)

namespace Thread

variable {τ : Type}

def isSpinning (T : Thread τ) : Bool :=
  match T.pc with
  | .spinning _ => true
  | _ => false

def depth (T : Thread τ) : ℕ := T.pushes + T.held.length + T.isSpinning.toNat

/-- In `swtch`, or at the head of the loop of `scheduler`. -/
def rest (T : Thread τ) : Thread τ := { T with pc := .code, saved := none, pushes := 0, held := [] }

def new : Thread τ := ⟨.forkret, none, 0, [], false⟩

/-- The thread of `p` gets a CPU, and `p->lock` with it. -/
def resume (T : Thread τ) (p : τ) (intena : Bool) : Thread τ :=
  match T.pc with
  | .forkret => { T with pc := .code, held := [.proc p], own := intena }
  | _ => { T with held := [.proc p] }

theorem resume_of_sched {T : Thread τ} {i : Bool} (h : T.pc = .sched i) (p : τ) (intena : Bool) :
    T.resume p intena = { T with held := [.proc p] } := by
  unfold resume
  split
  · simp_all
  · rfl

theorem resume_of_forkret {T : Thread τ} (h : T.pc = .forkret) (p : τ) (intena : Bool) :
    T.resume p intena = { T with pc := .code, held := [.proc p], own := intena } := by
  simp [resume, h]

end Thread

section machine

variable {κ τ : Type} [DecidableEq κ] [DecidableEq τ]

/-- A step of thread `T` on CPU `c`. -/
def exec (c : κ) (x : Cpu) (T : Thread τ) (lock : Lk τ → Option κ) :
    Op τ → Option (Cpu × Thread τ × (Lk τ → Option κ))
  | .enter l => if T.pc = .code then some (x, { T with pc := .pushing x.sie l }, lock) else none
  | .push =>
    match T.pc with
    | .pushing old l =>
      let own := if T.depth = 0 then old else T.own
      match l with
      | none => some (x.pushOff old,
          { T with pc := .code, pushes := T.pushes + 1, own := own }, lock)
      | some l =>
        -- `panic("acquire")`
        if lock l = some c then none
        else some (x.pushOff old, { T with pc := .spinning l, own := own }, lock)
    | _ => none
  | .take =>
    match T.pc with
    | .spinning l =>
      if lock l = none then
        some (x, { T with pc := .code, held := l :: T.held }, update lock l (some c))
      else none
    | _ => none
  | .popOff =>
    if T.pc = .code ∧ 0 < T.pushes then
      x.popOff.toOption.map fun y => (y, { T with pushes := T.pushes - 1 }, lock)
    else none
  | .release l =>
    if T.pc = .code ∧ l ∈ T.held ∧ lock l = some c then
      x.popOff.toOption.map fun y => (y, { T with held := T.held.erase l }, update lock l none)
    else none
  | .intrOn =>
    if T.pc = .code ∧ T.depth = 0 ∧ T.saved = none then some ({ x with sie := true }, T, lock)
    else none
  | .intrOff => if T.pc = .code ∧ T.depth = 0 then some ({ x with sie := false }, T, lock) else none
  | .trap =>
    if x.sie then some ({ x with sie := false }, { T with pc := .code, saved := some T.pc }, lock)
    else none
  | .sret =>
    match T.saved with
    | some pc =>
      if T.pc = .code ∧ T.depth = 0 then
        some ({ x with sie := true }, { T with pc := pc, saved := none }, lock)
      else none
    | none => none
  | .schedBack =>
    match T.pc with
    | .sched intena => some ({ x with intena := intena }, { T with pc := .code }, lock)
    | _ => none

def step (s : State κ τ) : Event κ τ → Option (State κ τ)
  | .exec c op =>
    (exec c (s.cpu c) (s.thread (s.running c)) s.lock op).map fun r =>
      { s with
        cpu := update s.cpu c r.1
        thread := update s.thread (s.running c) r.2.1
        lock := r.2.2 }
  | .sched c st =>
    match s.running c with
    | .proc p =>
      let T := s.thread (.proc p)
      -- otherwise one of the panics of `sched`
      if T.pc = .code ∧ s.lock (.proc p) = some c ∧ (s.cpu c).noff = 1 ∧ st ≠ .running ∧
          (s.cpu c).sie = false then
        some { s with
          running := update s.running c (.sched c)
          thread := update
            (update s.thread (.proc p) { T with pc := .sched (s.cpu c).intena, held := [] })
            (.sched c)
            { (s.thread (.sched c)).rest with held := [.proc p], own := (s.cpu c).intena }
          state := update s.state p st }
      else none
    | .sched _ => none
  | .swtch c p =>
    let S := s.thread (.sched c)
    let T := s.thread (.proc p)
    if s.running c = .sched c ∧ S.pc = .code ∧ S.saved = none ∧ S.pushes = 0 ∧
        S.held = [.proc p] ∧ s.state p = .runnable then
      some { s with
        running := update s.running c (.proc p)
        thread := update (update s.thread (.sched c) S.rest) (.proc p)
          (T.resume p (s.cpu c).intena)
        state := update s.state p .running }
    else none
  | .wakeup p =>
    if s.state p = .sleeping then some { s with state := update s.state p .runnable } else none
  | .fork p =>
    if s.state p = .unused ∨ s.state p = .zombie then
      some { s with
        thread := update s.thread (.proc p) .new
        state := update s.state p .runnable }
    else none

def boot (κ τ : Type) : State κ τ where
  cpu _ := ⟨0, false, false⟩
  running c := .sched c
  thread
    | .proc _ => .new
    | .sched _ => Thread.new.rest
  state _ := .unused
  lock _ := none

end machine

/-! ## The thread on a CPU -/

section thread

variable {κ τ : Type}

theorem popOff_eq {x : Cpu} (hsie : x.sie = false) (hnoff : 0 < x.noff) :
    x.popOff = .ok ⟨x.noff - 1, x.intena, decide (x.noff = 1) && x.intena⟩ := by
  have hone : x.noff - 1 = 0 ↔ x.noff = 1 := by omega
  unfold Cpu.popOff
  rw [if_neg (by simp [hsie]), if_neg (by omega)]
  cases hi : x.intena <;> simp [hsie, hone]

/-- What holds of a CPU and the thread that runs there. -/
structure Runs (c : κ) (lock : Lk τ → Option κ) (x : Cpu) (T : Thread τ) : Prop where
  noff : x.noff = T.depth
  off : 0 < T.depth → x.sie = false
  own : 0 < T.depth → (∀ i, T.pc ≠ .sched i) → x.intena = T.own
  locks : ∀ l, lock l = some c ↔ l ∈ T.held
  nodup : T.held.Nodup
  old : ∀ b l, T.pc = .pushing b l → x.sie = b
  sched : ∀ i, T.pc = .sched i → i = T.own ∧ T.depth = 1
  started : T.pc ≠ .forkret
  /-- In a handler interrupts are off, also between its locks. -/
  trap : T.saved ≠ none → x.sie = false ∧ (0 < T.depth → T.own = false)
  resumes : ∀ pc, T.saved = some pc → pc = .code ∨ ∃ l, pc = .pushing true l

namespace Runs

variable {c : κ} {lock lock' : Lk τ → Option κ} {x y : Cpu} {T U : Thread τ}
variable (h : Runs c lock x T)
include h

theorem popOff (hd : 0 < T.depth) :
    x.popOff = .ok ⟨T.depth - 1, x.intena, decide (T.depth = 1) && x.intena⟩ := by
  rw [← h.noff] at hd ⊢
  exact popOff_eq (h.off (h.noff ▸ hd)) hd

theorem popped (hpc : T.pc = .code) (hd : 0 < T.depth) (hU : U.depth = T.depth - 1)
    (hUpc : U.pc = .code) (hsaved : U.saved = T.saved) (hown : U.own = T.own)
    (hlocks : ∀ l, lock' l = some c ↔ l ∈ U.held) (hnodup : U.held.Nodup) :
    Runs c lock' ⟨T.depth - 1, x.intena, decide (T.depth = 1) && x.intena⟩ U := by
  have hintena : x.intena = T.own := h.own hd (by simp [hpc])
  refine ⟨hU.symm, fun hpos => ?_, fun _ _ => hintena.trans hown.symm, hlocks,
    hnodup, by simp [hUpc],
    by simp [hUpc], by simp [hUpc], fun hs => ?_, fun pc hs => h.resumes pc (hsaved ▸ hs)⟩
  · have hne : T.depth ≠ 1 := by omega
    simp [hne]
  · obtain ⟨-, hfalse⟩ := h.trap (hsaved ▸ hs)
    rw [hown]
    simp [hintena, hfalse hd]

theorem enter (hpc : T.pc = .code) (l : Option (Lk τ)) :
    Runs c lock x { T with pc := .pushing x.sie l } := by
  have hdepth : Thread.depth { T with pc := .pushing x.sie l } = T.depth := by
    simp [Thread.depth, Thread.isSpinning, hpc]
  refine ⟨?_, ?_, ?_, h.locks, h.nodup, ?_, by simp, by simp, ?_, h.resumes⟩
  · rw [hdepth]
    exact h.noff
  · rw [hdepth]
    exact h.off
  · rw [hdepth]
    exact fun hd _ => h.own hd (by simp [hpc])
  · rintro b l' heq
    exact (Pc.pushing.inj heq).1
  · rw [hdepth]
    exact h.trap

theorem pushed {old : Bool} {l : Option (Lk τ)} (hpc : T.pc = .pushing old l)
    (hU : U.depth = T.depth + 1) (hUpc : U.pc = .code ∨ ∃ l, U.pc = .spinning l)
    (hheld : U.held = T.held) (hsaved : U.saved = T.saved)
    (hown : U.own = if T.depth = 0 then old else T.own) : Runs c lock (x.pushOff old) U := by
  have hsie : x.sie = old := h.old old l hpc
  refine ⟨?_, fun _ => rfl, fun _ _ => ?_, hheld ▸ h.locks, hheld ▸ h.nodup, ?_, ?_, ?_,
    fun hs => ⟨rfl, fun _ => ?_⟩, fun pc hs => h.resumes pc (hsaved ▸ hs)⟩
  · rw [hU, ← h.noff]
    rfl
  · change (if x.noff = 0 then old else x.intena) = _
    rw [hown, h.noff]
    by_cases hd : T.depth = 0
    · rw [if_pos hd, if_pos hd]
    · rw [if_neg hd, if_neg hd]
      exact h.own (Nat.pos_of_ne_zero hd) (by simp [hpc])
  · rcases hUpc with hUpc | ⟨m, hUpc⟩ <;> simp [hUpc]
  · rcases hUpc with hUpc | ⟨m, hUpc⟩ <;> simp [hUpc]
  · rcases hUpc with hUpc | ⟨m, hUpc⟩ <;> simp [hUpc]
  · obtain ⟨hfalse, hown'⟩ := h.trap (hsaved ▸ hs)
    rw [hown]
    by_cases hd : T.depth = 0
    · rw [if_pos hd, ← hsie, hfalse]
    · rw [if_neg hd]
      exact hown' (Nat.pos_of_ne_zero hd)

theorem take [DecidableEq τ] {l : Lk τ} (hpc : T.pc = .spinning l) (hfree : lock l = none) :
    Runs c (update lock l (some c)) x { T with pc := .code, held := l :: T.held } := by
  have hdepth : Thread.depth { T with pc := .code, held := l :: T.held } = T.depth := by
    simp [Thread.depth, Thread.isSpinning, hpc]
    omega
  have hnot : l ∉ T.held := fun hl => by
    have := (h.locks l).mpr hl
    rw [hfree] at this
    cases this
  refine ⟨?_, ?_, ?_, fun m => ?_, List.nodup_cons.mpr ⟨hnot, h.nodup⟩, by simp, by simp, by simp,
    ?_, h.resumes⟩
  · rw [hdepth]
    exact h.noff
  · rw [hdepth]
    exact h.off
  · rw [hdepth]
    exact fun hd _ => h.own hd (by simp [hpc])
  · by_cases hm : m = l
    · subst hm
      simp
    · rw [update_of_ne hm, h.locks m]
      simp [hm]
  · rw [hdepth]
    exact h.trap

theorem setSie (hpc : T.pc = .code) (hd : T.depth = 0) (b : Bool)
    (hb : T.saved ≠ none → b = false) :
    Runs c lock { x with sie := b } T :=
  { h with
    off := fun hpos => absurd hd hpos.ne'
    old := by simp [hpc]
    trap := fun hs => ⟨hb hs, (h.trap hs).2⟩ }

theorem trapped (hsie : x.sie = true) :
    Runs c lock { x with sie := false } { T with pc := .code, saved := some T.pc } := by
  have hzero : T.depth = 0 := by
    by_contra hd
    have := h.off (Nat.pos_of_ne_zero hd)
    rw [hsie] at this
    cases this
  have hspin : T.isSpinning = false := by
    unfold Thread.depth at hzero
    cases hs : T.isSpinning
    · rfl
    · simp [hs] at hzero
  have hdepth : Thread.depth { T with pc := .code, saved := some T.pc } = 0 := by
    rw [← hzero]
    unfold Thread.depth
    rw [hspin]
    rfl
  refine ⟨?_, ?_, ?_, h.locks, h.nodup, by simp, by simp, by simp, ?_, ?_⟩
  · rw [hdepth, ← hzero]
    exact h.noff
  · simp [hdepth]
  · simp [hdepth]
  · simp [hdepth]
  · rintro pc heq
    obtain rfl := Option.some.inj heq
    cases hpc : T.pc with
    | code => exact .inl rfl
    | pushing b l =>
      have := h.old b l hpc
      rw [hsie] at this
      exact .inr ⟨l, by rw [this]⟩
    | spinning l => simp [Thread.isSpinning, hpc] at hspin
    | sched i =>
      have := (h.sched i hpc).2
      omega
    | forkret => exact (h.started hpc).elim

theorem resumed {pc : Pc τ} (hpc : T.pc = .code) (hd : T.depth = 0) (hs : T.saved = some pc) :
    Runs c lock { x with sie := true } { T with pc := pc, saved := none } := by
  have hdepth : Thread.depth { T with pc := pc, saved := none } = 0 := by
    rw [← hd]
    rcases h.resumes pc hs with rfl | ⟨l, rfl⟩ <;> simp [Thread.depth, Thread.isSpinning, hpc]
  refine ⟨?_, by simp [hdepth], by simp [hdepth], h.locks, h.nodup, ?_, ?_, ?_, by simp, by simp⟩
  · rw [hdepth, ← hd]
    exact h.noff
  · rintro b l heq
    rcases h.resumes pc hs with rfl | ⟨m, rfl⟩
    · cases heq
    · exact (Pc.pushing.inj heq).1
  · rintro i heq
    rcases h.resumes pc hs with rfl | ⟨m, rfl⟩ <;> cases heq
  · rcases h.resumes pc hs with rfl | ⟨m, rfl⟩ <;> simp

theorem schedBack {i : Bool} (hpc : T.pc = .sched i) :
    Runs c lock { x with intena := i } { T with pc := .code } := by
  obtain ⟨hown, hone⟩ := h.sched i hpc
  have hdepth : Thread.depth { T with pc := .code } = T.depth := by
    simp [Thread.depth, Thread.isSpinning, hpc]
  refine ⟨?_, ?_, fun _ _ => hown, h.locks, h.nodup, by simp, by simp, by simp, ?_, h.resumes⟩
  · rw [hdepth]
    exact h.noff
  · rw [hdepth]
    exact h.off
  · rw [hdepth]
    exact h.trap

variable [DecidableEq κ] [DecidableEq τ]

theorem exec {op : Op τ} (hok : Nesting.exec c x T lock op = some (y, U, lock')) :
    Runs c lock' y U ∧ ∀ d, d ≠ c → ∀ l, lock' l = some d ↔ lock l = some d := by
  have hsame : ∀ d, d ≠ c → ∀ l, lock l = some d ↔ lock l = some d := fun _ _ _ => Iff.rfl
  cases op with
  | enter l =>
    obtain ⟨hpc, ⟨⟩⟩ := Option.ite_some_none_eq_some.mp hok
    exact ⟨h.enter hpc l, hsame⟩
  | push =>
    simp only [Nesting.exec] at hok
    cases hpc : T.pc with
    | pushing old l =>
      cases l with
      | none =>
        simp only [hpc, Option.some.injEq, Prod.mk.injEq] at hok
        obtain ⟨rfl, rfl, rfl⟩ := hok
        refine ⟨h.pushed hpc ?_ (.inl rfl) rfl rfl rfl, hsame⟩
        simp [Thread.depth, Thread.isSpinning, hpc]
        omega
      | some l =>
        simp only [hpc, Option.ite_none_left_eq_some, Option.some.injEq, Prod.mk.injEq] at hok
        obtain ⟨-, rfl, rfl, rfl⟩ := hok
        refine ⟨h.pushed hpc ?_ (.inr ⟨l, rfl⟩) rfl rfl rfl, hsame⟩
        simp [Thread.depth, Thread.isSpinning, hpc]
    | _ => simp [hpc] at hok
  | take =>
    simp only [Nesting.exec] at hok
    cases hpc : T.pc with
    | spinning l =>
      simp only [hpc, Option.ite_none_right_eq_some, Option.some.injEq, Prod.mk.injEq] at hok
      obtain ⟨hfree, rfl, rfl, rfl⟩ := hok
      refine ⟨h.take hpc hfree, fun d hd m => ?_⟩
      by_cases hm : m = l
      · subst hm
        simp [hfree, Ne.symm hd]
      · rw [update_of_ne hm]
    | _ => simp [hpc] at hok
  | popOff =>
    obtain ⟨⟨hpc, hpos⟩, hok⟩ := Option.ite_none_right_eq_some.mp hok
    have hd : 0 < T.depth := by
      unfold Thread.depth
      omega
    rw [h.popOff hd] at hok
    simp only [Except.toOption, Option.map_some, Option.some.injEq, Prod.mk.injEq] at hok
    obtain ⟨rfl, rfl, rfl⟩ := hok
    refine ⟨h.popped hpc hd ?_ hpc rfl rfl h.locks h.nodup, hsame⟩
    simp [Thread.depth, Thread.isSpinning, hpc]
    omega
  | release l =>
    obtain ⟨⟨hpc, hl, hlock⟩, hok⟩ := Option.ite_none_right_eq_some.mp hok
    have hlen := List.length_pos_of_mem hl
    have hd : 0 < T.depth := by
      unfold Thread.depth
      omega
    rw [h.popOff hd] at hok
    simp only [Except.toOption, Option.map_some, Option.some.injEq, Prod.mk.injEq] at hok
    obtain ⟨rfl, rfl, rfl⟩ := hok
    refine ⟨h.popped hpc hd ?_ hpc rfl rfl (fun m => ?_) (h.nodup.erase l), fun d hd' m => ?_⟩
    · simp [Thread.depth, Thread.isSpinning, hpc, List.length_erase_of_mem hl]
      omega
    · rw [h.nodup.mem_erase_iff]
      by_cases hm : m = l
      · subst hm
        simp
      · rw [update_of_ne hm, h.locks m]
        simp [hm]
    · by_cases hm : m = l
      · subst hm
        simp [hlock, Ne.symm hd']
      · rw [update_of_ne hm]
  | intrOn =>
    obtain ⟨⟨hpc, hd, hs⟩, ⟨⟩⟩ := Option.ite_some_none_eq_some.mp hok
    exact ⟨h.setSie hpc hd true fun hne => absurd hs hne, hsame⟩
  | intrOff =>
    obtain ⟨⟨hpc, hd⟩, ⟨⟩⟩ := Option.ite_some_none_eq_some.mp hok
    exact ⟨h.setSie hpc hd false fun _ => rfl, hsame⟩
  | trap =>
    obtain ⟨hsie, ⟨⟩⟩ := Option.ite_some_none_eq_some.mp hok
    exact ⟨h.trapped hsie, hsame⟩
  | sret =>
    simp only [Nesting.exec] at hok
    cases hs : T.saved with
    | none => simp [hs] at hok
    | some pc =>
      simp only [hs, Option.ite_none_right_eq_some, Option.some.injEq, Prod.mk.injEq] at hok
      obtain ⟨⟨hpc, hd⟩, rfl, rfl, rfl⟩ := hok
      exact ⟨h.resumed hpc hd hs, hsame⟩
  | schedBack =>
    simp only [Nesting.exec] at hok
    cases hpc : T.pc with
    | sched i =>
      simp only [hpc, Option.some.injEq, Prod.mk.injEq] at hok
      obtain ⟨rfl, rfl, rfl⟩ := hok
      exact ⟨h.schedBack hpc, hsame⟩
    | _ => simp [hpc] at hok

end Runs

end thread

/-! ## All CPUs -/

section system

variable {κ τ : Type}

/-- The thread of a process that is on no CPU. -/
structure Parked (T : Thread τ) : Prop where
  pushes : T.pushes = 0
  held : T.held = []
  pc : T.pc = .sched T.own ∨ T.pc = .forkret ∧ T.saved = none
  trap : T.saved ≠ none → T.own = false
  resumes : ∀ pc, T.saved = some pc → pc = .code ∨ ∃ l, pc = .pushing true l

structure Inv (s : State κ τ) : Prop where
  home : ∀ c d, s.running c = .sched d → d = c
  unique : ∀ c d p, s.running c = .proc p → s.running d = .proc p → c = d
  state : ∀ c p, s.running c = .proc p → s.state p = .running
  runs : ∀ c, Runs c s.lock (s.cpu c) (s.thread (s.running c))
  parked : ∀ p, (∀ c, s.running c ≠ .proc p) → Parked (s.thread (.proc p))

theorem parked_new : Parked (.new : Thread τ) :=
  ⟨rfl, rfl, .inr ⟨rfl, rfl⟩, by simp [Thread.new], by simp [Thread.new]⟩

/-- A thread that holds `p->lock` and nothing else, when it gets the CPU. -/
theorem Parked.runs {T : Thread τ} (h : Parked T) {c : κ} {lock : Lk τ → Option κ} {x : Cpu} {p : τ}
    (hnoff : x.noff = 1) (hsie : x.sie = false) (hlocks : ∀ l, lock l = some c ↔ l ∈ [Lk.proc p]) :
    Runs c lock x (T.resume p x.intena) := by
  rcases h.pc with hpc | ⟨hpc, hsaved⟩
  · rw [Thread.resume_of_sched hpc]
    have hdepth : Thread.depth { T with held := [.proc p] } = 1 := by
      simp [Thread.depth, Thread.isSpinning, hpc, h.pushes]
    refine ⟨hnoff.trans hdepth.symm, fun _ => hsie, fun _ hne => (hne _ hpc).elim, hlocks,
      List.nodup_singleton _, by simp [hpc], fun i hi => ⟨?_, hdepth⟩, by simp [hpc],
      fun hs => ⟨hsie, fun _ => h.trap hs⟩, h.resumes⟩
    exact (Pc.sched.inj (hpc.symm.trans hi)).symm
  · rw [Thread.resume_of_forkret hpc]
    have hdepth : Thread.depth { T with pc := .code, held := [.proc p], own := x.intena } = 1 := by
      simp [Thread.depth, Thread.isSpinning, h.pushes]
    exact ⟨hnoff.trans hdepth.symm, fun _ => hsie, fun _ _ => rfl, hlocks, List.nodup_singleton _,
      by simp, by simp, by simp, fun hs => (hs hsaved).elim, h.resumes⟩

theorem Runs.held_eq {T : Thread τ} {c : κ} {lock : Lk τ → Option κ} {x : Cpu} {p : τ}
    (h : Runs c lock x T) (hlock : lock (.proc p) = some c) (hnoff : x.noff = 1) :
    T.held = [.proc p] ∧ T.pushes = 0 := by
  have hmem := (h.locks _).mp hlock
  have hlen := List.length_pos_of_mem hmem
  have hone := h.noff
  unfold Thread.depth at hone
  obtain ⟨l, hl⟩ := List.length_eq_one_iff.mp (by omega : T.held.length = 1)
  rw [hl, List.mem_singleton] at hmem
  exact ⟨hmem ▸ hl, by omega⟩

namespace Inv

variable {s t : State κ τ} (h : Inv s)
include h

theorem running_inj {c d : κ} (heq : s.running c = s.running d) : c = d := by
  cases hc : s.running c with
  | proc p => exact h.unique c d p hc (heq ▸ hc)
  | sched e => rw [← h.home c e hc, h.home d e (heq ▸ hc)]

variable [DecidableEq κ] [DecidableEq τ]

theorem exec {c : κ} {op : Op τ} (hok : step s (.exec c op) = some t) : Inv t := by
  simp only [step, Option.map_eq_some_iff] at hok
  obtain ⟨⟨y, U, lock'⟩, hexec, rfl⟩ := hok
  obtain ⟨hruns, hothers⟩ := (h.runs c).exec hexec
  refine ⟨h.home, h.unique, h.state, fun d => ?_, fun p hp => ?_⟩
  · by_cases hd : d = c
    · subst hd
      simpa using hruns
    · have hne : s.running d ≠ s.running c := fun heq => hd (h.running_inj heq)
      have hold := h.runs d
      simp only [update_of_ne hd, update_of_ne hne]
      exact { hold with locks := fun l => (hothers d hd l).trans (hold.locks l) }
  · have hne : Agent.proc p ≠ s.running c := fun heq => hp c heq.symm
    simp only [update_of_ne hne]
    exact h.parked p hp

theorem sched {c : κ} {st : ProcState} (hok : step s (.sched c st) = some t) : Inv t := by
  simp only [step] at hok
  cases hc : s.running c with
  | sched d => simp [hc] at hok
  | proc p =>
    simp only [hc, Option.ite_none_right_eq_some, Option.some.injEq] at hok
    obtain ⟨⟨hpc, hlock, hnoff, hst, hsie⟩, rfl⟩ := hok
    have hrun := h.runs c
    rw [hc] at hrun
    obtain ⟨hheld, hpushes⟩ := hrun.held_eq hlock hnoff
    have hdepth : 0 < (s.thread (.proc p)).depth := by
      rw [← hrun.noff, hnoff]
      exact Nat.one_pos
    have hidle : ∀ d, s.running d ≠ .sched c := by
      intro d hd
      rw [h.home d c hd] at hc
      rw [hc] at hd
      cases hd
    refine ⟨fun d e hd => ?_, fun d e q hd he => ?_, fun d q hd => ?_, fun d => ?_, fun q hq => ?_⟩
    · by_cases hdc : d = c
      · subst hdc
        simpa using hd.symm
      · exact h.home d e (by simpa [hdc] using hd)
    · have hdc : d ≠ c := by
        rintro rfl
        simp at hd
      have hec : e ≠ c := by
        rintro rfl
        simp at he
      exact h.unique d e q (by simpa [hdc] using hd) (by simpa [hec] using he)
    · have hdc : d ≠ c := by
        rintro rfl
        simp at hd
      have hd' : s.running d = .proc q := by simpa [hdc] using hd
      have hne : q ≠ p := by
        rintro rfl
        exact hdc (h.unique d c q hd' hc)
      exact (update_of_ne hne _ _).trans (h.state d q hd')
    · by_cases hdc : d = c
      · subst hdc
        simp only [update_self]
        refine ⟨hnoff, fun _ => hsie, fun _ _ => rfl, hheld ▸ hrun.locks,
          List.nodup_singleton _, ?_, ?_, ?_, ?_, ?_⟩ <;> simp [Thread.rest]
      · have hd' : s.running d ≠ .proc p := fun hd => hdc (h.unique d c p hd hc)
        simp only [update_of_ne hdc, update_of_ne (hidle d), update_of_ne hd']
        exact h.runs d
    · have hne : (Agent.proc q : Agent κ τ) ≠ .sched c := by simp
      simp only [update_of_ne hne]
      by_cases hqp : q = p
      · subst hqp
        rw [update_self]
        refine ⟨hpushes, rfl, .inl ?_, fun hs => (hrun.trap hs).2 hdepth, hrun.resumes⟩
        exact congrArg Pc.sched (hrun.own hdepth (by simp [hpc]))
      · have hne' : (Agent.proc q : Agent κ τ) ≠ .proc p := by simpa using hqp
        rw [update_of_ne hne']
        refine h.parked q fun d hd => ?_
        have hdc : d ≠ c := by
          rintro rfl
          rw [hc] at hd
          exact hne' hd.symm
        exact hq d (by simpa [hdc] using hd)

theorem swtch {c : κ} {p : τ} (hok : step s (.swtch c p) = some t) : Inv t := by
  obtain ⟨⟨hc, hpc, hsaved, hpushes, hheld, hst⟩, rfl⟩ := Option.ite_some_none_eq_some.mp hok
  have hrun := h.runs c
  rw [hc] at hrun
  have hout : ∀ d, s.running d ≠ .proc p := by
    intro d hd
    have := h.state d p hd
    rw [hst] at this
    cases this
  have hdepth : (s.thread (.sched c)).depth = 1 := by
    simp [Thread.depth, Thread.isSpinning, hpc, hpushes, hheld]
  have hnoff : (s.cpu c).noff = 1 := hrun.noff.trans hdepth
  have hsie : (s.cpu c).sie = false := hrun.off (by omega)
  refine ⟨fun d e hd => ?_, fun d e q hd he => ?_, fun d q hd => ?_, fun d => ?_, fun q hq => ?_⟩
  · by_cases hdc : d = c
    · subst hdc
      simp at hd
    · exact h.home d e (by simpa [hdc] using hd)
  · by_cases hdc : d = c <;> by_cases hec : e = c
    · rw [hdc, hec]
    · obtain rfl : p = q := by simpa [hdc] using hd
      exact (hout e (by simpa [hec] using he)).elim
    · obtain rfl : p = q := by simpa [hec] using he
      exact (hout d (by simpa [hdc] using hd)).elim
    · exact h.unique d e q (by simpa [hdc] using hd) (by simpa [hec] using he)
  · by_cases hqp : q = p
    · subst hqp
      exact update_self ..
    · have hdc : d ≠ c := by
        rintro rfl
        exact hqp (by simpa using hd.symm)
      exact (update_of_ne hqp _ _).trans (h.state d q (by simpa [hdc] using hd))
  · by_cases hdc : d = c
    · subst hdc
      simp only [update_self]
      exact (h.parked p hout).runs hnoff hsie (hheld ▸ hrun.locks)
    · have hne : s.running d ≠ .sched c := fun hd => hdc (h.home d c hd).symm
      simp only [update_of_ne hdc, update_of_ne (hout d), update_of_ne hne]
      exact h.runs d
  · have hqp : q ≠ p := by
      rintro rfl
      exact hq c (by simp)
    have hne : (Agent.proc q : Agent κ τ) ≠ .proc p := by simpa using hqp
    have hne' : (Agent.proc q : Agent κ τ) ≠ .sched c := by simp
    simp only [update_of_ne hne, update_of_ne hne']
    refine h.parked q fun d hd => ?_
    have hdc : d ≠ c := by
      rintro rfl
      rw [hc] at hd
      cases hd
    exact hq d (by simpa [hdc] using hd)

theorem step {e : Event κ τ} (hok : Nesting.step s e = some t) : Inv t := by
  cases e with
  | exec c op => exact h.exec hok
  | sched c st => exact h.sched hok
  | swtch c p => exact h.swtch hok
  | wakeup p =>
    obtain ⟨hp, rfl⟩ := Option.ite_some_none_eq_some.mp hok
    refine { h with state := fun c q hq => ?_ }
    have hne : q ≠ p := by
      rintro rfl
      have := h.state c q hq
      rw [hp] at this
      cases this
    exact (update_of_ne hne _ _).trans (h.state c q hq)
  | fork p =>
    obtain ⟨hp, rfl⟩ := Option.ite_some_none_eq_some.mp hok
    have hout : ∀ c, s.running c ≠ .proc p := by
      rintro c hc
      have := h.state c p hc
      rcases hp with hp | hp <;> rw [hp] at this <;> cases this
    refine ⟨h.home, h.unique, fun c q hq => ?_, fun c => ?_, fun q hq => ?_⟩
    · have hne : q ≠ p := by
        rintro rfl
        exact hout c hq
      exact (update_of_ne hne _ _).trans (h.state c q hq)
    · simp only [update_of_ne (hout c)]
      exact h.runs c
    · by_cases hqp : q = p
      · subst hqp
        simpa using parked_new
      · have hne : (Agent.proc q : Agent κ τ) ≠ .proc p := by simpa using hqp
        simp only [update_of_ne hne]
        exact h.parked q hq

end Inv

theorem inv_boot : Inv (boot κ τ) where
  home c d hd := (Agent.sched.inj hd).symm
  unique c d p hc := by cases hc
  state c p hc := by cases hc
  runs c := ⟨rfl, fun _ => rfl,
    fun hd => absurd hd (by simp [boot, Thread.rest, Thread.depth, Thread.isSpinning]),
    by simp [boot, Thread.rest],
    List.nodup_nil, by simp [boot, Thread.rest], by simp [boot, Thread.rest],
    by simp [boot, Thread.rest], by simp [boot, Thread.rest], by simp [boot, Thread.rest]⟩
  parked p _ := parked_new

variable [DecidableEq κ] [DecidableEq τ]

/-- In every state of any number of threads and CPUs: `noff` is the depth of the thread
that runs there, interrupts are off while it is positive, `sched` comes back with one,
the `pop_off` that makes it 0 leaves interrupts as they were before the thread's own
outermost `push_off`, and a `pop_off` that has a `push_off` does not panic. -/
theorem interrupts_nest {tr : List (Event κ τ)} {s : State κ τ} (hrun : Run step (boot κ τ) tr s) :
    (∀ c p, s.running c = .proc p →
      (s.cpu c).noff = (s.thread (.proc p)).depth ∧
      (0 < (s.cpu c).noff → (s.cpu c).sie = false) ∧
      (∀ i, (s.thread (.proc p)).pc = .sched i → (s.cpu c).noff = 1) ∧
      ((s.thread (.proc p)).depth = 1 → (s.thread (.proc p)).pc = .code →
        ∃ x, (s.cpu c).popOff = .ok x ∧ x.noff = 0 ∧ x.sie = (s.thread (.proc p)).own)) ∧
    ∀ c, 0 < (s.thread (s.running c)).depth → ∃ x, (s.cpu c).popOff = .ok x := by
  have hinv : Inv s := hrun.state_invariant inv_boot fun _ _ _ h hok => h.step hok
  refine ⟨fun c p hc => ?_, fun c hd => ⟨_, (hinv.runs c).popOff hd⟩⟩
  have hruns := hinv.runs c
  rw [hc] at hruns
  refine ⟨hruns.noff, fun hpos => hruns.off (hruns.noff ▸ hpos), fun i hi => ?_, fun hone hpc => ?_⟩
  · rw [hruns.noff, (hruns.sched i hi).2]
  · refine ⟨_, hruns.popOff (by omega), by simp [hone], ?_⟩
    simp [hone, hruns.own (by omega) (by simp [hpc])]

/-- A thread that starts on CPU 0, is preempted in kernel code with interrupts on, and is
back on CPU 1 before it releases `p->lock`. -/
def migration {cpu : Type} [OfNat cpu 0] [OfNat cpu 1] : List (Event cpu Unit) :=
  [.fork (), .exec 0 (.enter (some (.proc ()))), .exec 0 .push, .exec 0 .take, .swtch 0 (),
    .exec 0 (.release (.proc ())), .exec 0 .intrOn, .exec 0 (.enter (some (.proc ()))),
    .exec 0 .push,
    .exec 0 .take, .sched 0 .runnable, .exec 0 (.release (.proc ())),
    .exec 1 (.enter (some (.proc ()))), .exec 1 .push, .exec 1 .take, .swtch 1 (),
    .exec 1 .schedBack]

theorem interrupts_nest_migration : ∃ s : State (Fin 2) Unit,
    Run step (boot (Fin 2) Unit) migration s ∧ s.running 1 = .proc () ∧
    (s.thread (.proc ())).own = true ∧ (s.cpu 1).sie = false ∧
    ∃ x, (s.cpu 1).popOff = .ok x ∧ x.noff = 0 ∧ x.sie = true := by
  obtain ⟨s, hrun, hs⟩ := Run.exists_of_any
    (P := fun s => s.running 1 = .proc () ∧ (s.thread (.proc ())).own = true ∧
      (s.thread (.proc ())).depth = 1 ∧ (s.thread (.proc ())).pc = .code)
    (by decide +kernel : (migration.foldlM step (boot (Fin 2) Unit)).any _)
  obtain ⟨hc, hown, hone, hpc⟩ := of_decide_eq_true hs
  obtain ⟨hnoff, hoff, -, hpop⟩ := (interrupts_nest hrun).1 1 () hc
  obtain ⟨x, hok, hzero, hsie⟩ := hpop hone hpc
  exact ⟨s, hrun, hc, hown, hoff (by omega), x, hok, hzero, hsie.trans hown⟩

end system

end Xv6.Nesting
