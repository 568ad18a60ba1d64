import Xv6.Sleep.Killed

/-!
# Wakeups on a pipe

Readers sleep while the pipe is empty, writers while it is full.  Whoever
changes that holds `pi->lock` and owes the sleepers a `wakeup` before it
releases the lock; a writer that is killed in the middle of its copy does not
pay.
-/

namespace Xv6.Sleep

open Proc (Slot)
open Lib

variable {s s' : State} {e : Event} {p q : Slot} {k : ℕ} {f : Frame}

/-- The condition under which a reader sleeps. -/
def Pipe.ReadWait (P : Pipe) : Prop := P.Empty ∧ P.writeopen

/-- The condition under which a writer sleeps. -/
def Pipe.WriteWait (P : Pipe) : Prop := P.Full ∧ P.readopen

instance (P : Pipe) : Decidable P.ReadWait := inferInstanceAs (Decidable (_ ∧ _))

instance (P : Pipe) : Decidable P.WriteWait := inferInstanceAs (Decidable (_ ∧ _))

def SleepsOn (s : State) (p : Slot) (chan : Chan) : Prop :=
  (s.life.proc p).state = .sleeping ∧ (s.life.proc p).chan = some chan

instance (s : State) (p : Slot) (chan : Chan) : Decidable (SleepsOn s p chan) :=
  inferInstanceAs (Decidable (_ ∧ _))

/-- When the lock of the pipe is free, no one sleeps on it who should not. -/
structure NoLostWakeup (s : State) (k : ℕ) : Prop where
  reader : s.lock (.pipe k) = none → ∀ p, SleepsOn s p (chanRead k) → (s.pipe k).ReadWait
  writer : s.lock (.pipe k) = none → ∀ p, SleepsOn s p (chanWrite k) → (s.pipe k).WriteWait

/-- The thread is in the loop of `pipewrite`, with the lock, and is not asleep. -/
def Frame.Copies : Frame → Prop
  | test (.pipewrite _ _) | writeBody _ _ => True
  | _ => False

instance : DecidablePred Frame.Copies
  | .test (.pipewrite _ _) | .writeBody _ _ => instDecidableTrue
  | .test (.piperead _) | .test (.consoleread _ _) | .test (.sysSleep _ _ _) | .idle
  | .acquire _ | .sleep _ | .asleep _ | .writeFull _ _ _ | .writeWake _ _ _ | .readCopy _ _
  | .readWake _ _ _ | .closeAcquire _ _ | .closeWake _ _ _ => instDecidableFalse

/-- No `kill` marks a process while it copies bytes into a pipe. -/
def Undisturbed (s : State) (e : Event) : Prop := ∀ q ∈ e.target s, ¬(s.frame q).Copies

instance (s : State) (e : Event) : Decidable (Undisturbed s e) :=
  inferInstanceAs (Decidable (∀ q ∈ e.target s, ¬(s.frame q).Copies))

/-! ## Debts

Both ends of a pipe are treated at once: `chanClose k w` is the channel of those
who wait for the end `w`, which are the readers if `w` is the write end. -/

/-- The condition under which a thread sleeps on `chanClose k w`. -/
def Pipe.Wait (P : Pipe) (w : Bool) : Prop := if w then P.ReadWait else P.WriteWait

/-- The thread will still wake up slot `j`, if it sleeps on `chanClose k w`.  In the
loop of `pipewrite` this is so unless the process has been killed. -/
def Frame.Wakes (k j : ℕ) (spared : Prop) : Frame → Bool → Prop
  | test (.pipewrite c _), true | writeBody c _, true => c.pipe = k ∧ spared
  | writeFull c _ i, true | writeWake c _ i, true | readWake c _ i, false => c.pipe = k ∧ i ≤ j
  | readCopy c _, false => c.pipe = k
  | closeWake l v i, w => l = k ∧ v = w ∧ i ≤ j
  | _, _ => False

/-- What the thread has found out since it took the lock. -/
def Frame.Ready (pipe : ℕ → Pipe) (spared : Prop) : Frame → Prop
  | writeBody c _ => (pipe c.pipe).readopen ∧ spared
  | writeFull c _ _ | sleep (.pipewrite c _) => (pipe c.pipe).WriteWait
  | sleep (.piperead c) => (pipe c.pipe).ReadWait
  | _ => True

/-- Sleepers have a reason to sleep, or somebody owes them a wakeup. -/
structure Wakeful (s : State) : Prop where
  owed : ∀ w k p, SleepsOn s p (chanClose k w) → (s.pipe k).Wait w ∨
    ∃ q, (s.frame q).Wakes k p.idx ((s.life.proc q).killed = 0) w
  ready : ∀ q, (s.frame q).Ready s.pipe ((s.life.proc q).killed = 0)

section frames

variable {j : ℕ} {w : Bool} {a b : Prop} {pipe pipe' : ℕ → Pipe}

theorem holds_of_wakes (h : f.Wakes k j a w) : f.holds = some (.pipe k) := by
  cases f with
  | test l =>
    cases l with
    | pipewrite c i =>
      cases w with
      | true => rw [← h.1]; rfl
      | false => exact h.elim
    | _ => exact h.elim
  | closeWake l v i => rw [← h.1]; rfl
  | writeBody c i | writeFull c i m | writeWake c i m =>
    cases w with
    | true => rw [← h.1]; rfl
    | false => exact h.elim
  | readCopy c i =>
    cases w with
    | true => exact h.elim
    | false => rw [← show c.pipe = k from h]; rfl
  | readWake c i m =>
    cases w with
    | true => exact h.elim
    | false => rw [← h.1]; rfl
  | _ => exact h.elim

theorem wakes_mono (h : f.Wakes k j a w) (hab : f.Copies → a → b) : f.Wakes k j b w := by
  cases f with
  | test l =>
    cases l with
    | pipewrite c i =>
      cases w with
      | true => exact ⟨h.1, hab trivial h.2⟩
      | false => exact h
    | _ => exact h
  | writeBody c i =>
    cases w with
    | true => exact ⟨h.1, hab trivial h.2⟩
    | false => exact h
  | _ => cases w <;> exact h

theorem wakes_nextSlot {c : Chan} {r : ℕ} (hw : f.waking = some (c, j)) (h : f.Wakes k r a w) :
    c = chanClose k w ∧ (r ≠ j → f.nextSlot.Wakes k r a w) := by
  cases f with
  | writeFull d i m | writeWake d i m =>
    cases w with
    | false => exact h.elim
    | true =>
      simp only [Frame.waking, Option.some_inj, Prod.mk.injEq] at hw
      obtain ⟨rfl, rfl⟩ := hw
      exact ⟨by rw [h.1]; rfl, fun hr => ⟨h.1, lt_of_le_of_ne h.2 hr.symm⟩⟩
  | readWake d i m =>
    cases w with
    | true => exact h.elim
    | false =>
      simp only [Frame.waking, Option.some_inj, Prod.mk.injEq] at hw
      obtain ⟨rfl, rfl⟩ := hw
      exact ⟨by rw [h.1]; rfl, fun hr => ⟨h.1, lt_of_le_of_ne h.2 hr.symm⟩⟩
  | closeWake l v m =>
    simp only [Frame.waking, Option.some_inj, Prod.mk.injEq] at hw
    obtain ⟨rfl, rfl⟩ := hw
    exact ⟨by rw [h.1, h.2.1], fun hr => ⟨h.1, h.2.1, lt_of_le_of_ne h.2.2 hr.symm⟩⟩
  | _ => simp [Frame.waking] at hw

theorem holds_of_waking {c : Chan} (hw : f.waking = some (c, j)) :
    ∃ k, f.holds = some (.pipe k) := by
  cases f <;> simp_all [Frame.waking, Frame.holds]

/-- What a thread has found out depends on the pipe whose lock it has. -/
theorem ready_congr (h : f.Ready pipe a)
    (hpipe : ∀ k, f.holds = some (.pipe k) → ((pipe k).readopen → (pipe' k).readopen) ∧
      ∀ w, (pipe k).Wait w → (pipe' k).Wait w) : f.Ready pipe' a := by
  cases f with
  | writeBody c i => exact ⟨(hpipe c.pipe rfl).1 h.1, h.2⟩
  | writeFull c i j => exact (hpipe c.pipe rfl).2 false h
  | sleep l =>
    cases l with
    | pipewrite c i => exact (hpipe c.pipe rfl).2 false h
    | piperead c => exact (hpipe c.pipe rfl).2 true h
    | _ => trivial
  | _ => trivial

theorem ready_of_no_pipe (hf : ∀ k, f.holds ≠ some (.pipe k)) : f.Ready pipe a := by
  cases f with
  | writeBody c i | writeFull c i j => exact absurd rfl (hf c.pipe)
  | sleep l =>
    cases l with
    | pipewrite c i => exact absurd rfl (hf c.pipe)
    | piperead c => exact absurd rfl (hf c.pipe)
    | _ => trivial
  | _ => trivial

theorem ready_mono (h : f.Ready pipe a) (hab : f.Copies → a → b) : f.Ready pipe b := by
  cases f with
  | writeBody c i => exact ⟨h.1, hab trivial h.2⟩
  | sleep l => cases l <;> exact h
  | _ => exact h

theorem ready_nextSlot (h : f.Ready pipe a) : f.nextSlot.Ready pipe a := by
  cases f <;> exact h

end frames

theorem Locked.unique (hl : Locked s) {l : Lock} (hp : (s.frame p).holds = some l)
    (hq : (s.frame q).holds = some l) : q = p := by
  have h := hl.holds q l hq
  rw [hl.holds p l hp] at h
  simpa using h.symm

theorem not_sleepsOn_wakeupAt {c : Chan} (hi : Inv s) {j r : Slot}
    (hw : (s.frame p).waking = some (c, j.idx))
    (hr : SleepsOn { s with life := Proc.wakeupAt s.life p (some c) j } r c)
    (hc : ∀ q, c ≠ .proc q) :
    r ≠ j := by
  rintro rfl
  obtain ⟨hstate, hchan⟩ := hr
  change ((Proc.wakeupAt s.life p (some c) r).proc r).state = .sleeping at hstate
  change ((Proc.wakeupAt s.life p (some c) r).proc r).chan = some c at hchan
  by_cases hrp : r = p
  · subst hrp
    rw [Proc.wakeupAt, if_pos rfl] at hstate hchan
    rcases hi.sleepers r hstate with ⟨l, hl, -⟩ | hproc
    · simp [hl, Frame.waking] at hw
    · rw [hchan] at hproc
      exact hc r (Option.some_inj.mp hproc)
  · rw [Proc.wakeupAt, if_neg hrp] at hstate hchan
    grind [Proc.wakeup]

namespace Wakeful

variable {P : Pipe}

/-- Debts are paid by whoever has the lock. -/
theorem wait_of_unlocked (h : Wakeful s) (hl : Locked s) (hfree : s.lock (.pipe k) = none)
    {w : Bool} (hp : SleepsOn s p (chanClose k w)) : (s.pipe k).Wait w := by
  rcases h.owed w k p hp with hwait | ⟨q, hq⟩
  · exact hwait
  · simpa [hfree] using hl.holds q _ (holds_of_wakes hq)

theorem of_eq (h : Wakeful s) (hl : s'.life = s.life) (hf : s'.frame = s.frame)
    (hp : s'.pipe = s.pipe) : Wakeful s' := by
  constructor
  · intro w k p hs
    simp only [SleepsOn, hl, hf, hp] at hs ⊢
    exact h.owed w k p hs
  · intro q
    rw [hl, hf, hp]
    exact h.ready q

theorem update (h : Wakeful s) (hlock : ∀ q, q ≠ p → (s.frame q).holds ≠ some (.pipe k))
    (hp : ∀ l, (s.frame p).holds = some l → l = .pipe k)
    (hready : f.Ready (Function.update s.pipe k P) ((s.life.proc p).killed = 0))
    (howed : ∀ w r, SleepsOn s r (chanClose k w) → P.Wait w ∨
      f.Wakes k r.idx ((s.life.proc p).killed = 0) w) :
    Wakeful ((s.setPipe k P).goto p f) := by
  constructor
  · intro w l r hs
    by_cases hlk : l = k
    · subst hlk
      rcases howed w r hs with hwait | hwake
      · exact .inl (by simpa using hwait)
      · exact .inr ⟨p, by simpa using hwake⟩
    · rcases h.owed w l r hs with hwait | ⟨q, hq⟩
      · exact .inl (by simpa [hlk] using hwait)
      · -- the debtor has the lock of pipe `l`, so that it is not `p`
        have hqp : q ≠ p := by
          rintro rfl
          exact hlk (by simpa using hp _ (holds_of_wakes hq))
        exact .inr ⟨q, by simpa [hqp] using hq⟩
  · intro q
    by_cases hqp : q = p
    · rw [State.goto_frame, if_pos hqp, hqp]
      exact hready
    · rw [State.goto_frame, if_neg hqp]
      refine ready_congr (h.ready q) fun l hl => ?_
      have hlk : l ≠ k := fun hlk => hlock q hqp (hlk ▸ hl)
      simp [hlk]

/-- The debtor of the sleepers on a pipe is the one who has its lock. -/
theorem change (h : Wakeful s) (hl : Locked s) (hp : (s.frame p).holds = some (.pipe k))
    (hready : f.Ready (Function.update s.pipe k P) ((s.life.proc p).killed = 0))
    (howed : ∀ w r, SleepsOn s r (chanClose k w) → (s.pipe k).Wait w ∨
      (s.frame p).Wakes k r.idx ((s.life.proc p).killed = 0) w → P.Wait w ∨
        f.Wakes k r.idx ((s.life.proc p).killed = 0) w) :
    Wakeful ((s.setPipe k P).goto p f) := by
  refine h.update (fun q hqp hq => hqp (hl.unique hp hq)) ?_ hready fun w r hs => howed w r hs ?_
  · intro l hl
    simpa [hp, eq_comm] using hl
  · rcases h.owed w k r hs with hwait | ⟨q, hq⟩
    · exact .inl hwait
    · rw [hl.unique hp (holds_of_wakes hq)] at hq
      exact .inr hq

theorem goto (h : Wakeful s) (hl : Locked s) (hp : (s.frame p).holds = some (.pipe k))
    (hready : f.Ready s.pipe ((s.life.proc p).killed = 0))
    (howed : ∀ w r, SleepsOn s r (chanClose k w) →
      (s.frame p).Wakes k r.idx ((s.life.proc p).killed = 0) w →
        f.Wakes k r.idx ((s.life.proc p).killed = 0) w) : Wakeful (s.goto p f) := by
  have hsame : Function.update s.pipe k (s.pipe k) = s.pipe := Function.update_eq_self ..
  refine (h.change hl hp (P := s.pipe k) (hsame.symm ▸ hready) ?_).of_eq rfl rfl hsame.symm
  exact fun w r hs => Or.imp_right (howed w r hs)

theorem move (h : Wakeful s) (hp : ∀ k, (s.frame p).holds ≠ some (.pipe k))
    (hf : ∀ k, f.holds ≠ some (.pipe k)) : Wakeful (s.goto p f) := by
  constructor
  · intro w k r hs
    rcases h.owed w k r hs with hwait | ⟨q, hq⟩
    · exact .inl hwait
    · have hqp : q ≠ p := by
        rintro rfl
        exact hp k (holds_of_wakes hq)
      exact .inr ⟨q, by simpa [hqp] using hq⟩
  · intro q
    rw [State.goto_frame]
    split_ifs with hqp
    · exact ready_of_no_pipe hf
    · exact h.ready q

theorem setLife (h : Wakeful s) {l : Proc.State}
    (hs : ∀ q c, (l.proc q).state = .sleeping → (l.proc q).chan = some (.other c) →
      SleepsOn s q (.other c))
    (hk : ∀ q, (s.frame q).Copies → (s.life.proc q).killed = 0 → (l.proc q).killed = 0) :
    Wakeful { s with life := l } := by
  constructor
  · intro w k r hr
    have hold : SleepsOn s r (chanClose k w) := by
      cases w <;> exact hs r _ hr.1 hr.2
    rcases h.owed w k r hold with hwait | ⟨q, hq⟩
    · exact .inl hwait
    · exact .inr ⟨q, wakes_mono hq (hk q)⟩
  · exact fun q => ready_mono (h.ready q) (hk q)

theorem wakeup (h : Wakeful s) (chan : Option Chan) (j : Slot) :
    Wakeful { s with life := s.life.setProc j ((s.life.proc j).wakeup chan) } := by
  refine h.setLife (fun q c hq hc => ?_) fun q _ hk => ?_
  · unfold SleepsOn
    grind [Proc.wakeup]
  · grind [Proc.wakeup]

theorem ret (h : Wakeful s) (hl : Locked s) {l : Lock} (hp : (s.frame p).holds = some l)
    (hnone : ∀ w k r, SleepsOn s r (chanClose k w) →
      ¬(s.frame p).Wakes k r.idx ((s.life.proc p).killed = 0) w) (id : ℕ) (v : ℤ) :
    Wakeful (s.ret p l id v) := by
  have hmove : Wakeful ((s.finish l id v).goto p .idle) := by
    cases l with
    | pipe k =>
      refine h.change hl hp trivial fun w r hs hor => .inl ?_
      have hwait := hor.resolve_right (hnone w k r hs)
      cases w <;> exact hwait
    | cons | ticks => exact h.move (fun k hk => by simp [hk] at hp) nofun
  have hlife : ((s.finish l id v).goto p .idle).life = s.life := State.finish_life s l id v
  have hret := hmove.setLife (l := s.life.ret p v) (fun q c hq hc => ?_) fun q _ hk => ?_
  · exact hret.of_eq rfl rfl rfl
  · unfold SleepsOn
    rw [hlife]
    grind
  · rw [hlife] at hk
    grind

theorem wakeupAt (h : Wakeful s) (chan : Option Chan) (p j : Slot) :
    Wakeful { s with life := Proc.wakeupAt s.life p chan j } := by
  unfold Proc.wakeupAt
  split_ifs
  · exact h
  · exact h.wakeup chan j

theorem wake (h : Wakeful s) (hi : Inv s) {c : Chan} {j : Slot}
    (hw : (s.frame p).waking = some (c, j.idx)) :
    Wakeful ({ s with life := Proc.wakeupAt s.life p (some c) j }.goto p (s.frame p).nextSlot) := by
  obtain ⟨k, hk⟩ := holds_of_waking hw
  have hat := h.wakeupAt (some c) p j
  refine hat.goto (hi.locked.of_eq rfl rfl rfl rfl) hk (ready_nextSlot (hat.ready p)) ?_
  intro w r hr hwake
  obtain ⟨rfl, hnext⟩ := wakes_nextSlot hw hwake
  have hrj : r ≠ j := not_sleepsOn_wakeupAt hi hw hr (by cases w <;> nofun)
  exact hnext fun hidx => hrj (Proc.Slot.ext hidx)

theorem sleep (h : Wakeful s) {l : Loop} (hp : s.frame p = .sleep l) : Wakeful (s.sleep p l) := by
  have hproc : ∀ q, q ≠ p → (s.sleep p l).life.proc q = s.life.proc q := fun q hq => by
    simp [State.sleep, hq]
  have hframe : ∀ q, q ≠ p → (s.sleep p l).frame q = s.frame q := fun q hq => by
    simp [State.sleep, hq]
  have hself : ((s.sleep p l).life.proc p).chan = some l.chan := by simp [State.sleep, Proc.sleep]
  have hready := h.ready p
  rw [hp] at hready
  constructor
  · intro w k r hr
    change (s.pipe k).Wait w ∨ _
    by_cases hrp : r = p
    · subst hrp
      obtain ⟨-, hchan⟩ := hr
      rw [hself, Option.some_inj] at hchan
      left
      cases l with
      | piperead c =>
        cases w with
        | true => exact chanRead_inj.mp hchan ▸ hready
        | false => simp [Loop.chan, chanClose, chanRead, chanWrite] at hchan; omega
      | pipewrite c i =>
        cases w with
        | true => simp [Loop.chan, chanClose, chanRead, chanWrite] at hchan; omega
        | false => exact chanWrite_inj.mp hchan ▸ hready
      | consoleread c n =>
        cases w <;> simp [Loop.chan, chanClose, chanRead, chanWrite, chanCons] at hchan
      | sysSleep id n t =>
        cases w <;> simp [Loop.chan, chanClose, chanRead, chanWrite, chanTicks] at hchan
    · rcases h.owed w k r (by rw [SleepsOn, hproc r hrp] at hr; exact hr) with hwait | ⟨q, hq⟩
      · exact .inl hwait
      · have hqp : q ≠ p := by
          rintro rfl
          rw [hp] at hq
          exact hq
        exact .inr ⟨q, by rwa [hframe q hqp, hproc q hqp]⟩
  · intro q
    by_cases hqp : q = p
    · rw [hqp, show (s.sleep p l).frame p = .asleep l by simp [State.sleep]]
      trivial
    · rw [hframe q hqp, hproc q hqp]
      exact h.ready q

theorem setPipe (h : Wakeful s) (hread : P.nread = (s.pipe k).nread)
    (hwrite : P.nwrite = (s.pipe k).nwrite) (hro : P.readopen = (s.pipe k).readopen)
    (hwo : P.writeopen = (s.pipe k).writeopen) : Wakeful (s.setPipe k P) := by
  have hsame : ∀ l w, ((s.setPipe k P).pipe l).Wait w ↔ (s.pipe l).Wait w := by
    intro l w
    rw [State.setPipe_pipe]
    split_ifs with hl
    · simp only [hl, Pipe.Wait, Pipe.ReadWait, Pipe.WriteWait, Pipe.Empty, Pipe.Full, hread, hwrite,
        hro, hwo]
    · rfl
  have hopen : ∀ l, ((s.setPipe k P).pipe l).readopen = (s.pipe l).readopen := by
    intro l
    rw [State.setPipe_pipe]
    split_ifs with hl
    · rw [hl, hro]
    · rfl
  constructor
  · intro w l r hr
    rw [hsame]
    exact h.owed w l r hr
  · intro q
    exact ready_congr (h.ready q) fun l _ => ⟨(hopen l).trans, fun w => (hsame l w).mpr⟩

theorem take (h : Wakeful s) (hl : Locked s) (hfree : s.lock (.pipe k) = none)
    (hp : (s.frame p).holds = none)
    (hready : f.Ready (Function.update s.pipe k P) ((s.life.proc p).killed = 0))
    (howed : ∀ w r, SleepsOn s r (chanClose k w) → (s.pipe k).Wait w → P.Wait w ∨
      f.Wakes k r.idx ((s.life.proc p).killed = 0) w) : Wakeful ((s.setPipe k P).goto p f) := by
  refine h.update (fun q _ hq => ?_) (fun l hl => ?_) hready ?_
  · simpa [hfree] using hl.holds q _ hq
  · simp [hp] at hl
  · exact fun w r hs => howed w r hs (h.wait_of_unlocked hl hfree hs)

theorem life (h : Wakeful s) {e : Proc.Event} {l : Proc.State}
    (hstep : Proc.step s.life e = some l) (hsleep : ∀ p k, e ≠ .sleep p k)
    (hok : ∀ q ∈ killTarget s.life e, ¬(s.frame q).Copies) : Wakeful { s with life := l } := by
  have he := Proc.effect_of_step hstep
  refine h.setLife (fun q c hq hc => ?_) fun q hcopy hk => ?_
  · rcases sleeping_of_effect he hsleep hq with ⟨hold, hchan⟩ | ⟨hchan, -⟩
    · exact ⟨hold, hchan ▸ hc⟩
    · simp [hchan] at hc
  · by_contra hk'
    rcases killed_of_effect he hk' with hold | htarget
    · exact hold hk
    · exact hok q htarget hcopy

theorem schedule (h : Wakeful s) (p : Slot) :
    Wakeful ({ s with life := Proc.schedule s.life p }.goto p (s.frame p).resume) := by
  have hlife : Wakeful { s with life := Proc.schedule s.life p } := by
    refine h.setLife (fun q c hq hc => ?_) fun q _ hk => ?_
    · unfold SleepsOn
      unfold Proc.schedule at hq hc
      split at hq <;> grind
    · unfold Proc.schedule
      split <;> grind
  cases hf : s.frame p with
  | asleep l => exact hlife.move (by simp [hf, Frame.holds]) (by simp [Frame.resume, Frame.holds])
  | _ =>
    refine hlife.of_eq rfl ?_ rfl
    change Function.update s.frame p _ = s.frame
    exact Function.update_eq_self_iff.mpr (by rw [hf]; rfl)

theorem acquire (h : Wakeful s) (hl : Locked s) {l : Loop} (hp : s.frame p = .acquire l)
    (hfree : s.lock l.lock = none) : Wakeful (s.goto p (.test (l.locked s.ticks))) := by
  have hheld : (s.frame p).holds = none := by rw [hp]; rfl
  have hlock : (Frame.test (l.locked s.ticks)).holds = some l.lock := by simp [Frame.holds]
  cases hk : l.lock with
  | pipe k =>
    rw [hk] at hfree
    have hsame : Function.update s.pipe k (s.pipe k) = s.pipe := Function.update_eq_self ..
    refine (h.take hl hfree hheld (P := s.pipe k) (f := .test (l.locked s.ticks)) ?_
      (fun _ _ _ => .inl)).of_eq rfl rfl hsame.symm
    cases l.locked s.ticks <;> trivial
  | cons | ticks => exact h.move (by simp [hheld]) (by simp [hlock, hk])

end Wakeful

theorem Inv.not_sleepsOn (hi : Inv s) (w : Bool) (hw : (s.pipe k).isOpen (!w) = false) :
    ¬SleepsOn s p (chanClose k w) := by
  rintro ⟨hstate, hchan⟩
  rcases hi.sleepers p hstate with ⟨l, hl, hc⟩ | hproc
  · have huse : (s.frame p).Uses k (!w) := by
      rw [hchan, Option.some_inj] at hc
      rw [hl]
      cases w <;> cases l <;>
        simp_all [Loop.chan, Frame.Uses, chanClose, chanRead, chanWrite, chanCons, chanTicks] <;>
        omega
    simpa [hw] using hi.ends.isOpen k (!w) (hi.ends.uses p k (!w) huse)
  · rw [hchan] at hproc
    cases w <;> simp [chanClose, chanRead, chanWrite] at hproc

theorem Wakeful.effect (h : Wakeful s) (hi : Inv s) (he : Effect s e s') (hok : Undisturbed s e) :
    Wakeful s' := by
  have hl := hi.locked
  have hfree : ∀ {p : Slot} {f : Frame}, Free s p → (∀ k, f.holds ≠ some (.pipe k)) →
      Wakeful (s.goto p f) := by
    intro p f hp hf
    refine h.move (fun k => ?_) hf
    simp [holds_of_isIdle hp.2.2]
  have hlate : ∀ {r : Slot} {j : ℕ}, NPROC ≤ j → ¬j ≤ r.idx := fun hj hr =>
    absurd (lt_of_lt_of_le (Proc.Slot.lt _) (hj.trans hr)) (lt_irrefl _)
  cases he with
  | life hstep hidle hsched hsleep => exact h.life hstep hsleep hok
  | schedule hrun => exact h.schedule _
  | @yield p hrun =>
    refine h.setLife (fun q c hq hc => ?_) fun q _ hk => ?_
    · unfold SleepsOn
      grind
    · grind
  | @pipealloc p k hread hwrite hunlocked hp =>
    refine (h.take hl hunlocked (holds_of_isIdle hp.2.2) (P := (s.pipe k).init)
      (f := s.frame p) ?_ ?_).of_eq rfl ?_ rfl
    · exact ready_of_no_pipe (by simp [holds_of_isIdle hp.2.2])
    · rintro (_ | _) r hr -
      · exact absurd hr (hi.not_sleepsOn false hwrite)
      · exact .inl ⟨rfl, rfl⟩
    · exact (Function.update_eq_self p s.frame).symm
  | @pipewrite p k src n hp hend =>
    have hstart : Wakeful (s.setPipe k ((s.pipe k).start ⟨s.calls, k, src, n⟩)) :=
      h.setPipe rfl rfl rfl rfl
    refine (hstart.move (p := p) (f := .acquire (.pipewrite ⟨s.calls, k, src, n⟩ 0)) (fun l => ?_)
      nofun).of_eq rfl rfl rfl
    simp [holds_of_isIdle hp.2.2]
  | piperead hp | pipeclose hp | consoleread hp | sysSleep hp =>
    exact (hfree hp (by nofun)).of_eq rfl rfl rfl
  | acquire hf hunlocked => exact (h.acquire hl hf hunlocked).of_eq rfl rfl rfl
  | @giveUp p l hf hk =>
    refine h.ret hl (by rw [hf]; rfl) (fun w k r _ hw => ?_) _ _
    rw [hf] at hw
    cases l with
    | pipewrite c i =>
      cases w with
      | true => exact hk hw.2
      | false => exact hw
    | _ => exact hw
  | @brokenPipe p c i hf hread =>
    refine h.ret hl (by rw [hf]; rfl) (fun w k r hr hw => ?_) _ _
    rw [hf] at hw
    cases w with
    | true =>
      obtain rfl : c.pipe = k := hw.1
      exact hi.not_sleepsOn true hread hr
    | false => exact hw
  | writeGo hf hread hk =>
    refine h.goto hl (by rw [hf]; rfl) ⟨hread, hk⟩ ?_
    rw [hf]
    rintro (_ | _) r - hw <;> exact hw
  | writeEnd hf | writeFault hf =>
    refine h.goto hl (by rw [hf]; rfl) trivial ?_
    rw [hf]
    rintro (_ | _) r - hw
    · exact hw
    · exact ⟨hw.1, Nat.zero_le _⟩
  | @writeFull p c i hf hfull =>
    have hready := h.ready p
    rw [hf] at hready
    refine h.goto hl (by rw [hf]; rfl) ⟨hfull, hready.1⟩ ?_
    rw [hf]
    rintro (_ | _) r - hw
    · exact hw
    · exact ⟨hw.1, Nat.zero_le _⟩
  | @put p c i ch hf hroom hch =>
    have hready := h.ready p
    rw [hf] at hready
    refine h.change hl (by rw [hf]; rfl) trivial ?_
    rintro (_ | _) r - (hwait | hw)
    · exact absurd hwait.1 hroom
    · rw [hf] at hw
      exact hw.elim
    · exact .inr ⟨rfl, hready.2⟩
    · exact .inr ⟨rfl, hready.2⟩
  | @doze p l l' hf hk hlock hwrite hread =>
    cases l' with
    | piperead c =>
      obtain ⟨rfl, hwait⟩ := hread c rfl
      refine h.goto hl (by rw [hf]; rfl) hwait ?_
      rw [hf]
      exact fun _ _ _ hw => hw
    | pipewrite c i => exact absurd rfl (hwrite c i)
    | consoleread c n | sysSleep id n t =>
      refine h.move (fun k => ?_) nofun
      rw [hf]
      change some l.lock ≠ _
      rw [← hlock]
      exact nofun
  | readGo hf hgo =>
    refine h.goto hl (by rw [hf]; rfl) trivial ?_
    rw [hf]
    exact fun _ _ _ hw => hw.elim
  | take hf hne hdst =>
    refine h.change hl (by rw [hf]; rfl) trivial ?_
    rintro (_ | _) r - (hwait | hw)
    · exact .inr rfl
    · exact .inr rfl
    · exact absurd hwait.1 hne
    · rw [hf] at hw
      exact hw.elim
  | takeFault hf hne hdst =>
    refine h.change hl (by rw [hf]; rfl) trivial ?_
    rintro (_ | _) r - (hwait | hw)
    · exact .inr ⟨rfl, Nat.zero_le _⟩
    · exact .inr ⟨rfl, Nat.zero_le _⟩
    · exact absurd hwait.1 hne
    · rw [hf] at hw
      exact hw.elim
  | readEnd hf =>
    refine h.goto hl (by rw [hf]; rfl) trivial ?_
    rw [hf]
    rintro (_ | _) r - hw
    · exact ⟨hw, Nat.zero_le _⟩
    · exact hw.elim
  | consNext hf =>
    refine (h.move (fun k => ?_) (by nofun)).of_eq rfl rfl rfl
    simp [hf, Frame.holds, Loop.lock]
  | consRet hf =>
    refine (h.ret hl (l := .cons) (by rw [hf]; rfl) ?_ 0 _).of_eq rfl rfl rfl
    rw [hf]
    exact fun _ _ _ _ hw => hw
  | tickRet hf =>
    refine h.ret hl (by rw [hf]; rfl) ?_ _ _
    rw [hf]
    exact fun _ _ _ _ hw => hw
  | sleep hf => exact h.sleep hf
  | wake hf => exact h.wake hi hf
  | @fullDone p c i j hf hj =>
    have hready := h.ready p
    rw [hf] at hready
    refine h.goto hl (by rw [hf]; rfl) hready ?_
    rw [hf]
    rintro (_ | _) r - hw
    · exact hw
    · exact absurd hw.2 (hlate hj)
  | writeDone hf hj | readDone hf hj =>
    refine h.ret hl (by rw [hf]; rfl) ?_ _ _
    rw [hf]
    rintro (_ | _) k r - hw
    · first | exact hw | exact hlate hj hw.2
    · first | exact hw | exact hlate hj hw.2
  | @closeAcquire p k w hf hunlocked =>
    refine (h.take hl hunlocked (by rw [hf]; rfl) (P := (s.pipe k).close w)
      (f := .closeWake k w 0) trivial ?_).of_eq rfl rfl rfl
    intro v r _ hwait
    by_cases hv : w = v
    · exact .inr ⟨rfl, hv, Nat.zero_le _⟩
    · cases w <;> cases v <;> first | exact absurd rfl hv | exact .inl hwait
  | @closeDone p k j w hf hj =>
    refine (h.goto hl (f := .idle) (by rw [hf]; rfl) trivial ?_).of_eq rfl rfl rfl
    rw [hf]
    exact fun v r _ hw => hlate hj hw.2.2
  | consoleintr | clockintr | consoleWake | clockDone | uartDone => exact h.of_eq rfl rfl rfl
  | clockWake hj => exact (h.wakeup (some chanTicks) _).of_eq rfl rfl rfl
  | uartWake hj => exact (h.wakeup (some chanCons) _).of_eq rfl rfl rfl

theorem wakeful_boot (data : ℕ → ℕ → UInt8) (buf : ℕ → UInt8) : Wakeful (boot data buf) := by
  refine ⟨fun w k p hp => ?_, fun q => trivial⟩
  have hp := hp.1
  simp only [boot, Proc.boot, Function.update_apply] at hp
  split_ifs at hp
  simp [Proc.zero] at hp

/-- In every run in which no `kill` marks a process while it copies bytes into a
pipe, nobody sleeps on a pipe that is ready for it, when the lock is free. -/
theorem no_lost_wakeup {data : ℕ → ℕ → UInt8} {buf : ℕ → UInt8} {tr : List Event}
    (hrun : Run (guarded Undisturbed step) (boot data buf) tr s) (k : ℕ) : NoLostWakeup s k := by
  have h : Inv s ∧ Wakeful s := by
    refine hrun.state_invariant (I := fun s => Inv s ∧ Wakeful s)
      ⟨inv_boot data buf, wakeful_boot data buf⟩ fun t e u ht he => ?_
    obtain ⟨hok, he⟩ := guarded_eq_some.mp he
    have heff := effect_of_step he
    exact ⟨ht.1.effect heff, ht.2.effect ht.1 heff hok⟩
  exact ⟨fun hfree p hp => h.2.wait_of_unlocked h.1.locked hfree (w := true) hp,
    fun hfree p hp => h.2.wait_of_unlocked h.1.locked hfree (w := false) hp⟩

def slot2 : Slot := ⟨2, by decide⟩

/-- `init` has two children, opens a pipe and sleeps in `piperead` on it. -/
def initReads : List Event :=
  .life (.schedule Proc.initproc) ::
    (.life (.fork Proc.initproc) :: List.replicate 4 (.life (.advance Proc.initproc true))) ++
    (.life (.fork Proc.initproc) :: List.replicate 5 (.life (.advance Proc.initproc true))) ++
    [.life (.schedule Proc.slot1), .life (.schedule slot2), .pipealloc Proc.initproc 0,
      .piperead Proc.initproc 0 (fun _ => true) 1, .advance Proc.initproc, .advance Proc.initproc,
      .advance Proc.initproc]

theorem no_lost_wakeup_initReads :
    ∃ s, Run (guarded Undisturbed step) (boot (fun _ _ => 0) fun _ => 0) initReads s ∧
      SleepsOn s Proc.initproc (chanRead 0) ∧ NoLostWakeup s 0 := by
  obtain ⟨s, hrun, hs⟩ := Run.exists_of_any
    (P := fun s => SleepsOn s Proc.initproc (chanRead 0))
    (by decide +kernel :
      (initReads.foldlM (guarded Undisturbed step) (boot (fun _ _ => 0) fun _ => 0)).any _)
  exact ⟨s, hrun, of_decide_eq_true hs, no_lost_wakeup hrun 0⟩

/-- The first child writes two bytes; the second one kills it after the first byte. -/
def killedWriter : List Event :=
  initReads ++
    [.pipewrite Proc.slot1 0 (fun _ => some 7) 2, .advance Proc.slot1, .advance Proc.slot1,
      .advance Proc.slot1, .life (.kill slot2 2), .life (.advance slot2 true),
      .life (.advance slot2 true), .advance Proc.slot1]

theorem not_noLostWakeup_killedWriter :
    ∃ s, Run step (boot (fun _ _ => 0) fun _ => 0) killedWriter s ∧ ¬NoLostWakeup s 0 := by
  obtain ⟨s, hrun, hs⟩ := Run.exists_of_any
    (P := fun s => s.lock (.pipe 0) = none ∧ SleepsOn s Proc.initproc (chanRead 0) ∧
      ¬(s.pipe 0).ReadWait)
    (by decide +kernel : (killedWriter.foldlM step (boot (fun _ _ => 0) fun _ => 0)).any _)
  obtain ⟨hfree, hsleep, hwait⟩ := of_decide_eq_true hs
  exact ⟨s, hrun, fun h => hwait (h.reader hfree _ hsleep)⟩

end Xv6.Sleep
