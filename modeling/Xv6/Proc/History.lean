import Xv6.Proc.Preservation

/-!
# The process table implements families of processes

The history of forks, exits and reaps that the table records is a history of
the abstract families, and the table shows the family it has led to.
-/

namespace Xv6.Proc

open Lib Family

variable {s s' : State} {p q np : Slot} {c : Pc} {P : Proc} {fam : ℕ → Life}
  {R R' : Slot → ℕ → Prop}

/-- The process `n` is the parent of the one in slot `q`.  Until an exiting
process has become a zombie, its children are its own, although `reparent` may
already have passed them on. -/
def IsParent (s : State) (q : Slot) (n : ℕ) : Prop :=
  ∀ x, (s.proc q).parent = some x → n = s.ident x ∨
    x = initproc ∧ ∃ p, p ≠ q ∧ 0 < (s.pc p).reparented ∧ n = s.ident p

/-- The table shows the family `fam`, with parents as `R` tells. -/
structure Agree (R : Slot → ℕ → Prop) (s : State) (fam : ℕ → Life) : Prop where
  init_ident : s.ident initproc = first
  ident_lt : ∀ q, s.ident q < s.nextIdent
  fresh : ∀ n, s.nextIdent ≤ n → fam n = .unborn
  inj : ∀ q r, (s.proc q).state ≠ .unused → (s.proc r).state ≠ .unused →
    s.ident q = s.ident r → q = r
  used : ∀ q, (s.proc q).state = .used → fam (s.ident q) = .unborn
  live : ∀ q, (s.proc q).Live → ∃ n, fam (s.ident q) = .alive (s.proc q).pid n ∧ R q n
  zombie : ∀ q, (s.proc q).state = .zombie →
    ∃ n, fam (s.ident q) = .exited (s.proc q).pid n (s.proc q).xstate ∧ R q n

theorem Agree.congr (ha : Agree R s fam) (hident : s'.ident = s.ident)
    (hnext : s'.nextIdent = s.nextIdent)
    (hproc : ∀ q, (s.proc q).state = .unused ∧ (s'.proc q).state = .unused ∨
      ((s'.proc q).state = (s.proc q).state ∨ (s.proc q).Live ∧ (s'.proc q).Live) ∧
        (s'.proc q).pid = (s.proc q).pid ∧ (s'.proc q).xstate = (s.proc q).xstate)
    (hR : ∀ q n, (s.proc q).Live ∨ (s.proc q).state = .zombie → R q n → R' q n) :
    Agree R' s' fam := by
  have hunused : ∀ r, (s'.proc r).state = .unused ↔ (s.proc r).state = .unused := by
    grind [Proc.Live]
  refine ⟨?_, ?_, ?_, ?_, ?_, ?_, ?_⟩
  · rw [hident, ha.init_ident]
  · simpa only [hident, hnext] using ha.ident_lt
  · simpa only [hnext] using ha.fresh
  · simpa only [hident, ne_eq, hunused] using ha.inj
  · intro r hr
    rw [hident]
    refine ha.used r ?_
    have := hproc r
    grind [Proc.Live]
  · intro r hr
    have hr' : (s.proc r).Live := by
      have := hproc r
      grind [Proc.Live]
    obtain ⟨n, hn, hpar⟩ := ha.live r hr'
    rcases hproc r with ⟨hun, -⟩ | ⟨-, hpid, -⟩
    · simp [Proc.Live, hun] at hr'
    · exact ⟨n, by rw [hident, hn, hpid], hR r n (.inl hr') hpar⟩
  · intro r hr
    have hr' : (s.proc r).state = .zombie := by
      have := hproc r
      grind [Proc.Live]
    obtain ⟨n, hn, hpar⟩ := ha.zombie r hr'
    rcases hproc r with ⟨hun, -⟩ | ⟨-, hpid, hx⟩
    · simp [hun] at hr'
    · exact ⟨n, by rw [hident, hn, hpid, hx], hR r n (.inr hr') hpar⟩

/-- The process in slot `q` enters the next stage `l` of its life. -/
theorem Agree.update (ha : Agree R s fam) {l : Life} (hident : s'.ident = s.ident)
    (hnext : s'.nextIdent = s.nextIdent) (hq : (s.proc q).state ≠ .unused)
    (hproc : ∀ r, r ≠ q → (s'.proc r).state = (s.proc r).state ∧
      (s'.proc r).pid = (s.proc r).pid ∧ (s'.proc r).xstate = (s.proc r).xstate)
    (hR : ∀ r n, r ≠ q → R r n → R' r n) (hused : (s'.proc q).state ≠ .used)
    (hlive : (s'.proc q).Live → ∃ n, l = .alive (s'.proc q).pid n ∧ R' q n)
    (hzombie : (s'.proc q).state = .zombie →
      ∃ n, l = .exited (s'.proc q).pid n (s'.proc q).xstate ∧ R' q n) :
    Agree R' s' (Function.update fam (s.ident q) l) := by
  have hother : ∀ r, (s'.proc r).state ≠ .unused → r ≠ q →
      Function.update fam (s.ident q) l (s.ident r) = fam (s.ident r) := by
    intro r hr hrq
    rw [(hproc r hrq).1] at hr
    exact Function.update_of_ne (fun heq => hrq (ha.inj r q hr hq heq)) ..
  refine ⟨?_, ?_, ?_, ?_, ?_, ?_, ?_⟩
  · rw [hident, ha.init_ident]
  · simpa only [hident, hnext] using ha.ident_lt
  · intro n hn
    have hlt := ha.ident_lt q
    rw [hnext] at hn
    rw [Function.update_of_ne (by omega)]
    exact ha.fresh n hn
  · intro r r' hr hr'
    rw [hident]
    refine ha.inj r r' ?_ ?_
    · by_cases hrq : r = q
      · rwa [hrq]
      · rwa [(hproc r hrq).1] at hr
    · by_cases hrq : r' = q
      · rwa [hrq]
      · rwa [(hproc r' hrq).1] at hr'
  · intro r hr
    have hrq : r ≠ q := by
      rintro rfl
      exact hused hr
    rw [hident, hother r (by simp [hr]) hrq]
    exact ha.used r (by rw [← (hproc r hrq).1, hr])
  · intro r hr
    rw [hident]
    by_cases hrq : r = q
    · subst hrq
      simpa using hlive hr
    · obtain ⟨n, hn, hpar⟩ := ha.live r (by simpa only [Proc.Live, (hproc r hrq).1] using hr)
      refine ⟨n, ?_, hR r n hrq hpar⟩
      rw [hother r (by grind [Proc.Live]) hrq, hn, (hproc r hrq).2.1]
  · intro r hr
    rw [hident]
    by_cases hrq : r = q
    · subst hrq
      simpa using hzombie hr
    · obtain ⟨n, hn, hpar⟩ := ha.zombie r (by rw [← (hproc r hrq).1, hr])
      refine ⟨n, ?_, hR r n hrq hpar⟩
      rw [hother r (by simp [hr]) hrq, hn, (hproc r hrq).2.1, (hproc r hrq).2.2]

/-! ## Steps that the family does not see -/

theorem IsParent.congr {n : ℕ} (h : IsParent s q n) (hident : s'.ident = s.ident)
    (hparent : (s'.proc q).parent = (s.proc q).parent)
    (hrep : ∀ r, 0 < (s.pc r).reparented → 0 < (s'.pc r).reparented) : IsParent s' q n := by
  intro x hx
  rw [hparent] at hx
  rw [hident]
  rcases h x hx with hn | ⟨hinit, p, hne, hp, hn⟩
  · exact .inl hn
  · exact .inr ⟨hinit, p, hne, hrep p hp, hn⟩

theorem reparented_goto (hc : 0 < (s.pc p).reparented → 0 < c.reparented) (r : Slot)
    (hr : 0 < (s.pc r).reparented) : 0 < ((s.goto p c).pc r).reparented := by
  rw [State.goto_pc]
  split_ifs with hrp
  · subst hrp
    exact hc hr
  · exact hr

theorem Agree.goto (ha : Agree (IsParent s) s fam)
    (hc : 0 < (s.pc p).reparented → 0 < c.reparented) :
    Agree (IsParent (s.goto p c)) (s.goto p c) fam :=
  ha.congr rfl rfl (fun _ => .inr ⟨.inl rfl, rfl, rfl⟩)
    fun _ _ _ hn => hn.congr rfl rfl (reparented_goto hc)

theorem Agree.setProc (ha : Agree (IsParent s) s fam)
    (hstate : P.state = (s.proc q).state ∨ (s.proc q).Live ∧ P.Live) (hpid : P.pid = (s.proc q).pid)
    (hx : P.xstate = (s.proc q).xstate) (hparent : P.parent = (s.proc q).parent) :
    Agree (IsParent (s.setProc q P)) (s.setProc q P) fam := by
  refine ha.congr rfl rfl ?_ fun r n _ hn => hn.congr rfl ?_ fun _ hr => hr
  · intro r
    rw [State.setProc_proc]
    split_ifs with hrq
    · subst hrq
      exact .inr ⟨hstate, hpid, hx⟩
    · exact .inr ⟨.inl rfl, rfl, rfl⟩
  · rw [State.setProc_proc]
    split_ifs with hrq
    · rw [hrq, hparent]
    · rfl

theorem Agree.setWaitLock (ha : Agree (IsParent s) s fam) (l : Option Slot) :
    Agree (IsParent (s.setWaitLock l)) (s.setWaitLock l) fam :=
  ha.congr rfl rfl (fun _ => .inr ⟨.inl rfl, rfl, rfl⟩)
    fun _ _ _ hn => hn.congr rfl rfl fun _ hr => hr

theorem Agree.ret (ha : Agree (IsParent s) s fam) (hp : (s.pc p).reparented = 0) (v : ℤ) :
    Agree (IsParent (s.ret p v)) (s.ret p v) fam :=
  (ha.setProc (q := p) (P := { s.proc p with a0 := v }) (.inl rfl) rfl rfl rfl).goto
    (by simp [hp])

theorem Agree.wakeup (ha : Agree (IsParent s) s fam) (chan : Option Chan) :
    Agree (IsParent (s.setProc q ((s.proc q).wakeup chan)))
      (s.setProc q ((s.proc q).wakeup chan)) fam := by
  unfold Proc.wakeup
  split_ifs with h
  · exact ha.setProc (.inr ⟨.inr (.inr h.1), .inl rfl⟩) rfl rfl rfl
  · exact ha.setProc (.inl rfl) rfl rfl rfl

theorem Agree.wakeupAt (ha : Agree (IsParent s) s fam) (chan : Option Chan) :
    Agree (IsParent (wakeupAt s p chan q)) (wakeupAt s p chan q) fam := by
  unfold Proc.wakeupAt
  split_ifs
  · exact ha
  · exact ha.wakeup chan

theorem Agree.forkFail (ha : Agree (IsParent s) s fam) (hnp : (s.proc np).state = .unused)
    (hp : (s.pc p).reparented = 0) (hpnp : np ≠ p) :
    Agree (IsParent (forkFail s p np)) (forkFail s p np) fam := by
  have hproc : ∀ r, r ≠ np → ((Proc.forkFail s p np).proc r).state = (s.proc r).state ∧
      ((Proc.forkFail s p np).proc r).pid = (s.proc r).pid ∧
      ((Proc.forkFail s p np).proc r).xstate = (s.proc r).xstate ∧
      ((Proc.forkFail s p np).proc r).parent = (s.proc r).parent := by
    grind [Proc.forkFail]
  refine ha.congr rfl rfl ?_ ?_
  · intro r
    rcases eq_or_ne r np with rfl | hne
    · refine .inl ⟨hnp, ?_⟩
      simp [Proc.forkFail, hpnp, Proc.freeproc]
    · exact .inr ⟨.inl (hproc r hne).1, (hproc r hne).2.1, (hproc r hne).2.2.1⟩
  · intro r n hr hn
    have hne : r ≠ np := by
      rintro rfl
      simp [Proc.Live, hnp] at hr
    refine hn.congr rfl (hproc r hne).2.2.2 ?_
    intro y hy
    have hyp : y ≠ p := by
      rintro rfl
      omega
    simpa [Proc.forkFail, hyp, State.setProc] using hy

theorem Agree.forkAlloc (h : Inv s) (ha : Agree (IsParent s) s fam)
    (hnp : (s.proc np).state = .unused) (hp : (s.pc p).reparented = 0) (hpnp : np ≠ p) :
    Agree (IsParent (forkAlloc s p np)) (forkAlloc s p np) fam := by
  have hproc : ∀ r, r ≠ np → (Proc.forkAlloc s p np).proc r = s.proc r := by
    intro r hr
    simp [Proc.forkAlloc, hr]
  have hself : ((Proc.forkAlloc s p np).proc np).state = .used := by
    simp [Proc.forkAlloc, Proc.allocproc]
  have hident : ∀ r, r ≠ np → (Proc.forkAlloc s p np).ident r = s.ident r := by
    intro r hr
    simp [Proc.forkAlloc, State.goto, State.setProc, hr]
  have hnew : (Proc.forkAlloc s p np).ident np = s.nextIdent := by
    simp [Proc.forkAlloc, State.goto, State.setProc]
  have hnext : (Proc.forkAlloc s p np).nextIdent = s.nextIdent + 1 := rfl
  -- parents are alive, so nobody's parent is the slot just taken
  have hpar : ∀ r n, r ≠ np → IsParent s r n → IsParent (Proc.forkAlloc s p np) r n := by
    intro r n hr hn x hx
    rw [hproc r hr] at hx
    have hxnp : x ≠ np := by
      rintro rfl
      simpa [Proc.Live, hnp] using (h.parent_live r x hx).1
    rw [hident x hxnp]
    rcases hn x hx with heq | ⟨hinit, y, hyr, hy, heq⟩
    · exact .inl heq
    · have hynp : y ≠ np := by
        rintro rfl
        have hdead := (h.dead y).mpr (.inl hnp)
        simp [hdead, Pc.reparented] at hy
      have hyp : y ≠ p := by
        rintro rfl
        omega
      refine .inr ⟨hinit, y, hyr, ?_, by rw [hident y hynp, heq]⟩
      simpa [Proc.forkAlloc, State.setProc, hyp, hynp] using hy
  have hinit : initproc ≠ np := by
    rintro rfl
    simpa [Proc.Live, hnp] using h.init_live
  refine ⟨?_, ?_, ?_, ?_, ?_, ?_, ?_⟩
  · rw [hident _ hinit, ha.init_ident]
  · intro r
    rw [hnext]
    rcases eq_or_ne r np with rfl | hr
    · omega
    · have := ha.ident_lt r
      rw [hident r hr]
      omega
  · intro n hn
    exact ha.fresh n (by omega)
  · intro r r' hr hr' heq
    have hlt := ha.ident_lt r
    have hlt' := ha.ident_lt r'
    by_cases hne : r = np <;> by_cases hne' : r' = np
    · rw [hne, hne']
    · rw [hne, hnew, hident _ hne'] at heq
      omega
    · rw [hne', hnew, hident _ hne] at heq
      omega
    · rw [hident _ hne, hident _ hne'] at heq
      rw [hproc _ hne] at hr
      rw [hproc _ hne'] at hr'
      exact ha.inj r r' hr hr' heq
  · intro r hr
    rcases eq_or_ne r np with rfl | hne
    · rw [hnew]
      exact ha.fresh _ le_rfl
    · rw [hident _ hne]
      rw [hproc _ hne] at hr
      exact ha.used r hr
  · intro r hr
    have hne : r ≠ np := by
      rintro rfl
      simp [Proc.Live, hself] at hr
    rw [hproc _ hne] at hr ⊢
    obtain ⟨n, hn, hpar'⟩ := ha.live r hr
    exact ⟨n, by rw [hident _ hne, hn], hpar r n hne hpar'⟩
  · intro r hr
    have hne : r ≠ np := by
      rintro rfl
      simp [hself] at hr
    rw [hproc _ hne] at hr ⊢
    obtain ⟨n, hn, hpar'⟩ := ha.zombie r hr
    exact ⟨n, by rw [hident _ hne, hn], hpar r n hne hpar'⟩

theorem Agree.setParent (ha : Agree (IsParent s) s fam) (x : Slot)
    (hc : 0 < (s.pc p).reparented → 0 < c.reparented)
    (hq : (s.proc q).Live ∨ (s.proc q).state = .zombie → ∀ n, IsParent s q n →
      IsParent ((s.setProc q { s.proc q with parent := some x }).goto p c) q n) :
    Agree (IsParent ((s.setProc q { s.proc q with parent := some x }).goto p c))
      ((s.setProc q { s.proc q with parent := some x }).goto p c) fam := by
  refine ha.congr rfl rfl ?_ ?_
  · intro r
    rcases eq_or_ne r q with rfl | hne
    · simp
    · simp [hne]
  · intro r n hr hn
    rcases eq_or_ne r q with rfl | hne
    · exact hq hr n hn
    · exact hn.congr rfl (by simp [hne]) (reparented_goto hc)

/-! ## Forks, exits and reaps -/

theorem Inv.eq_of_reparented (h : Inv s) (hp : (s.pc p).holdsWaitLock = true)
    (hq : 0 < (s.pc q).reparented) : q = p := by
  by_contra hqp
  have hholds := Pc.holds_of_reparented hq
  simp [(h.not_holds hp).2 q hqp] at hholds

theorem Agree.forkRunnable (h : Inv s) (ha : Agree (IsParent s) s fam) {pid : ℤ}
    (hrun : (s.proc p).state = .running) (hpc : s.pc p = .forkRunnable np pid) :
    ∃ fam', Family.step fam (.fork (s.ident p) (s.ident np) (s.proc np).pid) = some fam' ∧
      Agree (IsParent (forkRunnable s p np pid)) (forkRunnable s p np pid) fam' := by
  have hnp : (s.proc np).state = .used := h.child_used p np (by simp [hpc, Pc.child])
  have hparent := h.child_parent p np pid hpc
  obtain ⟨m, hm, -⟩ := ha.live p (.inr (.inl hrun))
  have hpar : ∀ r n, IsParent s r n → IsParent (Proc.forkRunnable s p np pid) r n := by
    intro r n hn
    refine hn.congr rfl (by grind [Proc.forkRunnable]) ?_
    grind [Proc.forkRunnable, Pc.reparented]
  refine ⟨_, step_fork.mpr ⟨by simp [hm, Life.isAlive], ha.used np hnp, rfl⟩, ?_⟩
  refine ha.update rfl rfl (by simp [hnp]) ?_ (fun r n _ => hpar r n) ?_ ?_ ?_
  · grind [Proc.forkRunnable]
  · grind [Proc.forkRunnable]
  · intro _
    refine ⟨s.ident p, by grind [Proc.forkRunnable], hpar np _ fun x hx => .inl ?_⟩
    rw [hparent, Option.some_inj] at hx
    rw [hx]
  · grind [Proc.forkRunnable]

theorem Agree.reap (h : Inv s) (ha : Agree (IsParent s) s fam) {addr : ℕ} {havekids : Bool}
    (hrun : (s.proc p).state = .running) (hpc : s.pc p = .waitScan addr q.idx havekids)
    (hq : (s.proc q).parent = some p) (hz : (s.proc q).state = .zombie) :
    ∃ fam', Family.step fam
        (.reap (s.ident p) (s.ident q) (s.proc q).pid (s.proc q).xstate) = some fam' ∧
      Agree (IsParent (reap s p q)) (reap s p q) fam' := by
  obtain ⟨m, hm, -⟩ := ha.live p (.inr (.inl hrun))
  obtain ⟨n, hn, hpar⟩ := ha.zombie q hz
  have hholds : (s.pc p).holdsWaitLock = true := by simp [hpc, Pc.holdsWaitLock]
  -- no other thread is in `exit`, so the parent link tells the parent
  obtain rfl : n = s.ident p := by
    rcases hpar p hq with heq | ⟨-, y, -, hy, -⟩
    · exact heq
    · rw [h.eq_of_reparented hholds hy, hpc] at hy
      simp [Pc.reparented] at hy
  have hpq : p ≠ q := by
    rintro rfl
    simp [hrun] at hz
  refine ⟨_, step_reap.mpr ⟨by simp [hm, Life.isAlive], hn, rfl⟩, ?_⟩
  refine ha.update rfl rfl (by simp [hz]) ?_ ?_ ?_ ?_ ?_
  · grind [Proc.reap]
  · intro r k hrq hk
    refine hk.congr rfl (by grind [Proc.reap]) ?_
    grind [Proc.reap, Pc.reparented]
  · grind [Proc.reap, Proc.freeproc]
  · grind [Proc.reap, Proc.freeproc, Proc.Live]
  · grind [Proc.reap, Proc.freeproc]

/-- The children of an exiting process already have their new parent in the table. -/
theorem Agree.orphan (h : Inv s) (ha : Agree (IsParent s) s fam) {status : ℤ}
    (hrun : (s.proc p).state = .running) (hpc : s.pc p = .exitZombie status) :
    Agree (fun q n => ∀ x, (s.proc q).parent = some x → n = s.ident x) s
      (fun n => (fam n).orphan (s.ident p)) := by
  have hholds : (s.pc p).holdsWaitLock = true := by simp [hpc, Pc.holdsWaitLock]
  have hne : ∀ r, (s.proc r).parent ≠ some p := fun r =>
    h.reparented p r (by simpa [hpc, Pc.reparented] using r.lt)
  have hpar : ∀ r n, IsParent s r n → ∀ x, (s.proc r).parent = some x →
      (if n = s.ident p then first else n) = s.ident x := by
    intro r n hn x hx
    have hxlive := (h.parent_live r x hx).1
    rcases hn x hx with rfl | ⟨rfl, y, -, hy, rfl⟩
    · rw [if_neg]
      intro heq
      obtain rfl := ha.inj x p (by grind [Proc.Live]) (by simp [hrun]) heq
      exact hne r hx
    · obtain rfl := h.eq_of_reparented hholds hy
      rw [if_pos rfl, ha.init_ident]
  refine ⟨ha.init_ident, ha.ident_lt, ?_, ha.inj, ?_, ?_, ?_⟩
  · intro n hn
    simp [ha.fresh n hn, Life.orphan]
  · intro r hr
    simp [ha.used r hr, Life.orphan]
  · intro r hr
    obtain ⟨n, hn, hnpar⟩ := ha.live r hr
    exact ⟨_, by simp only [hn, Life.orphan], hpar r n hnpar⟩
  · intro r hr
    obtain ⟨n, hn, hnpar⟩ := ha.zombie r hr
    exact ⟨_, by simp only [hn, Life.orphan], hpar r n hnpar⟩

theorem Agree.exitZombie (h : Inv s) (ha : Agree (IsParent s) s fam) {status : ℤ}
    (hrun : (s.proc p).state = .running) (hpc : s.pc p = .exitZombie status) :
    ∃ fam', Family.step fam (.exit (s.ident p) status) = some fam' ∧
      Agree (IsParent (exitZombie s p status)) (exitZombie s p status) fam' := by
  have hp := h.ne_initproc (p := p) (by simp [hpc, Pc.exits])
  have hfirst : s.ident p ≠ first := by
    rw [← ha.init_ident]
    intro heq
    have := h.init_live
    exact hp (ha.inj p initproc (by simp [hrun]) (by grind [Proc.Live]) heq)
  obtain ⟨n, hn, hnpar⟩ := ha.live p (.inr (.inl hrun))
  have horphan := ha.orphan h hrun hpc
  obtain ⟨n', hn', hnpar'⟩ := horphan.live p (.inr (.inl hrun))
  have hparent : ∀ r, ((Proc.exitZombie s p status).proc r).parent = (s.proc r).parent := by
    grind [Proc.exitZombie]
  refine ⟨_, step_exit.mpr ⟨_, _, hn, hfirst, rfl⟩, ?_⟩
  refine horphan.update rfl rfl (by simp [hrun]) ?_ ?_ ?_ ?_ ?_
  · grind [Proc.exitZombie]
  · intro r k _ hk x hx
    rw [hparent] at hx
    exact .inl (hk x hx)
  · grind [Proc.exitZombie]
  · grind [Proc.exitZombie, Proc.Live]
  · intro _
    refine ⟨n, by grind [Proc.exitZombie], ?_⟩
    intro x hx
    rw [hparent] at hx
    rcases hnpar x hx with heq | ⟨-, y, hyp, hy, -⟩
    · exact .inl heq
    · exact absurd (h.eq_of_reparented (by simp [hpc, Pc.holdsWaitLock]) hy) hyp

/-- What one step does to the recorded history and to the family. -/
def Follows (s s' : State) (fam fam' : ℕ → Life) : Prop :=
  s'.log = s.log ∧ fam' = fam ∨ ∃ ev, s'.log = s.log ++ [ev] ∧ Family.step fam ev = some fam'

theorem Agree.effect {e : Event} (h : Inv s) (ha : Agree (IsParent s) s fam) (he : Effect s e s') :
    ∃ fam', Follows s s' fam fam' ∧ Agree (IsParent s') s' fam' := by
  cases he with
  | fork hrun hpc | exit hp hrun hpc | wait hrun hpc | kill hrun hpc | forkNext hrun hpc
  | killNext hrun hpc | waitNext hrun hpc hpp | waitDone hrun hpc hi =>
    exact ⟨fam, .inl ⟨rfl, rfl⟩, ha.goto (by simp [hpc, Pc.reparented])⟩
  | reparentNext hrun hpc hpp | reparentDone hrun hpc hi | initWakeupDone hrun hpc hj
  | parentWakeupDone hrun hpc hj =>
    exact ⟨fam, .inl ⟨rfl, rfl⟩, ha.goto (by simp [Pc.reparented, NPROC])⟩
  | forkFull hrun hpc | killNone hrun hpc =>
    exact ⟨fam, .inl ⟨rfl, rfl⟩, ha.ret (by simp [hpc, Pc.reparented]) _⟩
  | @forkFail p np ok hrun hpc hnp =>
    have hne : np ≠ p := by
      rintro rfl
      simp [hrun] at hnp
    exact ⟨fam, .inl ⟨rfl, rfl⟩, ha.forkFail hnp (by simp [hpc, Pc.reparented]) hne⟩
  | @forkAlloc p np ok hrun hpc hnp =>
    have hne : np ≠ p := by
      rintro rfl
      simp [hrun] at hnp
    exact ⟨fam, .inl ⟨rfl, rfl⟩, ha.forkAlloc h hnp (by simp [hpc, Pc.reparented]) hne⟩
  | @forkParent p np ok pid hrun hpc hfree =>
    have hnp : (s.proc np).state = .used := h.child_used p np (by simp [hpc, Pc.child])
    refine ⟨fam, .inl ⟨rfl, rfl⟩, ha.setParent p (by simp [hpc, Pc.reparented]) ?_⟩
    simp [Proc.Live, hnp]
  | forkRunnable hrun hpc =>
    obtain ⟨fam', hstep, ha'⟩ := ha.forkRunnable h hrun hpc
    exact ⟨fam', .inr ⟨_, rfl, hstep⟩, ha'⟩
  | exitAcquire hrun hpc hfree | waitAcquire hrun hpc hfree =>
    exact ⟨fam, .inl ⟨rfl, rfl⟩, (ha.setWaitLock _).goto (by simp [hpc, Pc.reparented])⟩
  | @reparent p pp ok status hrun hpc hpp =>
    refine ⟨fam, .inl ⟨rfl, rfl⟩, ha.setParent initproc (by simp [Pc.reparented]) ?_⟩
    intro _ n hn x hx
    obtain rfl : initproc = x := by simpa using hx
    have hne : p ≠ pp := (h.parent_live pp p hpp).2
    refine .inr ⟨rfl, p, hne, by simp [Pc.reparented], ?_⟩
    rcases hn p hpp with heq | ⟨hinit, -⟩
    · exact heq
    · exact absurd hinit (h.ne_initproc (by simp [hpc, Pc.exits]))
  | initWakeup hrun hpc | parentWakeup hrun hpc =>
    refine ⟨fam, .inl ⟨?_, rfl⟩, (ha.wakeupAt _).goto (by simp [Pc.reparented, NPROC])⟩
    unfold Proc.wakeupAt
    split_ifs <;> rfl
  | exitZombie hrun hpc =>
    obtain ⟨fam', hstep, ha'⟩ := ha.exitZombie h hrun hpc
    exact ⟨fam', .inr ⟨_, rfl, hstep⟩, ha'⟩
  | reap hrun hpc hpp hz =>
    obtain ⟨fam', hstep, ha'⟩ := ha.reap h hrun hpc hpp hz
    exact ⟨fam', .inr ⟨_, rfl, hstep⟩, ha'⟩
  | waitFail hrun hpc =>
    exact ⟨fam, .inl ⟨rfl, rfl⟩, (ha.setWaitLock none).ret (by simp [hpc, Pc.reparented]) _⟩
  | waitSleep hrun hpc =>
    refine ⟨fam, .inl ⟨rfl, rfl⟩, Agree.goto (Agree.setWaitLock ?_ none) ?_⟩
    · exact ha.setProc (.inr ⟨.inr (.inl hrun), .inr (.inr rfl)⟩) rfl rfl rfl
    · simp [hpc, Pc.reparented]
  | @killHit p q ok pid hrun hpc hq =>
    refine ⟨fam, .inl ⟨rfl, rfl⟩, Agree.ret ?_ ?_ _⟩
    · refine ha.setProc ?_ rfl rfl rfl
      grind [Proc.kill, Proc.Live]
    · simp [hpc, Pc.reparented]
  | schedule hrun hpc hpc' =>
    exact ⟨fam, .inl ⟨rfl, rfl⟩, ha.setProc (.inr ⟨.inl hrun, .inr (.inl rfl)⟩) rfl rfl rfl⟩
  | resume hrun hpc | resumeWait hrun hpc =>
    refine ⟨fam, .inl ⟨rfl, rfl⟩, Agree.goto ?_ ?_⟩
    · exact ha.setProc (.inr ⟨.inl hrun, .inr (.inl rfl)⟩) rfl rfl rfl
    · simp [hpc, Pc.reparented]
  | yield hrun hlock =>
    exact ⟨fam, .inl ⟨rfl, rfl⟩, ha.setProc (.inr ⟨.inr (.inl hrun), .inl rfl⟩) rfl rfl rfl⟩
  | sleep hrun hpc =>
    refine ⟨fam, .inl ⟨rfl, rfl⟩, Agree.goto ?_ ?_⟩
    · exact ha.setProc (.inr ⟨.inr (.inl hrun), .inr (.inr rfl)⟩) rfl rfl rfl
    · simp [hpc, Pc.reparented]
  | wakeup => exact ⟨fam, .inl ⟨rfl, rfl⟩, ha.wakeup _⟩

end Xv6.Proc
