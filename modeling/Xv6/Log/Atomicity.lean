import Xv6.Log.Operations

/-!
# Crash atomicity of the redo log

The invariant holds along every run, so the state after a finished recovery
shows a whole number of groups.
-/

namespace Xv6.Log.Machine

open Lib

/-! ## Runs -/

theorem Inv.step {D : ℕ → Block} {sp : Spec} {s s' : State} {e : Event} (h : Inv D sp s)
    (hs : Machine.step s e = some s') : Inv D (sp.step e) s' := by
  cases e with
  | beginOp p => exact h.beginOp hs
  | bread p b => exact h.bread hs
  | write p b x => exact h.write hs
  | brelse p b => exact h.brelse hs
  | endOp p => exact h.endOp hs
  | commit => exact h.commit hs
  | commitReturn => exact h.commitReturn hs
  | read b =>
    simp only [Machine.step] at hs
    split_ifs at hs
    obtain rfl := Option.some.inj hs
    exact h.read b
  | evict b =>
    simp only [Machine.step] at hs
    obtain ⟨dev, hdev, rfl⟩ := Option.map_eq_some_iff.mp hs
    exact h.evict hdev
  | crash => exact h.crash hs
  | recover => exact h.recover hs

theorem inv_init {start size : ℕ} {D : ℕ → Block} (hsize : 0 < size)
    (hhead : headN (D start) = 0) : Inv D Spec.init (init start size D) where
  header := ⟨List.nodup_nil, Nat.zero_le _, hsize, by simp [init, LogHeader.blocks]⟩
  opens := rfl
  outstanding := rfl
  held_active := by simp [init]
  held_unique := by simp [init]
  coherent :=
    { data := by simp [init]
      refs := by simp [init]
      cached := by simp [init, pinList, LogHeader.blocks, Dev.locked]
      clean := by
        intro b _
        unfold upView
        split_ifs <;> rfl }
  not_committing := rfl
  returned := le_rfl
  logged := by simp [init, LogHeader.blocks, Spec.init]
  head := hhead
  home := fun _ _ => rfl

theorem step_geometry {s s' : State} {e : Event} (hs : Machine.step s e = some s') :
    s'.log.start = s.log.start ∧ s'.log.size = s.log.size := by
  cases e with
  | beginOp p =>
    simp only [Machine.step] at hs
    split_ifs at hs
    obtain ⟨log, hlog, rfl⟩ := Option.map_eq_some_iff.mp hs
    obtain ⟨-, -, rfl⟩ := Log.beginOp_eq_some.mp hlog
    exact ⟨rfl, rfl⟩
  | bread p b =>
    simp only [Machine.step] at hs
    split_ifs at hs
    obtain ⟨dev, -, rfl⟩ := Option.map_eq_some_iff.mp hs
    exact ⟨rfl, rfl⟩
  | write p b x =>
    simp only [Machine.step] at hs
    split_ifs at hs
    cases hlog : Log.logWrite s.log b with
    | error m => simp [hlog] at hs
    | ok r =>
      simp only [hlog, Option.some.injEq] at hs
      subst hs
      obtain ⟨-, -, -, hframe, -⟩ := Log.logWrite_eq_ok hlog
      exact ⟨by rw [hframe], by rw [hframe]⟩
  | brelse p b | evict b =>
    simp only [Machine.step] at hs
    obtain ⟨dev, -, rfl⟩ := Option.map_eq_some_iff.mp hs
    exact ⟨rfl, rfl⟩
  | endOp p =>
    simp only [Machine.step] at hs
    split_ifs at hs
    cases hlog : Log.endOp s.log with
    | error m => simp [hlog] at hs
    | ok r =>
      simp only [hlog, Option.some.injEq] at hs
      subst hs
      unfold Log.endOp at hlog
      dsimp only at hlog
      split_ifs at hlog <;> obtain rfl := Except.ok.inj hlog <;> exact ⟨rfl, rfl⟩
  | commit =>
    simp only [Machine.step, Machine.commit] at hs
    split at hs
    · split_ifs at hs <;> obtain rfl := Option.some.inj hs <;> exact ⟨rfl, rfl⟩
    · split_ifs at hs <;> obtain rfl := Option.some.inj hs <;> exact ⟨rfl, rfl⟩
    · simp at hs
  | commitReturn | read b =>
    simp only [Machine.step] at hs
    split_ifs at hs
    obtain rfl := Option.some.inj hs
    exact ⟨rfl, rfl⟩
  | crash =>
    obtain rfl := Option.some.inj hs
    exact ⟨rfl, rfl⟩
  | recover =>
    simp only [Machine.step, Machine.recover] at hs
    split at hs
    · obtain rfl := Option.some.inj hs
      exact ⟨rfl, rfl⟩
    · split_ifs at hs <;> obtain rfl := Option.some.inj hs <;> exact ⟨rfl, rfl⟩
    · simp at hs

theorem inv_of_run {start size : ℕ} {D : ℕ → Block} (hsize : 0 < size)
    (hhead : headN (D start) = 0) {tr : List Event} {s : State}
    (hrun : Run Machine.step (init start size D) tr s) :
    Inv D (spec tr) s ∧ s.log.start = start ∧ s.log.size = size := by
  induction hrun with
  | nil => exact ⟨inv_init hsize hhead, rfl, rfl⟩
  | snoc _ hstep ih =>
    obtain ⟨hinv, hstart, hsz⟩ := ih
    obtain ⟨h1, h2⟩ := step_geometry hstep
    refine ⟨?_, h1.trans hstart, h2.trans hsz⟩
    rw [spec_concat]
    exact hinv.step hstep

/-! ## The groups of a run -/

/-- The logged writes of a run, in the order of the `log_write` calls. -/
def writes (tr : List Event) : List (ℕ × Block) :=
  tr.filterMap fun e => match e with
    | .write _ b x => some (b, x)
    | _ => none

/-- Groups and the open group are the logged writes, cut where no operation
was open. -/
theorem writes_eq (tr : List Event) :
    writes tr = (spec tr).groups.flatten ++ (spec tr).cur := by
  induction tr using List.reverseRecOn with
  | nil => rfl
  | append_singleton tr e ih =>
    rw [writes, List.filterMap_append, ← writes, ih, spec_concat]
    cases e with
    | write p b x => simp [Spec.step]
    | endOp p =>
      simp only [Spec.step, List.filterMap_cons, List.filterMap_nil, List.append_nil]
      split_ifs <;> simp
    | _ => simp [Spec.step]

/-- The first `k` groups are all the writes of a prefix of the run at whose end
no operation is open. -/
theorem exists_prefix_of_take (tr : List Event) {k : ℕ} (hk : k ≤ (spec tr).groups.length) :
    ∃ pre, pre <+: tr ∧ (spec pre).openOps = ∅ ∧
      writes pre = ((spec tr).groups.take k).flatten := by
  induction tr using List.reverseRecOn generalizing k with
  | nil =>
    refine ⟨[], List.prefix_rfl, rfl, ?_⟩
    simp [writes, spec, Spec.init]
  | append_singleton tr e ih =>
    by_cases hold : k ≤ (spec tr).groups.length
    · obtain ⟨pre, hpre, hopen, hw⟩ := ih hold
      refine ⟨pre, hpre.trans (List.prefix_append tr [e]), hopen, hw.trans ?_⟩
      have hgroups : (spec tr).groups <+: (spec (tr ++ [e])).groups := by
        rw [spec_concat]
        cases e with
        | endOp p =>
          simp only [Spec.step]
          split_ifs
          · exact List.prefix_append _ _
          · exact List.prefix_rfl
        | _ => exact List.prefix_rfl
      obtain ⟨rest, hrest⟩ := hgroups
      rw [← hrest, List.take_append_of_le_length hold]
    · -- the last event closed a group, and `k` counts it
      cases e with
      | endOp p =>
        rw [spec_concat] at hk
        simp only [Spec.step] at hk
        split_ifs at hk with hempty
        · have hall : k = ((spec tr).groups ++ [(spec tr).cur]).length := by
            simp at hk ⊢
            omega
          have hstep : spec (tr ++ [.endOp p]) =
              { spec tr with openOps := ∅, cur := [],
                             groups := (spec tr).groups ++ [(spec tr).cur] } := by
            simp [Spec.step, hempty]
          refine ⟨tr ++ [.endOp p], List.prefix_rfl, by rw [hstep], ?_⟩
          rw [writes_eq, hstep, hall, List.take_length, List.append_nil]
        · exact absurd hk hold
      | _ => exact absurd (by simpa [Spec.step] using hk) hold

/-- **Crash atomicity.**  However the operations interleave and wherever the
machine crashes, also while it recovers, the home blocks after the last
recovery are those of the initial disk with the first `k` groups replayed
whole and in order.  Every group whose `commit` had returned is among them,
and they are all the writes of a prefix of the run at whose end no operation
was open.  The log is empty again. -/
theorem crash_atomicity {start size : ℕ} {D : ℕ → Block} (hsize : 0 < size)
    (hhead : headN (D start) = 0) {tr : List Event} {s : State}
    (hrun : Run step (init start size D) tr s) (hrec : s.phase = .recovered) :
    ∃ k, (spec tr).returned ≤ k ∧ k ≤ (spec tr).groups.length ∧
      (∀ b, b < start ∨ start + size ≤ b →
        s.dev.disk b = replay D ((spec tr).groups.take k).flatten b) ∧
      (∃ pre, pre <+: tr ∧ (spec pre).openOps = ∅ ∧
        writes pre = ((spec tr).groups.take k).flatten) ∧
      headN (s.dev.disk start) = 0 := by
  obtain ⟨hinv, hstart, hsz⟩ := inv_of_run hsize hhead hrun
  unfold Inv at hinv
  rw [hrec] at hinv
  obtain ⟨k, hr, hzero⟩ := hinv
  rw [hstart] at hzero
  refine ⟨k, hr.returned_le, hr.le_groups, ?_, exists_prefix_of_take tr hr.le_groups, hzero⟩
  intro b hb
  apply hr.recoverable.home b
  · simp only [inLog, hstart, hsz]
    omega
  · intro i hi
    rw [hstart, hzero] at hi
    omega

/-- One operation that logs block 50, cut off after its header is on the disk;
the first recovery is cut off after its only block copy. -/
def crashTrace : List Event :=
  [.beginOp 1, .bread 1 50, .write 1 50 (fun _ => 7), .brelse 1 50, .endOp 1, .commit, .commit,
    .crash, .recover, .recover, .crash, .recover, .recover, .recover]

theorem crash_atomicity_crashTrace :
    ∃ s, Run step (init 2 30 fun _ _ => 0) crashTrace s ∧ s.phase = .recovered ∧
      ∃ k, (spec crashTrace).returned ≤ k ∧ k ≤ (spec crashTrace).groups.length ∧
        (∀ b, b < 2 ∨ 2 + 30 ≤ b →
          s.dev.disk b = replay (fun _ _ => 0) ((spec crashTrace).groups.take k).flatten b) ∧
        (∃ pre, pre <+: crashTrace ∧ (spec pre).openOps = ∅ ∧
          writes pre = ((spec crashTrace).groups.take k).flatten) ∧
        headN (s.dev.disk 2) = 0 := by
  have hphase : (crashTrace.foldlM step (init 2 30 fun _ _ => 0)).map State.phase =
      some .recovered := by decide +kernel
  obtain ⟨s, hs, hsp⟩ := Option.map_eq_some_iff.mp hphase
  have hrun := Run.iff_foldlM.mpr hs
  have hhead : headN ((fun _ _ => 0 : ℕ → Block) 2) = 0 := getWord_zero 4 0
  exact ⟨s, hrun, hsp, crash_atomicity (by decide) hhead hrun hsp⟩

end Xv6.Log.Machine
