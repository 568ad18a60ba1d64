import Xv6.Log.Basic
import Xv6.Lib.Run

/-!
# Log space reservation

`begin_op` admits an operation only while `LOGSIZE` leaves room for
`MAXOPBLOCKS` blocks of every outstanding one; `log_write` refuses a block
when the slots of the log area are used up.  The system below interleaves any
number of operations and keeps, as bookkeeping of the specification, the set
of distinct blocks each running operation has logged.
-/

namespace Xv6.Log.Reservation

open Lib
open Function (update update_self update_of_ne)

/-- The number of log blocks in the superblock that `mkfs` writes. -/
def nlog : ℕ := LOGSIZE

/-- The data blocks a log area of `size` blocks holds beside its header. -/
def dataBlocks (size : ℕ) : ℕ := size - 1

inductive Event
  | beginOp (p : ℕ)
  | logWrite (p b : ℕ)
  | endOp (p : ℕ)
  | commit

structure Sys where
  log : Log
  active : Finset ℕ
  wrote : ℕ → Finset ℕ
  panicked : Option Panic

/-- The log after `initlog` has recovered a log area of `mkfs`'s size. -/
def init (start : ℕ) : Sys where
  log := { start := start, size := nlog, outstanding := 0, committing := false,
           lh := { n := 0, block := fun _ => 0 } }
  active := ∅
  wrote := fun _ => ∅
  panicked := none

/-- One critical section of `log.lock`, or the whole of `commit`.  An operation
that would log more than `budget` distinct blocks is not part of the system.
Nothing happens after a panic. -/
def step (budget : ℕ) (s : Sys) (e : Event) : Option Sys :=
  if s.panicked.isSome then none else
  match e with
  | .beginOp p =>
    if p ∈ s.active then none else
    (Log.beginOp s.log).map fun log =>
      { s with log := log, active := insert p s.active,
               wrote := update s.wrote p ∅ }
  | .logWrite p b =>
    if p ∉ s.active ∨ budget < (insert b (s.wrote p)).card then none else
    match Log.logWrite s.log b with
    | .error m => some { s with panicked := some m }
    | .ok (log, _) =>
      some { s with log := log, wrote := update s.wrote p (insert b (s.wrote p)) }
  | .endOp p =>
    if p ∉ s.active then none else
    match Log.endOp s.log with
    | .error m => some { s with panicked := some m }
    | .ok (log, _) => some { s with log := log, active := s.active.erase p }
  | .commit =>
    -- `commit` runs without `log.lock`, but `committing` keeps everyone else out.
    if s.log.committing then
      some { s with log := { s.log with lh := { s.log.lh with n := 0 }, committing := false } }
    else none

/-- The open operations and the distinct blocks of the current commit group,
as the events alone determine them: a group closes when no operation is open. -/
def groupStep (g : ℕ × Finset ℕ) : Event → ℕ × Finset ℕ
  | .beginOp _ => (g.1 + 1, g.2)
  | .logWrite _ b => (g.1, insert b g.2)
  | .endOp _ => if g.1 - 1 = 0 then (0, ∅) else (g.1 - 1, g.2)
  | .commit => g

def group (tr : List Event) : ℕ × Finset ℕ := tr.foldl groupStep (0, ∅)

/-- The distinct blocks logged by the operations of the current group. -/
def groupBlocks (tr : List Event) : Finset ℕ := (group tr).2

@[simp] theorem group_concat (tr : List Event) (e : Event) :
    group (tr ++ [e]) = groupStep (group tr) e := by
  simp [group]

/-! ## What a step can do -/

section Steps

variable {budget p b : ℕ} {s s' : Sys} (hp : s.panicked = none)

include hp

theorem step_beginOp (hs : step budget s (.beginOp p) = some s') :
    p ∉ s.active ∧ s.log.committing = false ∧
      s.log.lh.n + (s.log.outstanding + 1) * MAXOPBLOCKS ≤ LOGSIZE ∧
        s' = { log := { s.log with outstanding := s.log.outstanding + 1 }
               active := insert p s.active
               wrote := update s.wrote p ∅
               panicked := none } := by
  simp only [step, hp, Option.isSome_none, Bool.false_eq_true, if_false] at hs
  split_ifs at hs with hmem
  obtain ⟨log, hlog, rfl⟩ := Option.map_eq_some_iff.mp hs
  obtain ⟨hc, hroom, rfl⟩ := Log.beginOp_eq_some.mp hlog
  exact ⟨hmem, hc, hroom, rfl⟩

theorem step_logWrite (hs : step budget s (.logWrite p b) = some s') :
    p ∈ s.active ∧ (insert b (s.wrote p)).card ≤ budget ∧
      ((∃ m, Log.logWrite s.log b = .error m ∧ s' = { s with panicked := some m }) ∨
        ∃ log pin, Log.logWrite s.log b = .ok (log, pin) ∧
          s' = { log := log
                 active := s.active
                 wrote := update s.wrote p (insert b (s.wrote p))
                 panicked := none }) := by
  simp only [step, hp, Option.isSome_none, Bool.false_eq_true, if_false] at hs
  split_ifs at hs with hguard
  simp only [not_or, not_not, not_lt] at hguard
  refine ⟨hguard.1, hguard.2, ?_⟩
  cases hlog : Log.logWrite s.log b with
  | error m =>
    simp only [hlog, Option.some.injEq] at hs
    exact Or.inl ⟨m, rfl, by rw [← hs]⟩
  | ok r =>
    simp only [hlog, Option.some.injEq] at hs
    exact Or.inr ⟨r.1, r.2, rfl, hs.symm⟩

theorem step_endOp (hc : s.log.committing = false) (hs : step budget s (.endOp p) = some s') :
    p ∈ s.active ∧
      s' = { log := if s.log.outstanding - 1 = 0 then
                 { s.log with outstanding := 0, committing := true }
               else { s.log with outstanding := s.log.outstanding - 1 }
             active := s.active.erase p
             wrote := s.wrote
             panicked := none } := by
  simp only [step, hp, Option.isSome_none, Bool.false_eq_true, if_false] at hs
  split_ifs at hs with hmem
  rw [(Log.endOp_eq_ok hc).mpr rfl] at hs
  refine ⟨by simpa using hmem, ?_⟩
  split_ifs at hs ⊢ <;> exact (Option.some.inj hs).symm

theorem step_commit (hs : step budget s .commit = some s') :
    s.log.committing = true ∧
      s' = { log := { s.log with lh := { s.log.lh with n := 0 }, committing := false }
             active := s.active
             wrote := s.wrote
             panicked := none } := by
  simp only [step, hp, Option.isSome_none, Bool.false_eq_true, if_false] at hs
  split_ifs at hs with hc
  exact ⟨hc, (Option.some.inj hs).symm⟩

end Steps

/-! ## The invariant -/

/-- How the log relates to the events so far. -/
structure Inv (tr : List Event) (s : Sys) : Prop where
  size_eq : s.log.size = nlog
  outstanding_eq : s.log.outstanding = s.active.card
  open_eq : (group tr).1 = s.active.card
  nodup : s.log.lh.blocks.Nodup
  blocks_eq : s.log.committing = false → s.log.lh.blocks.toFinset = groupBlocks tr
  idle : s.log.committing = false → s.active = ∅ → s.log.lh.n = 0
  committing_idle : s.log.committing = true → s.active = ∅ ∧ groupBlocks tr = ∅
  wrote_sub : ∀ p ∈ s.active, s.wrote p ⊆ groupBlocks tr
  fits : s.log.lh.n ≤ dataBlocks nlog
  not_panicked : s.panicked = none

theorem inv_init (start : ℕ) : Inv [] (init start) where
  size_eq := rfl
  outstanding_eq := rfl
  open_eq := rfl
  nodup := List.nodup_nil
  blocks_eq := fun _ => rfl
  idle := fun _ _ => rfl
  committing_idle := fun h => by simp [init] at h
  wrote_sub := fun p hp => by simp [init] at hp
  fits := Nat.zero_le _
  not_panicked := rfl

section Preservation

variable {budget p b : ℕ} {tr : List Event} {s s' : Sys} (h : Inv tr s)

include h

theorem Inv.n_eq (hc : s.log.committing = false) : s.log.lh.n = (groupBlocks tr).card := by
  rw [← h.blocks_eq hc, List.toFinset_card_of_nodup h.nodup, LogHeader.length_blocks]

theorem Inv.not_committing (hp : p ∈ s.active) : s.log.committing = false := by
  by_contra hc
  have := (h.committing_idle (by simpa using hc)).1
  simp [this] at hp

theorem inv_beginOp (hs : step budget s (.beginOp p) = some s') :
    Inv (tr ++ [.beginOp p]) s' := by
  obtain ⟨hp, hc, -, rfl⟩ := step_beginOp h.not_panicked hs
  have hcard : (insert p s.active).card = s.active.card + 1 := Finset.card_insert_of_notMem hp
  have hgroup : groupBlocks (tr ++ [.beginOp p]) = groupBlocks tr := by
    simp [groupBlocks, groupStep]
  refine ⟨h.size_eq, by simp [h.outstanding_eq, hcard], ?_, h.nodup, ?_, ?_, ?_, ?_, h.fits, rfl⟩
  · simp [groupStep, h.open_eq, hcard]
  · intro _
    rw [hgroup]
    exact h.blocks_eq hc
  · intro _ hempty
    simp at hempty
  · intro hc'
    simp [hc] at hc'
  · intro q hq
    rw [hgroup]
    by_cases hqp : q = p
    · subst hqp
      simp
    · simp only [update_of_ne hqp]
      exact h.wrote_sub q ((Finset.mem_insert.mp hq).resolve_left hqp)

theorem inv_endOp (hs : step budget s (.endOp p) = some s') : Inv (tr ++ [.endOp p]) s' := by
  have hp : p ∈ s.active := by
    by_contra hp
    simp [step, h.not_panicked, hp] at hs
  have hc := h.not_committing hp
  obtain ⟨-, rfl⟩ := step_endOp h.not_panicked hc hs
  have hcard := Finset.card_erase_of_mem hp
  rw [h.outstanding_eq]
  by_cases hlast : s.active.card - 1 = 0
  · have hempty : s.active.erase p = ∅ := by
      rw [← Finset.card_eq_zero, hcard, hlast]
    have hgroup : group (tr ++ [.endOp p]) = (0, ∅) := by
      simp [groupStep, h.open_eq, hlast]
    rw [if_pos hlast]
    refine ⟨h.size_eq, by simp [hempty], by simp [hgroup, hempty], h.nodup, ?_, ?_, ?_, ?_,
      h.fits, rfl⟩
    · intro hc'
      simp at hc'
    · intro hc'
      simp at hc'
    · intro _
      exact ⟨hempty, by simp [groupBlocks, hgroup]⟩
    · intro q hq
      simp [hempty] at hq
  · have hgroup : group (tr ++ [.endOp p]) = ((group tr).1 - 1, (group tr).2) := by
      simp [groupStep, h.open_eq, hlast]
    rw [if_neg hlast]
    refine ⟨h.size_eq, by simp [hcard], by simp [hgroup, hcard, h.open_eq], h.nodup, ?_, ?_, ?_, ?_,
      h.fits, rfl⟩
    · intro _
      simpa [groupBlocks, hgroup] using h.blocks_eq hc
    · intro _ hempty
      simp only at hempty
      simp [hempty] at hcard
      omega
    · intro hc'
      simp [hc] at hc'
    · intro q hq
      simpa [groupBlocks, hgroup] using h.wrote_sub q (Finset.mem_of_mem_erase hq)

theorem inv_commit (hs : step budget s .commit = some s') : Inv (tr ++ [.commit]) s' := by
  obtain ⟨hc, rfl⟩ := step_commit h.not_panicked hs
  obtain ⟨hactive, hblocks⟩ := h.committing_idle hc
  have hgroup : group (tr ++ [.commit]) = group tr := by simp [groupStep]
  refine ⟨h.size_eq, h.outstanding_eq, by rw [hgroup]; exact h.open_eq, List.nodup_nil, ?_,
    fun _ _ => rfl, ?_, ?_, Nat.zero_le _, rfl⟩
  · intro _
    simp [LogHeader.blocks, groupBlocks, hgroup] at hblocks ⊢
    exact hblocks.symm
  · intro hc'
    simp at hc'
  · intro q hq
    simp [hactive] at hq

/-- A `log_write` is refused exactly when the group already fills the log area;
otherwise the invariant goes on. -/
theorem inv_logWrite (hs : step budget s (.logWrite p b) = some s') :
    (dataBlocks nlog ≤ (groupBlocks tr).card ∧
        s' = { s with panicked := some "too big a transaction" }) ∨
      ((groupBlocks tr).card < dataBlocks nlog ∧ Inv (tr ++ [.logWrite p b]) s') := by
  obtain ⟨hp, -, hcall⟩ := step_logWrite h.not_panicked hs
  have hc := h.not_committing hp
  have hout : 0 < s.log.outstanding := by
    rw [h.outstanding_eq]
    exact Finset.card_pos.mpr ⟨p, hp⟩
  have hn := h.n_eq hc
  have hsize : s.log.size - 1 = dataBlocks nlog := by rw [h.size_eq, dataBlocks]
  have hnlog : dataBlocks nlog < LOGSIZE := by decide
  rcases hcall with ⟨m, hlog, rfl⟩ | ⟨log', pin, hlog, rfl⟩
  · left
    have hfull : dataBlocks nlog ≤ (groupBlocks tr).card := by
      by_contra hlt
      obtain ⟨r, hr⟩ := Log.logWrite_isOk (b := b) (by omega) (by omega) hout
      simp [hr] at hlog
    refine ⟨hfull, ?_⟩
    unfold Log.logWrite at hlog
    rw [if_pos (by omega)] at hlog
    rw [← Except.error.inj hlog]
  · right
    obtain ⟨-, hlt, -, hframe, hcases⟩ := Log.logWrite_eq_ok hlog
    refine ⟨by omega, ?_⟩
    have hgroup : groupBlocks (tr ++ [.logWrite p b]) = insert b (groupBlocks tr) := by
      simp [groupBlocks, groupStep]
    have hblocks : log'.lh.blocks.toFinset = insert b (groupBlocks tr) := by
      rw [← h.blocks_eq hc]
      rcases hcases with ⟨hmem, -, heq⟩ | ⟨-, -, heq⟩
      · rw [heq, Finset.insert_eq_self.mpr (by simpa using hmem)]
      · rw [heq]
        ext x
        simp
    have hnodup : log'.lh.blocks.Nodup := by
      rcases hcases with ⟨-, -, heq⟩ | ⟨hmem, -, heq⟩
      · rw [heq]
        exact h.nodup
      · rw [heq, ← List.concat_eq_append]
        exact h.nodup.concat hmem
    have hcommitting : log'.committing = false := by
      rw [hframe]
      exact hc
    refine ⟨by rw [hframe]; exact h.size_eq, by rw [hframe]; exact h.outstanding_eq,
      by simpa [groupStep] using h.open_eq, hnodup, fun _ => hblocks.trans hgroup.symm, ?_, ?_, ?_,
      ?_, rfl⟩
    · intro _ hempty
      simp only at hempty
      simp [hempty] at hp
    · intro hc'
      simp [hcommitting] at hc'
    · intro q hq
      rw [hgroup]
      by_cases hqp : q = p
      · subst hqp
        simpa using Finset.insert_subset_insert b (h.wrote_sub q hq)
      · simpa [update_of_ne hqp] using
          (h.wrote_sub q hq).trans (Finset.subset_insert b _)
    · change log'.lh.n ≤ dataBlocks nlog
      have hlen := LogHeader.length_blocks log'.lh
      rcases hcases with ⟨-, -, heq⟩ | ⟨-, -, heq⟩
      · rw [heq, LogHeader.length_blocks] at hlen
        omega
      · rw [heq, List.length_append, LogHeader.length_blocks, List.length_singleton] at hlen
        omega

theorem step_cases {e : Event} (hs : step budget s e = some s') :
    Inv (tr ++ [e]) s' ∨
      ∃ p b, e = .logWrite p b ∧ dataBlocks nlog ≤ (groupBlocks tr).card ∧
        s' = { s with panicked := some "too big a transaction" } := by
  cases e with
  | beginOp p => exact Or.inl (inv_beginOp h hs)
  | logWrite p b =>
    rcases inv_logWrite h hs with ⟨hfull, rfl⟩ | ⟨-, hinv⟩
    · exact Or.inr ⟨p, b, rfl, hfull, rfl⟩
    · exact Or.inl hinv
  | endOp p => exact Or.inl (inv_endOp h hs)
  | commit => exact Or.inl (inv_commit h hs)

end Preservation

/-- What every run looks like: either the invariant still holds, or the last
event was a `log_write` into a full log area. -/
theorem run_cases {budget start : ℕ} {tr : List Event} {s : Sys}
    (hrun : Run (step budget) (init start) tr s) :
    Inv tr s ∨
      (s.panicked = some "too big a transaction" ∧
        ∃ pre p b, tr = pre ++ [.logWrite p b] ∧ dataBlocks nlog ≤ (groupBlocks pre).card) := by
  induction hrun with
  | nil => exact Or.inl (inv_init start)
  | snoc _ hstep ih =>
    rcases ih with hinv | ⟨hpanic, -⟩
    · rcases step_cases hinv hstep with hinv' | ⟨p, b, rfl, hfull, rfl⟩
      · exact Or.inl hinv'
      · exact Or.inr ⟨rfl, _, p, b, rfl, hfull⟩
    · simp [step, hpanic] at hstep

/-- No `log_write` has been refused and the header fits the log area. -/
def Safe (s : Sys) : Prop :=
  s.panicked ≠ some "too big a transaction" ∧ s.log.lh.n ≤ dataBlocks nlog

/-- In a run of operations that each log at most `MAXOPBLOCKS` distinct blocks,
the log never overflows exactly when every `log_write` comes while the
operations of its commit group have logged fewer distinct blocks than the log
area holds. -/
theorem safe_iff_group_below {start : ℕ} {tr : List Event} {s : Sys}
    (hrun : Run (step MAXOPBLOCKS) (init start) tr s) :
    (∀ pre t, pre <+: tr → Run (step MAXOPBLOCKS) (init start) pre t → Safe t) ↔
      ∀ pre p b, pre ++ [.logWrite p b] <+: tr →
        (groupBlocks pre).card < dataBlocks nlog := by
  constructor
  · intro hsafe pre p b hpre
    obtain ⟨u, hu⟩ := hrun.exists_of_prefix hpre
    obtain ⟨t, ht, hstep⟩ := Run.snoc_iff.mp hu
    rcases run_cases ht with hinv | ⟨hpanic, -⟩
    · rcases inv_logWrite hinv hstep with ⟨-, rfl⟩ | ⟨hlt, -⟩
      · exact absurd rfl (hsafe _ _ hpre hu).1
      · exact hlt
    · simp [step, hpanic] at hstep
  · intro hgroup pre t hpre ht
    rcases run_cases ht with hinv | ⟨-, pre', p, b, rfl, hfull⟩
    · exact ⟨by simp [hinv.not_panicked], hinv.fits⟩
    · exact absurd (hgroup pre' p b hpre) (by omega)

/-- A run of one operation that logs one block twice satisfies both sides. -/
theorem safe_single_operation :
    ∃ s, Run (step MAXOPBLOCKS) (init 2)
        [.beginOp 7, .logWrite 7 46, .logWrite 7 46, .endOp 7, .commit] s ∧
      ∀ pre t, pre <+: [.beginOp 7, .logWrite 7 46, .logWrite 7 46, .endOp 7, .commit] →
        Run (step MAXOPBLOCKS) (init 2) pre t → Safe t := by
  have hsome : ([.beginOp 7, .logWrite 7 46, .logWrite 7 46, .endOp 7, .commit].foldlM
      (step MAXOPBLOCKS) (init 2)).isSome = true := by decide +kernel
  obtain ⟨s, hs⟩ := Option.isSome_iff_exists.mp hsome
  have hrun := Run.iff_foldlM.mpr hs
  refine ⟨s, hrun, (safe_iff_group_below hrun).mpr ?_⟩
  intro pre p b hpre
  have hlen : pre.length < 5 := by simpa using hpre.length_le
  have htake := List.prefix_iff_eq_take.mp ((List.prefix_append pre _).trans hpre)
  rw [htake]
  interval_cases pre.length <;> decide +kernel

/-- Three overlapping operations of ten distinct blocks each. -/
def threeMaximal : List Event :=
  [.beginOp 0, .beginOp 1, .beginOp 2] ++
    (List.range 30).map fun b => .logWrite (b / 10) (100 + b)

/-- The admission test lets the three operations in together, and the thirtieth
block no longer fits the twenty-nine data blocks of the log area. -/
theorem threeMaximal_not_safe :
    ¬ ∀ start tr s, Run (step MAXOPBLOCKS) (init start) tr s → Safe s := by
  intro h
  have hpanic : ((threeMaximal.foldlM (step MAXOPBLOCKS) (init 2)).map Sys.panicked) =
      some (some "too big a transaction") := by decide +kernel
  obtain ⟨s, hs, hsp⟩ := Option.map_eq_some_iff.mp hpanic
  exact (h 2 threeMaximal s (Run.iff_foldlM.mpr hs)).1 hsp

/-! ## What the reservation does guarantee -/

/-- The slots still reserved for running operations, at `budget` each. -/
def reserved (budget : ℕ) (s : Sys) : ℕ :=
  ∑ p ∈ s.active, (budget - (s.wrote p).card)

section Reserved

variable {budget p b : ℕ} {tr : List Event} {s s' : Sys} (h : Inv tr s)

include h

theorem reserved_beginOp (hbudget : budget ≤ MAXOPBLOCKS)
    (hs : step budget s (.beginOp p) = some s') :
    s'.log.lh.n + reserved budget s' ≤ MAXOPBLOCKS + 2 * budget := by
  obtain ⟨hp, hc, hroom, rfl⟩ := step_beginOp h.not_panicked hs
  rw [h.outstanding_eq] at hroom
  have hsum : ∑ q ∈ insert p s.active, (budget - (update s.wrote p ∅ q).card) ≤
      (s.active.card + 1) * budget := by
    rw [← Finset.card_insert_of_notMem hp, ← smul_eq_mul]
    exact Finset.sum_le_card_nsmul _ _ _ fun q _ => Nat.sub_le _ _
  refine (Nat.add_le_add_left hsum _).trans ?_
  change s.log.lh.n + (s.active.card + 1) * budget ≤ MAXOPBLOCKS + 2 * budget
  simp only [MAXOPBLOCKS, LOGSIZE] at hroom hbudget ⊢
  rcases Nat.eq_zero_or_pos s.active.card with hzero | hpos
  · rw [h.idle hc (Finset.card_eq_zero.mp hzero), hzero]
    omega
  · -- at most three operations fit, so there are one or two others
    have hle : s.active.card ≤ 2 := by omega
    interval_cases s.active.card <;> omega

/-- A block that is new to the operation uses one of its reserved slots; a
block it has logged before is absorbed. -/
theorem reserved_logWrite (hs : step budget s (.logWrite p b) = some s')
    (hs' : Inv (tr ++ [.logWrite p b]) s') :
    s'.log.lh.n + reserved budget s' ≤ s.log.lh.n + reserved budget s := by
  obtain ⟨hp, hcard, ⟨m, -, rfl⟩ | ⟨log', pin, -, rfl⟩⟩ := step_logWrite h.not_panicked hs
  · exact absurd hs'.not_panicked (by simp)
  have hn := h.n_eq (h.not_committing hp)
  have hn' := hs'.n_eq (hs'.not_committing hp)
  have hgroup : groupBlocks (tr ++ [.logWrite p b]) = insert b (groupBlocks tr) := by
    simp [groupBlocks, groupStep]
  rw [hgroup] at hn'
  have hothers : ∑ q ∈ s.active.erase p,
      (budget - (update s.wrote p (insert b (s.wrote p)) q).card) =
        ∑ q ∈ s.active.erase p, (budget - (s.wrote q).card) := by
    apply Finset.sum_congr rfl
    intro q hq
    rw [update_of_ne (Finset.ne_of_mem_erase hq)]
  have hsplit : ∀ w : ℕ → Finset ℕ, ∑ q ∈ s.active, (budget - (w q).card) =
      (budget - (w p).card) + ∑ q ∈ s.active.erase p, (budget - (w q).card) :=
    fun w => (Finset.add_sum_erase s.active _ hp).symm
  simp only [reserved] at hn' ⊢
  rw [hsplit s.wrote, hsplit (update _ _ _), hothers, update_self, hn, hn']
  by_cases hb : b ∈ s.wrote p
  · rw [Finset.insert_eq_self.mpr hb, Finset.insert_eq_self.mpr (h.wrote_sub p hp hb)]
  · have hle := Finset.card_insert_le b (groupBlocks tr)
    rw [Finset.card_insert_of_notMem hb] at hcard ⊢
    omega

theorem reserved_endOp (hs : step budget s (.endOp p) = some s') :
    s'.log.lh.n + reserved budget s' ≤ s.log.lh.n + reserved budget s := by
  have hp : p ∈ s.active := by
    by_contra hp
    simp [step, h.not_panicked, hp] at hs
  obtain ⟨-, rfl⟩ := step_endOp h.not_panicked (h.not_committing hp) hs
  apply Nat.add_le_add
  · split_ifs <;> exact le_rfl
  · exact Finset.sum_le_sum_of_subset (Finset.erase_subset p s.active)

end Reserved

/-- Recorded and reserved slots together never exceed the share that the
admission test leaves to operations of at most `budget` blocks. -/
theorem reserved_le {budget start : ℕ} (hbudget : budget ≤ MAXOPBLOCKS) {tr : List Event} {s : Sys}
    (hrun : Run (step budget) (init start) tr s) (hok : s.panicked = none) :
    s.log.lh.n + reserved budget s ≤ MAXOPBLOCKS + 2 * budget := by
  induction hrun with
  | nil => simp [init, reserved]
  | @snoc tr t u e hrun hstep ih =>
    have ht : t.panicked = none := by
      by_contra hpanic
      simp [step, Option.isSome_iff_ne_none.mpr hpanic] at hstep
    have hinv : Inv tr t := by
      rcases run_cases hrun with hinv | ⟨hpanic, -⟩
      · exact hinv
      · simp [ht] at hpanic
    cases e with
    | beginOp p => exact reserved_beginOp hinv hbudget hstep
    | logWrite p b =>
      rcases inv_logWrite hinv hstep with ⟨-, rfl⟩ | ⟨-, hinv'⟩
      · simp at hok
      · exact (reserved_logWrite hinv hstep hinv').trans (ih ht)
    | endOp p => exact (reserved_endOp hinv hstep).trans (ih ht)
    | commit =>
      obtain ⟨-, rfl⟩ := step_commit hinv.not_panicked hstep
      have := ih ht
      simp only [reserved] at this ⊢
      omega

/-- Operations that keep one block below the budget `begin_op` reserves for
them never overflow the log. -/
theorem safe_of_one_block_less {start : ℕ} {tr : List Event} {s : Sys}
    (hrun : Run (step (MAXOPBLOCKS - 1)) (init start) tr s) : Safe s := by
  rcases run_cases hrun with hinv | ⟨-, pre, p, b, rfl, hfull⟩
  · exact ⟨by simp [hinv.not_panicked], hinv.fits⟩
  · obtain ⟨t, ht, hstep⟩ := Run.snoc_iff.mp hrun
    rcases run_cases ht with hinv | ⟨hpanic, -⟩
    · obtain ⟨hp, -, -⟩ := step_logWrite hinv.not_panicked hstep
      have hle := reserved_le (by decide) ht hinv.not_panicked
      rw [hinv.n_eq (hinv.not_committing hp)] at hle
      have hdata : dataBlocks nlog = 29 := rfl
      have hbound : MAXOPBLOCKS + 2 * (MAXOPBLOCKS - 1) = 28 := rfl
      omega
    · simp [step, hpanic] at hstep

/-- A run of one operation within the smaller budget. -/
theorem safe_of_one_block_less_single :
    ∃ s, Run (step (MAXOPBLOCKS - 1)) (init 2)
      [.beginOp 7, .logWrite 7 46, .endOp 7, .commit] s ∧ Safe s := by
  have hsome : ([.beginOp 7, .logWrite 7 46, .endOp 7, .commit].foldlM
      (step (MAXOPBLOCKS - 1)) (init 2)).isSome = true := by decide +kernel
  obtain ⟨s, hs⟩ := Option.isSome_iff_exists.mp hsome
  have hrun := Run.iff_foldlM.mpr hs
  exact ⟨s, hrun, safe_of_one_block_less hrun⟩

end Xv6.Log.Reservation
