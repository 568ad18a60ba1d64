import Xv6.Params

/-!
# The in-memory log and its on-disk header

`struct log` and the parts of `log.c` that run under `log.lock`: admission of
an operation, the end of an operation, and recording a block.  The header
block is handled byte by byte, so entries that an earlier transaction left in
it are still there when a shorter one is written.
-/

namespace Xv6

open Lib

/-- `struct logheader`: the entries of `block` at and above `n` are stale. -/
structure LogHeader where
  n : ℕ
  block : ℕ → ℕ

/-- The block numbers recorded so far, in the order of their log slots. -/
def LogHeader.blocks (lh : LogHeader) : List ℕ :=
  (List.range lh.n).map lh.block

@[simp] theorem LogHeader.length_blocks (lh : LogHeader) : lh.blocks.length = lh.n := by
  simp [blocks]

theorem LogHeader.mem_blocks {lh : LogHeader} {b : ℕ} :
    b ∈ lh.blocks ↔ ∃ i < lh.n, lh.block i = b := by
  simp [blocks]

theorem LogHeader.getElem_blocks {lh : LogHeader} {i : ℕ} (h : i < lh.blocks.length) :
    lh.blocks[i] = lh.block i := by
  simp [blocks]

/-- The slot `log_write` uses for block `b`: the one that already holds `b`
(absorption), or the first unused one. -/
def LogHeader.slot (lh : LogHeader) (b : ℕ) : ℕ :=
  ((List.range lh.n).find? fun i => lh.block i = b).getD lh.n

theorem LogHeader.slot_of_mem {lh : LogHeader} {b : ℕ} (h : b ∈ lh.blocks) :
    lh.slot b < lh.n ∧ lh.block (lh.slot b) = b := by
  obtain ⟨i, hi, hib⟩ := mem_blocks.mp h
  unfold slot
  cases hfind : (List.range lh.n).find? fun i => lh.block i = b with
  | none =>
    have := List.find?_eq_none.mp hfind i (List.mem_range.mpr hi)
    simp [hib] at this
  | some j =>
    have hj := List.mem_of_find?_eq_some hfind
    have hjb := List.find?_some hfind
    exact ⟨by simpa using hj, by simpa using hjb⟩

theorem LogHeader.slot_of_not_mem {lh : LogHeader} {b : ℕ} (h : b ∉ lh.blocks) :
    lh.slot b = lh.n := by
  unfold slot
  have hfind : (List.range lh.n).find? (fun i => lh.block i = b) = none := by
    apply List.find?_eq_none.mpr
    intro i hi hib
    exact h (mem_blocks.mpr ⟨i, by simpa using hi, by simpa using hib⟩)
  rw [hfind]
  rfl

/-- `struct log`, without its spin lock and device number. -/
structure Log where
  start : ℕ
  size : ℕ
  outstanding : ℕ
  committing : Bool
  lh : LogHeader

namespace Log

def beginOp (log : Log) : Option Log :=
  if log.committing then none
  else if log.lh.n + (log.outstanding + 1) * MAXOPBLOCKS > LOGSIZE then none
  else some { log with outstanding := log.outstanding + 1 }

/-- The first critical section of `end_op`; the flag is `do_commit`. -/
def endOp (log : Log) : Except Panic (Log × Bool) :=
  let log := { log with outstanding := log.outstanding - 1 }
  if log.committing then .error "log.committing"
  else if log.outstanding = 0 then .ok ({ log with committing := true }, true)
  else .ok (log, false)

def logWrite (log : Log) (b : ℕ) : Except Panic (Log × Bool) :=
  if log.lh.n ≥ LOGSIZE ∨ log.lh.n ≥ log.size - 1 then .error "too big a transaction"
  else if log.outstanding < 1 then .error "log_write outside of trans"
  else
    let i := log.lh.slot b
    let lh := { log.lh with block := Function.update log.lh.block i b }
    if i = lh.n then .ok ({ log with lh := { lh with n := lh.n + 1 } }, true)
    else .ok ({ log with lh := lh }, false)

/-! ## What one call does -/

theorem beginOp_eq_some {log log' : Log} :
    beginOp log = some log' ↔
      log.committing = false ∧
        log.lh.n + (log.outstanding + 1) * MAXOPBLOCKS ≤ LOGSIZE ∧
          log' = { log with outstanding := log.outstanding + 1 } := by
  unfold beginOp
  split_ifs with hc hn
  · simp [hc]
  · simp only [false_iff]
    omega
  · simp only [Option.some.injEq]
    constructor
    · rintro rfl
      exact ⟨by simpa using hc, by omega, rfl⟩
    · rintro ⟨-, -, rfl⟩
      rfl

theorem endOp_eq_ok {log : Log} {r : Log × Bool} (hc : log.committing = false) :
    endOp log = .ok r ↔
      r = if log.outstanding - 1 = 0 then
        ({ log with outstanding := 0, committing := true }, true)
      else ({ log with outstanding := log.outstanding - 1 }, false) := by
  unfold endOp
  simp only [hc, Bool.false_eq_true, if_false]
  split_ifs with h
  · simp [h, eq_comm]
  · simp [eq_comm]

/-- A call that passes the two limit tests: the block is absorbed or appended. -/
theorem logWrite_eq_ok {log log' : Log} {b : ℕ} {pin : Bool}
    (h : logWrite log b = .ok (log', pin)) :
    log.lh.n < LOGSIZE ∧ log.lh.n < log.size - 1 ∧ 0 < log.outstanding ∧
      log' = { log with lh := log'.lh } ∧
        ((b ∈ log.lh.blocks ∧ pin = false ∧ log'.lh.blocks = log.lh.blocks) ∨
          (b ∉ log.lh.blocks ∧ pin = true ∧ log'.lh.blocks = log.lh.blocks ++ [b])) := by
  unfold logWrite at h
  dsimp only at h
  split_ifs at h with hbig hout hslot
  · simp only [Except.ok.injEq, Prod.mk.injEq] at h
    obtain ⟨rfl, rfl⟩ := h
    have hmem : b ∉ log.lh.blocks := by
      intro hb
      exact absurd hslot (LogHeader.slot_of_mem hb).1.ne
    refine ⟨by omega, by omega, by omega, rfl, Or.inr ⟨hmem, rfl, ?_⟩⟩
    simp only [LogHeader.blocks, List.range_succ, List.map_append, List.map_cons, List.map_nil]
    rw [LogHeader.slot_of_not_mem hmem, Function.update_self]
    congr 1
    apply List.map_congr_left
    intro i hi
    exact Function.update_of_ne (List.mem_range.mp hi).ne _ _
  · simp only [Except.ok.injEq, Prod.mk.injEq] at h
    obtain ⟨rfl, rfl⟩ := h
    have hmem : b ∈ log.lh.blocks := by
      by_contra hb
      exact hslot (LogHeader.slot_of_not_mem hb)
    refine ⟨by omega, by omega, by omega, rfl, Or.inl ⟨hmem, rfl, ?_⟩⟩
    simp only [LogHeader.blocks]
    congr 1
    rw [Function.update_eq_self_iff]
    exact (LogHeader.slot_of_mem hmem).2.symm

theorem logWrite_isOk {log : Log} {b : ℕ} (hn : log.lh.n < LOGSIZE)
    (hsize : log.lh.n < log.size - 1) (hout : 0 < log.outstanding) :
    ∃ r, logWrite log b = .ok r := by
  unfold logWrite
  rw [if_neg (by omega), if_neg (by omega)]
  dsimp only
  split_ifs <;> exact ⟨_, rfl⟩

end Log

end Xv6
