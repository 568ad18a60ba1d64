import Xv6.Lib.Run

/-!
# Families of processes

What `fork`, `exit` and `wait` are for, without slots, locks or scheduling.  A
process is a number that is used for one life only: it is born of a parent,
may exit with a status, and is then reaped once.  An exiting process leaves its
children to the first process.
-/

namespace Xv6.Proc.Family

open Lib
open Function (update update_self update_of_ne)

inductive Life
  | unborn
  | alive (pid : ℤ) (parent : ℕ)
  | exited (pid : ℤ) (parent : ℕ) (status : ℤ)
  | reaped
  deriving DecidableEq

inductive Event
  | fork (parent child : ℕ) (pid : ℤ)
  | exit (process : ℕ) (status : ℤ)
  | reap (parent child : ℕ) (pid status : ℤ)
  deriving DecidableEq

/-- The process that adopts orphans and never exits. -/
def first : ℕ := 0

def Life.isAlive : Life → Bool
  | .alive _ _ => true
  | _ => false

/-- The life of a process whose parent has been `p` after `p` has exited. -/
def Life.orphan (p : ℕ) : Life → Life
  | .alive pid parent => .alive pid (if parent = p then first else parent)
  | .exited pid parent status => .exited pid (if parent = p then first else parent) status
  | l => l

def step (fam : ℕ → Life) : Event → Option (ℕ → Life)
  | .fork p c pid =>
    if (fam p).isAlive ∧ fam c = .unborn then some (update fam c (.alive pid p)) else none
  | .exit p status =>
    match fam p with
    | .alive pid parent =>
      if p = first then none else
      some (update (fun c => (fam c).orphan p) p (.exited pid parent status))
    | _ => none
  | .reap p c pid status =>
    if (fam p).isAlive ∧ fam c = .exited pid p status then
      some (update fam c .reaped)
    else none

def init (pid : ℤ) : ℕ → Life :=
  update (fun _ => .unborn) first (.alive pid first)

variable {fam fam' : ℕ → Life} {p c x : ℕ} {pid status pid₀ : ℤ} {tr : List Event} {e : Event}

theorem step_fork :
    step fam (.fork p c pid) = some fam' ↔
      (fam p).isAlive ∧ fam c = .unborn ∧ fam' = update fam c (.alive pid p) := by
  rw [step, Option.ite_none_right_eq_some, and_assoc, Option.some_inj, eq_comm (a := fam')]

theorem step_exit :
    step fam (.exit p status) = some fam' ↔
      ∃ pid parent, fam p = .alive pid parent ∧ p ≠ first ∧
        fam' = update (fun c => (fam c).orphan p) p (.exited pid parent status) := by
  cases hp : fam p <;> simp [step, hp, eq_comm (a := fam')]

theorem step_reap :
    step fam (.reap p c pid status) = some fam' ↔
      (fam p).isAlive ∧ fam c = .exited pid p status ∧ fam' = update fam c .reaped := by
  rw [step, Option.ite_none_right_eq_some, and_assoc, Option.some_inj, eq_comm (a := fam')]

def Event.reaps (c : ℕ) : Event → Bool
  | .reap _ c' _ _ => c' = c
  | _ => false

/-- What the events so far must contain for process `c` to be in state `l`. -/
structure Record (tr : List Event) (c : ℕ) (l : Life) : Prop where
  reaps : tr.countP (Event.reaps c) = if l = .reaped then 1 else 0
  alive : ∀ pid parent, l = .alive pid parent → c ≠ first → ∃ x, .fork x c pid ∈ tr
  exited : ∀ pid parent status, l = .exited pid parent status →
    (∃ x, .fork x c pid ∈ tr) ∧ .exit c status ∈ tr

theorem orphan_eq_reaped {l : Life} : l.orphan p = .reaped ↔ l = .reaped := by
  cases l <;> simp [Life.orphan]

theorem Record.orphan {l : Life} (h : Record tr c l) (hc : Event.reaps c e = false) :
    Record (tr ++ [e]) c (l.orphan p) := by
  refine ⟨?_, ?_, ?_⟩
  · simp [List.countP_append, hc, h.reaps, orphan_eq_reaped]
  · intro pid parent hl hne
    cases l with
    | alive pid' parent' =>
      simp only [Life.orphan, Life.alive.injEq] at hl
      obtain ⟨x, hx⟩ := h.alive pid' parent' rfl hne
      exact ⟨x, by simp [← hl.1, hx]⟩
    | _ => simp [Life.orphan] at hl
  · intro pid parent status hl
    cases l with
    | exited pid' parent' status' =>
      simp only [Life.orphan, Life.exited.injEq] at hl
      obtain ⟨⟨x, hx⟩, hexit⟩ := h.exited pid' parent' status' rfl
      exact ⟨⟨x, by simp [← hl.1, hx]⟩, by simp [← hl.2.2, hexit]⟩
    | _ => simp [Life.orphan] at hl

theorem Record.snoc {l : Life} (h : Record tr c l) (hc : Event.reaps c e = false) :
    Record (tr ++ [e]) c l := by
  refine ⟨?_, ?_, ?_⟩
  · simp [List.countP_append, hc, h.reaps]
  · intro pid parent hl hne
    obtain ⟨x, hx⟩ := h.alive pid parent hl hne
    exact ⟨x, List.mem_append_left _ hx⟩
  · intro pid parent status hl
    obtain ⟨⟨x, hx⟩, hexit⟩ := h.exited pid parent status hl
    exact ⟨⟨x, List.mem_append_left _ hx⟩, List.mem_append_left _ hexit⟩

theorem Record.step (h : ∀ c, Record tr c (fam c)) (hstep : step fam e = some fam') (c : ℕ) :
    Record (tr ++ [e]) c (fam' c) := by
  cases e with
  | fork p c' pid =>
    obtain ⟨-, hunborn, rfl⟩ := step_fork.mp hstep
    rcases eq_or_ne c c' with rfl | hne
    · rw [update_self]
      refine ⟨?_, ?_, by simp⟩
      · simpa [List.countP_append, Event.reaps, hunborn] using (h c).reaps
      · intro pid' parent hl _
        exact ⟨p, by simp [(Life.alive.inj hl).1]⟩
    · rw [update_of_ne hne]
      exact (h c).snoc rfl
  | exit p status =>
    obtain ⟨pid, parent, hp, hfirst, rfl⟩ := step_exit.mp hstep
    rcases eq_or_ne c p with rfl | hne
    · rw [update_self]
      refine ⟨?_, by simp, ?_⟩
      · simpa [List.countP_append, Event.reaps, hp] using (h c).reaps
      · intro pid' parent' status' hl
        obtain ⟨rfl, -, rfl⟩ := Life.exited.inj hl
        obtain ⟨x, hx⟩ := (h c).alive pid parent hp hfirst
        exact ⟨⟨x, List.mem_append_left _ hx⟩, by simp⟩
    · rw [update_of_ne hne]
      exact (h c).orphan rfl
  | reap p c' pid status =>
    obtain ⟨-, hexited, rfl⟩ := step_reap.mp hstep
    rcases eq_or_ne c c' with rfl | hne
    · rw [update_self]
      refine ⟨?_, by simp, by simp⟩
      simpa [List.countP_append, Event.reaps, hexited] using (h c).reaps
    · rw [update_of_ne hne]
      exact (h c).snoc (by simpa [Event.reaps] using hne.symm)

theorem record_of_run (hrun : Run Family.step (init pid₀) tr fam) : ∀ c, Record tr c (fam c) := by
  refine hrun.invariant (I := fun tr (fam : ℕ → Life) => ∀ c, Record tr c (fam c)) ?_
    (fun _ _ _ _ h hstep c => Record.step h hstep c)
  intro c
  rcases eq_or_ne c first with rfl | hne
  · exact ⟨by simp [init], by simp, by simp [init]⟩
  · exact ⟨by simp [init, hne], by simp [init, hne], by simp [init, hne]⟩

theorem countP_reaps_le (hrun : Run Family.step (init pid₀) tr fam) (c : ℕ) :
    tr.countP (Event.reaps c) ≤ 1 := by
  rw [(record_of_run hrun c).reaps]
  split_ifs <;> omega

/-- A reaped process had been forked with the pid and had exited with the
status that its reaper learns, and the reaper was its parent. -/
theorem reap_sound {pre post : List Event}
    (hrun : Run Family.step (init pid₀) (pre ++ .reap p c pid status :: post) fam) :
    ∃ fam₀, Run Family.step (init pid₀) pre fam₀ ∧ (fam₀ p).isAlive ∧
      fam₀ c = .exited pid p status ∧ (∃ x, .fork x c pid ∈ pre) ∧ .exit c status ∈ pre := by
  have hpre : pre ++ [.reap p c pid status] <+: pre ++ .reap p c pid status :: post := by simp
  obtain ⟨fam₁, hrun₁⟩ := hrun.exists_of_prefix hpre
  obtain ⟨fam₀, hrun₀, hstep⟩ := Run.snoc_iff.mp hrun₁
  obtain ⟨halive, hexited, -⟩ := step_reap.mp hstep
  obtain ⟨hfork, hexit⟩ := (record_of_run hrun₀ c).exited pid p status hexited
  exact ⟨fam₀, hrun₀, halive, hexited, hfork, hexit⟩

end Xv6.Proc.Family
