import Mathlib

/-!
# Threads handed over to processors

Threads run on processors.  Each thread has a lock and a context; a processor
that is to run a thread takes its lock, and whichever thread runs next on that
processor gives the lock up.  Between the two the processor saves one context
and loads another, register by register.  The number of registers is `n`, and
`sp` is the place of the stack pointer among them.
-/

namespace Xv6.Lib.Handover

inductive Status
  | free | fresh | ready | blocked | running | done
  deriving DecidableEq, Repr

/-- The thread has stopped running, and may still be on a processor. -/
def Status.Stopped (x : Status) : Prop := x = .ready ∨ x = .blocked ∨ x = .done

theorem Status.Stopped.ne_running {x : Status} (h : x.Stopped) : x ≠ .running := by
  rintro rfl
  simp [Stopped] at h

theorem Status.Stopped.ne_fresh {x : Status} (h : x.Stopped) : x ≠ .fresh := by
  rintro rfl
  simp [Stopped] at h

theorem Status.Stopped.ne_free {x : Status} (h : x.Stopped) : x ≠ .free := by
  rintro rfl
  simp [Stopped] at h

/-- What a processor is doing: its dispatcher looks for a thread, it switches to
the thread picked with `k` registers moved, it runs a thread, it switches back,
or its dispatcher has just come back. -/
inductive Phase (τ : Type*)
  | idle
  | entering (k : ℕ)
  | running (p : τ)
  | leaving (p : τ) (k : ℕ)
  | left
  deriving DecidableEq

/-- `pick` is the dispatcher's own variable, `current` what the processor says it
runs, and `stack` the thread on whose stack it is (`none`: the dispatcher's).
`saved` counts the registers saved since the thread last began to switch away. -/
structure State (κ τ : Type*) where
  status : τ → Status
  lock : τ → Option κ
  saved : τ → ℕ
  phase : κ → Phase τ
  pick : κ → τ
  current : κ → Option τ
  stack : κ → Option τ

variable {κ τ : Type*} {n sp : ℕ} {s t : State κ τ} {c c' : κ} {p q : τ}

/-- Every configuration a processor can be in. -/
inductive Cpu (n sp : ℕ) (s : State κ τ) (c : κ) : Prop
  | idle (hphase : s.phase c = .idle) (hcur : s.current c = none) (hstack : s.stack c = none)
  | entering (k : ℕ) (p : τ) (hphase : s.phase c = .entering k) (hpick : s.pick c = p)
      (hcur : s.current c = some p) (hstack : s.stack c = if k ≤ n + sp then none else some p)
      (hstatus : s.status p = .running) (hlock : s.lock p = some c) (hsaved : s.saved p = n)
      (hk : k ≤ 2 * n)
  | running (p : τ) (hphase : s.phase c = .running p) (hpick : s.pick c = p)
      (hcur : s.current c = some p) (hstack : s.stack c = some p)
      (hrun : s.status p = .running ∧ (s.lock p = none ∨ s.lock p = some c) ∨
        (s.status p).Stopped ∧ s.lock p = some c)
  | leaving (p : τ) (k : ℕ) (hphase : s.phase c = .leaving p k) (hpick : s.pick c = p)
      (hcur : s.current c = some p) (hstack : s.stack c = if k ≤ n + sp then some p else none)
      (hstatus : (s.status p).Stopped) (hlock : s.lock p = some c) (hsaved : s.saved p = min k n)
      (hk : k ≤ 2 * n)
  | left (p : τ) (hphase : s.phase c = .left) (hpick : s.pick c = p)
      (hcur : s.current c = some p) (hstack : s.stack c = none)
      (hstatus : (s.status p).Stopped) (hlock : s.lock p = some c) (hsaved : s.saved p = n)

structure Inv (n sp : ℕ) (s : State κ τ) : Prop where
  cpu : ∀ c, Cpu n sp s c
  current_inj : ∀ c c' p, s.current c = some p → s.current c' = some p → c = c'
  running : ∀ p, s.status p = .running → ∃ c, s.current c = some p
  resting : ∀ p, s.status p = .ready ∨ s.status p = .blocked → (∀ c, s.current c ≠ some p) →
    s.saved p = n
  fresh : ∀ p, s.status p = .fresh → s.lock p = none → s.saved p = n
  lock : ∀ p c, s.lock p = some c → s.status p = .fresh ∨ s.current c = some p

/-! ## Reading the invariant -/

theorem Cpu.status_of_current (h : Cpu n sp s c) (hcur : s.current c = some p) :
    s.status p = .running ∨ (s.status p).Stopped ∧ s.lock p = some c := by
  cases h with
  | idle _ hcur' _ => simp [hcur] at hcur'
  | entering k p' _ _ hcur' _ hstatus _ _ _ =>
    obtain rfl : p = p' := by simpa [hcur] using hcur'
    exact .inl hstatus
  | running p' _ _ hcur' _ hrun =>
    obtain rfl : p = p' := by simpa [hcur] using hcur'
    exact hrun.imp_left And.left
  | leaving p' k _ _ hcur' _ hstatus hlock _ _ | left p' _ _ hcur' _ hstatus hlock _ =>
    obtain rfl : p = p' := by simpa [hcur] using hcur'
    exact .inr ⟨hstatus, hlock⟩

theorem Cpu.current_of_stack (h : Cpu n sp s c) (hstack : s.stack c = some p) :
    s.current c = some p := by
  cases h with
  | idle _ _ hstack' | left p' _ _ _ hstack' _ _ _ => simp [hstack] at hstack'
  | entering k p' _ _ hcur hstack' _ _ _ _ | leaving p' k _ _ hcur hstack' _ _ _ _ =>
    rw [hstack] at hstack'
    split_ifs at hstack'
    rw [hcur, hstack']
  | running p' _ _ hcur hstack' _ => rw [hcur, ← hstack', hstack]

theorem Cpu.of_entering {k : ℕ} (h : Cpu n sp s c) (hphase : s.phase c = .entering k) :
    s.current c = some (s.pick c) ∧ s.status (s.pick c) = .running ∧
      s.lock (s.pick c) = some c ∧ s.saved (s.pick c) = n ∧ k ≤ 2 * n ∧
      s.stack c = if k ≤ n + sp then none else some (s.pick c) := by
  cases h with
  | entering k' p hphase' hpick hcur hstack hstatus hlock hsaved hk =>
    obtain rfl : k = k' := by simpa [hphase] using hphase'
    subst hpick
    exact ⟨hcur, hstatus, hlock, hsaved, hk, hstack⟩
  | idle hphase' | running p hphase' | leaving p k' hphase' | left p hphase' =>
    simp [hphase] at hphase'

theorem Cpu.of_running (h : Cpu n sp s c) (hphase : s.phase c = .running p) :
    s.pick c = p ∧ s.current c = some p ∧ s.stack c = some p ∧
      (s.status p = .running ∧ (s.lock p = none ∨ s.lock p = some c) ∨
        (s.status p).Stopped ∧ s.lock p = some c) := by
  cases h with
  | running p' hphase' hpick hcur hstack hrun =>
    obtain rfl : p = p' := by simpa [hphase] using hphase'
    exact ⟨hpick, hcur, hstack, hrun⟩
  | idle hphase' | entering k' p' hphase' | leaving p' k' hphase' | left p' hphase' =>
    simp [hphase] at hphase'

theorem Cpu.of_leaving {k : ℕ} (h : Cpu n sp s c) (hphase : s.phase c = .leaving p k) :
    s.pick c = p ∧ s.current c = some p ∧ (s.status p).Stopped ∧ s.lock p = some c ∧
      s.saved p = min k n ∧ k ≤ 2 * n ∧ s.stack c = if k ≤ n + sp then some p else none := by
  cases h with
  | leaving p' k' hphase' hpick hcur hstack hstatus hlock hsaved hk =>
    obtain ⟨rfl, rfl⟩ : p = p' ∧ k = k' := by simpa [hphase] using hphase'
    exact ⟨hpick, hcur, hstatus, hlock, hsaved, hk, hstack⟩
  | idle hphase' | entering k' p' hphase' | running p' hphase' | left p' hphase' =>
    simp [hphase] at hphase'

theorem Cpu.of_left (h : Cpu n sp s c) (hphase : s.phase c = .left) :
    s.current c = some (s.pick c) ∧ (s.status (s.pick c)).Stopped ∧
      s.lock (s.pick c) = some c ∧ s.saved (s.pick c) = n ∧ s.stack c = none := by
  cases h with
  | left p' _ hpick hcur hstack hstatus hlock hsaved =>
    subst hpick
    exact ⟨hcur, hstatus, hlock, hsaved, hstack⟩
  | idle hphase' | entering k' p' hphase' | running p' hphase' | leaving p' k' hphase' =>
    simp [hphase] at hphase'

theorem Cpu.of_idle (h : Cpu n sp s c) (hphase : s.phase c = .idle) :
    s.current c = none ∧ s.stack c = none := by
  cases h with
  | idle _ hcur hstack => exact ⟨hcur, hstack⟩
  | entering k' p' hphase' | running p' hphase' | leaving p' k' hphase' | left p' hphase' =>
    simp [hphase] at hphase'

theorem Cpu.phase_of_stopped (h : Cpu n sp s c) (hcur : s.current c = some p)
    (hp : s.status p ≠ .running) :
    s.phase c = .running p ∨ (∃ k ≤ 2 * n, s.phase c = .leaving p k) ∨
      s.phase c = .left ∧ s.pick c = p := by
  cases h with
  | idle _ hcur' _ => simp [hcur] at hcur'
  | entering k p' _ _ hcur' _ hstatus _ _ _ =>
    obtain rfl : p = p' := by simpa [hcur] using hcur'
    exact absurd hstatus hp
  | running p' hphase _ hcur' _ hrun =>
    obtain rfl : p = p' := by simpa [hcur] using hcur'
    exact .inl hphase
  | leaving p' k hphase _ hcur' _ _ _ _ hk =>
    obtain rfl : p = p' := by simpa [hcur] using hcur'
    exact .inr (.inl ⟨k, hk, hphase⟩)
  | left p' hphase hpick hcur' _ _ _ _ =>
    obtain rfl : p = p' := by simpa [hcur] using hcur'
    exact .inr (.inr ⟨hphase, hpick⟩)

namespace Inv

theorem off_cpu_of_unlocked (h : Inv n sp s) (hlock : s.lock p = none)
    (hp : s.status p ≠ .running) (c : κ) : s.current c ≠ some p := by
  intro hcur
  rcases (h.cpu c).status_of_current hcur with hrun | ⟨-, hlock'⟩
  · exact hp hrun
  · simp [hlock] at hlock'

theorem off_cpu_of_absent (h : Inv n sp s) (hp : s.status p = .free ∨ s.status p = .fresh)
    (c : κ) : s.current c ≠ some p := by
  intro hcur
  rcases (h.cpu c).status_of_current hcur with hrun | ⟨hstop, -⟩
  · simp [hrun] at hp
  · exact hp.elim hstop.ne_free hstop.ne_fresh

theorem existsUnique_of_running (h : Inv n sp s) (hp : s.status p = .running) :
    ∃! c, s.current c = some p := by
  obtain ⟨c, hc⟩ := h.running p hp
  exact ⟨c, hc, fun c' hc' => h.current_inj c' c p hc' hc⟩

theorem stack_ne (h : Inv n sp s) (hp : ∀ c, s.current c ≠ some p) (c : κ) :
    s.stack c ≠ some p :=
  fun hstack => hp c ((h.cpu c).current_of_stack hstack)

end Inv

/-! ## What one move can change -/

def SameCpu (s t : State κ τ) (c : κ) : Prop :=
  t.phase c = s.phase c ∧ t.pick c = s.pick c ∧ t.current c = s.current c ∧ t.stack c = s.stack c

def SameThread (s t : State κ τ) (p : τ) : Prop :=
  t.status p = s.status p ∧ t.lock p = s.lock p ∧ t.saved p = s.saved p

theorem Cpu.congr (h : Cpu n sp s c) (hc : SameCpu s t c)
    (hp : ∀ p, s.current c = some p → SameThread s t p) : Cpu n sp t c := by
  obtain ⟨hphase', hpick', hcur', hstack'⟩ := hc
  cases h with
  | idle hphase hcur hstack =>
    exact .idle (hphase'.trans hphase) (hcur'.trans hcur) (hstack'.trans hstack)
  | entering k p hphase hpick hcur hstack hstatus hlock hsaved hk =>
    obtain ⟨h1, h2, h3⟩ := hp p hcur
    exact .entering k p (hphase'.trans hphase) (hpick'.trans hpick) (hcur'.trans hcur)
      (hstack'.trans hstack) (h1.trans hstatus) (h2.trans hlock) (h3.trans hsaved) hk
  | running p hphase hpick hcur hstack hrun =>
    obtain ⟨h1, h2, h3⟩ := hp p hcur
    exact .running p (hphase'.trans hphase) (hpick'.trans hpick) (hcur'.trans hcur)
      (hstack'.trans hstack) (by rw [h1, h2]; exact hrun)
  | leaving p k hphase hpick hcur hstack hstatus hlock hsaved hk =>
    obtain ⟨h1, h2, h3⟩ := hp p hcur
    exact .leaving p k (hphase'.trans hphase) (hpick'.trans hpick) (hcur'.trans hcur)
      (hstack'.trans hstack) (by rwa [h1]) (h2.trans hlock) (h3.trans hsaved) hk
  | left p hphase hpick hcur hstack hstatus hlock hsaved =>
    obtain ⟨h1, h2, h3⟩ := hp p hcur
    exact .left p (hphase'.trans hphase) (hpick'.trans hpick) (hcur'.trans hcur)
      (hstack'.trans hstack) (by rwa [h1]) (h2.trans hlock) (h3.trans hsaved)

theorem Inv.of_thread (h : Inv n sp s) (hcpu : ∀ c, SameCpu s t c)
    (hthr : ∀ p ≠ q, SameThread s t p) (hoff : ∀ c, s.current c ≠ some q)
    (hrun : t.status q ≠ .running)
    (hrest : t.status q = .ready ∨ t.status q = .blocked → t.saved q = n)
    (hfresh : t.status q = .fresh → t.lock q = none → t.saved q = n)
    (hlock : t.lock q ≠ none → t.status q = .fresh) : Inv n sp t where
  cpu c := (h.cpu c).congr (hcpu c) fun p hp => hthr p fun hpq => hoff c (hpq ▸ hp)
  current_inj c c' p hc hc' := by
    rw [(hcpu c).2.2.1] at hc
    rw [(hcpu c').2.2.1] at hc'
    exact h.current_inj c c' p hc hc'
  running p hp := by
    have hpq : p ≠ q := by
      rintro rfl
      exact hrun hp
    obtain ⟨c, hc⟩ := h.running p ((hthr p hpq).1 ▸ hp)
    exact ⟨c, (hcpu c).2.2.1.trans hc⟩
  resting p hp hoff' := by
    by_cases hpq : p = q
    · subst hpq
      exact hrest hp
    · rw [(hthr p hpq).2.2]
      exact h.resting p ((hthr p hpq).1 ▸ hp) fun c hc => hoff' c ((hcpu c).2.2.1.trans hc)
  fresh p hp hfree := by
    by_cases hpq : p = q
    · subst hpq
      exact hfresh hp hfree
    · rw [(hthr p hpq).2.2]
      exact h.fresh p ((hthr p hpq).1 ▸ hp) ((hthr p hpq).2.1 ▸ hfree)
  lock p c hc := by
    by_cases hpq : p = q
    · subst hpq
      exact .inl (hlock (by simp [hc]))
    · rw [(hthr p hpq).2.1] at hc
      rw [(hthr p hpq).1, (hcpu c).2.2.1]
      exact h.lock p c hc

theorem Inv.of_cpu (h : Inv n sp s) (hcpu : ∀ c' ≠ c, SameCpu s t c')
    (hthr : ∀ q ≠ p, SameThread s t q) (hother : ∀ c' ≠ c, s.current c' ≠ some p)
    (hbefore : ∀ q, s.current c = some q → q = p)
    (hafter : ∀ q, t.current c = some q → q = p) (hc : Cpu n sp t c)
    (hrun : t.status p = .running → t.current c = some p)
    (hrest : t.status p = .ready ∨ t.status p = .blocked → t.current c = none → t.saved p = n)
    (hfresh : t.status p ≠ .fresh)
    (hlock : ∀ c', t.lock p = some c' → c' = c ∧ t.current c = some p) : Inv n sp t where
  cpu c' := by
    by_cases hcc : c' = c
    · subst hcc
      exact hc
    · exact (h.cpu c').congr (hcpu c' hcc) fun q hq => hthr q fun hqp => hother c' hcc (hqp ▸ hq)
  current_inj c₁ c₂ q h₁ h₂ := by
    -- only `c` can run `p` after the move
    have key : ∀ c', t.current c' = some p → c' = c := fun c' hc' => by
      by_contra hcc
      rw [(hcpu c' hcc).2.2.1] at hc'
      exact hother c' hcc hc'
    by_cases hqp : q = p
    · subst hqp
      rw [key c₁ h₁, key c₂ h₂]
    · have hne : ∀ c', t.current c' = some q → c' ≠ c := by
        rintro c' hc' rfl
        exact hqp (hafter q hc')
      have e₁ := (hcpu c₁ (hne c₁ h₁)).2.2.1
      have e₂ := (hcpu c₂ (hne c₂ h₂)).2.2.1
      exact h.current_inj c₁ c₂ q (e₁ ▸ h₁) (e₂ ▸ h₂)
  running q hq := by
    by_cases hqp : q = p
    · subst hqp
      exact ⟨c, hrun hq⟩
    · obtain ⟨c', hc'⟩ := h.running q ((hthr q hqp).1 ▸ hq)
      have hcc : c' ≠ c := by
        rintro rfl
        exact hqp (hbefore q hc')
      exact ⟨c', (hcpu c' hcc).2.2.1.trans hc'⟩
  resting q hq hoff := by
    by_cases hqp : q = p
    · subst hqp
      refine hrest hq ?_
      cases hcur : t.current c with
      | none => rfl
      | some q' => exact absurd (hafter q' hcur ▸ hcur) (hoff c)
    · rw [(hthr q hqp).2.2]
      refine h.resting q ((hthr q hqp).1 ▸ hq) fun c' hc' => ?_
      have hcc : c' ≠ c := by
        rintro rfl
        exact hqp (hbefore q hc')
      exact hoff c' ((hcpu c' hcc).2.2.1.trans hc')
  fresh q hq hfree := by
    by_cases hqp : q = p
    · subst hqp
      exact absurd hq hfresh
    · rw [(hthr q hqp).2.2]
      exact h.fresh q ((hthr q hqp).1 ▸ hq) ((hthr q hqp).2.1 ▸ hfree)
  lock q c' hc' := by
    by_cases hqp : q = p
    · subst hqp
      obtain ⟨rfl, hcur⟩ := hlock c' hc'
      exact .inr hcur
    · rw [(hthr q hqp).2.1] at hc'
      rw [(hthr q hqp).1]
      refine (h.lock q c' hc').imp_right fun hcur => ?_
      have hcc : c' ≠ c := by
        rintro rfl
        exact hqp (hbefore q hcur)
      exact (hcpu c' hcc).2.2.1.trans hcur

/-- Everything that a development instantiating this may let its processors do.
A move is given by the fields it changes, not by an update of the state. -/
inductive Move (n sp : ℕ) (s t : State κ τ) : Prop
  | quiet (hcpu : ∀ c, SameCpu s t c) (hthr : ∀ p, SameThread s t p)
  /-- The dispatcher of `c` looks at another thread. -/
  | look (c : κ) (hcpu : ∀ c' ≠ c, SameCpu s t c') (hthr : ∀ p, SameThread s t p)
      (hphase : s.phase c = .idle) (hphase' : t.phase c = .idle)
      (hcur : t.current c = s.current c) (hstack : t.stack c = s.stack c)
  | wake (q : τ) (hcpu : ∀ c, SameCpu s t c) (hthr : ∀ p ≠ q, SameThread s t p)
      (hlock : s.lock q = none) (hq : s.status q = .blocked) (hq' : t.status q = .ready)
      (hlock' : t.lock q = none) (hsaved : t.saved q = s.saved q)
  | alloc (q : τ) (hcpu : ∀ c, SameCpu s t c) (hthr : ∀ p ≠ q, SameThread s t p)
      (hq : s.status q = .free) (hq' : t.status q = .fresh) (hlock' : t.lock q ≠ none)
  | prepare (q : τ) (hcpu : ∀ c, SameCpu s t c) (hthr : ∀ p ≠ q, SameThread s t p)
      (hq : s.status q = .fresh) (hq' : t.status q = .fresh) (hlock' : t.lock q = none)
      (hsaved : t.saved q = n)
  | start (q : τ) (hcpu : ∀ c, SameCpu s t c) (hthr : ∀ p ≠ q, SameThread s t p)
      (hlock : s.lock q = none) (hq : s.status q = .fresh) (hq' : t.status q = .ready)
      (hlock' : t.lock q = none) (hsaved : t.saved q = s.saved q)
  /-- A thread that has not started, or has ended, is discarded. -/
  | discard (q : τ) (hcpu : ∀ c, SameCpu s t c) (hthr : ∀ p ≠ q, SameThread s t p)
      (hq : s.status q = .fresh ∨ s.status q = .done ∧ s.lock q = none)
      (hq' : t.status q = .free) (hlock' : t.lock q = none)
  /-- The thread on `c` takes or gives up its own lock, or stops. -/
  | own (c : κ) (p : τ) (hcpu : ∀ c, SameCpu s t c) (hthr : ∀ q ≠ p, SameThread s t q)
      (hphase : s.phase c = .running p)
      (hp' : t.status p = .running ∧ (t.lock p = none ∨ t.lock p = some c) ∨
        (t.status p).Stopped ∧ t.lock p = some c)
  | switchOut (c : κ) (p : τ) (hcpu : ∀ c' ≠ c, SameCpu s t c') (hthr : ∀ q ≠ p, SameThread s t q)
      (hphase : s.phase c = .running p) (hphase' : t.phase c = .leaving p 0)
      (hpick : t.pick c = s.pick c) (hcur : t.current c = s.current c)
      (hstack : t.stack c = s.stack c) (hp' : (t.status p).Stopped) (hlock' : t.lock p = some c)
      (hsaved : t.saved p = 0)
  | leave (c : κ) (p : τ) (k : ℕ) (hcpu : ∀ c' ≠ c, SameCpu s t c')
      (hthr : ∀ q ≠ p, SameThread s t q) (hphase : s.phase c = .leaving p k)
      (hphase' : t.phase c = .leaving p (k + 1)) (hk : k < 2 * n) (hpick : t.pick c = s.pick c)
      (hcur : t.current c = s.current c)
      (hstack : t.stack c = if k = n + sp then none else s.stack c)
      (hp' : t.status p = s.status p) (hlock' : t.lock p = s.lock p)
      (hsaved : t.saved p = if k < n then k + 1 else s.saved p)
  | arrive (c : κ) (p : τ) (hcpu : ∀ c' ≠ c, SameCpu s t c') (hthr : ∀ q, SameThread s t q)
      (hphase : s.phase c = .leaving p (2 * n)) (hphase' : t.phase c = .left)
      (hpick : t.pick c = s.pick c) (hcur : t.current c = s.current c)
      (hstack : t.stack c = s.stack c)
  | park (c : κ) (hcpu : ∀ c' ≠ c, SameCpu s t c') (hthr : ∀ q ≠ s.pick c, SameThread s t q)
      (hphase : s.phase c = .left) (hphase' : t.phase c = .idle) (hcur : t.current c = none)
      (hstack : t.stack c = s.stack c) (hp' : t.status (s.pick c) = s.status (s.pick c))
      (hlock' : t.lock (s.pick c) = none) (hsaved : t.saved (s.pick c) = s.saved (s.pick c))
  | dispatch (c : κ) (p : τ) (hcpu : ∀ c' ≠ c, SameCpu s t c') (hthr : ∀ q ≠ p, SameThread s t q)
      (hphase : s.phase c = .idle) (hphase' : t.phase c = .entering 0) (hpick : t.pick c = p)
      (hcur : t.current c = some p) (hstack : t.stack c = s.stack c) (hlock : s.lock p = none)
      (hp : s.status p = .ready) (hp' : t.status p = .running) (hlock' : t.lock p = some c)
      (hsaved : t.saved p = s.saved p)
  | enter (c : κ) (k : ℕ) (hcpu : ∀ c' ≠ c, SameCpu s t c') (hthr : ∀ q, SameThread s t q)
      (hphase : s.phase c = .entering k) (hphase' : t.phase c = .entering (k + 1))
      (hk : k < 2 * n) (hpick : t.pick c = s.pick c) (hcur : t.current c = s.current c)
      (hstack : t.stack c = if k = n + sp then some (s.pick c) else s.stack c)
  | resume (c : κ) (hcpu : ∀ c' ≠ c, SameCpu s t c') (hthr : ∀ q, SameThread s t q)
      (hphase : s.phase c = .entering (2 * n)) (hphase' : t.phase c = .running (s.pick c))
      (hpick : t.pick c = s.pick c) (hcur : t.current c = s.current c)
      (hstack : t.stack c = s.stack c)

theorem Inv.other_of_current (h : Inv n sp s) (hcur : s.current c = some p) :
    ∀ c' ≠ c, s.current c' ≠ some p :=
  fun c' hcc hc' => hcc (h.current_inj c' c p hc' hcur)

theorem Inv.of_own (h : Inv n sp s) (hcpu : ∀ c' ≠ c, SameCpu s t c')
    (hthr : ∀ q ≠ p, SameThread s t q) (hcur : s.current c = some p)
    (hcur' : t.current c = some p) (hc : Cpu n sp t c)
    (hp' : t.status p = .running ∧ (t.lock p = none ∨ t.lock p = some c) ∨
      (t.status p).Stopped ∧ t.lock p = some c) : Inv n sp t := by
  refine h.of_cpu (p := p) hcpu hthr (h.other_of_current hcur) ?_ ?_ hc (fun _ => hcur') ?_ ?_ ?_
  · intro q hq
    simpa [hcur] using hq.symm
  · intro q hq
    simpa [hcur'] using hq.symm
  · intro _ hnone
    simp [hcur'] at hnone
  · rcases hp' with ⟨hrun, -⟩ | ⟨hstop, -⟩
    · simp [hrun]
    · exact hstop.ne_fresh
  · intro c' hc'
    refine ⟨?_, hcur'⟩
    rcases hp' with ⟨-, hl | hl⟩ | ⟨-, hl⟩
    · simp [hl] at hc'
    · simpa [hl] using hc'.symm
    · simpa [hl] using hc'.symm

theorem Inv.of_same (h : Inv n sp s) (hthr : ∀ p, SameThread s t p)
    (hcur : ∀ c, t.current c = s.current c) (hcpu : ∀ c, Cpu n sp t c) : Inv n sp t where
  cpu := hcpu
  current_inj c c' p hc hc' := h.current_inj c c' p (hcur c ▸ hc) (hcur c' ▸ hc')
  running p hp := by
    obtain ⟨c, hc⟩ := h.running p ((hthr p).1 ▸ hp)
    exact ⟨c, (hcur c).trans hc⟩
  resting p hp hoff := by
    rw [(hthr p).2.2]
    exact h.resting p ((hthr p).1 ▸ hp) fun c hc => hoff c ((hcur c).trans hc)
  fresh p hp hl := by
    rw [(hthr p).2.2]
    exact h.fresh p ((hthr p).1 ▸ hp) ((hthr p).2.1 ▸ hl)
  lock p c hc := by
    rw [(hthr p).1, hcur c]
    exact h.lock p c ((hthr p).2.1 ▸ hc)

theorem Inv.move (h : Inv n sp s) (hsp : sp < n) (m : Move n sp s t) : Inv n sp t := by
  cases m with
  | quiet hcpu hthr =>
    exact h.of_same hthr (fun c => (hcpu c).2.2.1) fun c => (h.cpu c).congr (hcpu c)
      fun p _ => hthr p
  | look c hcpu hthr hphase hphase' hcur hstack =>
    obtain ⟨hcur0, hstack0⟩ := (h.cpu c).of_idle hphase
    refine h.of_same hthr (fun c' => ?_) fun c' => ?_
    all_goals by_cases hcc : c' = c
    · rw [hcc, hcur]
    · exact (hcpu c' hcc).2.2.1
    · subst hcc
      exact .idle hphase' (hcur.trans hcur0) (hstack.trans hstack0)
    · exact (h.cpu c').congr (hcpu c' hcc) fun p _ => hthr p
  | wake q hcpu hthr hlock hq hq' hlock' hsaved =>
    have hoff := h.off_cpu_of_unlocked hlock (by simp [hq])
    refine h.of_thread hcpu hthr hoff (by simp [hq']) ?_ (by simp [hq']) (by simp [hlock'])
    intro _
    exact hsaved.trans (h.resting q (.inr hq) hoff)
  | alloc q hcpu hthr hq hq' hlock' =>
    have hoff := h.off_cpu_of_absent (.inl hq)
    exact h.of_thread hcpu hthr hoff (by simp [hq']) (by simp [hq'])
      (fun _ hl => absurd hl hlock') fun _ => hq'
  | prepare q hcpu hthr hq hq' hlock' hsaved =>
    have hoff := h.off_cpu_of_absent (.inr hq)
    exact h.of_thread hcpu hthr hoff (by simp [hq']) (fun _ => hsaved) (fun _ _ => hsaved)
      fun _ => hq'
  | start q hcpu hthr hlock hq hq' hlock' hsaved =>
    have hoff := h.off_cpu_of_absent (.inr hq)
    have hfull : t.saved q = n := hsaved.trans (h.fresh q hq hlock)
    exact h.of_thread hcpu hthr hoff (by simp [hq']) (fun _ => hfull) (fun _ _ => hfull)
      (by simp [hlock'])
  | discard q hcpu hthr hq hq' hlock' =>
    have hoff : ∀ c, s.current c ≠ some q := by
      rcases hq with hq | ⟨hq, hl⟩
      · exact h.off_cpu_of_absent (.inr hq)
      · exact h.off_cpu_of_unlocked hl (by simp [hq])
    exact h.of_thread hcpu hthr hoff (by simp [hq']) (by simp [hq']) (by simp [hq'])
      (by simp [hlock'])
  | own c p hcpu hthr hphase hp' =>
    obtain ⟨hpick, hcur, hstack, -⟩ := (h.cpu c).of_running hphase
    obtain ⟨e1, e2, e3, e4⟩ := hcpu c
    exact h.of_own (fun c' _ => hcpu c') hthr hcur (e3.trans hcur)
      (.running p (e1.trans hphase) (e2.trans hpick) (e3.trans hcur) (e4.trans hstack) hp') hp'
  | switchOut c p hcpu hthr hphase hphase' hpick hcur hstack hp' hlock' hsaved =>
    obtain ⟨hpick0, hcur0, hstack0, -⟩ := (h.cpu c).of_running hphase
    refine h.of_own hcpu hthr hcur0 (hcur.trans hcur0) ?_ (.inr ⟨hp', hlock'⟩)
    exact .leaving p 0 hphase' (hpick.trans hpick0) (hcur.trans hcur0)
      (by simpa using hstack.trans hstack0) hp' hlock' (by simpa using hsaved) (by omega)
  | leave c p k hcpu hthr hphase hphase' hk hpick hcur hstack hp' hlock' hsaved =>
    obtain ⟨hpick0, hcur0, hstop, hlock0, hsaved0, -, hstack0⟩ := (h.cpu c).of_leaving hphase
    rw [← hp'] at hstop
    refine h.of_own hcpu hthr hcur0 (hcur.trans hcur0) ?_ (.inr ⟨hstop, hlock'.trans hlock0⟩)
    refine .leaving p (k + 1) hphase' (hpick.trans hpick0) (hcur.trans hcur0) ?_ hstop
      (hlock'.trans hlock0) ?_ (by omega)
    · rw [hstack, hstack0]
      split_ifs <;> first | rfl | omega
    · rw [hsaved, hsaved0]
      split_ifs <;> omega
  | arrive c p hcpu hthr hphase hphase' hpick hcur hstack =>
    obtain ⟨hpick0, hcur0, hstop, hlock0, hsaved0, -, hstack0⟩ := (h.cpu c).of_leaving hphase
    obtain ⟨e1, e2, e3⟩ := hthr p
    rw [← e1] at hstop
    refine h.of_own hcpu (fun q _ => hthr q) hcur0 (hcur.trans hcur0) ?_
      (.inr ⟨hstop, e2.trans hlock0⟩)
    refine .left p hphase' (hpick.trans hpick0) (hcur.trans hcur0) ?_ hstop (e2.trans hlock0)
      (by rw [e3, hsaved0]; omega)
    rw [hstack, hstack0, if_neg (by omega)]
  | park c hcpu hthr hphase hphase' hcur hstack hp' hlock' hsaved =>
    obtain ⟨hcur0, hstop, hlock0, hsaved0, hstack0⟩ := (h.cpu c).of_left hphase
    rw [← hp'] at hstop
    refine h.of_cpu hcpu hthr (h.other_of_current hcur0) ?_ (by simp [hcur])
      (.idle hphase' hcur (hstack.trans hstack0)) (fun hrun => absurd hrun hstop.ne_running)
      (fun _ _ => hsaved.trans hsaved0) hstop.ne_fresh (by simp [hlock'])
    intro q hq
    simpa [hcur0] using hq.symm
  | dispatch c p hcpu hthr hphase hphase' hpick hcur hstack hlock hp hp' hlock' hsaved =>
    have hoff := h.off_cpu_of_unlocked hlock (by simp [hp])
    obtain ⟨hcur0, hstack0⟩ := (h.cpu c).of_idle hphase
    refine h.of_cpu hcpu hthr (fun c' _ => hoff c') (by simp [hcur0]) ?_ ?_ (fun _ => hcur)
      (by simp [hp']) (by simp [hp']) ?_
    · intro q hq
      simpa [hcur] using hq.symm
    · exact .entering 0 p hphase' hpick hcur (by simpa using hstack.trans hstack0) hp' hlock'
        (hsaved.trans (h.resting p (.inl hp) hoff)) (by omega)
    · intro c' hc'
      exact ⟨by simpa [hlock'] using hc'.symm, hcur⟩
  | enter c k hcpu hthr hphase hphase' hk hpick hcur hstack =>
    obtain ⟨hcur0, hrun, hlock0, hsaved0, -, hstack0⟩ := (h.cpu c).of_entering hphase
    obtain ⟨e1, e2, e3⟩ := hthr (s.pick c)
    rw [← e1] at hrun
    refine h.of_own hcpu (fun q _ => hthr q) hcur0 (hcur.trans hcur0) ?_
      (.inl ⟨hrun, .inr (e2.trans hlock0)⟩)
    refine .entering (k + 1) (s.pick c) hphase' hpick (hcur.trans hcur0) ?_ hrun
      (e2.trans hlock0) (e3.trans hsaved0) (by omega)
    rw [hstack, hstack0]
    split_ifs <;> first | rfl | omega
  | resume c hcpu hthr hphase hphase' hpick hcur hstack =>
    obtain ⟨hcur0, hrun, hlock0, hsaved0, -, hstack0⟩ := (h.cpu c).of_entering hphase
    obtain ⟨e1, e2, e3⟩ := hthr (s.pick c)
    rw [← e1] at hrun
    have hp' : t.status (s.pick c) = .running ∧
        (t.lock (s.pick c) = none ∨ t.lock (s.pick c) = some c) ∨
        (t.status (s.pick c)).Stopped ∧ t.lock (s.pick c) = some c :=
      .inl ⟨hrun, .inr (e2.trans hlock0)⟩
    refine h.of_own hcpu (fun q _ => hthr q) hcur0 (hcur.trans hcur0) ?_ hp'
    refine .running (s.pick c) hphase' hpick (hcur.trans hcur0) ?_ hp'
    rw [hstack, hstack0, if_neg (by omega)]

/-- A processor gets a thread only if that was ready. -/
theorem Move.current_cases (m : Move n sp s t) (hc : t.current c = some p) :
    s.current c = some p ∨ s.status p = .ready := by
  -- what a processor keeps while it is not the one that moves
  have keep : ∀ {d : κ}, (∀ c' ≠ d, SameCpu s t c') → t.current d = s.current d →
      s.current c = some p := by
    intro d hcpu hd
    by_cases hcd : c = d
    · subst hcd
      rw [← hd, hc]
    · rw [← (hcpu c hcd).2.2.1, hc]
  cases m with
  | quiet hcpu hthr | wake q hcpu | alloc q hcpu | prepare q hcpu | start q hcpu
  | discard q hcpu | own d q hcpu => exact .inl ((hcpu c).2.2.1 ▸ hc)
  | look d hcpu hthr hphase hphase' hcur hstack
  | switchOut d q hcpu hthr hphase hphase' hpick hcur
  | leave d q k hcpu hthr hphase hphase' hk hpick hcur
  | arrive d q hcpu hthr hphase hphase' hpick hcur
  | enter d k hcpu hthr hphase hphase' hk hpick hcur
  | resume d hcpu hthr hphase hphase' hpick hcur => exact .inl (keep hcpu hcur)
  | park d hcpu hthr hphase hphase' hcur =>
    have hcd : c ≠ d := by
      rintro rfl
      simp [hcur] at hc
    exact .inl ((hcpu c hcd).2.2.1 ▸ hc)
  | dispatch d q hcpu hthr hphase hphase' hpick hcur hstack hlock hp =>
    by_cases hcd : c = d
    · subst hcd
      obtain rfl : q = p := by simpa [hcur] using hc
      exact .inr hp
    · exact .inl ((hcpu c hcd).2.2.1 ▸ hc)

theorem Inv.off_cpu_of_discard (h : Inv n sp s) (m : Move n sp s t) (hp : s.status p ≠ .free)
    (hp' : t.status p = .free) (c : κ) : s.current c ≠ some p := by
  -- the one thread that a move touches
  have keep : ∀ {q : τ}, (∀ r ≠ q, SameThread s t r) → t.status q ≠ .free → False := by
    intro q hthr hq
    by_cases hpq : p = q
    · subst hpq
      exact hq hp'
    · exact hp ((hthr p hpq).1 ▸ hp')
  have same : (∀ r, SameThread s t r) → False := fun hthr => hp ((hthr p).1 ▸ hp')
  cases m with
  | quiet hcpu hthr | look d hcpu hthr | arrive d q hcpu hthr | enter d k hcpu hthr
  | resume d hcpu hthr => exact (same hthr).elim
  | wake q hcpu hthr hlock hq hq' | alloc q hcpu hthr hq hq' | prepare q hcpu hthr hq hq'
  | start q hcpu hthr hlock hq hq'
  | dispatch d q hcpu hthr hphase hphase' hpick hcur hstack hlock hq hq' =>
    exact (keep hthr (by simp [hq'])).elim
  | discard q hcpu hthr hq hq' hlock' =>
    by_cases hpq : p = q
    · subst hpq
      rcases hq with hq | ⟨hq, hl⟩
      · exact h.off_cpu_of_absent (.inr hq) c
      · exact h.off_cpu_of_unlocked hl (by simp [hq]) c
    · exact absurd ((hthr p hpq).1 ▸ hp') hp
  | own d q hcpu hthr hphase hq' =>
    refine (keep hthr ?_).elim
    rcases hq' with ⟨hq', -⟩ | ⟨hq', -⟩
    · simp [hq']
    · exact hq'.ne_free
  | switchOut d q hcpu hthr hphase hphase' hpick hcur hstack hq' =>
    exact (keep hthr hq'.ne_free).elim
  | leave d q k hcpu hthr hphase hphase' hk hpick hcur hstack hq' =>
    refine (keep hthr ?_).elim
    rw [hq']
    exact ((h.cpu d).of_leaving hphase).2.2.1.ne_free
  | park d hcpu hthr hphase hphase' hcur hstack hq' =>
    refine (keep hthr ?_).elim
    rw [hq']
    exact ((h.cpu d).of_left hphase).2.1.ne_free

end Xv6.Lib.Handover
