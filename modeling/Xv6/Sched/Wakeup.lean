import Xv6.Sched.Dispatch

/-!
# Sleep never misses a wakeup

A call of `sleep` is numbered and remembers how often its lock had been acquired
when it was made.  The `wakeup` of a thread that holds the lock leaves no call
behind that is older than the acquisition.
-/

namespace Xv6.Sched

open Proc (Slot initproc)
open Lib State
open Function (update update_self update_of_ne update_eq_self)

variable {κ : Type} {s t : State κ} {c : κ} {p q r : Slot} {k : Pc} {T : List Slot}

/-! ## Locks stay with the code that took them -/

/-- Outside the code of a thread, a CPU holds at most the lock of its handler. -/
def Clean (s : State κ) : Prop :=
  ∀ c l, s.lk l = some c → (∃ x, (s.cpu c).handler = some x ∧ x.lk = l) ∨
    ∃ p k, (s.cpu c).mode = .exec p ∧ s.frame p = .code k

theorem Counted.only {l : Lk} (h : Counted s) (hnoff : (s.cpu c).noff = 1)
    (hlock : s.lock p = some c) : s.lk l ≠ some c := by
  obtain ⟨H, hcard, hH⟩ := h c
  intro hl
  have hp : (.inr p : Lk ⊕ Slot) ∈ H := (hH (.inr p)).mpr hlock
  have hl' : (.inl l : Lk ⊕ Slot) ∈ H := (hH (.inl l)).mpr hl
  rw [hnoff, Finset.card_eq_one] at hcard
  obtain ⟨x, rfl⟩ := hcard
  have := (Finset.mem_singleton.mp hp).trans (Finset.mem_singleton.mp hl').symm
  simp at this

theorem Clean.not_held (h : Clean s) (hhand : (s.cpu c).handler = none)
    (hcode : ∀ p k, (s.cpu c).mode = .exec p → s.frame p ≠ .code k) (l : Lk) :
    s.lk l ≠ some c := by
  intro hl
  rcases h c l hl with ⟨x, hx, -⟩ | ⟨p, k, hmode, hframe⟩
  · simp [hhand] at hx
  · exact hcode p k hmode hframe

/-- What a step of `c` leaves as it is, for the locks and the calls of `sleep`. -/
structure Moved (s t : State κ) (c : κ) : Prop where
  cpu : ∀ d ≠ c, t.cpu d = s.cpu d
  lk : ∀ d ≠ c, ∀ l, t.lk l = some d → s.lk l = some d ∧ t.acquired l = s.acquired l
  frame : ∀ d ≠ c, ∀ r, (s.cpu d).mode = .exec r → t.frame r = s.frame r
  pending : ∀ r w, t.pending r = some w → s.pending r = some w ∨ w.epoch = t.acquired w.lk

/-- What `c` does after its step. -/
inductive Shape (s t : State κ) (c : κ) : Prop
  /-- It runs the code of a thread that is in no `wakeup`, or starts one. -/
  | code (p : Slot) (k : Pc) (hmode : (t.cpu c).mode = .exec p) (hframe : t.frame p = .code k)
      (hscan : ∀ x, k.scan = some x → x.2 = 0)
  /-- A thread in `wakeup` has looked at slot `j`. -/
  | scan (p j : Slot) (k k' : Pc) (chan : Option Chan) (hcur : current s c = some (p, k))
      (hmode : (t.cpu c).mode = .exec p) (hframe : t.frame p = .code k')
      (hscan : k.scan = some (chan, j.idx)) (hscan' : k'.scan = some (chan, j.idx + 1))
      (hlk : t.lk = s.lk) (hacq : t.acquired = s.acquired)
      (hj : ∀ w, t.pending j = some w → some w.chan = chan → s.lk w.lk ≠ some c)
  /-- It holds no lock. -/
  | free (hfree : ∀ l, t.lk l ≠ some c)
  /-- Its handler has done something. -/
  | handler (hmode : (t.cpu c).mode = (s.cpu c).mode) (hframe : t.frame = s.frame)
      (hlk : ∀ l, t.lk l = some c → (∀ x, (t.cpu c).handler = some x → x.lk ≠ l) →
        s.lk l = some c ∧ t.acquired l = s.acquired l ∧
          ∀ x, (s.cpu c).handler = some x → x.lk ≠ l)

theorem Clean.of_shape (h : Clean s) (hm : Moved s t c) (hs : Shape s t c) : Clean t := by
  intro d l hl
  by_cases hd : d = c
  · subst hd
    cases hs with
    | code p k hmode hframe _ => exact .inr ⟨p, k, hmode, hframe⟩
    | scan p _ _ k' _ _ hmode hframe => exact .inr ⟨p, k', hmode, hframe⟩
    | free hfree => exact absurd hl (hfree l)
    | handler hmode hframe hlk =>
      by_cases hx : ∃ x, (t.cpu d).handler = some x ∧ x.lk = l
      · exact .inl hx
      · simp only [not_exists, not_and] at hx
        obtain ⟨hl', -, hx'⟩ := hlk l hl hx
        rcases h d l hl' with ⟨x, hxd, hxl⟩ | ⟨p, k, hmode', hframe'⟩
        · exact absurd hxl (hx' x hxd)
        · exact .inr ⟨p, k, hmode.trans hmode', hframe ▸ hframe'⟩
  · rw [hm.cpu d hd]
    refine (h d l (hm.lk d hd l hl).1).imp_right fun ⟨p, k, hmode, hframe⟩ => ?_
    exact ⟨p, k, hmode, (hm.frame d hd p hmode).trans hframe⟩

/-- A `wakeup` that has looked at the slots before `j` has ended every call of
`sleep` there that is older than the acquisition of a lock its thread holds. -/
def Scanned (s : State κ) : Prop :=
  ∀ c p k chan j, (s.cpu c).mode = .exec p → s.frame p = .code k → k.scan = some (chan, j) →
    ∀ l, s.lk l = some c → (∀ x, (s.cpu c).handler = some x → x.lk ≠ l) →
    ∀ r w, r.idx < j → s.pending r = some w → some w.chan = chan → w.lk = l →
      s.acquired l ≤ w.epoch

theorem Scanned.of_shape (h : Scanned s) (hm : Moved s t c) (hs : Shape s t c) : Scanned t := by
  intro d p k chan j hmode hframe hscan l hl hx r w hr hw hchan hwl
  -- a call made in this very step is as young as can be
  rcases hm.pending r w hw with hw' | hw'
  swap
  · rw [hw', hwl]
  by_cases hd : d = c
  · subst hd
    cases hs with
    | code p' k' hmode' hframe' hscan' =>
      obtain rfl : p = p' := by simpa [hmode] using hmode'
      obtain rfl : k = k' := by simpa [hframe] using hframe'
      have hj : j = 0 := hscan' _ hscan
      omega
    | scan p' i k₀ k' chan' hcur hmode' hframe' hscan₀ hscan' hlk hacq hi =>
      obtain rfl : p = p' := by simpa [hmode] using hmode'
      obtain rfl : k = k' := by simpa [hframe] using hframe'
      obtain ⟨rfl, rfl⟩ : chan = chan' ∧ j = i.idx + 1 := by simpa [hscan] using hscan'
      rw [hlk] at hl
      rcases Nat.lt_succ_iff_lt_or_eq.mp hr with hr | hr
      · obtain ⟨hhand, hmode₀, hframe₀⟩ := current_eq_some hcur
        rw [hacq]
        exact h d p k₀ chan i.idx hmode₀ hframe₀ hscan₀ l hl (by simp [hhand]) r w hr hw' hchan hwl
      · obtain rfl := Proc.Slot.eq_of_idx hr
        exact absurd (hwl ▸ hl) (hi w hw hchan)
    | free hfree => exact absurd hl (hfree l)
    | handler hmode' hframe' hlk =>
      obtain ⟨hl', hacq, hx'⟩ := hlk l hl hx
      rw [hacq]
      exact h d p k chan j (hmode' ▸ hmode) (hframe' ▸ hframe) hscan l hl' hx' r w hr hw' hchan hwl
  · obtain ⟨hl', hacq⟩ := hm.lk d hd l hl
    rw [hm.cpu d hd] at hmode hx
    rw [hacq]
    rw [hm.frame d hd p hmode] at hframe
    exact h d p k chan j hmode hframe hscan l hl' hx r w hr hw' hchan hwl

/-! ## The calls of `sleep` -/

/-- A call that has not ended is in the code of `sleep` before `sched`, or has put
its process to sleep; and the last call of a process is the one it is in. -/
structure InCall (s : State κ) (p : Slot) : Prop where
  stage : ∀ w, s.pending p = some w →
    (∃ k, s.frame p = .code k ∧ k.sleeps = some (w.chan, w.lk)) ∨
      (s.proc p).state = .sleeping ∧ (s.proc p).chan = some w.chan
  made : (s.proc p).state = .sleeping ∨ (∃ k, s.frame p = .code k ∧ k.sleeps ≠ none) →
    ∃ w, s.pending p = some w ∧ w.number = s.calls p

structure Waking (s : State κ) : Prop where
  inv : Inv s
  clean : Clean s
  scanned : Scanned s
  inCall : ∀ p, InCall s p
  epoch : ∀ p w, s.pending p = some w → w.epoch ≤ s.acquired w.lk

theorem Waking.pending_eq_none (h : Waking s) (hcode : ∀ k, s.frame p = .code k → k.sleeps = none)
    (hstate : (s.proc p).state ≠ .sleeping) : s.pending p = none := by
  by_contra hne
  obtain ⟨w, hw⟩ := Option.ne_none_iff_exists'.mp hne
  rcases (h.inCall p).stage w hw with ⟨k, hframe, hk⟩ | ⟨hs, -⟩
  · simp [hcode k hframe] at hk
  · exact hstate hs

theorem Waking.pending_of_current (h : Waking s) (hcur : current s c = some (p, k))
    (hk : k.sleeps = none) : s.pending p = none := by
  obtain ⟨-, -, hframe⟩ := current_eq_some hcur
  obtain ⟨-, -, hstate, -⟩ := h.inv.of_current hcur
  refine h.pending_eq_none (fun k' hk' => ?_) ?_
  · obtain rfl : k = k' := by simpa [hframe] using hk'
    exact hk
  · rw [hstate]
    split_ifs <;> simp

theorem InCall.congr (h : InCall s p) (hframe : t.frame p = s.frame p)
    (hstate : (t.proc p).state = (s.proc p).state) (hchan : (t.proc p).chan = (s.proc p).chan)
    (hpending : t.pending p = s.pending p) (hcalls : t.calls p = s.calls p) : InCall t p := by
  constructor
  · rw [hpending, hframe, hstate, hchan]
    exact h.stage
  · rw [hpending, hframe, hstate, hcalls]
    exact h.made

theorem InCall.of_unchanged (h : InCall s p) (hp : Unchanged s t p) : InCall t p :=
  h.congr hp.frame hp.state hp.chan hp.pending hp.calls

theorem InCall.of_none (hcode : ∀ k, t.frame p = .code k → k.sleeps = none)
    (hstate : (t.proc p).state ≠ .sleeping) (hpending : t.pending p = none) : InCall t p := by
  constructor
  · intro w hw
    simp [hpending] at hw
  · rintro (hs | ⟨k, hk, hne⟩)
    · exact absurd hs hstate
    · exact absurd (hcode k hk) hne

theorem pending_of_wakeProc {P : Proc} {w : Call} (hw : (wakeProc s q P).pending r = some w) :
    s.pending r = some w := by
  simp only [wakeProc] at hw
  split_ifs at hw
  · by_cases hr : r = q
    · simp [hr] at hw
    · simpa [hr] using hw
  · exact hw

theorem Inv.not_sleeping_of_code (h : Inv s) (hframe : s.frame q = .code k) :
    (s.proc q).state ≠ .sleeping := by
  intro hq
  exact (h.back_of_state (.inl hq)).1 k hframe

theorem Waking.inCall_of_sleeps {m : Pc} (h : Waking s) (hcur : current s c = some (p, k))
    (hframe : t.frame p = .code m) (hk : m.sleeps = k.sleeps) (hk' : m.sleeps ≠ none)
    (hpending : t.pending p = s.pending p) (hcalls : t.calls p = s.calls p) : InCall t p := by
  obtain ⟨-, -, hframe₀⟩ := current_eq_some hcur
  constructor
  · intro w hw
    rcases (h.inCall p).stage w (hpending ▸ hw) with ⟨k₀, hk₀, hs⟩ | ⟨hs, -⟩
    · obtain rfl : k = k₀ := by simpa [hframe₀] using hk₀
      exact .inl ⟨m, hframe, hk.trans hs⟩
    · exact absurd hs (h.inv.not_sleeping_of_code hframe₀)
  · intro _
    rw [hpending, hcalls]
    exact (h.inCall p).made (.inr ⟨k, hframe₀, hk ▸ hk'⟩)

/-- The slot `j` that a `wakeup` has looked at has no call left on its channel
under a lock the caller holds. -/
theorem Waking.pending_of_wake {chan : Option Chan} {j : Slot} {w : Call} (h : Waking s)
    (hcur : current s c = some (p, k)) (hk : k.Plain) (hlock : s.lock j = none)
    (hw : (wakeProc s j ((s.proc j).wakeup chan)).pending j = some w) (hchan : some w.chan = chan) :
    s.lk w.lk ≠ some c := by
  intro hl
  rcases (h.inCall j).stage w (pending_of_wakeProc hw) with ⟨k', hframe, hk'⟩ | ⟨hs, hc⟩
  · cases h.inv.thread j with
    | code d k'' hmode hframe' hlock' hstate hneeds =>
      obtain rfl : k' = k'' := by simpa [hframe] using hframe'
      rw [hlock] at hlock'
      split_ifs at hlock' with hlocked
      -- unlocked and in `sleep`: still holding the lock that the scanner has
      have hneed : k'.needs = some w.lk := by
        cases k' with
        | sleepEnter chan' caller =>
          obtain ⟨-, hlk⟩ : chan' = w.chan ∧ caller.lk = w.lk := by simpa [Pc.sleeps] using hk'
          simp [Pc.needs, hlk]
        | sleepRelease | sleepSet => simp [Pc.locked] at hlocked
        | _ => simp [Pc.sleeps] at hk'
      obtain rfl : c = d := by simpa [hl] using (hneeds _ hneed).1
      obtain ⟨-, hmode', hframe''⟩ := current_eq_some hcur
      obtain rfl : p = j := by simpa [hmode] using hmode'.symm
      obtain rfl : k = k' := by simpa [hframe] using hframe''.symm
      simp [hk.awake] at hk'
    | back hcode => exact absurd hframe (hcode k')
    | dead hframe' => simp [hframe] at hframe'
  · simp [wakeProc, Proc.wakeup, hs, hc, hchan] at hw

theorem sleeps_eq_none (hk : k.locked = false) (hneeds : k.needs = none) : k.sleeps = none := by
  cases k <;> simp_all [Pc.sleeps, Pc.needs, Pc.locked]

theorem Waking.inCall_wakeProc {P : Proc} (h : Waking s) (hchan : P.chan = (s.proc q).chan)
    (hP : P.state = (s.proc q).state ∨ (s.proc q).state = .sleeping ∧ P.state = .runnable) :
    InCall (wakeProc s q P) q := by
  rcases unchanged_or_woken hchan hP with hu | ⟨hs, hP⟩
  · exact (h.inCall q).of_unchanged hu
  · refine .of_none (fun k hk => absurd hs (h.inv.not_sleeping_of_code hk)) ?_ ?_
    · simp [wakeProc, hP]
    · simp [wakeProc, hs, hP]

theorem waking_boot : Waking (boot κ) where
  inv := inv_boot
  clean c l hl := by simp [boot] at hl
  scanned c p k chan j hmode := by simp [boot] at hmode
  inCall p := by
    by_cases hp : p = initproc
    · subst hp
      exact .of_none (by simp [boot]) (by simp [boot]) rfl
    · exact .of_none (by simp [boot, hp]) (by simp [boot, hp, Proc.zero]) rfl
  epoch p w hw := by simp [boot] at hw

variable [DecidableEq κ]

attribute [local simp] State.goto State.ret State.acquire State.release setProc acquireProc
  releaseProc setCpu setHandler wakeProc switchOut dispatch forkReady callSleep

/-! ## What each step does to them -/

/-- Only a new call of `sleep` replaces one that has not ended. -/
theorem Effect.calls (he : Effect s c T t) (r : Slot) :
    t.calls r = s.calls r ∧ (∀ w, t.pending r = some w → s.pending r = some w) ∨
      s.calls r < t.calls r ∧ ∀ w, t.pending r = some w → w.epoch = t.acquired w.lk := by
  cases he with
  | @own p k T t hcur ho =>
    cases ho with
    | callSleep =>
      by_cases hr : r = p
      · subst hr
        exact .inr (by simp)
      · exact .inl (by simp [hr])
    | wake | kill => exact .inl ⟨rfl, fun w hw => pending_of_wakeProc hw⟩
    | _ => exact .inl ⟨rfl, fun w hw => hw⟩
  | switch hhand hs =>
    cases hs with
    | @swtchIn i =>
      obtain ⟨x, hx, -⟩ := exists_swtchIn s c i
      exact hx ▸ .inl ⟨rfl, fun w hw => hw⟩
    | @swtchOut p i =>
      obtain ⟨g, x, hx, -⟩ := exists_swtchOut s c p i
      exact hx ▸ .inl ⟨rfl, fun w hw => hw⟩
    | _ => exact .inl ⟨rfl, fun w hw => hw⟩
  | handles hh =>
    cases hh with
    | wake => exact .inl ⟨rfl, fun w hw => pending_of_wakeProc hw⟩
    | _ => exact .inl ⟨rfl, fun w hw => hw⟩

theorem Effect.acquired (he : Effect s c T t) (l : Lk) : s.acquired l ≤ t.acquired l ∧
    ∀ d, t.lk l = some d → s.lk l = some d ∨ s.acquired l < t.acquired l := by
  cases he.lkStep with
  | same hlk hacq => simp [hlk, hacq]
  | acquire l' hfree hlk hacq | both l' hfree hlk hacq =>
    by_cases hl : l = l' <;> simp [hlk, hacq, hl]
  | release l' hheld hlk hacq => by_cases hl : l = l' <;> simp [hlk, hacq, hl]

theorem Inv.moved (h : Inv s) (he : Effect s c T t) : Moved s t c where
  cpu _ hd := he.cpu hd
  lk d hd l hl :=
    have hl' := (he.lkStep.elsewhere hd l).1.mp hl
    ⟨hl', (he.lkStep.elsewhere hd l).2 hl'⟩
  frame d hd r hr := by
    cases he with
    | @own p _ _ _ hcur ho =>
      have hrp : r ≠ p := by
        rintro rfl
        exact hd (h.exec_inj (current_eq_some hcur).2.1 hr)
      cases ho with
      | @forkReady np =>
        have hrn : r ≠ np := by
          rintro rfl
          exact h.not_exec_of_absent (.inr (h.used_of_child hcur rfl)) d hr
        simp [hrp, hrn]
      | _ => simp [hrp]
    | switch hhand hs =>
      cases hs with
      | @back p _ _ _ hmode =>
        have hrp : r ≠ p := by
          rintro rfl
          exact hd (h.exec_inj hmode hr)
        simp [hrp]
      | @swtchIn i =>
        obtain ⟨x, hx, -⟩ := exists_swtchIn s c i
        rw [hx]
        rfl
      | @swtchOut p i =>
        obtain ⟨g, x, hx, -⟩ := exists_swtchOut s c p i
        rw [hx]
        rfl
      | _ => rfl
    | handles hh => cases hh <;> rfl
  pending r w hw := (he.calls r).imp (fun hr => hr.2 w hw) fun hr => hr.2 w hw

theorem Waking.shape_own (h : Waking s) (hcur : current s c = some (p, k))
    (ho : Own s c p k T t) : Shape s t c := by
  obtain ⟨-, hmode, hframe⟩ := current_eq_some hcur
  cases ho with
  | goto hk hk' hneeds hscan | reparent hk hk' hneeds hscan =>
    exact .code p _ hmode (update_self ..) hscan
  | acquire hk hk' hfree hneeds hscan =>
    exact .code p _ (by simp [hmode]) (update_self ..) (by simp [hscan])
  | release => exact .code p _ (by simp [hmode]) hframe (by simp [Pc.scan])
  | wakeSelf hk hk' hneeds hscan hscan' hj =>
    -- `myproc()` is the caller itself
    obtain ⟨-, hcur', -⟩ := (h.inv.handover.cpu c).of_running (p := p)
      (by simp [view, phase, hmode])
    obtain rfl := Option.some_inj.mp (hcur'.symm.trans hj)
    refine .scan p p k _ _ hcur hmode (update_self ..) hscan hscan' rfl rfl fun w hw => ?_
    simp [h.pending_of_current hcur hk.awake] at hw
  | wake hk hk' hneeds hscan hscan' hlock =>
    exact .scan p _ k _ _ hcur hmode (update_self ..) hscan hscan' rfl rfl fun w hw hchan =>
      h.pending_of_wake hcur hk hlock hw hchan
  | exitRelease hheld hlock hnoff =>
    refine .free fun l => ?_
    have hcount : Counted (s.release c .wait) :=
      h.inv.counted.of_release (x := .inl .wait) hheld Sum.update_elim_inl.symm rfl rfl
    exact hcount.only (by simpa using hnoff) hlock
  | sleepSet hlock hnoff => exact .free fun l => h.inv.counted.only hnoff hlock
  | yield hlock hnoff => exact .free fun l => h.inv.counted.not_held hnoff
  | _ => exact .code p _ (by simp [hmode]) (update_self ..) (by simp [Pc.scan])

theorem Waking.shape (h : Waking s) (he : Effect s c T t) : Shape s t c := by
  cases he with
  | own hcur ho => exact h.shape_own hcur ho
  | switch hhand hs =>
    have hcode : ∀ p k, (s.cpu c).mode = .exec p → s.frame p ≠ .code k := by
      intro p' k' hmode'
      cases hs with
      | back hmode hframe hlock hf =>
        obtain rfl := Mode.exec.inj (hmode.symm.trans hmode')
        rw [hframe]
        rcases hf with ⟨rfl, -⟩ | ⟨_, rfl, -⟩ | ⟨rfl, -⟩ <;> simp
      | look hmode | dispatch hmode | swtchIn hmode | swtchOut hmode | schedulerBack hmode =>
        simp [hmode] at hmode'
    refine .free fun l hl => h.clean.not_held hhand hcode l ?_
    cases hs with
    | @swtchIn i =>
      obtain ⟨x, hx, -⟩ := exists_swtchIn s c i
      rwa [hx] at hl
    | @swtchOut p i =>
      obtain ⟨g, x, hx, -⟩ := exists_swtchOut s c p i
      rwa [hx] at hl
    | _ => exact hl
  | handles hh =>
    have held : ∀ x x' : Handler, (s.cpu c).handler = some x → (t.cpu c).handler = some x' →
        x'.lk = x.lk → ∀ l, (∀ y, (t.cpu c).handler = some y → y.lk ≠ l) →
        ∀ y, (s.cpu c).handler = some y → y.lk ≠ l := by
      intro x x' hx hx' hxx l hl y hy
      obtain rfl := Option.some_inj.mp (hx.symm.trans hy)
      exact hxx ▸ hl x' hx'
    cases hh with
    | @interrupt l hhand hfree =>
      refine .handler (by simp) rfl fun l' hl hx => ?_
      have hne : l' ≠ l := Ne.symm (hx ⟨l, none⟩ (by simp))
      simpa [hne, hhand] using hl
    | next hhand hh' | wake hhand hh' =>
      exact .handler (by simp) rfl fun l hl hx => ⟨hl, rfl, held _ _ hhand (by simp) hh' l hx⟩
    | @done x hhand hheld =>
      refine .handler (by simp) rfl fun l hl hx => ?_
      have hne : l ≠ x.lk := by
        rintro rfl
        simp at hl
      refine ⟨by simpa [hne] using hl, rfl, fun y hy => ?_⟩
      obtain rfl := Option.some_inj.mp (hhand.symm.trans hy)
      exact Ne.symm hne

/-! ## The calls of the threads that a step touches -/

theorem Waking.inCall_own (h : Waking s) (hcur : current s c = some (p, k))
    (ho : Own s c p k T t) : InCall t p := by
  have he := Effect.own hcur ho
  have hframe := (current_eq_some hcur).2.2
  have hinv := h.inv.effect he
  -- outside `sleep` there is no call, and the step makes none
  have awake : k.sleeps = none → t.calls p = s.calls p →
      (∀ m, t.frame p = .code m → m.sleeps = none) →
      (t.proc p).state ≠ .sleeping → InCall t p := by
    intro hk hcalls hcode hstate
    refine .of_none hcode hstate (Option.eq_none_iff_forall_ne_some.mpr fun w hw => ?_)
    have hw' := ((he.calls p).resolve_right fun hlt => absurd hcalls hlt.1.ne').2 w hw
    simp [h.pending_of_current hcur hk] at hw'
  have code : ∀ {m}, k.sleeps = none → t.calls p = s.calls p → t.frame p = .code m →
      m.sleeps = none → InCall t p := by
    intro m hk hcalls hm hsleeps
    refine awake hk hcalls (fun m' hm' => ?_) (hinv.not_sleeping_of_code hm)
    obtain rfl := Frame.code.inj (hm.symm.trans hm')
    exact hsleeps
  cases ho with
  | goto hk hk' | acquire hk hk' | wakeSelf hk hk' | wake hk hk' | reparent hk hk' =>
    exact code hk.awake rfl (update_self ..) hk'.awake
  | ret hk | kill hk | forkAlloc hk | exitZombie hk | waitReturn hk | reap hk =>
    exact code hk.awake rfl (update_self ..) rfl
  | forkFail | forkReady | forkParent | forkRunnable => exact code rfl rfl (update_self ..) rfl
  | release => exact code rfl rfl hframe rfl
  | @callSleep _ chan caller =>
    refine ⟨fun w hw => .inl ⟨.sleepEnter chan caller, by simp, ?_⟩,
      fun _ => ⟨⟨chan, caller.lk, s.acquired caller.lk, s.calls p + 1⟩, by simp, by simp⟩⟩
    obtain rfl : _ = w := by simpa using hw
    rfl
  | sleepEnter | sleepRelease =>
    exact h.inCall_of_sleeps hcur (update_self ..) rfl (by simp [Pc.sleeps]) rfl rfl
  | exitRelease => exact awake rfl rfl (by simp) (h.inv.not_sleeping_of_code hframe)
  | yield hlock hnoff =>
    obtain ⟨hunlocked, hneeds⟩ := h.inv.of_yield hcur hlock hnoff
    exact awake (sleeps_eq_none hunlocked hneeds) rfl (by simp) (by simp)
  | @sleepSet chan caller hlock hnoff =>
    constructor
    · intro w hw
      rcases (h.inCall p).stage w hw with ⟨k, hk, hs⟩ | ⟨hs, -⟩
      · obtain rfl := Frame.code.inj (hframe.symm.trans hk)
        obtain ⟨rfl, -⟩ : chan = w.chan ∧ _ := by simpa [Pc.sleeps] using hs
        exact .inr (by simp [Proc.sleep])
      · exact absurd hs (h.inv.not_sleeping_of_code hframe)
    · intro _
      exact (h.inCall p).made (.inr ⟨_, hframe, by simp [Pc.sleeps]⟩)

/-- A thread that is in no code, neither before nor after, and is not asleep. -/
theorem Waking.inCall_of_slot (h : Waking s) (he : Effect s c T t)
    (hcode : ∀ k, s.frame q ≠ .code k)
    (hstate : (s.proc q).state ≠ .sleeping) (hcode' : ∀ k, t.frame q ≠ .code k)
    (hstate' : (t.proc q).state ≠ .sleeping) (hcalls : t.calls q = s.calls q) : InCall t q := by
  refine .of_none (fun k hk => absurd hk (hcode' k)) hstate'
    (Option.eq_none_iff_forall_ne_some.mpr fun w hw => ?_)
  have hw' := ((he.calls q).resolve_right fun hlt => absurd hcalls hlt.1.ne').2 w hw
  simp [h.pending_eq_none (fun k hk => absurd hk (hcode k)) hstate] at hw'

theorem Waking.inCall_slot (h : Waking s) (hcur : current s c = some (p, k))
    (ho : Own s c p k T t) (hq : q ∈ T) (hqp : q ≠ p) : InCall t q := by
  have slot := h.inCall_of_slot (q := q) (.own hcur ho)
  cases ho with
  | wake =>
    obtain rfl := List.mem_singleton.mp hq
    exact (h.inCall_wakeProc (wakeup_chan ..) (wakeup_state_cases ..)).congr (by simp [hqp]) rfl
      rfl rfl rfl
  | kill =>
    obtain rfl := List.mem_singleton.mp hq
    exact (h.inCall_wakeProc (P := (s.proc q).kill) rfl (kill_state_cases _)).congr
      (by simp [hqp]) (by simp [hqp]) (by simp [hqp]) rfl rfl
  | forkAlloc hk hlock hnp =>
    obtain rfl := List.mem_singleton.mp hq
    have hdead := h.inv.dead_of_state (.inl hnp)
    exact slot (by simp [hdead]) (by simp [hnp]) (by simp [hqp, hdead]) (by simp [Proc.allocproc])
      rfl
  | forkFail hlock | forkReady hlock =>
    obtain rfl := List.mem_singleton.mp hq
    have hnp := h.inv.used_of_child hcur rfl
    have hdead := h.inv.dead_of_state (.inr (.inr ⟨hnp, by simp [hlock]⟩))
    exact slot (by simp [hdead]) (by simp [hnp]) (by simp [hqp, hdead])
      (by simp [hqp, hnp, Proc.freeproc]) rfl
  | forkRunnable hlock =>
    obtain rfl := List.mem_singleton.mp hq
    have hnp := h.inv.used_of_child hcur rfl
    obtain ⟨hcode, -⟩ := h.inv.back_of_state (.inr (.inr ⟨hnp, hlock⟩))
    exact slot hcode (by simp [hnp]) (by simpa [hqp] using hcode) (by simp [hqp]) rfl
  | reap hk hheld hlock hz =>
    obtain rfl := List.mem_singleton.mp hq
    have hdead := h.inv.dead_of_state (.inr (.inl ⟨hz, hlock⟩))
    exact slot (by simp [hdead]) (by simp [hz]) (by simp [hqp, hdead])
      (by simp [hqp, Proc.freeproc]) rfl
  | _ => simp at hq

theorem Waking.inCall_switch (h : Waking s) (hs : Switch s c T t) (hr : r ∈ T) : InCall t r := by
  cases hs with
  | @back p P f k hmode hframe hlock hf =>
    obtain rfl := List.mem_singleton.mp hr
    have hf' : ∀ k, f ≠ .code k := by rcases hf with hf | ⟨_, hf⟩ | hf <;> simp [hf]
    have hrun := h.inv.running_of_back hmode hframe hf'
    have hP : P.state = .running := by
      rcases hf with ⟨-, rfl⟩ | ⟨_, -, -, rfl⟩ | ⟨-, -, rfl⟩ <;> exact hrun
    have hk : k.sleeps = none := by
      rcases hf with ⟨rfl, -⟩ | ⟨_, -, rfl, -⟩ | ⟨-, rfl, -⟩
      · obtain ⟨hunlocked, hneeds⟩ := h.inv.of_yieldBack hframe
        exact sleeps_eq_none hunlocked hneeds
      · rfl
      · rfl
    refine .of_none (by simpa using hk) (by simp [hP]) ?_
    exact h.pending_eq_none (fun k hk => absurd (hframe ▸ hk) (hf' k)) (by simp [hrun])
  | dispatch hmode hlock hp =>
    obtain rfl := List.mem_singleton.mp hr
    obtain ⟨hcode, -⟩ := h.inv.back_of_state (.inr (.inl hp))
    exact .of_none (fun k hk => absurd hk (hcode k)) (by simp)
      (h.pending_eq_none (fun k hk => absurd hk (hcode k)) (by simp [hp]))
  | @swtchIn i =>
    obtain ⟨x, hx, -⟩ := exists_swtchIn s c i
    exact hx ▸ (h.inCall r).congr rfl rfl rfl rfl rfl
  | schedulerBack => exact (h.inCall r).congr rfl rfl rfl rfl rfl
  | _ => simp at hr

theorem Waking.inCalls (h : Waking s) (he : Effect s c T t) (r : Slot) : InCall t r := by
  cases he with
  | @own p _ T _ hcur ho =>
    by_cases hrp : r = p
    · subst hrp
      exact h.inCall_own hcur ho
    by_cases hr : r ∈ T
    · exact h.inCall_slot hcur ho hr hrp
    · exact (h.inCall r).of_unchanged (ho.unchanged hrp hr)
  | switch hhand hs =>
    by_cases hr : r ∈ T
    · exact h.inCall_switch hs hr
    · exact (h.inCall r).of_unchanged (hs.unchanged hr)
  | handles hh =>
    by_cases hr : r ∈ T
    · cases hh with
      | wake =>
        obtain rfl := List.mem_singleton.mp hr
        exact (h.inCall_wakeProc (wakeup_chan ..) (wakeup_state_cases ..)).congr rfl rfl rfl rfl rfl
      | _ => simp at hr
    · exact (h.inCall r).of_unchanged (hh.unchanged hr)

/-! ## Runs -/

theorem Waking.effect (h : Waking s) (he : Effect s c T t) : Waking t := by
  have hmoved := h.inv.moved he
  have hshape := h.shape he
  refine ⟨h.inv.effect he, h.clean.of_shape hmoved hshape, h.scanned.of_shape hmoved hshape,
    h.inCalls he, fun p w hw => ?_⟩
  rcases hmoved.pending p w hw with hw' | hw'
  · exact (h.epoch p w hw').trans (he.acquired w.lk).1
  · exact hw'.le

theorem waking_of_run {tr : List (Event κ)} (hrun : Run step (boot κ) tr s) : Waking s :=
  hrun.state_invariant waking_boot fun _ _ _ h hstep =>
    have ⟨_, _, he⟩ := effect_of_step hstep
    h.effect he

theorem acquired_of_run {tr : List (Event κ)} (hrun : Run step s tr t) (l : Lk) :
    s.acquired l ≤ t.acquired l :=
  hrun.state_invariant (I := fun t => s.acquired l ≤ t.acquired l) le_rfl fun _ _ _ h hstep =>
    have ⟨_, _, he⟩ := effect_of_step hstep
    h.trans (he.acquired l).1

/-- As long as a process makes no new call, the call it is in is the old one. -/
theorem calls_of_run {tr : List (Event κ)} (hrun : Run step s tr t) (r : Slot) :
    s.calls r ≤ t.calls r ∧
      (t.calls r = s.calls r → ∀ w, t.pending r = some w → s.pending r = some w) := by
  refine hrun.state_invariant (I := fun t => s.calls r ≤ t.calls r ∧ (t.calls r = s.calls r →
    ∀ w, t.pending r = some w → s.pending r = some w)) ⟨le_rfl, fun _ _ hw => hw⟩ ?_
  rintro t e u ⟨hle, hsame⟩ hstep
  obtain ⟨c, T, he⟩ := effect_of_step hstep
  rcases he.calls r with ⟨hcalls, hpending⟩ | ⟨hlt, -⟩
  · exact ⟨hcalls ▸ hle, fun hu w hw => hsame (hcalls ▸ hu) w (hpending w hw)⟩
  · exact ⟨hle.trans hlt.le, fun hu => absurd hu (by omega)⟩

/-! ## The theorem -/

def CallsSleep (s : State κ) (c : κ) (p : Slot) (chan : Chan) (l : Lk) : Prop :=
  ∃ caller : Caller, caller.lk = l ∧ current s c = some (p, .sleepEnter chan caller)

def Acquires (s t : State κ) (c : κ) (p : Slot) (l : Lk) : Prop :=
  (∃ k, current s c = some (p, k)) ∧ s.lk l ≠ some c ∧ t.lk l = some c

def Keeps (s t : State κ) (c : κ) (l : Lk) : Prop :=
  t.lk l = some c ∧ t.acquired l = s.acquired l

def InWakeup (s : State κ) (c : κ) (p : Slot) (chan : Chan) : Prop :=
  ∃ k j, current s c = some (p, k) ∧ k.scan = some (some chan, j)

omit [DecidableEq κ] in
theorem return_of_wakeupScan {next done : Pc} {chan : Chan} {j : ℕ}
    (hcur : current s c = some (p, k)) (hnext : next.scan = some (some chan, j + 1))
    (h : wakeupScan s c (some chan) j (fun u => u.goto p (.code next))
      (fun u => u.goto p (.code done)) = some t)
    (hret : ¬InWakeup t c p chan) : NPROC ≤ j ∧ t.proc = s.proc ∧ t.calls = s.calls := by
  obtain ⟨hhand, hmode, hframe⟩ := current_eq_some hcur
  unfold wakeupScan at h
  split_ifs at h with hj
  · obtain ⟨u, hu, rfl⟩ := Option.map_eq_some_iff.mp h
    have hcpu : u.cpu = s.cpu := by
      simp only [wakeupAt] at hu
      split_ifs at hu <;> obtain rfl := Option.some_inj.mp hu <;> rfl
    refine absurd ⟨next, j + 1, ?_, hnext⟩ hret
    simp [current, hcpu, hhand, hmode]
  · obtain rfl := Option.some_inj.mp h
    exact ⟨Nat.le_of_not_lt hj, rfl, rfl⟩

theorem return_of_step {chan : Chan} {j : ℕ} {ok : Bool} (hcur : current s c = some (p, k))
    (hk : k.scan = some (some chan, j)) (hstep : step s (.advance c ok) = some t)
    (hret : ¬InWakeup t c p chan) : NPROC ≤ j ∧ t.proc = s.proc ∧ t.calls = s.calls := by
  obtain ⟨hhand, hmode, hframe⟩ := current_eq_some hcur
  simp only [step, advance, hhand, hmode, advanceThread, hframe] at hstep
  cases k with
  | wakeup chan' j' =>
    obtain ⟨rfl, rfl⟩ : chan' = some chan ∧ j' = j := by simpa [Pc.scan] using hk
    exact return_of_wakeupScan hcur rfl hstep hret
  | exitReparentWakeup status i j' =>
    obtain ⟨rfl, rfl⟩ : .proc initproc = chan ∧ j' = j := by simpa [Pc.scan] using hk
    exact return_of_wakeupScan hcur rfl hstep hret
  | exitWakeup status parent j' =>
    obtain ⟨hchan, rfl⟩ : parent.map .proc = some chan ∧ j' = j := by simpa [Pc.scan] using hk
    simp only [advancePc, hchan] at hstep
    exact return_of_wakeupScan hcur (by simp [Pc.scan, hchan]) hstep hret
  | _ => simp [Pc.scan] at hk

/-- `A` has called `sleep(chan, l)`; later `B` acquires `l` and, still holding it,
returns from `wakeup(chan)`.  Then `A` is not asleep in that call. -/
theorem sleep_never_misses_wakeup {tr₁ tr₂ tr₃ : List (Event κ)} {s₁ s₂ s₃ s₄ s₅ : State κ}
    {a b : κ} {A B : Slot} {chan : Chan} {l : Lk} {e : Event κ} {ok : Bool}
    (h₁ : Run step (boot κ) tr₁ s₁) (hsleep : CallsSleep s₁ a A chan l)
    (h₂ : Run step s₁ tr₂ s₂) (hstep : step s₂ e = some s₃) (hacquire : Acquires s₂ s₃ b B l)
    (h₃ : Run step s₃ tr₃ s₄) (hkeeps : Keeps s₃ s₄ b l) (hwakeup : InWakeup s₄ b B chan)
    (hreturn : step s₄ (.advance b ok) = some s₅) (hreturned : ¬InWakeup s₅ b B chan) :
    ¬((s₅.proc A).state = .sleeping ∧ (s₅.proc A).chan = some chan ∧
      s₅.calls A = s₁.calls A) := by
  rintro ⟨hstate, -, hcalls⟩
  obtain ⟨caller, rfl, hcall⟩ := hsleep
  obtain ⟨-, hfree, hheld⟩ := hacquire
  obtain ⟨k, j, hcur, hk⟩ := hwakeup
  obtain ⟨hj, hproc, hcalls'⟩ := return_of_step hcur hk hreturn hreturned
  obtain ⟨d, T, he⟩ := effect_of_step hstep
  have h₁₃ : Run step s₁ (tr₂ ++ [e]) s₃ := .snoc h₂ hstep
  have h₁₄ : Run step s₁ (tr₂ ++ [e] ++ tr₃) s₄ := h₁₃.append h₃
  have hwaking₁ := waking_of_run h₁
  have hwaking₄ := waking_of_run (h₁.append h₁₄)
  -- the call that `A` sleeps in is the one it has made in `s₁`
  rw [hproc] at hstate
  rw [hcalls'] at hcalls
  obtain ⟨w, hw, -⟩ := (hwaking₄.inCall A).made (.inl hstate)
  have hw₁ := (calls_of_run h₁₄ A).2 hcalls w hw
  obtain ⟨-, -, hframe⟩ := current_eq_some hcall
  obtain ⟨hchan, hlk⟩ : chan = w.chan ∧ caller.lk = w.lk := by
    rcases (hwaking₁.inCall A).stage w hw₁ with ⟨k', hk', hs⟩ | ⟨hs, -⟩
    · obtain rfl : .sleepEnter chan caller = k' := by simpa [hframe] using hk'
      simpa [Pc.sleeps] using hs
    · exact absurd hs (hwaking₁.inv.not_sleeping_of_code hframe)
  -- the call is older than the acquisition
  have hold : w.epoch < s₄.acquired caller.lk := calc
    w.epoch ≤ s₁.acquired w.lk := hwaking₁.epoch A w hw₁
    _ = s₁.acquired caller.lk := by rw [hlk]
    _ ≤ s₂.acquired caller.lk := acquired_of_run h₂ caller.lk
    _ < s₃.acquired caller.lk :=
      ((he.acquired caller.lk).2 b hheld).resolve_left hfree
    _ = s₄.acquired caller.lk := hkeeps.2.symm
  obtain ⟨hhand, hmode, hframeB⟩ := current_eq_some hcur
  have hyoung := hwaking₄.scanned b B k (some chan) j hmode hframeB hk caller.lk hkeeps.1
    (by simp [hhand]) A w (A.lt.trans_le hj) hw (by rw [hchan]) hlk.symm
  omega

/-- `init` starts on one CPU, forks a child that starts on the other, and calls
`sleep`. -/
def sleepTrace : List (Event Bool) :=
  List.replicate 31 (.advance false true) ++ [.call false .fork] ++
    List.replicate 5 (.advance false true) ++ List.replicate 32 (.advance true true) ++
    [.call false (.acquire (.other 0)), .call false (.sleep (.other 7) (.other 0))]

def asleepTrace : List (Event Bool) := List.replicate 33 (.advance false true)

def wakeupTrace : List (Event Bool) :=
  .call true (.wakeup (.other 7)) :: List.replicate 64 (.advance true true)

theorem sleep_never_misses_wakeup_init : ∃ s₁ s₅ : State Bool, Run step (boot Bool) sleepTrace s₁ ∧
    CallsSleep s₁ false initproc (.other 7) (.other 0) ∧ s₅.calls initproc = s₁.calls initproc ∧
    ¬((s₅.proc initproc).state = .sleeping ∧ (s₅.proc initproc).chan = some (.other 7) ∧
      s₅.calls initproc = s₁.calls initproc) := by
  obtain ⟨s₁, h₁, hs₁⟩ := Run.exists_of_any (P := fun s₁ : State Bool =>
      decide (current s₁ false = some (initproc, .sleepEnter (.other 7) (.code (.other 0)))) &&
      (asleepTrace.foldlM step s₁).any fun s₂ : State Bool =>
        decide (current s₂ true = some (Proc.slot1, .run) ∧ s₂.lk (.other 0) = none) &&
        (step s₂ (.call true (.acquire (.other 0)))).any fun s₃ : State Bool =>
          decide (s₃.lk (.other 0) = some true) &&
          (wakeupTrace.foldlM step s₃).any fun s₄ : State Bool =>
            decide (s₄.lk (.other 0) = some true ∧ s₄.acquired (.other 0) = s₃.acquired (.other 0) ∧
              current s₄ true = some (Proc.slot1, .wakeup (some (.other 7)) 64)) &&
            (step s₄ (.advance true true)).any fun s₅ : State Bool =>
              decide (current s₅ true = some (Proc.slot1, .run) ∧
                s₅.calls initproc = s₁.calls initproc))
    (by decide +kernel : (sleepTrace.foldlM step (boot Bool)).any _ = true)
  rw [Bool.and_eq_true, decide_eq_true_eq] at hs₁
  obtain ⟨hcall, hs₁⟩ := hs₁
  obtain ⟨s₂, h₂, hs₂⟩ := Run.exists_of_any hs₁
  rw [Bool.and_eq_true, decide_eq_true_eq] at hs₂
  obtain ⟨⟨hB, hfree⟩, hs₂⟩ := hs₂
  obtain ⟨s₃, h₃, hs₃⟩ := (Option.any_eq_true ..).mp hs₂
  rw [Bool.and_eq_true, decide_eq_true_eq] at hs₃
  obtain ⟨hheld, hs₃⟩ := hs₃
  obtain ⟨s₄, h₄, hs₄⟩ := Run.exists_of_any hs₃
  rw [Bool.and_eq_true, decide_eq_true_eq] at hs₄
  obtain ⟨⟨hheld', hacq, hwakeup⟩, hs₄⟩ := hs₄
  obtain ⟨s₅, h₅, hs₅⟩ := (Option.any_eq_true ..).mp hs₄
  rw [decide_eq_true_eq] at hs₅
  have hsleep : CallsSleep s₁ false initproc (.other 7) (.other 0) := ⟨_, rfl, hcall⟩
  have hacquire : Acquires s₂ s₃ true Proc.slot1 (.other 0) := ⟨⟨_, hB⟩, by simp [hfree], hheld⟩
  refine ⟨s₁, s₅, h₁, hsleep, hs₅.2, sleep_never_misses_wakeup h₁ hsleep h₂ h₃ hacquire h₄
    ⟨hheld', hacq⟩ ⟨_, _, hwakeup, rfl⟩ h₅ ?_⟩
  rintro ⟨k, j, hk, hscan⟩
  obtain rfl : .run = k := by simpa [hs₅.1] using hk
  simp [Pc.scan] at hscan

end Xv6.Sched
