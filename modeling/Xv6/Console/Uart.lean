import Xv6.Lib.Monitor
import Xv6.Lib.Ring

/-!
# The transmit buffer of the UART

`uartputc`, `uartstart` and the last lines of `uartintr` of `uart.c`, as programs for the
buffer behind `uart_tx_lock`.  Processes call `uartputc`; `uartstart` runs in their calls
and in the handlers of interrupts.
-/

namespace Xv6.Uart

open Lib Monitor

def UART_TX_BUF_SIZE : ℕ := 32

def LSR_TX_IDLE : BitVec 8 := 1 <<< 5

/-- `uart_tx_buf`, `uart_tx_w` and `uart_tx_r`.  The last two fields are bookkeeping: the
characters that `uartputc` has put into the buffer and those that `uartstart` has written
to `THR`. -/
structure Tx where
  buf : ℕ → BitVec 8
  w : BitVec 64
  r : BitVec 64
  accepted : List (BitVec 8)
  sent : List (BitVec 8)

/-- What the code reads from outside: `panicked` and the register `LSR`. -/
structure Env where
  panicked : Bool
  lsr : BitVec 8

/-- Before which statement a process or a handler is. -/
inductive Label
  | user
  | uartputc (c : BitVec 32)
  | ifPanicked (c : BitVec 32)
  /-- `for(;;) ;` -/
  | hang
  | whileFull (c : BitVec 32)
  | sleep (c : BitVec 32)
  | put (c : BitVec 32)
  /-- At the head of the loop of `uartstart`. -/
  | uartstart
  | ifBusy
  | get
  | wakeup (c : BitVec 8)
  | writeReg (c : BitVec 8)
  /-- Behind `uartstart`. -/
  | unlock
deriving DecidableEq

namespace Tx

def Full (t : Tx) : Prop := t.w = t.r + BitVec.ofNat 64 UART_TX_BUF_SIZE

instance (t : Tx) : Decidable t.Full := inferInstanceAs (Decidable (_ = _))

def put (t : Tx) (c : BitVec 32) : Tx :=
  { t with
    buf := Function.update t.buf (t.w.toNat % UART_TX_BUF_SIZE) (c.setWidth 8)
    w := t.w + 1
    accepted := t.accepted ++ [c.setWidth 8] }

def next (t : Tx) : BitVec 8 := t.buf (t.r.toNat % UART_TX_BUF_SIZE)

def write (t : Tx) (c : BitVec 8) : Tx := { t with sent := t.sent ++ [c] }

/-- What is in the buffer, oldest first. -/
def contents (t : Tx) : List (BitVec 8) := Ring.contents UART_TX_BUF_SIZE t.buf t.r t.w

end Tx

def act : Label → Act Tx Env Label
  | .user => .outside
  | .uartputc c => .acquire (.ifPanicked c)
  | .ifPanicked c => .step fun x t => (t, if x.panicked then .hang else .whileFull c)
  | .hang => .step fun _ t => (t, .hang)
  | .whileFull c => .step fun _ t => (t, if t.Full then .sleep c else .put c)
  | .sleep c => .sleep (.whileFull c)
  | .put c => .step fun _ t => (t.put c, .uartstart)
  | .uartstart => .step fun _ t => (t, if t.w = t.r then .unlock else .ifBusy)
  | .ifBusy => .step fun x t => (t, if x.lsr &&& LSR_TX_IDLE = 0 then .unlock else .get)
  | .get => .step fun _ t => ({ t with r := t.r + 1 }, .wakeup t.next)
  | .wakeup c => .wakeup (.writeReg c)
  | .writeReg c => .step fun _ t => (t.write c, .uartstart)
  | .unlock => .release .user

def calls : Label → Label → Bool
  | .user, .uartputc _ => true
  | _, _ => false

/-- `n` slots for processes, and handlers on the CPUs `κ`; `uartintr` calls `uartstart`
with the lock. -/
def program (n : ℕ) (κ : Type) : Program Tx Env Label κ n where
  act _ := act
  calls := calls
  entry _ := .uartstart

def start (n : ℕ) (κ : Type) (buf : ℕ → BitVec 8) : State Tx Label κ n where
  obj := ⟨buf, 0, 0, [], []⟩
  lk := none
  phase _ := .run .user
  me _ := none

/-! ## The buffer is a queue -/

/-- The characters that were accepted are those sent, those on the way to `THR`, and
those in the buffer. -/
structure Tx.Queue (t : Tx) (flight : List (BitVec 8)) : Prop where
  le : (t.w - t.r).toNat ≤ UART_TX_BUF_SIZE
  eq : t.sent ++ flight ++ t.contents = t.accepted

namespace Tx

variable {t : Tx} {flight : List (BitVec 8)}

theorem dvd_size : UART_TX_BUF_SIZE ∣ 2 ^ 64 := by decide

theorem full_iff : t.Full ↔ (t.w - t.r).toNat = UART_TX_BUF_SIZE := by
  unfold Full
  rw [← sub_eq_iff_eq_add', BitVec.toNat_eq]
  rfl

theorem Queue.put (h : t.Queue []) (hfull : ¬ t.Full) (c : BitVec 32) : (t.put c).Queue [] := by
  have hlt : (t.w - t.r).toNat < UART_TX_BUF_SIZE :=
    lt_of_le_of_ne h.le fun heq => hfull (full_iff.mpr heq)
  refine ⟨?_, ?_⟩
  · change (t.w + 1 - t.r).toNat ≤ _
    rw [Ring.toNat_add_one_sub (by unfold UART_TX_BUF_SIZE at hlt; omega)]
    exact hlt
  · change t.sent ++ [] ++ Ring.contents _ (Function.update t.buf _ _) t.r (t.w + 1) = _
    rw [Ring.contents_push dvd_size hlt (by decide), ← List.append_assoc]
    exact congrArg (· ++ [c.setWidth 8]) h.eq

theorem Queue.get (h : t.Queue []) (hne : t.w ≠ t.r) : Queue { t with r := t.r + 1 } [t.next] := by
  refine ⟨?_, ?_⟩
  · have := Ring.toNat_sub_add_one (Ne.symm hne)
    exact (Nat.le_succ _).trans (this.le.trans h.le)
  · rw [← h.eq, List.append_nil, List.append_assoc]
    exact congrArg (t.sent ++ ·) (Ring.contents_pop dvd_size (Ne.symm hne)).symm

theorem Queue.write {c : BitVec 8} (h : t.Queue [c]) : (t.write c).Queue [] := by
  refine ⟨h.le, ?_⟩
  rw [List.append_nil]
  exact h.eq

end Tx

namespace Label

def Inner : Label → Prop
  | user | uartputc _ => False
  | ifPanicked _ | hang | whileFull _ | sleep _ | put _ | uartstart | ifBusy | get | wakeup _
  | writeReg _ | unlock => True

/-- The character on the way to `THR`. -/
def flight : Label → List (BitVec 8)
  | wakeup c | writeReg c => [c]
  | _ => []

/-- What the tests have shown. -/
def Tested (t : Tx) : Label → Prop
  | sleep _ => t.Full
  | put _ => ¬ t.Full
  | ifBusy | get => t.w ≠ t.r
  | _ => True

end Label

section outline

variable {n : ℕ} {κ : Type}

theorem step_spec {l : Label} {f : Env → Tx → Tx × Label} {t : Tx} (x : Env)
    (hact : act l = .step f) (hq : t.Queue l.flight) (ht : l.Tested t) :
    (f x t).2.Inner ∧ (f x t).1.Queue (f x t).2.flight ∧ (f x t).2.Tested (f x t).1 ∧
      (t.Full ∧ ¬ (f x t).1.Full → ∃ c, (f x t).2 = .wakeup c) := by
  cases l with
  | ifPanicked c =>
    obtain rfl := Act.step.inj hact
    by_cases hx : x.panicked = true
    · simp only [if_pos hx]
      exact ⟨trivial, hq, trivial, fun h => absurd h.1 h.2⟩
    · simp only [if_neg hx]
      exact ⟨trivial, hq, trivial, fun h => absurd h.1 h.2⟩
  | hang =>
    obtain rfl := Act.step.inj hact
    exact ⟨trivial, hq, trivial, fun h => absurd h.1 h.2⟩
  | whileFull c =>
    obtain rfl := Act.step.inj hact
    by_cases hfull : t.Full
    · simp only [if_pos hfull]
      exact ⟨trivial, hq, hfull, fun h => absurd h.1 h.2⟩
    · simp only [if_neg hfull]
      exact ⟨trivial, hq, hfull, fun h => absurd h.1 h.2⟩
  | put c =>
    obtain rfl := Act.step.inj hact
    exact ⟨trivial, hq.put ht c, trivial, fun h => absurd h.1 ht⟩
  | uartstart =>
    obtain rfl := Act.step.inj hact
    by_cases he : t.w = t.r
    · simp only [if_pos he]
      exact ⟨trivial, hq, trivial, fun h => absurd h.1 h.2⟩
    · simp only [if_neg he]
      exact ⟨trivial, hq, he, fun h => absurd h.1 h.2⟩
  | ifBusy =>
    obtain rfl := Act.step.inj hact
    by_cases hx : x.lsr &&& LSR_TX_IDLE = 0
    · simp only [if_pos hx]
      exact ⟨trivial, hq, trivial, fun h => absurd h.1 h.2⟩
    · simp only [if_neg hx]
      exact ⟨trivial, hq, ht, fun h => absurd h.1 h.2⟩
  | get =>
    obtain rfl := Act.step.inj hact
    exact ⟨trivial, hq.get ht, trivial, fun _ => ⟨_, rfl⟩⟩
  | writeReg c =>
    obtain rfl := Act.step.inj hact
    exact ⟨trivial, hq.write, trivial, fun h => absurd h.1 h.2⟩
  | user | uartputc c | sleep c | wakeup c | unlock => cases hact

/-- The object is blocked while the buffer is full. -/
def outline (n : ℕ) (κ : Type) : Outline (program n κ) Tx.Full where
  Inner := Label.Inner
  Own _ _ _ := True
  Here _ l t := t.Queue l.flight ∧ l.Tested t
  Good t := t.Queue []
  Owes l := ∃ c, l = .wakeup c
  outside a l hact := by
    cases l with
    | user =>
      refine ⟨id, fun m hm => ⟨?_, fun _ _ => trivial⟩⟩
      cases m with
      | uartputc c => exact id
      | _ => cases hm
    | _ => cases hact
  acquire a l m hact := by
    cases l with
    | uartputc c =>
      obtain rfl := Act.acquire.inj hact
      exact ⟨id, trivial, fun t _ hq => ⟨trivial, hq, trivial⟩⟩
    | _ => cases hact
  step a l f hact := by
    refine ⟨?_, fun x t _ ⟨hq, ht⟩ => ?_⟩
    · cases l with
      | user | uartputc c => cases hact
      | _ => trivial
    · obtain ⟨hin, hq', ht', howes⟩ := step_spec x hact hq ht
      refine ⟨hin, trivial, ⟨hq', ht'⟩, fun _ _ _ _ => trivial, ?_⟩
      rintro (⟨c, rfl⟩ | h)
      · cases hact
      · exact howes h
  sleep a l m hact := by
    cases l with
    | sleep c =>
      obtain rfl := Act.sleep.inj hact
      exact ⟨trivial, trivial, by simp, fun t h => ⟨h.2, h.1⟩, fun _ _ => trivial,
        fun t _ hq => ⟨hq, trivial⟩⟩
    | _ => cases hact
  wakeup a l m hact := by
    cases l with
    | wakeup c =>
      obtain rfl := Act.wakeup.inj hact
      exact ⟨trivial, trivial, fun t _ h => ⟨trivial, h.1, trivial⟩⟩
    | _ => cases hact
  release a l m hact := by
    cases l with
    | unlock =>
      obtain rfl := Act.release.inj hact
      exact ⟨trivial, id, by simp, fun t _ h => ⟨h.1, trivial⟩⟩
    | _ => cases hact
  entry h := ⟨trivial, fun t hq => ⟨trivial, hq, trivial⟩⟩

theorem inv_start (buf : ℕ → BitVec 8) : (outline n κ).Inv (start n κ buf) where
  lock a := iff_of_false (by simp [start]) id
  own _ := trivial
  returns _ := trivial
  good _ := ⟨(by decide : ((0 : BitVec 64) - 0).toNat ≤ UART_TX_BUF_SIZE),
    by simp [start, Tx.contents]⟩
  knows a ha := by cases ha
  wakes p hp := hp.elim
  me h p hl := by cases hl

theorem queue_of_inv {s : State Tx Label κ n} (h : (outline n κ).Inv s) :
    ∃ flight, flight.length ≤ 1 ∧ s.obj.Queue flight := by
  have hlen (l : Label) : l.flight.length ≤ 1 := by
    cases l <;> simp [Label.flight]
  cases hlk : s.lk with
  | none => exact ⟨[], Nat.zero_le _, h.good hlk⟩
  | some a =>
    have hknows := h.knows a hlk
    have hholds := (h.lock a).mp hlk
    cases hph : s.phase a with
    | run l | scan j l =>
      rw [hph] at hknows
      exact ⟨_, hlen l, hknows.1⟩
    | falling l =>
      rw [hph] at hknows
      exact ⟨[], Nat.zero_le _, hknows.2⟩
    | dropped l | asleep l | woken l | back l =>
      rw [hph] at hholds
      exact hholds.elim

end outline

/-- Whatever the order of the calls and of the interrupts, and whatever `LSR` is when it
is read: the buffer never holds more than its size; what went to `THR` is, in order, a
prefix of what was accepted, and all but at most one character of the rest, which
`uartstart` has in hand, is in the buffer; and while the lock is free nothing is in hand
and nobody sleeps unless the buffer is full. -/
theorem uart_fifo {n : ℕ} {κ : Type} [DecidableEq κ] {buf : ℕ → BitVec 8}
    {tr : List (Event Env Label κ n)} {s : State Tx Label κ n}
    (hrun : Run (program n κ).step (start n κ buf) tr s) :
    (s.obj.w - s.obj.r).toNat ≤ UART_TX_BUF_SIZE ∧
    (∃ flight, flight.length ≤ 1 ∧ s.obj.sent ++ flight ++ s.obj.contents = s.obj.accepted) ∧
    (s.lk = none → s.obj.sent ++ s.obj.contents = s.obj.accepted ∧
      (¬ s.obj.Full → ∀ p l, s.phase (.proc p) ≠ .asleep l)) := by
  have hinv := Outline.inv_of_run (inv_start buf) hrun
  obtain ⟨flight, hlen, hq⟩ := queue_of_inv hinv
  refine ⟨hq.le, ⟨flight, hlen, hq.eq⟩,
    fun hfree => ⟨?_, fun hfull p l => hinv.not_asleep hfree hfull p l⟩⟩
  have := (hinv.good hfree).eq
  rwa [List.append_nil] at this

/-- Two characters with the device busy, and an interrupt when it is idle. -/
def busyThenIdle {n : ℕ} [NeZero n] : List (Event Env Label Unit n) :=
  [.call 0 (.uartputc 65), .call 1 (.uartputc 66)] ++
    List.replicate 7 (.advance (.proc 1) ⟨false, 0⟩) ++
    List.replicate 7 (.advance (.proc 0) ⟨false, 0⟩) ++ [.interrupt () (some 0)] ++
    List.replicate 18 (.advance (.handler ()) ⟨false, 32⟩)

theorem uart_fifo_busyThenIdle : ∃ s : State Tx Label Unit 2,
    Run (program 2 Unit).step (start 2 Unit fun _ => 0) busyThenIdle s ∧
    s.obj.accepted = [66, 65] ∧ s.lk = none ∧ s.obj.sent ++ s.obj.contents = [66, 65] := by
  obtain ⟨s, hrun, hs⟩ := Run.exists_of_any
    (P := fun s => s.lk = none ∧ s.obj.accepted = [66, 65])
    (by decide +kernel :
      (busyThenIdle.foldlM (program 2 Unit).step (start 2 Unit fun _ => 0)).any _)
  obtain ⟨hfree, hacc⟩ := of_decide_eq_true hs
  have hend := ((uart_fifo hrun).2.2 hfree).1
  exact ⟨s, hrun, hacc, hfree, hend.trans hacc⟩

end Xv6.Uart
