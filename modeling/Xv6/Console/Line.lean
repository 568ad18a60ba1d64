import Xv6.Lib.Ring
import Xv6.Lib.Run
import Xv6.Sleep.Basic

/-!
# The console line discipline

`consoleintr` edits a line at the end of a ring buffer and commits it;
any number of readers take committed bytes from the front.  The three wrapping
indices stand for two queues, the committed bytes that nobody has read and the
line that is still being edited, and both are those of an ideal line editor.
-/

namespace Xv6.Console

open Lib Sleep
open Function (update update_self update_of_ne)

/-! ## Readers -/

/-- A call of `consoleread` in its loop, with the bytes it has copied out. -/
structure Call where
  target : ℕ
  n : ℕ
  got : List UInt8

/-- A call that has returned; `eof` tells whether it removed a `^D`. -/
structure Ret where
  value : ℤ
  got : List UInt8
  eof : Bool

/-- How a critical section of `consoleread` ends. -/
inductive Turn
  | sleeps (call : Call)
  | returns (ret : Ret)

/-- `consoleread` from `acquire(&cons.lock)`, or from its return from `sleep`, until it
sleeps or returns, with `n` bytes to go and `got` copied out. -/
def consoleread (killed : Bool) (target : ℕ) : ℕ → List UInt8 → Cons → Cons × Turn
  | 0, got, c => (c, .returns ⟨target, got, false⟩)
  | n + 1, got, c =>
    if c.r = c.w then
      (c, if killed then .returns ⟨-1, got, false⟩ else .sleeps ⟨target, n + 1, got⟩)
    else
      let ch := c.buf (c.r.toNat % INPUT_BUF_SIZE)
      if ch = Cons.C 'D' then
        -- Save ^D for next time, to make sure caller gets a 0-byte result.
        if n + 1 < target then
          ({ c.take with r := c.take.r - 1 }, .returns ⟨target - (n + 1), got, false⟩)
        else (c.take, .returns ⟨target - (n + 1), got, true⟩)
      else if ch = '\n'.toUInt8 then (c.take, .returns ⟨target - n, got ++ [ch], false⟩)
      else consoleread killed target n (got ++ [ch]) c.take

/-- The bytes that leave the buffer in a section that starts with `got`. -/
def Turn.taken (got : List UInt8) : Turn → List UInt8
  | .sleeps call => call.got.drop got.length
  | .returns ret => ret.got.drop got.length ++ if ret.eof then [Cons.C 'D'] else []

/-! ## The ideal line editor -/

inductive Item
  | key (ch : UInt8)
  | took (n : ℕ)

def Item.key? : Item → Option UInt8
  | .key ch => some ch
  | .took _ => none

/-- All bytes committed so far, how many of them have been read, and the line
that is being edited. -/
structure Editor where
  committed : List UInt8
  taken : ℕ
  line : List UInt8

namespace Editor

/-- Committed bytes not yet read, and the line. -/
def pending (a : Editor) : ℕ := a.committed.length - a.taken + a.line.length

/-- Characters typed while the buffer is full are dropped. -/
def input (a : Editor) (ch : UInt8) : Editor :=
  if ch ≠ 0 ∧ a.pending < INPUT_BUF_SIZE then
    let ch := if ch = '\r'.toUInt8 then '\n'.toUInt8 else ch
    if ch = '\n'.toUInt8 ∨ ch = Cons.C 'D' ∨ a.pending + 1 = INPUT_BUF_SIZE then
      { a with committed := a.committed ++ (a.line ++ [ch]), line := [] }
    else { a with line := a.line ++ [ch] }
  else a

def key (a : Editor) (ch : UInt8) : Editor :=
  if ch = Cons.C 'P' then a
  else if ch = Cons.C 'U' then { a with line := [] }
  else if ch = Cons.C 'H' ∨ ch = 0x7f then { a with line := a.line.dropLast }
  else a.input ch

def step (a : Editor) : Item → Editor
  | .key ch => a.key ch
  | .took n => { a with taken := a.taken + n }

def run (hist : List Item) : Editor := hist.foldl step ⟨[], 0, []⟩

theorem run_concat (hist : List Item) (x : Item) : run (hist ++ [x]) = (run hist).step x := by
  rw [run, List.foldl_append]
  rfl

theorem committed_key (a : Editor) (ch : UInt8) : a.committed <+: (a.key ch).committed := by
  unfold key input
  dsimp only
  split_ifs
  all_goals first | exact List.prefix_rfl | exact List.prefix_append _ _

theorem taken_key (a : Editor) (ch : UInt8) : (a.key ch).taken = a.taken := by
  unfold key input
  dsimp only
  split_ifs <;> rfl

theorem take_key {a : Editor} {ch : UInt8} (h : a.taken ≤ a.committed.length) :
    (a.key ch).committed.take (a.key ch).taken = a.committed.take a.taken := by
  obtain ⟨more, hmore⟩ := a.committed_key ch
  rw [taken_key, ← hmore, List.take_append_of_le_length h]

end Editor

/-! ## The machine -/

/-- `hist`, `out` and `done` are bookkeeping: the keys and the numbers of bytes read,
the bytes that have left the buffer, and the calls that have returned. -/
structure State (ι : Type*) where
  cons : Cons
  call : ι → Option Call
  killed : ι → Bool
  hist : List Item
  out : List UInt8
  done : List Ret

inductive Event (ι : Type*)
  | key (ch : UInt8)
  /-- Reader `i` calls `consoleread` for `n` bytes. -/
  | read (i : ι) (n : ℕ)
  /-- Reader `i` runs while it holds `cons.lock`. -/
  | run (i : ι)
  | kill (i : ι)

def Event.key? {ι : Type*} : Event ι → Option UInt8
  | .key ch => some ch
  | _ => none

variable {ι : Type*} [DecidableEq ι]

def init (buf : ℕ → UInt8) (k : BitVec 32) : State ι where
  cons := ⟨buf, k, k, k⟩
  call _ := none
  killed _ := false
  hist := []
  out := []
  done := []

/-- Reader `i` has left its critical section. -/
def State.leave (s : State ι) (i : ι) (got : List UInt8) (c : Cons) (turn : Turn) : State ι :=
  let s := { s with
    cons := c
    hist := s.hist ++ [Item.took (turn.taken got).length]
    out := s.out ++ turn.taken got }
  match turn with
  | .sleeps call => { s with call := update s.call i (some call) }
  | .returns ret => { s with call := update s.call i none, done := s.done ++ [ret] }

def step (s : State ι) : Event ι → Option (State ι)
  | .key ch => some { s with cons := (s.cons.consoleintr ch).1, hist := s.hist ++ [.key ch] }
  | .read i n =>
    match s.call i with
    | none =>
      if 0 < n then some { s with call := update s.call i (some ⟨n, n, []⟩) } else none
    | some _ => none
  | .run i =>
    match s.call i with
    | none => none
    | some call =>
      let (c, turn) := consoleread (s.killed i) call.target call.n call.got s.cons
      some (s.leave i call.got c turn)
  | .kill i => some { s with killed := update s.killed i true }

/-! ## The buffer -/

/-- Committed bytes that have not been read. -/
def ready (c : Cons) : List UInt8 := Ring.contents INPUT_BUF_SIZE c.buf c.r c.w

def line (c : Cons) : List UInt8 := Ring.contents INPUT_BUF_SIZE c.buf c.w c.e

theorem size_dvd : INPUT_BUF_SIZE ∣ 2 ^ 32 := by decide

@[simp] theorem length_ready (c : Cons) : (ready c).length = (c.w - c.r).toNat :=
  Ring.length_contents

@[simp] theorem length_line (c : Cons) : (line c).length = (c.e - c.w).toNat := Ring.length_contents

/-- The buffer holds what the ideal editor has, and never a full line that
nobody can read. -/
structure Agrees (c : Cons) (a : Editor) : Prop where
  le : (c.w - c.r).toNat + (c.e - c.w).toNat ≤ INPUT_BUF_SIZE
  ready : ready c = a.committed.drop a.taken
  line : line c = a.line
  taken_le : a.taken ≤ a.committed.length
  plain : ∀ ch ∈ a.line, ch ≠ '\n'.toUInt8 ∧ ch ≠ Cons.C 'D'
  room : a.line = [] ∨ a.pending < INPUT_BUF_SIZE

section buffer

variable {c : Cons} {a : Editor} {ch : UInt8}

theorem Agrees.toNat_sub (h : Agrees c a) :
    (c.e - c.r).toNat = (c.w - c.r).toNat + (c.e - c.w).toNat :=
  Ring.toNat_sub_add_sub (h.le.trans_lt (by decide))

theorem Agrees.pending_eq (h : Agrees c a) : a.pending = (c.e - c.r).toNat := by
  rw [h.toNat_sub, ← length_ready, ← length_line, h.ready, h.line, List.length_drop]
  rfl

theorem Agrees.push (h : Agrees c a) (hlt : a.pending < INPUT_BUF_SIZE) {c' : Cons}
    (hc' : c' = { c with
      buf := update c.buf (c.e.toNat % INPUT_BUF_SIZE) ch, e := c.e + 1 }) :
    Console.ready c' = a.committed.drop a.taken ∧ Console.line c' = a.line ++ [ch] ∧
      (c'.e - c'.r).toNat = a.pending + 1 ∧
        (c'.w - c'.r).toNat + (c'.e - c'.w).toNat = a.pending + 1 := by
  have hpend := h.pending_eq
  have hsum := h.toNat_sub
  have hsize : INPUT_BUF_SIZE < 2 ^ 32 := by decide
  have hline : Console.line c' = a.line ++ [ch] := by
    rw [← h.line, hc']
    exact Ring.contents_push size_dvd (by dsimp only; omega) hsize ch
  have hr : (c.e + 1 - c.r).toNat = a.pending + 1 := by
    rw [Ring.toNat_add_one_sub (by omega), hpend]
  have hw : (c.e + 1 - c.w).toNat = (c.e - c.w).toNat + 1 := Ring.toNat_add_one_sub (by omega)
  have hall : Ring.contents INPUT_BUF_SIZE c'.buf c.r (c.e + 1) =
      Ring.contents INPUT_BUF_SIZE c.buf c.r c.e ++ [ch] := by
    rw [hc']
    exact Ring.contents_push size_dvd (by omega) hsize ch
  -- the new byte lies behind both queues
  have hsplit : Console.ready c' ++ Console.line c' =
      a.committed.drop a.taken ++ (a.line ++ [ch]) := by
    have hnew : Console.ready c' ++ Console.line c' =
        Ring.contents INPUT_BUF_SIZE c'.buf c.r (c.e + 1) := by
      rw [hc']
      exact Ring.contents_append size_dvd (by dsimp only; omega)
    have hold : Console.ready c ++ Console.line c = Ring.contents INPUT_BUF_SIZE c.buf c.r c.e :=
      Ring.contents_append size_dvd (by omega)
    rw [hnew, hall, ← hold, h.ready, h.line, List.append_assoc]
  refine ⟨?_, hline, by rw [hc']; exact hr, by rw [hc']; dsimp only; omega⟩
  rw [hline] at hsplit
  exact List.append_cancel_right hsplit

theorem Agrees.input (h : Agrees c a) (ch : UInt8) : Agrees (c.input ch).1 (a.input ch) := by
  unfold Cons.input Editor.input
  rw [← h.pending_eq]
  by_cases hin : ch ≠ 0 ∧ a.pending < INPUT_BUF_SIZE
  swap
  · rw [if_neg hin, if_neg hin]
    exact h
  rw [if_pos hin, if_pos hin]
  dsimp only
  generalize (if ch = '\r'.toUInt8 then '\n'.toUInt8 else ch) = ch
  set c' : Cons :=
    { c with buf := update c.buf (c.e.toNat % INPUT_BUF_SIZE) ch, e := c.e + 1 } with hc'
  obtain ⟨hready, hline, hpend, hsum⟩ := h.push hin.2 hc'
  rw [hpend]
  by_cases hcommit : ch = '\n'.toUInt8 ∨ ch = Cons.C 'D' ∨ a.pending + 1 = INPUT_BUF_SIZE
  · -- the line and the new byte are committed
    rw [if_pos hcommit, if_pos hcommit]
    have hzero : (c'.e - c'.e).toNat = 0 := by rw [BitVec.sub_self, BitVec.toNat_zero]
    have happend : Console.ready { c' with w := c'.e } = Console.ready c' ++ Console.line c' :=
      (Ring.contents_append size_dvd (by
        rw [hsum]
        exact Nat.lt_of_le_of_lt hin.2 (by decide : INPUT_BUF_SIZE < 2 ^ 32))).symm
    refine ⟨?_, ?_, Ring.contents_self, ?_, fun x hx => absurd hx List.not_mem_nil, .inl rfl⟩
    · change (c'.e - c'.r).toNat + (c'.e - c'.e).toNat ≤ _
      omega
    · rw [happend, hready, hline, List.drop_append_of_le_length h.taken_le]
    · rw [List.length_append]
      exact Nat.le_add_right_of_le h.taken_le
  · rw [if_neg hcommit, if_neg hcommit]
    rw [not_or, not_or] at hcommit
    refine ⟨?_, hready, hline, h.taken_le, ?_, .inr ?_⟩
    · change (c'.w - c'.r).toNat + (c'.e - c'.w).toNat ≤ _
      omega
    · intro x hx
      rcases List.mem_append.mp hx with hx | hx
      · exact h.plain x hx
      · rw [List.mem_singleton.mp hx]
        exact ⟨hcommit.1, hcommit.2.1⟩
    · have hsucc : ({ a with line := a.line ++ [ch] } : Editor).pending = a.pending + 1 := by
        simp [Editor.pending, Nat.add_assoc]
      rw [hsucc]
      omega

theorem Agrees.erase (h : Agrees c a) (hne : c.e ≠ c.w) :
    Agrees { c with e := c.e - 1 } { a with line := a.line.dropLast } := by
  have hlen : (c.e - 1 - c.w).toNat + 1 = (c.e - c.w).toNat := Ring.toNat_sub_one_sub hne.symm
  have hle := h.le
  refine ⟨by dsimp only; omega, h.ready, ?_, h.taken_le, ?_, ?_⟩
  · rw [← h.line]
    exact Ring.contents_unpush hne.symm
  · exact fun x hx => h.plain x (List.mem_of_mem_dropLast hx)
  · rcases h.room with hnil | hlt
    · left
      rw [hnil]
      rfl
    · right
      have hdrop : (a.line.dropLast).length ≤ a.line.length := by simp
      unfold Editor.pending at hlt ⊢
      dsimp only
      omega

theorem Agrees.line_eq_nil (h : Agrees c a) (he : c.e = c.w) : a.line = [] := by
  rw [← h.line, Console.line, he, Ring.contents_self]

theorem Agrees.last_ne (h : Agrees c a) (hne : c.e ≠ c.w) : c.last ≠ '\n'.toUInt8 := by
  have hlen : (c.e - 1 - c.w).toNat + 1 = (c.e - c.w).toNat := Ring.toNat_sub_one_sub hne.symm
  have hmem : c.last ∈ Console.line c := by
    refine List.mem_map.mpr ⟨(c.e - 1 - c.w).toNat, List.mem_range.mpr (by omega), ?_⟩
    rw [← Ring.cell_eq size_dvd]
    rfl
  rw [h.line] at hmem
  exact (h.plain _ hmem).1

/-- The line has no newline, so `^U` removes all of it. -/
theorem Agrees.killLine (h : Agrees c a) {fuel : ℕ} (hfuel : (c.e - c.w).toNat ≤ fuel) :
    Agrees (Cons.killLine fuel c) { a with line := [] } := by
  induction fuel generalizing c a with
  | zero =>
    have he : c.e = c.w := by
      have hsub : c.e - c.w = 0 := BitVec.eq_of_toNat_eq (Nat.le_zero.mp hfuel)
      exact sub_eq_zero.mp hsub
    have hline := h.line_eq_nil he
    obtain ⟨committed, taken, l⟩ := a
    subst hline
    exact h
  | succ fuel ih =>
    rw [Cons.killLine]
    by_cases hne : c.e ≠ c.w
    · have hlen : (c.e - 1 - c.w).toNat + 1 = (c.e - c.w).toNat :=
        Ring.toNat_sub_one_sub hne.symm
      rw [if_pos ⟨hne, h.last_ne hne⟩]
      exact ih (a := { a with line := a.line.dropLast }) (h.erase hne) (by dsimp only; omega)
    · rw [if_neg fun hand => hne hand.1]
      have hline := h.line_eq_nil (not_not.mp hne)
      obtain ⟨committed, taken, l⟩ := a
      subst hline
      exact h

theorem Agrees.key (h : Agrees c a) (ch : UInt8) : Agrees (c.consoleintr ch).1 (a.key ch) := by
  unfold Cons.consoleintr Editor.key
  by_cases hp : ch = Cons.C 'P'
  · rw [if_pos hp, if_pos hp]
    exact h
  rw [if_neg hp, if_neg hp]
  by_cases hu : ch = Cons.C 'U'
  · rw [if_pos hu, if_pos hu]
    exact h.killLine le_rfl
  rw [if_neg hu, if_neg hu]
  by_cases hh : ch = Cons.C 'H' ∨ ch = 0x7f
  · rw [if_pos hh, if_pos hh]
    by_cases hne : c.e ≠ c.w
    · simp only [if_pos hne]
      exact h.erase hne
    · simp only [if_neg hne]
      have hline := h.line_eq_nil (not_not.mp hne)
      obtain ⟨committed, taken, l⟩ := a
      subst hline
      exact h
  · rw [if_neg hh, if_neg hh]
    exact h.input ch

theorem Agrees.take (h : Agrees c a) (hne : c.r ≠ c.w) :
    ∃ rest, a.committed.drop a.taken = c.buf (c.r.toNat % INPUT_BUF_SIZE) :: rest ∧
      Agrees c.take { a with taken := a.taken + 1 } := by
  have hpop : Console.ready c = c.buf (c.r.toNat % INPUT_BUF_SIZE) :: Console.ready c.take :=
    Ring.contents_pop size_dvd hne
  have hready : a.committed.drop a.taken =
      c.buf (c.r.toNat % INPUT_BUF_SIZE) :: Console.ready c.take := h.ready.symm.trans hpop
  have hlen := congrArg List.length hready
  rw [List.length_drop, List.length_cons] at hlen
  have hstep : (c.w - (c.r + 1)).toNat + 1 = (c.w - c.r).toNat := Ring.toNat_sub_add_one hne
  have hle := h.le
  refine ⟨_, hready, ?_, ?_, h.line, by dsimp only; omega, h.plain, ?_⟩
  · change (c.w - (c.r + 1)).toNat + (c.e - c.w).toNat ≤ _
    omega
  · dsimp only
    rw [← List.drop_drop, hready]
    rfl
  · refine h.room.imp_right fun hlt => ?_
    unfold Editor.pending at hlt ⊢
    dsimp only
    omega

end buffer

/-! ## Runs -/

/-- What a call in progress has copied out. -/
structure Call.Ok (call : Call) : Prop where
  pos : 0 < call.n
  le : call.n ≤ call.target
  length : call.got.length = call.target - call.n
  plain : ∀ ch ∈ call.got, ch ≠ '\n'.toUInt8 ∧ ch ≠ Cons.C 'D'

/-- A read returns at most one line, and removes a `^D` only if it returns 0. -/
structure Ret.Ok (ret : Ret) : Prop where
  value : ret.value = ret.got.length ∨ ret.value = -1
  oneLine : '\n'.toUInt8 ∉ ret.got.dropLast
  noEof : Cons.C 'D' ∉ ret.got
  eof : ret.eof = true → ret.value = 0 ∧ ret.got = []

def Turn.call? : Turn → Option Call
  | .sleeps call => some call
  | .returns _ => none

def Turn.ret? : Turn → Option Ret
  | .sleeps _ => none
  | .returns ret => some ret

def Turn.Ok (turn : Turn) : Prop :=
  (∀ call, turn.call? = some call → call.Ok) ∧ ∀ ret, turn.ret? = some ret → ret.Ok

theorem Call.Ok.sleeps {call : Call} (h : call.Ok) : (Turn.sleeps call).Ok :=
  ⟨fun _ heq => Option.some.inj heq ▸ h, nofun⟩

theorem Ret.Ok.returns {ret : Ret} (h : ret.Ok) : (Turn.returns ret).Ok :=
  ⟨nofun, fun _ heq => Option.some.inj heq ▸ h⟩

def Turn.got : Turn → List UInt8
  | .sleeps call => call.got
  | .returns ret => ret.got

theorem Turn.taken_cons {turn : Turn} {got : List UInt8} {ch : UInt8}
    (h : got ++ [ch] <+: turn.got) : turn.taken got = ch :: turn.taken (got ++ [ch]) := by
  obtain ⟨more, hmore⟩ := h
  cases turn with
  | sleeps call =>
    have hgot : call.got = got ++ [ch] ++ more := hmore.symm
    simp [Turn.taken, hgot]
  | returns ret =>
    have hgot : ret.got = got ++ [ch] ++ more := hmore.symm
    simp [Turn.taken, hgot]

/-- A critical section that starts with `got` and with the editor `a`. -/
structure Serves (got : List UInt8) (a : Editor) (r : Cons × Turn) : Prop where
  ok : r.2.Ok
  grows : got <+: r.2.got
  agrees : Agrees r.1 { a with taken := a.taken + (r.2.taken got).length }
  taken : r.2.taken got <+: a.committed.drop a.taken

theorem Agrees.serves {c : Cons} {a : Editor} {got : List UInt8} {turn : Turn} (h : Agrees c a)
    (hok : turn.Ok) (hgot : turn.got = got) (htaken : turn.taken got = []) :
    Serves got a (c, turn) := by
  refine ⟨hok, hgot ▸ List.prefix_rfl, ?_, ?_⟩
  · rw [htaken]
    exact h
  · rw [htaken]
    exact List.nil_prefix

theorem Serves.cons {a : Editor} {got rest : List UInt8} {ch : UInt8} {r : Cons × Turn}
    (h : Serves (got ++ [ch]) { a with taken := a.taken + 1 } r)
    (hrest : a.committed.drop a.taken = ch :: rest) : Serves got a r := by
  have htaken := Turn.taken_cons h.grows
  refine ⟨h.ok, (List.prefix_append got [ch]).trans h.grows, ?_, ?_⟩
  · rw [htaken, List.length_cons, Nat.add_comm _ 1, ← Nat.add_assoc]
    exact h.agrees
  · rw [htaken, hrest, List.cons_prefix_cons]
    have hdrop : a.committed.drop (a.taken + 1) = rest := by
      rw [← List.drop_drop, hrest]
      rfl
    exact ⟨rfl, hdrop ▸ h.taken⟩

theorem consoleread_serves (killed : Bool) (target : ℕ) {n : ℕ} {got : List UInt8} {c : Cons}
    {a : Editor} (h : Agrees c a) (hn : n ≤ target) (hlen : got.length = target - n)
    (hplain : ∀ ch ∈ got, ch ≠ '\n'.toUInt8 ∧ ch ≠ Cons.C 'D') :
    Serves got a (consoleread killed target n got c) := by
  have hone : '\n'.toUInt8 ∉ got.dropLast :=
    fun hmem => (hplain _ (List.mem_of_mem_dropLast hmem)).1 rfl
  have hnoEof : Cons.C 'D' ∉ got := fun hmem => (hplain _ hmem).2 rfl
  induction n generalizing got c a with
  | zero =>
    refine h.serves (Ret.Ok.returns ⟨.inl ?_, hone, hnoEof, nofun⟩) rfl (by simp [Turn.taken])
    dsimp only
    omega
  | succ n ih =>
    rw [consoleread]
    by_cases hrw : c.r = c.w
    · rw [if_pos hrw]
      cases killed with
      | true =>
        have hret : Ret.Ok ⟨-1, got, false⟩ := ⟨.inr rfl, hone, hnoEof, nofun⟩
        exact h.serves hret.returns rfl (by simp [Turn.taken])
      | false =>
        have hcall : Call.Ok ⟨target, n + 1, got⟩ := ⟨Nat.succ_pos n, hn, hlen, hplain⟩
        exact h.serves hcall.sleeps rfl (by simp [Turn.taken])
    rw [if_neg hrw]
    obtain ⟨rest, hrest, htake⟩ := h.take hrw
    dsimp only
    generalize c.buf (c.r.toNat % INPUT_BUF_SIZE) = ch at hrest
    by_cases heof : ch = Cons.C 'D'
    · rw [if_pos heof]
      split_ifs with hlt
      · -- the `^D` stays where it is
        have hback : ({ c.take with r := c.take.r - 1 } : Cons) = c := by
          simp [Cons.take]
        rw [hback]
        refine h.serves (Ret.Ok.returns ⟨.inl ?_, hone, hnoEof, nofun⟩) rfl (by simp [Turn.taken])
        dsimp only
        omega
      · have hnil : got = [] := List.length_eq_zero_iff.mp (by omega)
        subst hnil
        refine ⟨Ret.Ok.returns ⟨.inl ?_, by simp, by simp, fun _ => ⟨?_, rfl⟩⟩,
          List.prefix_rfl, ?_, ?_⟩
        · dsimp only [List.length_nil]
          omega
        · dsimp only
          omega
        · simpa [Turn.taken] using htake
        · rw [hrest, heof]
          simp [Turn.taken]
    · rw [if_neg heof]
      by_cases hnl : ch = '\n'.toUInt8
      · rw [if_pos hnl]
        refine Serves.cons ?_ hrest
        refine htake.serves (Ret.Ok.returns ⟨.inl ?_, ?_, ?_, nofun⟩) rfl (by simp [Turn.taken])
        · simp only [List.length_append, List.length_singleton]
          omega
        · rw [List.dropLast_concat]
          exact fun hmem => (hplain _ hmem).1 rfl
        · intro hmem
          rcases List.mem_append.mp hmem with hmem | hmem
          · exact hnoEof hmem
          · exact heof (List.mem_singleton.mp hmem).symm
      · rw [if_neg hnl]
        have hplain' : ∀ x ∈ got ++ [ch], x ≠ '\n'.toUInt8 ∧ x ≠ Cons.C 'D' := by
          intro x hx
          rcases List.mem_append.mp hx with hx | hx
          · exact hplain x hx
          · rw [List.mem_singleton.mp hx]
            exact ⟨hnl, heof⟩
        refine Serves.cons (ih htake (by omega) ?_ hplain' ?_ ?_) hrest
        · rw [List.length_append, List.length_singleton]
          omega
        · exact fun hmem => (hplain' _ (List.mem_of_mem_dropLast hmem)).1 rfl
        · exact fun hmem => (hplain' _ hmem).2 rfl

structure Inv (s : State ι) : Prop where
  agrees : Agrees s.cons (Editor.run s.hist)
  out : s.out = (Editor.run s.hist).committed.take (Editor.run s.hist).taken
  call : ∀ i call, s.call i = some call → call.Ok
  done : ∀ ret ∈ s.done, ret.Ok

section leave

variable (s : State ι) (i : ι) (got : List UInt8) (c : Cons) (turn : Turn)

@[simp] theorem leave_cons : (s.leave i got c turn).cons = c := by cases turn <;> rfl

@[simp] theorem leave_hist :
    (s.leave i got c turn).hist = s.hist ++ [.took (turn.taken got).length] := by
  cases turn <;> rfl

@[simp] theorem leave_call :
    (s.leave i got c turn).call = update s.call i turn.call? := by
  cases turn <;> rfl

@[simp] theorem leave_done : (s.leave i got c turn).done = s.done ++ turn.ret?.toList := by
  cases turn
  · exact (List.append_nil _).symm
  · rfl

@[simp] theorem leave_out : (s.leave i got c turn).out = s.out ++ turn.taken got := by
  cases turn <;> rfl

end leave

theorem Inv.leave {s : State ι} {i : ι} {got : List UInt8} {r : Cons × Turn} (h : Inv s)
    (hr : Serves got (Editor.run s.hist) r) : Inv (s.leave i got r.1 r.2) := by
  have hrun : Editor.run (s.leave i got r.1 r.2).hist =
      { Editor.run s.hist with
        taken := (Editor.run s.hist).taken + (r.2.taken got).length } := by
    rw [leave_hist, Editor.run_concat]
    rfl
  refine ⟨?_, ?_, ?_, ?_⟩
  · rw [leave_cons, hrun]
    exact hr.agrees
  · rw [leave_out, hrun, List.take_add, h.out, ← List.prefix_iff_eq_take.mp hr.taken]
  · intro j call hj
    rw [leave_call] at hj
    rcases eq_or_ne j i with rfl | hne
    · rw [update_self] at hj
      exact hr.ok.1 call hj
    · rw [update_of_ne hne] at hj
      exact h.call j call hj
  · intro ret hret
    rw [leave_done] at hret
    rcases List.mem_append.mp hret with hret | hret
    · exact h.done ret hret
    · exact hr.ok.2 ret (Option.mem_toList.mp hret)

theorem Inv.step {s t : State ι} {e : Event ι} (h : Inv s) (hstep : step s e = some t) : Inv t := by
  cases e with
  | key ch =>
    obtain rfl := Option.some.inj hstep
    have hrun : Editor.run (s.hist ++ [.key ch]) = (Editor.run s.hist).key ch :=
      Editor.run_concat _ _
    refine ⟨?_, ?_, h.call, h.done⟩
    · dsimp only
      rw [hrun]
      exact h.agrees.key ch
    · dsimp only
      rw [hrun, h.out]
      exact (Editor.take_key h.agrees.taken_le).symm
  | read i n =>
    simp only [Console.step] at hstep
    split at hstep
    next hnone =>
      obtain ⟨hpos, hstep⟩ := Option.ite_none_right_eq_some.mp hstep
      obtain rfl := Option.some.inj hstep
      refine ⟨h.agrees, h.out, ?_, h.done⟩
      intro j call hj
      rcases eq_or_ne j i with rfl | hne
      · dsimp only at hj
        rw [update_self] at hj
        obtain rfl := Option.some.inj hj
        exact ⟨hpos, le_rfl, (Nat.sub_self n).symm, by simp⟩
      · dsimp only at hj
        rw [update_of_ne hne] at hj
        exact h.call j call hj
    next => cases hstep
  | run i =>
    simp only [Console.step] at hstep
    split at hstep
    next => cases hstep
    next call hcall =>
      obtain rfl := Option.some.inj hstep
      have hok := h.call i call hcall
      exact h.leave (consoleread_serves _ _ h.agrees hok.le hok.length hok.plain)
  | kill i =>
    obtain rfl := Option.some.inj hstep
    exact ⟨h.agrees, h.out, h.call, h.done⟩

omit [DecidableEq ι] in
theorem Inv.init (buf : ℕ → UInt8) (k : BitVec 32) : Inv (init buf k : State ι) := by
  have hline : line ⟨buf, k, k, k⟩ = [] := Ring.contents_self
  have hagrees : Agrees ⟨buf, k, k, k⟩ (Editor.run []) := by
    refine ⟨?_, Ring.contents_self, hline, le_rfl, by simp [Editor.run], .inl rfl⟩
    simp
  exact ⟨hagrees, rfl, fun i call hcall => (nomatch hcall), by simp [Console.init]⟩

theorem keys_eq {buf : ℕ → UInt8} {k : BitVec 32} {tr : List (Event ι)} {s : State ι}
    (h : Run step (init buf k) tr s) : s.hist.filterMap Item.key? = tr.filterMap Event.key? := by
  induction h with
  | nil => rfl
  | @snoc tr t u e _ he ih =>
    rw [List.filterMap_append, ← ih]
    cases e with
    | key ch =>
      obtain rfl := Option.some.inj he
      exact List.filterMap_append
    | read i n =>
      simp only [step] at he
      split at he
      next =>
        obtain ⟨-, he⟩ := Option.ite_none_right_eq_some.mp he
        obtain rfl := Option.some.inj he
        exact (List.append_nil _).symm
      next => cases he
    | run i =>
      simp only [step] at he
      split at he
      next => cases he
      next call hcall =>
        obtain rfl := Option.some.inj he
        rw [leave_hist, List.filterMap_append]
        rfl
    | kill i =>
      obtain rfl := Option.some.inj he
      exact (List.append_nil _).symm

/-- The keys that edit the line. -/
def Erases (ch : UInt8) : Prop := ch = Cons.C 'U' ∨ ch = Cons.C 'H' ∨ ch = 0x7f

theorem killLine_frame (fuel : ℕ) (c : Cons) :
    (Cons.killLine fuel c).buf = c.buf ∧ (Cons.killLine fuel c).r = c.r ∧
      (Cons.killLine fuel c).w = c.w := by
  induction fuel generalizing c with
  | zero => exact ⟨rfl, rfl, rfl⟩
  | succ fuel ih =>
    rw [Cons.killLine]
    split_ifs
    · exact ih { c with e := c.e - 1 }
    · exact ⟨rfl, rfl, rfl⟩

theorem Erases.frame {ch : UInt8} (h : Erases ch) (c : Cons) :
    (c.consoleintr ch).1.buf = c.buf ∧ (c.consoleintr ch).1.r = c.r ∧
      (c.consoleintr ch).1.w = c.w := by
  unfold Cons.consoleintr
  split_ifs with hp hu hh hne
  · exact ⟨rfl, rfl, rfl⟩
  · exact killLine_frame _ c
  · exact ⟨rfl, rfl, rfl⟩
  · exact ⟨rfl, rfl, rfl⟩
  · rcases h with h | h
    · exact absurd h hu
    · exact absurd h hh

theorem Erases.line {ch : UInt8} (h : Erases ch) (a : Editor) : (a.key ch).line <+: a.line := by
  unfold Editor.key
  split_ifs with hp hu hh
  · exact List.prefix_rfl
  · exact List.nil_prefix
  · exact List.dropLast_prefix _
  · rcases h with h | h
    · exact absurd h hu
    · exact absurd h hh

/-- The console is an ideal line editor: for every order of keys and reads, and
from any value of the counters on. -/
theorem line_discipline (buf : ℕ → UInt8) (k : BitVec 32) (tr : List (Event ι)) (s : State ι)
    (hrun : Run step (init buf k) tr s) :
    ((s.cons.w - s.cons.r).toNat ≤ (s.cons.e - s.cons.r).toNat ∧
        (s.cons.e - s.cons.r).toNat ≤ INPUT_BUF_SIZE) ∧
      (∀ ch ∈ line s.cons, ch ≠ '\n'.toUInt8 ∧ ch ≠ Cons.C 'D') ∧
      (∀ ch, Erases ch →
        ((s.cons.consoleintr ch).1.buf = s.cons.buf ∧ (s.cons.consoleintr ch).1.r = s.cons.r ∧
            (s.cons.consoleintr ch).1.w = s.cons.w) ∧
          line (s.cons.consoleintr ch).1 <+: line s.cons) ∧
      (s.hist.filterMap Item.key? = tr.filterMap Event.key? ∧
        s.out ++ ready s.cons = (Editor.run s.hist).committed ∧
          s.out.length = (Editor.run s.hist).taken ∧ line s.cons = (Editor.run s.hist).line) ∧
      (∀ ret ∈ s.done, ret.Ok) ∧
      ¬ (s.cons.r = s.cons.w ∧ (s.cons.e - s.cons.r).toNat = INPUT_BUF_SIZE) := by
  have h : Inv s := hrun.state_invariant (Inv.init buf k) fun _ _ _ => Inv.step
  have hsum := h.agrees.toNat_sub
  refine ⟨⟨by omega, hsum ▸ h.agrees.le⟩, ?_, ?_, ⟨keys_eq hrun, ?_, ?_, h.agrees.line⟩, h.done, ?_⟩
  · rw [h.agrees.line]
    exact h.agrees.plain
  · intro ch hch
    refine ⟨hch.frame s.cons, ?_⟩
    rw [(h.agrees.key ch).line, h.agrees.line]
    exact hch.line _
  · rw [h.out, h.agrees.ready, List.take_append_drop]
  · rw [h.out, List.length_take_of_le h.agrees.taken_le]
  · rintro ⟨hrw, hfull⟩
    have hzero : (s.cons.w - s.cons.r).toNat = 0 := by
      rw [hrw, BitVec.sub_self]
      rfl
    rw [← h.agrees.pending_eq] at hfull
    rcases h.agrees.room with hnil | hlt
    · -- an empty line behind an empty queue is not a full buffer
      have hlen := congrArg List.length h.agrees.line
      rw [hnil, length_line, List.length_nil] at hlen
      rw [h.agrees.pending_eq, hsum, hzero, hlen] at hfull
      exact absurd hfull (by decide)
    · exact hlt.ne hfull

/-- A line typed with a mistake, where the counters wrap, and read by one of two readers. -/
def wrapTrace {ι : Type} [OfNat ι 0] [OfNat ι 1] : List (Event ι) :=
  [.read 0 10, .run 0, .key 'a'.toUInt8, .key 'x'.toUInt8, .key (Cons.C 'H'), .key 'b'.toUInt8,
    .read 1 1, .run 1, .key '\r'.toUInt8, .key (Cons.C 'D'), .run 0, .run 1, .read 0 5, .run 0]

theorem line_discipline_wrapTrace : ∃ s : State (Fin 2),
    Run step (init (fun _ => 0) (2 ^ 32 - 2)) wrapTrace s ∧
      s.out = [97, 98, 10, 4] ∧ (s.done.map Ret.value) = [3, 0] ∧
      s.out ++ ready s.cons = (Editor.run s.hist).committed := by
  obtain ⟨s, hrun, hs⟩ := Run.exists_of_any
    (P := fun s : State (Fin 2) => decide (s.out = [97, 98, 10, 4] ∧ s.done.map Ret.value = [3, 0]))
    (by decide +kernel :
      (wrapTrace.foldlM step (init (fun _ => 0) (2 ^ 32 - 2) : State (Fin 2))).any _ = true)
  obtain ⟨hout, hdone⟩ := of_decide_eq_true hs
  exact ⟨s, hrun, hout, hdone, (line_discipline _ _ _ s hrun).2.2.2.1.2.1⟩

end Xv6.Console
