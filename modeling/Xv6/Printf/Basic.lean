import Mathlib
import Xv6.Lib.Words

/-!
# The two printf implementations

The kernel's `printf` looks ahead from a `%`; the `vprintf` of the user library goes through
the format character by character and remembers the `%` in a state. Both have a routine
for numbers with a buffer of 16 bytes, which the kernel runs on 64-bit numbers and the
user library on 32-bit ones.
-/

namespace Xv6.Printf

open Lib

inductive Fault
  /-- a store to `buf[i]`, outside the buffer -/
  | overrun (i : ℕ)
  /-- `va_arg` finds no argument of the type it asks for -/
  | argument
  | fuel
  deriving DecidableEq

abbrev Text := List UInt8

def text (s : String) : Text := s.toList.map Char.toUInt8

inductive Arg
  | int (v : BitVec 32)
  /-- a `uint64`, or a pointer to print -/
  | long (v : BitVec 64)
  /-- a `char*`, none for the null pointer -/
  | str (s : Option Text)
  deriving DecidableEq

inductive Length
  | int
  | long
  | longLong
  deriving DecidableEq

inductive Kind
  | d
  | u
  | x
  deriving DecidableEq

/-- What a step through the format comes to. -/
inductive Piece
  | lit (c : UInt8)
  | num (l : Length) (k : Kind)
  | ptr
  | str
  deriving DecidableEq

namespace Kind

def base : Kind → ℕ
  | d => 10
  | u => 10
  | x => 16

def sign : Kind → Bool
  | d => true
  | u => false
  | x => false

end Kind

/-! ## Numbers -/

def store (buf : Bytes) (i : ℕ) (c : UInt8) : Except Fault Bytes :=
  if i < 16 then .ok (Function.update buf i c) else .error (.overrun i)

/-- `do { buf[i++] = digits[x % base]; } while((x /= base) != 0);` -/
def digitLoop {w : ℕ} (digits : Text) (base : BitVec w) :
    ℕ → Bytes → ℕ → BitVec w → Except Fault (Bytes × ℕ)
  | 0, _, _, _ => .error .fuel
  | fuel + 1, buf, i, x => do
    let buf ← store buf i (digits.getD (x % base).toNat 0)
    if x / base = 0#w then return (buf, i + 1)
    else digitLoop digits base fuel buf (i + 1) (x / base)

/-- `while(--i >= 0) putc(buf[i]);` -/
def flush (buf : Bytes) : ℕ → Text
  | 0 => []
  | i + 1 => buf i :: flush buf i

/-- What the routines of the two implementations differ in: the width of the numbers, the
digits, and how an `int` or a `uint64` argument becomes such a number. -/
structure Printer where
  width : ℕ
  digits : Text
  ofInt : BitVec 32 → BitVec width
  ofLong : BitVec 64 → BitVec width

/-- `printint(long long xx, int base, int sign)` of `kernel/printf.c` -/
def kernel : Printer where
  width := 64
  digits := text "0123456789abcdef"
  ofInt v := v.signExtend 64
  ofLong v := v

/-- `printint(int fd, int xx, int base, int sgn)` of `user/printf.c` -/
def user : Printer where
  width := 32
  digits := text "0123456789ABCDEF"
  ofInt v := v
  ofLong v := v.setWidth 32

namespace Printer

variable (P : Printer)

def printint (xx : BitVec P.width) (base : ℕ) (sign : Bool) : Except Fault Text := do
  let neg := sign && xx.slt 0#P.width
  let x := if neg then -xx else xx
  -- one round more than the buffer has bytes: that one does not come back
  let (buf, i) ← digitLoop P.digits (BitVec.ofNat P.width base) 17 (fun _ => 0) 0 x
  if neg then
    let buf ← store buf i '-'.toUInt8
    return flush buf (i + 1)
  else return flush buf i

/-- `for(i = 0; i < 16; i++, x <<= 4) putc(digits[x >> 60]);` -/
def nibbleLoop : ℕ → BitVec 64 → Text
  | 0, _ => []
  | n + 1, x => P.digits.getD (x >>> 60).toNat 0 :: nibbleLoop n (x <<< 4)

def printptr (x : BitVec 64) : Text := '0'.toUInt8 :: 'x'.toUInt8 :: P.nibbleLoop 16 x

end Printer

/-! ## The format -/

def vaInt : List Arg → Except Fault (BitVec 32 × List Arg)
  | .int v :: ap => .ok (v, ap)
  | _ => .error .argument

def vaLong : List Arg → Except Fault (BitVec 64 × List Arg)
  | .long v :: ap => .ok (v, ap)
  | _ => .error .argument

def vaStr : List Arg → Except Fault (Option Text × List Arg)
  | .str s :: ap => .ok (s, ap)
  | _ => .error .argument

/-- What is printed for a piece of the format, and the arguments that are left. -/
def Printer.emit (P : Printer) : Piece → List Arg → Except Fault (Text × List Arg)
  | .lit c, ap => .ok ([c], ap)
  | .num .int k, ap => do
    let (v, ap) ← vaInt ap
    let out ← P.printint (P.ofInt v) k.base k.sign
    return (out, ap)
  | .num .long k, ap => do
    let (v, ap) ← vaLong ap
    let out ← P.printint (P.ofLong v) k.base k.sign
    return (out, ap)
  | .num .longLong k, ap => do
    let (v, ap) ← vaLong ap
    let out ← P.printint (P.ofLong v) k.base k.sign
    return (out, ap)
  | .ptr, ap => do
    let (v, ap) ← vaLong ap
    return (P.printptr v, ap)
  | .str, ap => do
    let (s, ap) ← vaStr ap
    return ((s.getD (text "(null)")).takeWhile (· ≠ 0), ap)

/-- `c0`, `c1` and `c2`; a character after the end of the format is not read. -/
def lookahead (fmt : Text) (i : ℕ) : UInt8 × UInt8 × UInt8 :=
  let c0 := fmt.getD i 0
  let c1 := if c0 ≠ 0 then fmt.getD (i + 1) 0 else 0
  let c2 := if c1 ≠ 0 then fmt.getD (i + 2) 0 else 0
  (c0, c1, c2)

/-- The comparisons that both implementations make after a `%`, in their order, and what
they add to `i`. -/
def conversion (c0 c1 c2 : UInt8) : Option (Piece × ℕ) :=
  if c0 = 'd'.toUInt8 then some (.num .int .d, 0)
  else if c0 = 'l'.toUInt8 ∧ c1 = 'd'.toUInt8 then some (.num .long .d, 1)
  else if c0 = 'l'.toUInt8 ∧ c1 = 'l'.toUInt8 ∧ c2 = 'd'.toUInt8 then some (.num .longLong .d, 2)
  else if c0 = 'u'.toUInt8 then some (.num .int .u, 0)
  else if c0 = 'l'.toUInt8 ∧ c1 = 'u'.toUInt8 then some (.num .long .u, 1)
  else if c0 = 'l'.toUInt8 ∧ c1 = 'l'.toUInt8 ∧ c2 = 'u'.toUInt8 then some (.num .longLong .u, 2)
  else if c0 = 'x'.toUInt8 then some (.num .int .x, 0)
  else if c0 = 'l'.toUInt8 ∧ c1 = 'x'.toUInt8 then some (.num .long .x, 1)
  else if c0 = 'l'.toUInt8 ∧ c1 = 'l'.toUInt8 ∧ c2 = 'x'.toUInt8 then some (.num .longLong .x, 2)
  else if c0 = 'p'.toUInt8 then some (.ptr, 0)
  else if c0 = 's'.toUInt8 then some (.str, 0)
  else if c0 = '%'.toUInt8 then some (.lit '%'.toUInt8, 0)
  else none

namespace Kernel

def printfLoop (fmt : Text) : ℕ → ℕ → List Arg → Except Fault Text
  | 0, _, _ => .error .fuel
  | fuel + 1, i, ap =>
    let cx := fmt.getD i 0
    if cx = 0 then .ok []
    else if cx ≠ '%'.toUInt8 then do
      let out ← printfLoop fmt fuel (i + 1) ap
      return cx :: out
    else
      let i := i + 1
      let (c0, c1, c2) := lookahead fmt i
      match conversion c0 c1 c2 with
      | some (p, skip) => do
        let (s, ap) ← kernel.emit p ap
        let out ← printfLoop fmt fuel (i + skip + 1) ap
        return s ++ out
      | none =>
        if c0 = 0 then .ok []
        else do
          let out ← printfLoop fmt fuel (i + 1) ap
          return '%'.toUInt8 :: c0 :: out

def printf (fmt : Text) (ap : List Arg) : Except Fault Text :=
  printfLoop fmt (fmt.length + 1) 0 ap

end Kernel

namespace User

/-- `state` of `vprintf`: 0 or '%' -/
inductive State
  | zero
  | percent

def vprintfLoop (fmt : Text) : ℕ → ℕ → State → List Arg → Except Fault Text
  | 0, _, _, _ => .error .fuel
  | fuel + 1, i, state, ap =>
    if fmt.getD i 0 = 0 then .ok []
    else
      match state with
      | .zero =>
        let c0 := fmt.getD i 0
        if c0 = '%'.toUInt8 then vprintfLoop fmt fuel (i + 1) .percent ap
        else do
          let out ← vprintfLoop fmt fuel (i + 1) .zero ap
          return c0 :: out
      | .percent =>
        let (c0, c1, c2) := lookahead fmt i
        match conversion c0 c1 c2 with
        | some (p, skip) => do
          let (s, ap) ← user.emit p ap
          let out ← vprintfLoop fmt fuel (i + skip + 1) .zero ap
          return s ++ out
        | none => do
          let out ← vprintfLoop fmt fuel (i + 1) .zero ap
          return '%'.toUInt8 :: c0 :: out

def vprintf (fmt : Text) (ap : List Arg) : Except Fault Text :=
  vprintfLoop fmt (fmt.length + 1) 0 .zero ap

end User

end Xv6.Printf
