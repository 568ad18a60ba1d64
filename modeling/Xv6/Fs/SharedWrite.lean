import Xv6.Fs.Complete
import Xv6.Lib.Streams

/-!
# Writes through a shared descriptor

Any number of processes call `filewrite` on one `struct file`.  Each call writes its
bytes in chunks; for each chunk it takes the lock of the inode, writes at the shared
offset, advances the offset and drops the lock.
-/

namespace Xv6.SharedWrite

open Lib Streams

/-! ## The machine -/

def MAXCHUNK : ℕ := (MAXOPBLOCKS - 1 - 1 - 2) / 2 * BSIZE

/-- A call of `filewrite`: the length, and the bytes in user memory. -/
structure Write where
  n : ℕ
  src : ℕ → UInt8

def Write.bytes (w : Write) : List UInt8 := (List.range w.n).map w.src

def Write.chunk (w : Write) (i n1 : ℕ) : List UInt8 := (List.range n1).map fun j => w.src (i + j)

/-- Where a call is: at the top of its loop, behind `ilock`, `writei`, the change of
`f->off`, behind the loop after `break`, or back with a result. -/
inductive Pc
  | loop (i : ℕ)
  | locked (i n1 : ℕ)
  | wrote (i n1 : ℕ) (r : ℤ)
  | advanced (i n1 : ℕ) (r : ℤ)
  | broke (i : ℕ)
  | done (ret : ℤ)
deriving DecidableEq

/-- A process is known by the number of the call that it is in.  Any set of calls may be
under way at the same time. -/
structure State where
  fs : Fs
  /-- `f->off` -/
  off : ℕ
  /-- The call that holds `f->ip->lock`. -/
  holder : Option ℕ
  /-- The calls in the order in which they were made. -/
  calls : List (Write × Pc)
  /-- The calls that have taken the lock, in order. -/
  locks : List ℕ
  /-- The bytes handed to `writei`, in order, with the call that did it. -/
  chunks : List (ℕ × List UInt8)

inductive Event
  | call (w : Write)
  /-- `begin_op(); ilock(f->ip);` -/
  | lock (c : ℕ)
  /-- `r = writei(f->ip, 1, addr + i, f->off, n1)` -/
  | write (c : ℕ)
  /-- `if(r > 0) f->off += r;` -/
  | advance (c : ℕ)
  /-- `iunlock(f->ip); end_op();` and the rest of the loop -/
  | unlock (c : ℕ)
  /-- `ret = (i == n ? n : -1);` -/
  | ret (c : ℕ)
  /-- An operation on another inode. -/
  | other (op : Fs.Op)

def Event.ofCall : Event → Bool
  | .lock _ | .write _ | .advance _ | .unlock _ | .ret _ => true
  | .call _ | .other _ => false

def result (i n : ℕ) : ℤ := if i = n then n else -1

/-- The inode is that of entry `k`. -/
def step (sb : Superblock) (k : ℕ) (s : State) : Event → Option State
  | .call w => some { s with calls := s.calls ++ [(w, .loop 0)] }
  | .lock c =>
    match s.calls[c]?, s.fs.ilock sb k with
    | some (w, .loop i), .ok fs =>
      if i < w.n ∧ s.holder = none then
        some { s with
          calls := s.calls.set c (w, .locked i (min (w.n - i) MAXCHUNK))
          fs := fs
          holder := some c
          locks := s.locks ++ [c] }
      else none
    | _, _ => none
  | .write c =>
    match s.calls[c]? with
    | some (w, .locked i n1) =>
      match s.fs.writei sb k ⟨fun j => w.src (i + j), n1⟩ s.off n1 with
      | .ok (r, fs) =>
        some { s with
          calls := s.calls.set c (w, .wrote i n1 r)
          fs := fs
          chunks := s.chunks ++ [(c, w.chunk i n1)] }
      | .error _ => none
    | _ => none
  | .advance c =>
    match s.calls[c]? with
    | some (w, .wrote i n1 r) =>
      some { s with
        calls := s.calls.set c (w, .advanced i n1 r)
        off := if 0 < r then (s.off + r.toNat) % 2 ^ 32 else s.off }
    | _ => none
  | .unlock c =>
    match s.calls[c]? with
    | some (w, .advanced i n1 r) =>
      some { s with
        calls := s.calls.set c (w, if r ≠ n1 then .broke i else .loop (i + r.toNat))
        holder := none }
    | _ => none
  | .ret c =>
    match s.calls[c]? with
    | some (w, .loop i) =>
      if w.n ≤ i then some { s with calls := s.calls.set c (w, .done (result i w.n)) } else none
    | some (w, .broke i) => some { s with calls := s.calls.set c (w, .done (result i w.n)) }
    | _ => none
  | .other op =>
    if op.Allowed sb s.fs then
      match s.fs.exec sb op with
      | .ok fs => some { s with fs := fs }
      | .error _ => none
    else none

/-- A file that is open for writing at `off`, with nobody in `filewrite`.  While nobody
truncates the file through another `struct file`, `off` is at most its size: `readi` and
`writei` stop there, and nothing else moves `f->off`. -/
def opened (fs : Fs) (off : ℕ) : State where
  fs := fs
  off := off
  holder := none
  calls := []
  locks := []
  chunks := []

def total (s : State) : ℕ := (s.calls.map fun x => x.1.n).sum

/-- The blocks for the chunk that call `c` is about to write are there or can be allocated. -/
def allocatesAt (sb : Superblock) (k : ℕ) (s : State) (c : ℕ) : Bool :=
  match s.calls[c]? with
  | some (w, .locked i n1) => Fs.allocates sb k n1 ⟨fun j => w.src (i + j), n1⟩ n1 s.fs 0 s.off
  | _ => true

/-- Everything the calls want to write fits into the file, blocks can be allocated, and
nobody else changes the inode. -/
def Fits (sb : Superblock) (k start : ℕ) (s : State) : Event → Prop
  | .call w => start + total s + w.n ≤ MAXFILE * BSIZE
  | .write c => allocatesAt sb k s c = true
  | .other op => op.Leaves k
  | _ => True

instance (sb : Superblock) (k start : ℕ) (s : State) : (e : Event) → Decidable (Fits sb k start s e)
  | .call _ => inferInstanceAs (Decidable (_ ≤ _))
  | .write c => inferInstanceAs (Decidable (allocatesAt sb k s c = true))
  | .other op => inferInstanceAs (Decidable (op.Leaves k))
  | .lock _ | .advance _ | .unlock _ | .ret _ => .isTrue trivial

/-! ## The invariant -/

namespace Pc

/-- The call holds the lock. -/
def Inside : Pc → Prop
  | locked _ _ | wrote _ _ _ | advanced _ _ _ => True
  | loop _ | broke _ | done _ => False

/-- How many of its `n` bytes a call has handed to `writei`. -/
def sent (n : ℕ) : Pc → ℕ
  | loop i | locked i _ | broke i => i
  | wrote i n1 _ | advanced i n1 _ => i + n1
  | done _ => n

/-- The local variables of a call of length `n` in which no chunk has failed. -/
def Ok (n : ℕ) : Pc → Prop
  | loop i => i ≤ n
  | locked i n1 => i < n ∧ n1 = min (n - i) MAXCHUNK
  | wrote i n1 r | advanced i n1 r => i < n ∧ n1 = min (n - i) MAXCHUNK ∧ r = n1
  | broke _ => False
  | done ret => ret = n

/-- The bytes that have been written and are not in `f->off` yet. -/
def behind : Pc → ℕ
  | wrote _ n1 _ => n1
  | _ => 0

/-- The call has taken the lock and not called `writei` yet. -/
def waits : Pc → Bool
  | locked _ _ => true
  | _ => false

end Pc

/-- A bound for the steps that a call of length `n` still takes. -/
def Pc.left (n : ℕ) : Pc → ℕ
  | loop i => 4 * (n - i) + 1
  | locked i _ => 4 * (n - i)
  | wrote i _ _ => 4 * (n - i) - 1
  | advanced i _ _ => 4 * (n - i) - 2
  | broke _ => 1
  | done _ => 0

def left (s : State) : ℕ := (s.calls.map fun x => x.2.left x.1.n).sum

/-- The steps that the calls take altogether. -/
def budget (s : State) : ℕ := (s.calls.map fun x => 4 * x.1.n + 1).sum

/-- The call that holds the lock. -/
def State.inside (s : State) : Option Pc := s.holder.bind fun c => (s.calls[c]?).map Prod.snd

/-- The file loses nothing when its buffers are recycled. -/
def Saved (sb : Superblock) (k : ℕ) (s : State) : Prop := s.fs.Saved sb (s.fs.itable k).inum

structure Inv (sb : Superblock) (k start : ℕ) (x : Node) (s : State) : Prop where
  fs : Fs.Inv sb s.fs
  loaded : s.fs.Loaded k
  file : s.fs.node sb (s.fs.itable k).inum =
    some { x with data := overwrite x.data start (all s.chunks) }
  off : s.off + s.inside.elim 0 Pc.behind = start + (all s.chunks).length
  holder : ∀ c, s.holder = some c ↔ ∃ w pc, s.calls[c]? = some (w, pc) ∧ pc.Inside
  call : ∀ c w pc, s.calls[c]? = some (w, pc) →
    pc.Ok w.n ∧ part s.chunks c = w.bytes.take (pc.sent w.n)
  bound : start + total s ≤ MAXFILE * BSIZE
  pieces : ∀ p ∈ s.chunks, p.1 < s.calls.length ∧ p.2.length ≤ MAXCHUNK
  locks : s.locks = s.chunks.map Prod.fst ++ if s.inside.any Pc.waits then s.holder.toList else []

/-! ### Bytes -/

theorem overwrite_overwrite {l a b : List UInt8} {off : ℕ} (hoff : off ≤ l.length) :
    overwrite (overwrite l off a) (off + a.length) b = overwrite l off (a ++ b) := by
  have hlen : (l.take off ++ a).length = off + a.length := by
    rw [List.length_append, List.length_take_of_le hoff]
  unfold overwrite
  rw [List.take_left' hlen, ← List.drop_drop, List.drop_left' hlen, List.drop_drop,
    List.length_append, Nat.add_assoc, List.append_assoc _ a b]

namespace Write

variable (w : Write)

@[simp] theorem length_bytes : w.bytes.length = w.n := by
  simp [bytes]

@[simp] theorem length_chunk (i n1 : ℕ) : (w.chunk i n1).length = n1 := by
  simp [chunk]

theorem take_bytes {m : ℕ} (h : m ≤ w.n) : w.bytes.take m = w.chunk 0 m := by
  simp [bytes, chunk, ← List.map_take, List.take_range, Nat.min_eq_left h]

theorem chunk_append (i m : ℕ) : w.chunk 0 i ++ w.chunk i m = w.chunk 0 (i + m) := by
  simp [chunk, List.range_add, Function.comp_def]

theorem take_append_chunk {i m : ℕ} (h : i + m ≤ w.n) :
    w.bytes.take i ++ w.chunk i m = w.bytes.take (i + m) := by
  rw [w.take_bytes h, w.take_bytes (by omega), chunk_append]

end Write

theorem length_overwrite {l new : List UInt8} {off : ℕ} (hoff : off ≤ l.length) :
    (overwrite l off new).length = max l.length (off + new.length) := by
  simp only [overwrite, List.length_append, List.length_take, List.length_drop]
  omega

theorem getElem?_concat {α : Type*} {l : List α} {a b : α} {d : ℕ} (h : (l ++ [a])[d]? = some b) :
    l[d]? = some b ∨ d = l.length ∧ b = a := by
  rcases lt_trichotomy d l.length with hd | rfl | hd
  · rw [List.getElem?_append_left hd] at h
    exact .inl h
  · rw [List.getElem?_concat_length] at h
    exact .inr ⟨rfl, (Option.some.inj h).symm⟩
  · rw [List.getElem?_eq_none (by simpa using hd)] at h
    cases h

theorem length_all_le_total {s : State} (hp : ∀ p ∈ s.chunks, p.1 < s.calls.length)
    (hcall : ∀ c w pc, s.calls[c]? = some (w, pc) → part s.chunks c = w.bytes.take (pc.sent w.n)) :
    (all s.chunks).length ≤ total s := by
  refine length_all_le _ (by simpa using hp) fun c n hc => ?_
  rw [List.getElem?_map] at hc
  obtain ⟨⟨w, pc⟩, hw, rfl⟩ := Option.map_eq_some_iff.mp hc
  rw [hcall c w pc hw, List.length_take, w.length_bytes]
  exact Nat.min_le_right _ _

/-! ### One call moves -/

section moves

variable {s t : State} {c d : ℕ} {w : Write} {pc pc' : Pc}

theorem inside_eq (hholder : s.holder = some c) (hc : s.calls[c]? = some (w, pc)) :
    s.inside = some pc := by
  simp [State.inside, hholder, hc]

theorem inside_eq_none (hholder : s.holder = none) : s.inside = none := by
  simp [State.inside, hholder]

theorem inside_congr (hholder : t.holder = s.holder)
    (hcalls : ∀ c, s.holder = some c → t.calls[c]? = s.calls[c]?) : t.inside = s.inside := by
  unfold State.inside
  rw [hholder]
  cases h : s.holder with
  | none => rfl
  | some c => simp [hcalls c h]

/-- Call `c` goes from `pc` to `pc'`. -/
structure Moves (s t : State) (c : ℕ) (w : Write) (pc pc' : Pc) : Prop where
  before : s.calls[c]? = some (w, pc)
  calls : t.calls = s.calls.set c (w, pc')

namespace Moves

variable (h : Moves s t c w pc pc')
include h

theorem after : t.calls[c]? = some (w, pc') := by
  have hlt := (List.getElem?_eq_some_iff.mp h.before).1
  rw [h.calls, List.getElem?_set_self hlt]

theorem other (hd : d ≠ c) : t.calls[d]? = s.calls[d]? := by
  rw [h.calls, List.getElem?_set_ne hd.symm]

theorem inside (hholder : t.holder = some c) : t.inside = some pc' :=
  inside_eq hholder h.after

theorem split : ∃ l₁ l₂, s.calls = l₁ ++ (w, pc) :: l₂ ∧ t.calls = l₁ ++ (w, pc') :: l₂ := by
  obtain ⟨hlt, hget⟩ := List.getElem?_eq_some_iff.mp h.before
  refine ⟨s.calls.take c, s.calls.drop (c + 1), ?_, ?_⟩
  · rw [← hget, List.cons_getElem_drop_succ, List.take_append_drop]
  · rw [h.calls, List.set_eq_take_append_cons_drop, if_pos hlt]

theorem total_eq : total t = total s := by
  obtain ⟨l₁, l₂, hs, ht⟩ := h.split
  simp [total, hs, ht]

theorem budget_eq : budget t = budget s := by
  obtain ⟨l₁, l₂, hs, ht⟩ := h.split
  simp [budget, hs, ht]

theorem left_lt (hlt : pc'.left w.n < pc.left w.n) : left t < left s := by
  obtain ⟨l₁, l₂, hs, ht⟩ := h.split
  simp [left, hs, ht]
  omega

theorem length_calls : t.calls.length = s.calls.length := by
  rw [h.calls, List.length_set]

theorem holder {sb : Superblock} {k start : ℕ} {x : Node} (hinv : Inv sb k start x s)
    (hself : t.holder = some c ↔ pc'.Inside)
    (hother : ∀ d, d ≠ c → (t.holder = some d ↔ s.holder = some d)) (d : ℕ) :
    t.holder = some d ↔ ∃ w pc, t.calls[d]? = some (w, pc) ∧ pc.Inside := by
  by_cases hd : d = c
  · subst hd
    rw [hself, h.after]
    constructor
    · exact fun hin => ⟨w, pc', rfl, hin⟩
    · rintro ⟨_, _, heq, hin⟩
      obtain ⟨rfl, rfl⟩ := Prod.mk.inj (Option.some.inj heq)
      exact hin
  · rw [hother d hd, h.other hd]
    exact hinv.holder d

theorem call {sb : Superblock} {k start : ℕ} {x : Node} (hinv : Inv sb k start x s)
    (hself : pc'.Ok w.n ∧ part t.chunks c = w.bytes.take (pc'.sent w.n))
    (hother : ∀ d, d ≠ c → part t.chunks d = part s.chunks d) (d : ℕ) (v : Write) (pd : Pc)
    (hd : t.calls[d]? = some (v, pd)) :
    pd.Ok v.n ∧ part t.chunks d = v.bytes.take (pd.sent v.n) := by
  by_cases hdc : d = c
  · subst hdc
    rw [h.after] at hd
    obtain ⟨rfl, rfl⟩ := Prod.mk.inj (Option.some.inj hd)
    exact hself
  · rw [h.other hdc] at hd
    rw [hother d hdc]
    exact hinv.call d v pd hd

end Moves

end moves

/-! ### One event -/

namespace Inv

variable {sb : Superblock} {k start : ℕ} {x : Node} {s t : State} {c : ℕ} {w : Write}
variable (h : Inv sb k start x s)
include h

theorem not_holder {pc : Pc} (hc : s.calls[c]? = some (w, pc)) (hout : ¬ pc.Inside) :
    s.holder ≠ some c := by
  intro hh
  obtain ⟨w', pc', heq, hin⟩ := (h.holder c).mp hh
  rw [hc] at heq
  obtain ⟨rfl, rfl⟩ := Prod.mk.inj (Option.some.inj heq)
  exact hout hin

theorem length_all_le : (all s.chunks).length ≤ total s :=
  length_all_le_total (fun p hp => (h.pieces p hp).1) fun c w pc hc => (h.call c w pc hc).2

theorem holder_eq {pc : Pc} (hc : s.calls[c]? = some (w, pc)) (hin : pc.Inside) :
    s.holder = some c :=
  (h.holder c).mpr ⟨w, pc, hc, hin⟩

theorem newCall (hw : start + total s + w.n ≤ MAXFILE * BSIZE) :
    Inv sb k start x { s with calls := s.calls ++ [(w, .loop 0)] } := by
  have hkeep : ∀ (d : ℕ) (v : Write) (pc : Pc), s.calls[d]? = some (v, pc) →
      (s.calls ++ [(w, Pc.loop 0)])[d]? = some (v, pc) := by
    intro d v pc hd
    rw [List.getElem?_append_left (List.getElem?_eq_some_iff.mp hd).1, hd]
  have hinside : State.inside { s with calls := s.calls ++ [(w, .loop 0)] } = s.inside := by
    refine inside_congr rfl fun c hc => ?_
    obtain ⟨v, pc, hpc, -⟩ := (h.holder c).mp hc
    rw [hpc]
    exact hkeep c v pc hpc
  refine ⟨h.fs, h.loaded, h.file, by rw [hinside]; exact h.off, fun d => ?_,
    fun d v pc hd => ?_, ?_, fun p hp => ?_, by rw [hinside]; exact h.locks⟩
  · rw [h.holder d]
    constructor
    · rintro ⟨v, pc, hd, hin⟩
      exact ⟨v, pc, hkeep d v pc hd, hin⟩
    · rintro ⟨v, pc, hd, hin⟩
      rcases getElem?_concat hd with hd | ⟨-, heq⟩
      · exact ⟨v, pc, hd, hin⟩
      · obtain ⟨-, rfl⟩ := Prod.mk.inj heq
        exact hin.elim
  · rcases getElem?_concat hd with hd | ⟨rfl, heq⟩
    · exact h.call d v pc hd
    · obtain ⟨rfl, rfl⟩ := Prod.mk.inj heq
      refine ⟨Nat.zero_le _, ?_⟩
      change part s.chunks s.calls.length = v.bytes.take 0
      rw [part_eq_nil _ fun p hp => (h.pieces p hp).1, List.take_zero]
  · have htotal : total { s with calls := s.calls ++ [(w, .loop 0)] } = total s + w.n := by
      simp [total]
    rw [htotal]
    omega
  · have := h.pieces p hp
    simp only [List.length_append, List.length_singleton]
    omega

theorem moves {pc pc' : Pc} (hmove : Moves s t c w pc pc') (hfs : t.fs = s.fs)
    (hchunks : t.chunks = s.chunks) (hok : pc'.Ok w.n) (hsent : pc'.sent w.n = pc.sent w.n)
    (hself : t.holder = some c ↔ pc'.Inside)
    (hother : ∀ d, d ≠ c → (t.holder = some d ↔ s.holder = some d))
    (hoff : t.off + t.inside.elim 0 Pc.behind = s.off + s.inside.elim 0 Pc.behind)
    (hlocks : t.locks =
      s.chunks.map Prod.fst ++ if t.inside.any Pc.waits then t.holder.toList else []) :
    Inv sb k start x t where
  fs := hfs ▸ h.fs
  loaded := hfs ▸ h.loaded
  file := by
    rw [hfs, hchunks]
    exact h.file
  off := by
    rw [hoff, hchunks]
    exact h.off
  holder := hmove.holder h hself hother
  call := by
    refine hmove.call h ⟨hok, ?_⟩ fun d _ => by rw [hchunks]
    rw [hchunks, hsent]
    exact (h.call c w pc hmove.before).2
  bound := by
    rw [hmove.total_eq]
    exact h.bound
  pieces := by
    rw [hchunks, hmove.length_calls]
    exact h.pieces
  locks := by
    rw [hchunks]
    exact hlocks

theorem lock {i : ℕ} (hc : s.calls[c]? = some (w, .loop i)) (hi : i < w.n)
    (hfree : s.holder = none) :
    Inv sb k start x { s with
      calls := s.calls.set c (w, .locked i (min (w.n - i) MAXCHUNK)),
      holder := some c, locks := s.locks ++ [c] } := by
  have hmove : Moves s { s with
      calls := s.calls.set c (w, .locked i (min (w.n - i) MAXCHUNK)),
      holder := some c, locks := s.locks ++ [c] } c w _ _ := ⟨hc, rfl⟩
  have hinside := hmove.inside rfl
  refine h.moves hmove rfl rfl ⟨hi, rfl⟩ rfl (iff_of_true rfl trivial) (fun d hd => ?_) ?_ ?_
  · rw [hfree]
    simp [Ne.symm hd]
  · rw [hinside, inside_eq_none hfree]
    rfl
  · have hlocks := h.locks
    rw [inside_eq_none hfree] at hlocks
    rw [hinside]
    simpa [Pc.waits] using hlocks

theorem advance {i n1 : ℕ} {r : ℤ} (hc : s.calls[c]? = some (w, .wrote i n1 r)) :
    Inv sb k start x { s with
      calls := s.calls.set c (w, .advanced i n1 r),
      off := if 0 < r then (s.off + r.toNat) % 2 ^ 32 else s.off } := by
  obtain ⟨⟨hi, hn1, rfl⟩, -⟩ := h.call c w _ hc
  have hholder := h.holder_eq hc trivial
  have hmove : Moves s { s with
      calls := s.calls.set c (w, .advanced i n1 n1),
      off := if (0 : ℤ) < n1 then (s.off + (n1 : ℤ).toNat) % 2 ^ 32 else s.off } c w _ _ :=
      ⟨hc, rfl⟩
  have hinside := hmove.inside hholder
  have hinside' := inside_eq hholder hc
  refine h.moves hmove rfl rfl ⟨hi, hn1, rfl⟩ rfl (iff_of_true hholder trivial)
    (fun _ _ => Iff.rfl) ?_ ?_
  · have hpos : (0 : ℤ) < n1 := by
      unfold MAXCHUNK MAXOPBLOCKS BSIZE at hn1
      omega
    have hoff := h.off
    have hall := h.length_all_le
    have hbound := h.bound
    have hmax : MAXFILE * BSIZE < 2 ^ 32 := by decide
    rw [hinside'] at hoff
    rw [hinside, hinside']
    simp only [Option.elim_some, Pc.behind] at hoff ⊢
    rw [if_pos hpos, Int.toNat_natCast, Nat.mod_eq_of_lt (by omega)]
    omega
  · have hlocks := h.locks
    rw [hinside'] at hlocks
    rw [hinside]
    exact hlocks

theorem unlock {i n1 : ℕ} {r : ℤ} (hc : s.calls[c]? = some (w, .advanced i n1 r)) :
    Inv sb k start x { s with
      calls := s.calls.set c (w, if r ≠ n1 then .broke i else .loop (i + r.toNat)),
      holder := none } := by
  obtain ⟨⟨hi, hn1, rfl⟩, -⟩ := h.call c w _ hc
  have hholder := h.holder_eq hc trivial
  rw [if_neg (not_not_intro rfl), Int.toNat_natCast]
  have hmove :
      Moves s { s with calls := s.calls.set c (w, .loop (i + n1)), holder := none } c w _ _ :=
    ⟨hc, rfl⟩
  have hinside : State.inside { s with
      calls := s.calls.set c (w, .loop (i + n1)), holder := none } = none := rfl
  have hinside' := inside_eq hholder hc
  refine h.moves hmove rfl rfl ?_ rfl (by simp [Pc.Inside]) (fun d hd => ?_) ?_ ?_
  · change i + n1 ≤ w.n
    omega
  · rw [hholder]
    simp [Ne.symm hd]
  · rw [hinside, hinside']
    rfl
  · have hlocks := h.locks
    rw [hinside'] at hlocks
    rw [hinside]
    exact hlocks

theorem ret {i : ℕ} (hc : s.calls[c]? = some (w, .loop i)) (hi : w.n ≤ i) :
    Inv sb k start x { s with calls := s.calls.set c (w, .done (result i w.n)) } := by
  obtain ⟨hle, -⟩ := h.call c w _ hc
  obtain rfl : i = w.n := le_antisymm hle hi
  have hmove : Moves s { s with calls := s.calls.set c (w, .done (result w.n w.n)) } c w _ _ :=
    ⟨hc, rfl⟩
  have hout := h.not_holder hc id
  have hinside : State.inside { s with calls := s.calls.set c (w, .done (result w.n w.n)) } =
      s.inside := by
    refine inside_congr rfl fun d hd => hmove.other ?_
    rintro rfl
    exact hout hd
  refine h.moves hmove rfl rfl (if_pos rfl) rfl (iff_of_false hout id) (fun _ _ => Iff.rfl) ?_ ?_
  · rw [hinside]
  · rw [hinside]
    exact h.locks

theorem other {op : Fs.Op} {fs : Fs} (ha : op.Allowed sb s.fs) (hop : op.Leaves k)
    (hevict : (∃ b, op = .evict b) → Saved sb k s) (hok : s.fs.exec sb op = .ok fs) :
    Inv sb k start x { s with fs := fs } ∧ (Saved sb k s → Saved sb k { s with fs := fs }) := by
  have hkeeps := h.fs.exec_leaves h.loaded ha hop hevict hok
  refine ⟨{ h with fs := hkeeps.inv, loaded := hkeeps.loaded, file := ?_ }, fun hsaved => ?_⟩
  · rw [hkeeps.inum, hkeeps.node]
    exact h.file
  · have hsaved' := h.fs.saved_leaves h.loaded ha hop hok hsaved
    rwa [← hkeeps.inum] at hsaved'

theorem write {i n1 : ℕ} (hx : start ≤ x.data.length)
    (hc : s.calls[c]? = some (w, .locked i n1)) (hall : allocatesAt sb k s c = true) :
    ∃ fs, s.fs.writei sb k ⟨fun j => w.src (i + j), n1⟩ s.off n1 = .ok (n1, fs) ∧
      Inv sb k start x { s with
        calls := s.calls.set c (w, .wrote i n1 n1)
        fs := fs
        chunks := s.chunks ++ [(c, w.chunk i n1)] } ∧
      (s.fs.Saved sb (s.fs.itable k).inum → fs.Saved sb (fs.itable k).inum) := by
  obtain ⟨⟨hi, hn1⟩, hpart⟩ := h.call c w _ hc
  have hholder := h.holder_eq hc trivial
  have hinside := inside_eq hholder hc
  have hoff := h.off
  rw [hinside] at hoff
  change s.off = _ at hoff
  -- what does not depend on the file system behind the call
  have hmove (fs : Fs) : Moves s { s with
      calls := s.calls.set c (w, .wrote i n1 n1)
      fs := fs
      chunks := s.chunks ++ [(c, w.chunk i n1)] } c w _ _ := ⟨hc, rfl⟩
  have hsent : part (s.chunks ++ [(c, w.chunk i n1)]) c = w.bytes.take (i + n1) := by
    rw [part_concat_self, hpart, ← w.take_append_chunk (by omega)]
    rfl
  have hcall (fs : Fs) := (hmove fs).call h ⟨⟨hi, hn1, rfl⟩, hsent⟩
    fun d hd => part_concat_of_ne _ _ (Ne.symm hd) _
  have hpieces (fs : Fs) : ∀ p ∈ s.chunks ++ [(c, w.chunk i n1)],
      p.1 < (s.calls.set c (w, .wrote i n1 n1)).length ∧ p.2.length ≤ MAXCHUNK := by
    rw [(hmove fs).length_calls]
    intro p hp
    rcases List.mem_append.mp hp with hp | hp
    · exact h.pieces p hp
    · obtain rfl := List.mem_singleton.mp hp
      refine ⟨(List.getElem?_eq_some_iff.mp hc).1, ?_⟩
      rw [w.length_chunk]
      omega
  have hroom : s.off + n1 ≤ MAXFILE * BSIZE := by
    have hle := length_all_le_total (fun p hp => (hpieces s.fs p hp).1)
      fun d v pc hd => (hcall s.fs d v pc hd).2
    rw [(hmove s.fs).total_eq, all_concat, List.length_append, w.length_chunk] at hle
    have := h.bound
    omega
  unfold allocatesAt at hall
  rw [hc] at hall
  have hsize : s.off ≤ (overwrite x.data start (all s.chunks)).length := by
    rw [length_overwrite hx]
    omega
  obtain ⟨fs, hok, hedit⟩ := h.fs.writei_complete h.loaded h.file hsize hroom hall le_rfl
  have hinside' := (hmove fs).inside hholder
  refine ⟨fs, hok, ⟨hedit.inv, hedit.table.loaded h.loaded, ?_, ?_, ?_, hcall fs, ?_, hpieces fs,
    ?_⟩, fun hsaved => ?_⟩
  · change fs.node sb (fs.itable k).inum = _
    rw [((hedit.table k).2 h.loaded.1).1, hedit.node, Function.update_self, hoff]
    change some { x with data := overwrite (overwrite _ _ _) _ (w.chunk i n1) } = _
    rw [overwrite_overwrite hx, all_concat]
  · rw [hinside', all_concat, List.length_append, w.length_chunk]
    change s.off + n1 = _
    omega
  · exact (hmove fs).holder h (iff_of_true hholder trivial) fun _ _ => Iff.rfl
  · rw [(hmove fs).total_eq]
    exact h.bound
  · rw [hinside']
    change s.locks = _
    rw [h.locks, hinside, hholder]
    simp [Pc.waits]
  · obtain ⟨ht, hcopy⟩ := h.fs.loaded k h.loaded.1 h.loaded.2
    have hmax : MAXFILE * BSIZE < 2 ^ 32 := by decide
    rw [((hedit.table k).2 h.loaded.1).1]
    exact h.fs.saved_writei (h.fs.inum_lt k h.loaded.1) (hcopy ▸ ht) hsaved h.loaded
      (by omega : s.off < 2 ^ 32) (by omega : n1 < 2 ^ 32) (fun _ => le_rfl) hok

theorem ilock_eq : s.fs.ilock sb k = .ok s.fs := by
  obtain ⟨hheld, hvalid⟩ := h.loaded
  have hpos : ¬ (s.fs.itable k).ref < 1 := by
    unfold Fs.Held at hheld
    omega
  simp [Fs.ilock, hpos, hvalid]

/-- One event, with the step that it takes from the budget of the calls.  Buffers may be
recycled as long as the file is saved. -/
theorem step {e : Event} (hx : start ≤ x.data.length) (hfits : Fits sb k start s e)
    (hevict : (∃ b, e = .other (.evict b)) → Saved sb k s)
    (hstep : SharedWrite.step sb k s e = some t) :
    Inv sb k start x t ∧ (Saved sb k s → Saved sb k t) ∧
      [e].countP Event.ofCall + left t + budget s ≤ left s + budget t := by
  have hcost {c w pc pc'} (hmove : Moves s t c w pc pc') (hlt : pc'.left w.n < pc.left w.n)
      (e : Event) : [e].countP Event.ofCall + left t + budget s ≤ left s + budget t := by
    have := hmove.left_lt hlt
    have := List.countP_le_length (p := Event.ofCall) (l := [e])
    rw [hmove.budget_eq]
    simp only [List.length_singleton] at this
    omega
  cases e with
  | call w =>
    obtain rfl := Option.some.inj hstep
    refine ⟨h.newCall hfits, id, ?_⟩
    simp [left, budget, Pc.left, Event.ofCall]
    omega
  | lock c =>
    simp only [SharedWrite.step, h.ilock_eq] at hstep
    split at hstep
    next w i _ hc heq =>
      cases heq
      obtain ⟨⟨hi, hfree⟩, rfl⟩ := Option.ite_some_none_eq_some.mp hstep
      refine ⟨h.lock hc hi hfree, id, hcost ⟨hc, rfl⟩ ?_ _⟩
      simp [Pc.left]
    next => cases hstep
  | write c =>
    simp only [SharedWrite.step] at hstep
    split at hstep
    next w i n1 hc =>
      obtain ⟨fs, hok, hinv, hsaved⟩ := h.write hx hc hfits
      obtain ⟨⟨hi, -⟩, -⟩ := h.call c w _ hc
      rw [hok] at hstep
      obtain rfl := Option.some.inj hstep
      refine ⟨hinv, hsaved, hcost ⟨hc, rfl⟩ ?_ _⟩
      simp only [Pc.left]
      omega
    next => cases hstep
  | advance c =>
    simp only [SharedWrite.step] at hstep
    split at hstep
    next w i n1 r hc =>
      obtain ⟨⟨hi, -⟩, -⟩ := h.call c w _ hc
      obtain rfl := Option.some.inj hstep
      refine ⟨h.advance hc, id, hcost ⟨hc, rfl⟩ ?_ _⟩
      simp only [Pc.left]
      omega
    next => cases hstep
  | unlock c =>
    simp only [SharedWrite.step] at hstep
    split at hstep
    next w i n1 r hc =>
      obtain ⟨⟨hi, hn1, hr⟩, -⟩ := h.call c w _ hc
      obtain rfl := Option.some.inj hstep
      refine ⟨h.unlock hc, id, hcost ⟨hc, rfl⟩ ?_ _⟩
      rw [if_neg (not_not_intro hr), hr, Int.toNat_natCast]
      simp only [Pc.left]
      unfold MAXCHUNK MAXOPBLOCKS BSIZE at hn1
      omega
    next => cases hstep
  | ret c =>
    simp only [SharedWrite.step] at hstep
    split at hstep
    next w i hc =>
      obtain ⟨hi, rfl⟩ := Option.ite_some_none_eq_some.mp hstep
      exact ⟨h.ret hc hi, id, hcost ⟨hc, rfl⟩ (Nat.succ_pos _) _⟩
    next w i hc => exact (h.call c w _ hc).1.elim
    next => cases hstep
  | other op =>
    simp only [SharedWrite.step] at hstep
    split_ifs at hstep with ha
    cases hok : s.fs.exec sb op with
    | error msg => simp [hok] at hstep
    | ok fs =>
      simp only [hok, Option.some.injEq] at hstep
      subst hstep
      obtain ⟨hinv, hsaved⟩ := h.other ha hfits (fun ⟨b, hb⟩ => hevict ⟨b, hb ▸ rfl⟩) hok
      exact ⟨hinv, hsaved, by simp [left, budget, Event.ofCall]⟩

/-- While a call is under way, one of the calls can go on. -/
theorem progress (hx : start ≤ x.data.length) {pc : Pc} (hc : s.calls[c]? = some (w, pc))
    (hpc : ∀ r, pc ≠ .done r) :
    ∃ e : Event, e.ofCall = true ∧ (Fits sb k start s e → (SharedWrite.step sb k s e).isSome) := by
  cases hh : s.holder with
  | some d =>
    obtain ⟨v, pd, hd, hin⟩ := (h.holder d).mp hh
    cases pd with
    | locked i n1 =>
      refine ⟨.write d, rfl, fun hfits => ?_⟩
      obtain ⟨fs, hok, -⟩ := h.write hx hd hfits
      simp [SharedWrite.step, hd, hok]
    | wrote i n1 r => exact ⟨.advance d, rfl, fun _ => by simp [SharedWrite.step, hd]⟩
    | advanced i n1 r => exact ⟨.unlock d, rfl, fun _ => by simp [SharedWrite.step, hd]⟩
    | loop i | broke i | done r => exact hin.elim
  | none =>
    have hout : ¬ pc.Inside := fun hin => by
      have := h.holder_eq hc hin
      rw [hh] at this
      cases this
    cases pc with
    | loop i =>
      by_cases hi : i < w.n
      · exact ⟨.lock c, rfl, fun _ => by simp [SharedWrite.step, hc, h.ilock_eq, hi, hh]⟩
      · exact ⟨.ret c, rfl, fun _ => by simp [SharedWrite.step, hc, not_lt.mp hi]⟩
    | locked i n1 | wrote i n1 r | advanced i n1 r => exact (hout trivial).elim
    | broke i => exact (h.call c w _ hc).1.elim
    | done r => exact (hpc r rfl).elim

end Inv

/-! ## Every run -/

section run

variable {sb : Superblock} {k start : ℕ} {fs : Fs} {x : Node} {tr : List Event} {s : State}

theorem inv_opened (hfs : Fs.Inv sb fs) (hk : fs.Loaded k)
    (hx : fs.node sb (fs.itable k).inum = some x) (hstart : start ≤ x.data.length) :
    Inv sb k start x (opened fs start) where
  fs := hfs
  loaded := hk
  file := by
    have hempty : overwrite x.data start (all ([] : List (ℕ × List UInt8))) = x.data := by
      simp [overwrite, all]
    change fs.node sb (fs.itable k).inum = some { x with data := overwrite x.data start (all []) }
    rw [hempty, hx]
  off := rfl
  holder := by simp [opened]
  call := by simp [opened]
  bound := by
    have hnode := hfs.node_of_loaded hk
    rw [hx] at hnode
    obtain rfl := Option.some.inj hnode
    have hsize : ((fs.itable k).node fs.buf).data.length = (fs.itable k).size :=
      Dinode.length_contents _ _
    have hlocked := hfs.locked hk.1 hk.2
    have hmax := hlocked.sound.size_le hlocked.inum_lt
    simp only [Fs.inodes, Function.update_self] at hmax
    exact hstart.trans (hsize.le.trans (hmax hlocked.type_ne))
  pieces := by simp [opened]
  locks := rfl

theorem inv_of_run (hstart : start ≤ x.data.length) (hinit : Inv sb k start x (opened fs start))
    (hevict : (∃ b, Event.other (.evict b) ∈ tr) → fs.Saved sb (fs.itable k).inum)
    (hrun : Run (guarded (Fits sb k start) (step sb k)) (opened fs start) tr s) :
    Inv sb k start x s ∧ tr.countP Event.ofCall + left s ≤ budget s := by
  obtain ⟨hinv, -, hcost⟩ := hrun.invariant
    (I := fun tr s => ((∃ b, Event.other (.evict b) ∈ tr) → fs.Saved sb (fs.itable k).inum) →
      Inv sb k start x s ∧ (fs.Saved sb (fs.itable k).inum → Saved sb k s) ∧
        tr.countP Event.ofCall + left s ≤ budget s)
    (fun _ => ⟨hinit, id, le_rfl⟩)
    (by
      intro tr s e t ih he hevict
      obtain ⟨hfits, hstep⟩ := guarded_eq_some.mp he
      obtain ⟨hinv, hsaved, hcost⟩ := ih fun ⟨b, hb⟩ => hevict ⟨b, List.mem_append_left _ hb⟩
      obtain ⟨hinv', hsaved', hcost'⟩ := hinv.step hstart hfits
        (fun ⟨b, hb⟩ => hsaved (hevict ⟨b, hb ▸ List.mem_append_right _ List.mem_cons_self⟩)) hstep
      refine ⟨hinv', fun h0 => hsaved' (hsaved h0), ?_⟩
      rw [List.countP_append]
      omega)
    hevict
  exact ⟨hinv, hcost⟩

/-- Whatever the order in which the calls take their steps: each returns its length, the
file holds their chunks in the order of the lock from the first offset on, the chunks of
a call are its bytes in order, and the offset ends behind all of them.  Buffers may be
recycled at any time if the bytes of the file were logged to begin with. -/
theorem shared_writes_lose_nothing (hfs : Fs.Inv sb fs) (hk : fs.Loaded k)
    (hx : fs.node sb (fs.itable k).inum = some x) (hstart : start ≤ x.data.length)
    (hevict : (∃ b, Event.other (.evict b) ∈ tr) → fs.Saved sb (fs.itable k).inum)
    (hrun : Run (guarded (Fits sb k start) (step sb k)) (opened fs start) tr s) :
    (∀ (c : ℕ) (w : Write) (ret : ℤ), s.calls[c]? = some (w, Pc.done ret) →
      ret = w.n ∧ part s.chunks c = w.bytes) ∧
    (∀ (c : ℕ) (w : Write) (pc : Pc), s.calls[c]? = some (w, pc) → part s.chunks c <+: w.bytes) ∧
    (∀ p ∈ s.chunks, p.2.length ≤ (MAXOPBLOCKS - 1 - 1 - 2) / 2 * BSIZE) ∧
    (s.holder = none → s.locks = s.chunks.map Prod.fst ∧
      s.off = start + (all s.chunks).length ∧
      s.fs.node sb (s.fs.itable k).inum =
        some { x with data := overwrite x.data start (all s.chunks) }) ∧
    ((∀ (c : ℕ) (w : Write) (pc : Pc), s.calls[c]? = some (w, pc) → ∃ ret, pc = Pc.done ret) →
      s.holder = none ∧ s.off = start + total s) ∧
    (tr.countP Event.ofCall ≤ budget s ∧
      ∀ (c : ℕ) (w : Write) (pc : Pc), s.calls[c]? = some (w, pc) → (∀ ret, pc ≠ Pc.done ret) →
        ∃ e : Event, e.ofCall = true ∧ (Fits sb k start s e → (step sb k s e).isSome)) := by
  obtain ⟨hinv, hcost⟩ := inv_of_run hstart (inv_opened hfs hk hx hstart) hevict hrun
  have hdone : ∀ (c : ℕ) (w : Write) (ret : ℤ), s.calls[c]? = some (w, Pc.done ret) →
      ret = w.n ∧ part s.chunks c = w.bytes := by
    intro c w ret hc
    obtain ⟨hret, hpart⟩ := hinv.call c w _ hc
    refine ⟨hret, hpart.trans (List.take_of_length_le ?_)⟩
    exact w.length_bytes.le
  have hfree : s.holder = none → s.off = start + (all s.chunks).length := by
    intro hh
    have := hinv.off
    rwa [inside_eq_none hh] at this
  refine ⟨hdone, fun c w pc hc => ?_, fun p hp => (hinv.pieces p hp).2,
    fun hh => ⟨?_, hfree hh, hinv.file⟩,
    fun hall => ?_, by omega, fun c w pc hc hpc => hinv.progress hstart hc hpc⟩
  · rw [(hinv.call c w pc hc).2]
    exact List.take_prefix _ _
  · have := hinv.locks
    rw [inside_eq_none hh] at this
    simpa using this
  · have hh : s.holder = none := by
      cases hh : s.holder with
      | none => rfl
      | some c =>
        obtain ⟨w, pc, hc, hin⟩ := (hinv.holder c).mp hh
        obtain ⟨ret, rfl⟩ := hall c w pc hc
        exact hin.elim
    have hlen : (all s.chunks).length = total s := by
      refine length_all_eq _ (by simpa using fun p hp => (hinv.pieces p hp).1) fun c n hc => ?_
      rw [List.getElem?_map] at hc
      obtain ⟨⟨w, pc⟩, hw, rfl⟩ := Option.map_eq_some_iff.mp hc
      obtain ⟨ret, rfl⟩ := hall c w pc hw
      rw [(hdone c w ret hw).2, w.length_bytes]
    exact ⟨hh, by rw [hfree hh, hlen]⟩

def newFile : List Fs.Op := [.ialloc T_FILE, .ilock 0]

/-- Two calls, the second of which is the first to take the lock.  Between their writes the
buffer of the block that both write is recycled. -/
def twoCalls : List Event :=
  [.call ⟨2, fun j => .ofNat (j + 1)⟩, .call ⟨3, fun j => .ofNat (j + 7)⟩,
    .lock 1, .write 1, .advance 1, .unlock 1, .other (.evict 46), .lock 0, .write 0, .ret 1,
    .advance 0, .unlock 0, .ret 0]

theorem shared_writes_lose_nothing_two : ∃ fs s,
    Run (Fs.step Fs.mkfsSuper) Fs.formatted newFile fs ∧
    Run (guarded (Fits Fs.mkfsSuper 0 0) (step Fs.mkfsSuper 0)) (opened fs 0) twoCalls s ∧
    s.chunks = [(1, [7, 8, 9]), (0, [1, 2])] ∧ s.holder = none ∧ s.off = 0 + total s := by
  obtain ⟨fs, hfs, hnew⟩ := Run.exists_of_any
    (P := fun fs => fs.Loaded 0 ∧ (fs.itable 0).size = 0 ∧
      (twoCalls.foldlM (guarded (Fits Fs.mkfsSuper 0 0) (step Fs.mkfsSuper 0)) (opened fs 0)).any
        fun s => s.chunks = [(1, [7, 8, 9]), (0, [1, 2])] ∧
          s.calls.map Prod.snd = [.done 2, .done 3])
    (by decide +kernel : (newFile.foldlM (Fs.step Fs.mkfsSuper) Fs.formatted).any _)
  obtain ⟨hload, hsize, hany⟩ := of_decide_eq_true hnew
  obtain ⟨s, hrun, hs⟩ := Run.exists_of_any hany
  obtain ⟨hchunks, hcalls⟩ := of_decide_eq_true hs
  have hinv := Fs.inv_of_run
    (Fs.inv_iff.mpr ⟨Fs.exclusive_formatted, Fs.noHoles_formatted, Fs.coherent_formatted⟩) hfs
  have hsaved : fs.Saved Fs.mkfsSuper (fs.itable 0).inum :=
    .of_size_eq_zero ((hinv.loaded 0 hload.1 hload.2).2 ▸ hsize)
  obtain ⟨-, -, -, -, hend, -⟩ := shared_writes_lose_nothing hinv hload (hinv.node_of_loaded hload)
    (Nat.zero_le _) (fun _ => hsaved) hrun
  refine ⟨fs, s, hfs, hrun, hchunks, hend fun c w pc hc => ?_⟩
  have hmem : pc ∈ s.calls.map Prod.snd := List.mem_map_of_mem (List.mem_of_getElem? hc)
  rw [hcalls] at hmem
  rcases List.mem_pair.mp hmem with rfl | rfl
  · exact ⟨2, rfl⟩
  · exact ⟨3, rfl⟩

end run

end Xv6.SharedWrite
