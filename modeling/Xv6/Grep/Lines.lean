import Xv6.Grep.Match
import Xv6.Mem.Memmove
import Xv6.Mem.Strings

/-!
# The lines that grep prints

`grep` reads a file piece by piece into one buffer, prints the matching lines that it
finds there, and moves the unfinished line to the front before it reads on.
-/

namespace Xv6.Grep

open Lib Mem
open Function (update update_idem update_self update_of_ne)

variable {pattern stream held u v tail : List UInt8} {buf buf' : Bytes} {p m fuel : ℕ}
  {out : List UInt8} {split : ℕ → ℕ}

/-! ## The program -/

def BUFSIZE : ℕ := 1024

def NEWLINE : UInt8 := 10

/-- The inner loop of `grep`; `out` is what has been written. -/
def lineLoop (pattern : List UInt8) : ℕ → Bytes → ℕ → List UInt8 → Option (Bytes × ℕ × List UInt8)
  | 0, _, _, _ => none
  | fuel + 1, buf, p, out =>
    match Ulib.strchr buf NEWLINE BUFSIZE p with
    | none => none
    | some none => some (buf, p, out)
    | some (some q) =>
      let buf := update buf q 0
      if matchRe pattern (cstr buf BUFSIZE p) then
        let buf := update buf q NEWLINE
        lineLoop pattern fuel buf (q + 1) (out ++ slice buf p (q + 1 - p))
      else lineLoop pattern fuel buf (q + 1) out

def readAt (buf : Bytes) (m : ℕ) (data : List UInt8) : Bytes := fun i =>
  if m ≤ i ∧ i < m + data.length then data.getD (i - m) 0 else buf i

/-- `memmove(buf, p, n)` -/
def memmove (buf : Bytes) (p n : ℕ) : Bytes := moveRange buf 0 p n

/-- The outer loop of `grep`.  The call of `read` with the number `i` returns
`split i + 1` bytes if there are so many and they fit. -/
def grepLoop (pattern : List UInt8) (split : ℕ → ℕ) :
    ℕ → ℕ → List UInt8 → Bytes → ℕ → List UInt8 → Option (List UInt8)
  | 0, _, _, _, _, _ => none
  | fuel + 1, i, stream, buf, m, out =>
    let data := stream.take (min (split i + 1) (BUFSIZE - m - 1))
    if data = [] then some out
    else
      let m := m + data.length
      match lineLoop pattern BUFSIZE (update (readAt buf (m - data.length) data) m 0) 0
          out with
      | none => none
      | some (buf, p, out) =>
        grepLoop pattern split fuel (i + 1) (stream.drop data.length) (memmove buf p (m - p))
          (m - p) out

/-- What `grep` writes when the descriptor delivers `stream`, or `none` if it does not end. -/
def grep (pattern : List UInt8) (split : ℕ → ℕ) (stream : List UInt8) (buf : Bytes) :
    Option (List UInt8) :=
  grepLoop pattern split (stream.length + 1) 0 stream buf 0 []

/-! ## Lines -/

/-- The lines that a newline ends, without it. -/
def lines (stream : List UInt8) : List (List UInt8) :=
  (stream.splitOnP fun c => c = NEWLINE).dropLast

/-- What `grep` is to write. -/
def matching (pattern stream : List UInt8) : List UInt8 :=
  ((lines stream).filter (matchRe pattern)).flatMap (· ++ [NEWLINE])

/-- The line fits into the buffer with its newline and a NUL. -/
def Short (l : List UInt8) : Bool := l.length + 1 < BUFSIZE

/-- What `grep` writes: it stops at the first line that does not fit. -/
def printed (pattern stream : List UInt8) : List UInt8 :=
  (((lines stream).takeWhile Short).filter (matchRe pattern)).flatMap (· ++ [NEWLINE])

theorem lines_of_not_mem (h : NEWLINE ∉ u) : lines u = [] := by
  rw [lines, List.splitOnP_eq_singleton]
  · rfl
  · intro c hc
    simpa using fun heq : c = NEWLINE => h (heq ▸ hc)

theorem lines_newline (h : NEWLINE ∉ u) (v : List UInt8) :
    lines (u ++ NEWLINE :: v) = u :: lines v := by
  rw [lines, List.splitOnP_append_cons_of_forall_mem _ _ (by simp),
    List.dropLast_cons_of_ne_nil (List.splitOnP_ne_nil _ v), lines]
  intro c hc
  simpa using fun heq : c = NEWLINE => h (heq ▸ hc)

theorem matching_of_not_mem (h : NEWLINE ∉ u) : matching pattern u = [] := by
  rw [matching, lines_of_not_mem h]
  rfl

theorem matching_newline (h : NEWLINE ∉ u) (v : List UInt8) : matching pattern (u ++ NEWLINE :: v) =
    (if matchRe pattern u then u ++ [NEWLINE] else []) ++ matching pattern v := by
  rw [matching, lines_newline h, List.filter_cons]
  split_ifs
  · rw [List.flatMap_cons, matching]
  · rw [List.nil_append, matching]

theorem newline_cases (s : List UInt8) :
    NEWLINE ∉ s ∨ ∃ u v, s = u ++ NEWLINE :: v ∧ NEWLINE ∉ u := by
  by_cases h : NEWLINE ∈ s
  · obtain ⟨u, v, rfl, hu⟩ := List.eq_append_cons_of_mem h
    exact .inr ⟨u, v, rfl, hu⟩
  · exact .inl h

theorem length_of_mem_lines {s l : List UInt8} (h : l ∈ lines s) : l.length < s.length := by
  -- the lines behind the first newline are lines of a shorter text
  induction hn : s.length using Nat.strongRecOn generalizing s with
  | ind n ih =>
    rcases newline_cases s with hs | ⟨u, v, rfl, hu⟩
    · rw [lines_of_not_mem hs] at h
      exact absurd h List.not_mem_nil
    · rw [List.length_append, List.length_cons] at hn
      rw [lines_newline hu] at h
      rcases List.mem_cons.mp h with rfl | h
      · omega
      · have := ih v.length (by omega) h rfl
        omega

/-- The lines that are in the buffer are short, and what follows them is printed after them. -/
theorem printed_of_lines {s tail more : List UInt8} (hlen : s.length < BUFSIZE)
    (h : lines (s ++ more) = lines s ++ lines (tail ++ more)) :
    printed pattern (s ++ more) = matching pattern s ++ printed pattern (tail ++ more) := by
  have hshort : ∀ l ∈ lines s, Short l = true := fun l hl => by
    have := length_of_mem_lines hl
    exact decide_eq_true (by omega)
  rw [printed, h, List.takeWhile_append_of_pos hshort, List.filter_append, List.flatMap_append]
  rfl

theorem printed_of_not_mem (h : NEWLINE ∉ u) : printed pattern u = [] := by
  rw [printed, lines_of_not_mem h]
  rfl

theorem printed_of_full (hheld : NEWLINE ∉ held) (hfull : BUFSIZE ≤ held.length + 1) :
    printed pattern (held ++ stream) = [] := by
  rcases newline_cases stream with h | ⟨u, v, rfl, hu⟩
  · exact printed_of_not_mem (by simp [hheld, h])
  · have hnot : NEWLINE ∉ held ++ u := by simp [hheld, hu]
    have hlong : Short (held ++ u) = false := by
      refine decide_eq_false ?_
      rw [List.length_append]
      omega
    rw [← List.append_assoc, printed, lines_newline hnot,
      List.takeWhile_cons_of_neg (by simp [hlong])]
    rfl

/-- Nothing is left out exactly if no line matches from the first long one on. -/
theorem printed_eq_matching_iff : printed pattern stream = matching pattern stream ↔
    ∀ l ∈ (lines stream).dropWhile Short, matchRe pattern l = false := by
  have hlines : lines stream =
      (lines stream).takeWhile Short ++ (lines stream).dropWhile Short :=
    List.takeWhile_append_dropWhile.symm
  have hmatching : matching pattern stream = printed pattern stream ++
      (((lines stream).dropWhile Short).filter (matchRe pattern)).flatMap (· ++ [NEWLINE]) := by
    conv_lhs => rw [matching, hlines, List.filter_append, List.flatMap_append]
    rfl
  rw [hmatching, List.self_eq_append_right, List.flatMap_eq_nil_iff]
  simp

/-! ## The buffer -/

theorem has_readAt (buf : Bytes) (m : ℕ) (u : List UInt8) : Has (readAt buf m u) m u := by
  refine (has_getD [] u m).congr fun i hi hi' => ?_
  rw [readAt, if_pos ⟨hi, hi'⟩]
  rfl

theorem readAt_of_lt {i : ℕ} (h : i < m) : readAt buf m u i = buf i := if_neg (by omega)

/-- What `memmove` of `ulib.c` does to the buffer, wherever it lies. -/
theorem memmove_eq (buf : Bytes) {base : Addr} {n : ℕ} (h : base.toNat + p + n ≤ 2 ^ 64)
    (hn : n < 2 ^ 31) :
    Ulib.memmove (region base buf) base (base + BitVec.ofNat 64 p) (BitVec.ofNat 32 n) =
      (base, region base (memmove buf p n)) := by
  have hmove := Ulib.memmove_region (o := 0) buf (by omega) h hn
  rwa [byteOf_zero] at hmove

theorem has_memmove (h : Has buf p u) : Has (memmove buf p u.length) 0 u := by
  have hmove : ∀ u n, Has buf (p + n) u → Has (fun i => buf (p + i)) n u := by
    intro u
    induction u with
    | nil => exact fun _ _ => trivial
    | cons c u ih => exact fun n h => ⟨h.1, ih (n + 1) h.2⟩
  refine (hmove u 0 h).congr fun i _ hi => ?_
  rw [memmove, moveRange, if_pos ⟨i.zero_le, hi⟩, Nat.sub_zero]

theorem has_read (h : Has buf 0 held) (data : List UInt8) :
    Has (update (readAt buf held.length data) (held.length + data.length) 0) 0
      (held ++ data ++ [0]) := by
  have hdata := has_readAt buf held.length data
  rw [← Nat.zero_add held.length] at hdata
  refine has_append.mpr ⟨has_append.mpr
    ⟨h.congr fun i _ hi => ?_, hdata.congr fun i _ hi => ?_⟩, ?_, trivial⟩
  · rw [update_of_ne (by omega), readAt_of_lt (by omega)]
  · rw [update_of_ne (by omega), Nat.zero_add]
  · rw [List.length_append, Nat.zero_add, update_self]

/-! ## The loops -/

/-- The line `u` is cut off at its newline, which is put back if the line is printed. -/
theorem lineLoop_newline (pattern out : List UInt8) (fuel : ℕ)
    (h : Has buf p (u ++ NEWLINE :: v ++ [0])) (hu : NEWLINE ∉ u) (hnul : 0 ∉ u)
    (hlen : u.length < BUFSIZE) :
    ∃ buf', Has buf' (p + u.length + 1) (v ++ [0]) ∧ lineLoop pattern (fuel + 1) buf p out =
      lineLoop pattern fuel buf' (p + u.length + 1)
        (out ++ if matchRe pattern u then u ++ [NEWLINE] else []) := by
  rw [List.append_assoc, has_append, List.cons_append] at h
  have hfound : Ulib.strchr buf NEWLINE BUFSIZE p = some (some (p + u.length)) :=
    Ulib.strchr_of_mem (has_append.mpr ⟨h.1, h.2.1, trivial⟩) hnul hu (by decide) hlen
  have hline : cstr (update buf (p + u.length) 0) BUFSIZE p = u := by
    refine cstr_eq (has_append.mpr ⟨h.1.congr fun i _ hi => ?_, update_self _ _ _, trivial⟩)
      hnul hlen
    exact update_of_ne (by omega) _ _
  have hrest : ∀ c, Has (update buf (p + u.length) c) (p + u.length + 1) (v ++ [0]) :=
    fun c => h.2.2.congr fun i hi _ => update_of_ne (by omega) _ _
  rw [lineLoop, hfound]
  simp only [hline, update_idem]
  split_ifs with hmatch
  · have hback : Has (update buf (p + u.length) NEWLINE) p (u ++ [NEWLINE]) := by
      refine has_append.mpr ⟨h.1.congr fun i _ hi => ?_, update_self _ _ _, trivial⟩
      exact update_of_ne (by omega) _ _
    have hslice := hback.slice_eq
    rw [List.length_append, List.length_singleton] at hslice
    refine ⟨_, hrest NEWLINE, ?_⟩
    rw [Nat.add_assoc p, Nat.add_sub_cancel_left, hslice]
  · exact ⟨_, hrest 0, by rw [List.append_nil]⟩

/-- The inner loop prints the matching lines of what is in the buffer at `p`, and it
stops at the line that is not finished. -/
theorem lineLoop_spec (pattern out : List UInt8) {s : List UInt8} (h : Has buf p (s ++ [0]))
    (hnul : 0 ∉ s) (hlen : s.length < BUFSIZE) (hfuel : s.length < fuel) :
    ∃ buf' p' tail, lineLoop pattern fuel buf p out = some (buf', p', out ++ matching pattern s) ∧
      Has buf' p' tail ∧ p' + tail.length = p + s.length ∧ NEWLINE ∉ tail ∧
      (∀ c ∈ tail, c ∈ s) ∧ ∀ more, lines (s ++ more) = lines s ++ lines (tail ++ more) := by
  induction fuel generalizing buf p out s with
  | zero => omega
  | succ fuel ih =>
    rcases newline_cases s with hs | ⟨u, v, rfl, hu⟩
    · refine ⟨buf, p, s, ?_, (has_append.mp h).1, rfl, hs, fun _ hc => hc, fun more => ?_⟩
      · rw [lineLoop, Ulib.strchr_of_not_mem h hnul hs hlen, matching_of_not_mem hs,
          List.append_nil]
      · rw [lines_of_not_mem hs, List.nil_append]
    · rw [List.length_append, List.length_cons] at hlen hfuel
      rw [List.mem_append, List.mem_cons, not_or, not_or] at hnul
      obtain ⟨buf₁, hbuf₁, hstep⟩ := lineLoop_newline pattern out fuel h hu hnul.1
        (by omega)
      obtain ⟨buf', p', tail, hok, hhas, hp, htail, hsub, hmore⟩ := ih _ hbuf₁ hnul.2.2
        (by omega) (by omega)
      refine ⟨buf', p', tail, ?_, hhas, ?_, htail, fun c hc => by simp [hsub c hc], fun more => ?_⟩
      · rw [hstep, hok, matching_newline hu, List.append_assoc]
      · rw [hp, List.length_append, List.length_cons]
        omega
      · rw [List.append_assoc, List.cons_append, lines_newline hu, lines_newline hu, hmore,
          List.cons_append]

theorem grepLoop_spec {i : ℕ} (hbuf : Has buf 0 held) (hheld : NEWLINE ∉ held)
    (hnul : 0 ∉ held ++ stream) (hlen : held.length < BUFSIZE) (hfuel : stream.length < fuel) :
    grepLoop pattern split fuel i stream buf held.length out =
      some (out ++ printed pattern (held ++ stream)) := by
  induction fuel generalizing i stream buf held out with
  | zero => omega
  | succ fuel ih =>
    obtain ⟨data, hdata⟩ :
        ∃ data, stream.take (min (split i + 1) (BUFSIZE - held.length - 1)) = data := ⟨_, rfl⟩
    have hroom : data.length ≤ BUFSIZE - held.length - 1 := by
      rw [← hdata, List.length_take]
      omega
    have hsplit : data ++ stream.drop data.length = stream := by
      conv_rhs => rw [← List.take_append_drop data.length stream]
      rw [List.append_cancel_right_eq, ← hdata, List.length_take, List.take_eq_take_iff]
      omega
    rw [grepLoop]
    simp only [hdata]
    split_ifs with hempty
    · -- at the end of the file, or when the buffer is full
      have hnone : printed pattern (held ++ stream) = [] := by
        rcases List.take_eq_nil_iff.mp (hdata.trans hempty) with hzero | rfl
        · exact printed_of_full hheld (by omega)
        · exact printed_of_not_mem (by simpa using hheld)
      rw [hnone, List.append_nil]
    · have hpos := List.length_pos_of_ne_nil hempty
      have hlen' : (held ++ data).length < BUFSIZE := by
        rw [List.length_append]
        omega
      rw [← hsplit, ← List.append_assoc] at hnul
      obtain ⟨buf', p', tail, hok, htail, hp, hnew, hsub, hmore⟩ := lineLoop_spec pattern out
        (has_read hbuf data) (fun h => hnul (List.mem_append_left _ h)) hlen' hlen'
      have hrest : held.length + data.length - p' = tail.length := by
        rw [List.length_append] at hp
        omega
      have hnul' : 0 ∉ tail ++ stream.drop data.length := by
        intro h
        rcases List.mem_append.mp h with h | h
        · exact hnul (List.mem_append_left _ (hsub 0 h))
        · exact hnul (List.mem_append_right _ h)
      have hless : (stream.drop data.length).length < fuel := by
        have hle : data.length ≤ stream.length := by
          rw [← hdata]
          exact List.length_take_le' _ _
        rw [List.length_drop]
        omega
      rw [Nat.add_sub_cancel, hok]
      simp only [hrest]
      rw [ih (has_memmove htail) hnew hnul' (by omega) hless, List.append_assoc out,
        ← printed_of_lines hlen' (hmore _), List.append_assoc held, hsplit]

/-- `grep` ends on every stream, however `read` splits it, and prints the matching lines before
the first long one. -/
theorem grep_eq (pattern : List UInt8) (split : ℕ → ℕ) (buf : Bytes) (hnul : 0 ∉ stream) :
    grep pattern split stream buf = some (printed pattern stream) := by
  have hbuf : Has buf 0 [] := trivial
  exact grepLoop_spec hbuf List.not_mem_nil hnul (by decide) (Nat.lt_succ_self _)

/-- `grep` prints exactly the matching lines just if none of them is the first line that does not
fit into the buffer with its newline, or a later one. -/
theorem grep_prints_matching (pattern : List UInt8) (split : ℕ → ℕ) (stream : List UInt8)
    (buf : Bytes) (hnul : 0 ∉ stream) :
    grep pattern split stream buf = some (matching pattern stream) ↔
      ∀ l ∈ (lines stream).dropWhile Short, matchRe pattern l = false := by
  rw [grep_eq pattern split buf hnul, Option.some_inj, printed_eq_matching_iff]

theorem grep_prints_matching_split : grep [98] (fun _ => 1) [97, 10, 98, 98, 10, 99] (fun _ => 0) =
    some (matching [98] [97, 10, 98, 98, 10, 99]) ∧
      matching [98] [97, 10, 98, 98, 10, 99] = [98, 98, 10] :=
  ⟨(grep_prints_matching _ _ _ _ (by decide)).mpr (by decide), by decide⟩

/-- A line of 1023 bytes, and a second line. -/
def longLine : List UInt8 := List.replicate 1023 97 ++ [10, 98, 10]

/-- Nothing is printed: the first line fills the buffer, and the next `read` has no room. -/
theorem grep_stops_at_long_line : grep [98] (fun _ => BUFSIZE) longLine (fun _ => 0) = some [] ∧
    matching [98] longLine = [98, 10] := by
  have hu : NEWLINE ∉ List.replicate 1023 (97 : UInt8) := fun h =>
    absurd (List.eq_of_mem_replicate h) (by decide)
  have hnul : 0 ∉ longLine := by
    rw [longLine, List.mem_append, not_or]
    exact ⟨fun h => absurd (List.eq_of_mem_replicate h) (by decide), by decide⟩
  constructor
  · rw [grep_eq _ _ _ hnul, longLine, printed_of_full hu (by rw [List.length_replicate]; decide)]
  · change matching [98] (List.replicate 1023 97 ++ NEWLINE :: [98, 10]) = _
    rw [matching_newline hu, if_neg (by decide +kernel)]
    decide

end Xv6.Grep
