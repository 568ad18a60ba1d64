import Xv6.Sys.Path

/-!
# The elements of a path

`namex` takes a path apart with `skipelem`, one element at a time.  What it does depends only
on the elements between the slashes.
-/

namespace Xv6

open Lib

variable {path rest u : List UInt8}

/-- The elements of a path, as far as `skipelem` copies them. -/
def elements (path : List UInt8) : List (List UInt8) :=
  ((path.splitOnP (· = 47)).filter (· ≠ [])).map (List.take DIRSIZ)

theorem not_of_dropWhile_eq_cons {p : UInt8 → Bool} {b : UInt8}
    (h : path.dropWhile p = b :: rest) : p b = false := by
  have hhead := List.head?_dropWhile_not p path
  rwa [h] at hhead

theorem elements_append_slash (u rest : List UInt8) :
    elements (u ++ 47 :: rest) = elements u ++ elements rest := by
  unfold elements
  rw [List.splitOnP_append_cons u rest (by decide), List.filter_append, List.map_append]

theorem elements_slash (rest : List UInt8) : elements (47 :: rest) = elements rest :=
  elements_append_slash [] rest

theorem elements_of_no_slash (hne : u ≠ []) (hu : ∀ b ∈ u, b ≠ 47) :
    elements u = [u.take DIRSIZ] := by
  have hsplit : u.splitOnP (· = 47) = [u] := List.splitOnP_eq_singleton (by simpa using hu)
  simp [elements, hsplit, hne]

theorem elements_dropWhile_slash (path : List UInt8) :
    elements (path.dropWhile (· = 47)) = elements path := by
  induction path with
  | nil => rfl
  | cons b path ih =>
    by_cases hb : b = 47
    · subst hb
      rw [elements_slash, ← ih]
      rfl
    · rw [List.dropWhile_cons_of_neg (by simpa using hb)]

theorem elements_cons {b : UInt8} (hb : b ≠ 47) (path : List UInt8) :
    elements (b :: path) = ((b :: path).takeWhile (· ≠ 47)).take DIRSIZ ::
      elements ((b :: path).dropWhile (· ≠ 47)) := by
  have hne : (b :: path).takeWhile (· ≠ 47) ≠ [] := by simp [hb]
  have hword := elements_of_no_slash hne fun a ha => by simpa using List.mem_takeWhile_imp ha
  have hpath := List.takeWhile_append_dropWhile (p := (· ≠ 47)) (l := b :: path)
  cases hrest : (b :: path).dropWhile (· ≠ 47) with
  | nil =>
    rw [hrest, List.append_nil] at hpath
    rw [hpath] at hword ⊢
    exact hword
  | cons c rest =>
    have hc : c = 47 := by simpa using not_of_dropWhile_eq_cons hrest
    rw [hrest, hc] at hpath
    rw [← hpath, elements_append_slash, hword, hpath, hc, elements_slash]
    rfl

theorem setName_take (name : Bytes) (s : List UInt8) :
    setName name (s.take DIRSIZ) = setName name s := by
  funext i
  unfold setName
  by_cases hs : DIRSIZ ≤ s.length
  · simp only [List.length_take, hs, min_eq_left, le_refl, if_true]
    by_cases hi : i < DIRSIZ
    · simp [hi, List.getD_eq_getElem?_getD]
    · simp [hi]
  · rw [List.take_of_length_le (Nat.le_of_lt (Nat.not_le.mp hs))]

/-- What is left of a path has elements exactly if it has characters. -/
theorem elements_eq_nil_iff : elements (path.dropWhile (· = 47)) = [] ↔
    path.dropWhile (· = 47) = [] := by
  constructor
  · intro h
    cases hpath : path.dropWhile (· = 47) with
    | nil => rfl
    | cons b rest =>
      have hb : b ≠ 47 := by simpa using not_of_dropWhile_eq_cons hpath
      rw [hpath, elements_cons hb] at h
      exact absurd h (List.cons_ne_nil _ _)
  · intro h
    rw [h]
    rfl

theorem skipelem_nil (h : elements path = []) (name : Bytes) : skipelem path name = none := by
  rw [← elements_dropWhile_slash] at h
  rw [skipelem, if_pos (elements_eq_nil_iff.mp h)]

theorem skipelem_cons {e : List UInt8} {es : List (List UInt8)} (h : elements path = e :: es)
    (name : Bytes) : ∃ rest, skipelem path name = some (rest, setName name e) ∧
      elements rest = es ∧ (rest = [] ↔ es = []) ∧ rest.length < path.length := by
  have hle : (path.dropWhile (· = 47)).length ≤ path.length := List.length_dropWhile_le _ _
  rw [← elements_dropWhile_slash] at h
  cases hpath : path.dropWhile (· = 47) with
  | nil =>
    rw [hpath] at h
    exact absurd h (List.cons_ne_nil _ _).symm
  | cons b tail =>
    have hb : b ≠ 47 := by simpa using not_of_dropWhile_eq_cons hpath
    rw [hpath, elements_cons hb, List.cons.injEq] at h
    obtain ⟨rfl, rfl⟩ := h
    refine ⟨_, ?_, elements_dropWhile_slash _, ?_, ?_⟩
    · rw [skipelem, hpath, if_neg (List.cons_ne_nil _ _), setName_take]
    · rw [← elements_eq_nil_iff, elements_dropWhile_slash]
    · have htail : ((b :: tail).dropWhile (· ≠ 47)).length ≤ tail.length := by
        rw [List.dropWhile_cons_of_pos (by simpa using hb)]
        exact List.length_dropWhile_le _ _
      have hrest := List.length_dropWhile_le (· = 47) ((b :: tail).dropWhile (· ≠ 47))
      rw [hpath, List.length_cons] at hle
      omega

namespace Caller

variable {sb : Superblock}

/-- The loop of `namex` ends before its fuel does, and sees the elements only. -/
theorem walk_eq_follow (nameiparent : Bool) (fuel : ℕ) (c : Caller) (ip : ℕ)
    (path : List UInt8) (name : Bytes) (hfuel : path.length < fuel) :
    walk sb nameiparent fuel c ip path name = follow sb nameiparent c ip (elements path) name := by
  induction fuel generalizing c ip path name with
  | zero => exact absurd hfuel (Nat.not_lt_zero _)
  | succ fuel ih =>
    cases helems : elements path with
    | nil => rw [walk, skipelem_nil helems, follow]
    | cons e es =>
      obtain ⟨rest, hskip, hrest, hnil, hlen⟩ := skipelem_cons helems name
      rw [walk, hskip, follow]
      have hnext : ∀ c next, walk sb nameiparent fuel c next rest (setName name e) =
          follow sb nameiparent c next es (setName name e) := fun c next => by
        rw [ih c next rest _ (by omega), hrest]
      simp only [hnext, hnil]

/-- `namex` goes along the elements of a path and ends with the last one.  So it does the same
for any two spellings of a path: repeated and trailing slashes, and what an element has beyond
`DIRSIZ` bytes, make no difference to the result, to the file system it leaves or to the
locks. -/
theorem namex_congr {path path' : List UInt8} (c : Caller) (cwd : ℕ) (nameiparent : Bool)
    (name : Bytes) (hroot : path.head? = some 47 ↔ path'.head? = some 47)
    (helems : elements path = elements path') :
    c.namex sb cwd path nameiparent name = c.namex sb cwd path' nameiparent name ∧
    c.namex sb cwd path nameiparent name =
      if path.head? = some 47 then do
        let (ip, c) ← c.lift (c.fs.iget ROOTINO)
        follow sb nameiparent c ip (elements path) name
      else follow sb nameiparent (c.idup cwd) cwd (elements path) name := by
  unfold namex
  simp only [walk_eq_follow _ _ _ _ _ _ (Nat.lt_succ_self _), helems, hroot, and_self]

/-- Two spellings of one path. -/
theorem namex_congr_slashes :
    namex Fs.mkfsSuper ⟨Fs.formatted, fun _ => false⟩ 0 [47, 47, 97, 47, 98] true (fun _ => 0) =
      namex Fs.mkfsSuper ⟨Fs.formatted, fun _ => false⟩ 0 [47, 97, 47, 47, 98, 47] true
        fun _ => 0 :=
  (namex_congr _ 0 true _ (by decide) (by decide)).1

end Caller

end Xv6
