import Mathlib

/-!
# Segments of linked lists, and the bytes that blocks cover

A segment is a list of nodes that lie one behind the other along a pointer
`next`.  A circular list is a segment that ends where it starts; it may be
read from any of its nodes on.  Blocks are intervals; how many of them cover a
place is additive, so that cutting and joining blocks keep it.
-/

namespace Xv6.Lib

section segment

variable {α : Type*} {next next' : α → α}

/-- From `x` along `next` come the nodes `l`, and then `z`. -/
def Segment (next : α → α) : α → List α → α → Prop
  | x, [], z => x = z
  | x, a :: l, z => x = a ∧ Segment next (next a) l z

namespace Segment

variable {x y z : α} {l u v : List α}

theorem append (h : Segment next x u y) (h' : Segment next y v z) : Segment next x (u ++ v) z := by
  induction u generalizing x with
  | nil =>
    obtain rfl : x = y := h
    exact h'
  | cons a u ih => exact ⟨h.1, ih h.2⟩

/-- A segment may be cut before each of its nodes. -/
theorem split (h : Segment next x (u ++ y :: v) z) :
    Segment next x u y ∧ Segment next y (y :: v) z := by
  induction u generalizing x with
  | nil =>
    obtain ⟨rfl, htail⟩ := h
    exact ⟨rfl, rfl, htail⟩
  | cons a u ih =>
    obtain ⟨hl, hr⟩ := ih h.2
    exact ⟨⟨h.1, hl⟩, hr⟩

theorem congr (h : Segment next x l z) (heq : ∀ a ∈ l, next' a = next a) :
    Segment next' x l z := by
  induction l generalizing x with
  | nil => exact h
  | cons a l ih =>
    obtain ⟨rfl, htail⟩ := h
    refine ⟨rfl, ?_⟩
    rw [heq x List.mem_cons_self]
    exact ih htail fun b hb => heq b (List.mem_cons_of_mem x hb)

/-- A circular list, read from one of its nodes on. -/
theorem rotate (h : Segment next x (u ++ y :: v) x) : Segment next y (y :: v ++ u) y := by
  obtain ⟨hl, hr⟩ := h.split
  exact hr.append hl

end Segment

/-- Follow `next` from a node until one satisfies `stop`. -/
def seek (next : α → α) (stop : α → Prop) [DecidablePred stop] : ℕ → α → Option α
  | 0, _ => none
  | n + 1, x => if stop x then some x else seek next stop n (next x)

theorem Segment.seek {stop : α → Prop} [DecidablePred stop] {x y z : α} {u v : List α} {n : ℕ}
    (h : Segment next x (u ++ y :: v) z) (hu : ∀ a ∈ u, ¬ stop a) (hy : stop y)
    (hn : u.length < n) : seek next stop n x = some y := by
  induction u generalizing x n with
  | nil =>
    obtain ⟨rfl, -⟩ := h
    cases n with
    | zero => exact absurd hn (Nat.not_lt_zero _)
    | succ n => exact if_pos hy
  | cons a u ih =>
    obtain ⟨rfl, htail⟩ := h
    cases n with
    | zero => exact absurd hn (Nat.not_lt_zero _)
    | succ n =>
      rw [Lib.seek, if_neg (hu x List.mem_cons_self)]
      exact ih htail (fun b hb => hu b (List.mem_cons_of_mem x hb)) (Nat.lt_of_succ_lt_succ hn)

theorem exists_first {p : α → Prop} {l : List α} (h : ∃ a ∈ l, p a) :
    ∃ u y v, l = u ++ y :: v ∧ (∀ a ∈ u, ¬ p a) ∧ p y := by
  classical
  induction l with
  | nil =>
    obtain ⟨a, ha, -⟩ := h
    cases ha
  | cons b l ih =>
    by_cases hb : p b
    · exact ⟨[], b, l, rfl, by simp, hb⟩
    · have htail : ∃ a ∈ l, p a := by
        obtain ⟨a, ha, hpa⟩ := h
        rcases List.mem_cons.mp ha with rfl | ha
        · exact absurd hpa hb
        · exact ⟨a, ha, hpa⟩
      obtain ⟨u, y, v, rfl, hu, hy⟩ := ih htail
      refine ⟨b :: u, y, v, rfl, ?_, hy⟩
      intro a ha
      rcases List.mem_cons.mp ha with rfl | ha
      · exact hb
      · exact hu a ha

end segment

/-! ## Blocks -/

/-- The places from `lo` up to `hi`. -/
structure Span where
  lo : ℕ
  hi : ℕ

namespace Span

def Has (b : Span) (x : ℕ) : Prop := b.lo ≤ x ∧ x < b.hi

instance (b : Span) (x : ℕ) : Decidable (b.Has x) := inferInstanceAs (Decidable (_ ∧ _))

/-- How many of the blocks cover `x`. -/
def cover (bs : List Span) (x : ℕ) : ℕ := bs.countP fun b => b.Has x

@[simp] theorem cover_nil (x : ℕ) : cover [] x = 0 := rfl

theorem cover_cons (b : Span) (bs : List Span) (x : ℕ) :
    cover (b :: bs) x = cover bs x + if b.Has x then 1 else 0 := by
  simp [cover, List.countP_cons]

theorem cover_append (as bs : List Span) (x : ℕ) : cover (as ++ bs) x = cover as x + cover bs x :=
  List.countP_append

theorem cover_perm {as bs : List Span} (h : as.Perm bs) : cover as = cover bs :=
  funext fun _ => h.countP_eq _

theorem cover_join {a b c : ℕ} (hab : a ≤ b) (hbc : b ≤ c) (bs : List Span) :
    cover (⟨a, c⟩ :: bs) = cover (⟨a, b⟩ :: ⟨b, c⟩ :: bs) := by
  funext x
  rw [cover_cons, cover_cons, cover_cons]
  rcases lt_or_ge x b with hx | hx
  · have hno : ¬ Has ⟨b, c⟩ x := fun h => absurd h.1 (Nat.not_le.mpr hx)
    have hiff : Has ⟨a, c⟩ x ↔ Has ⟨a, b⟩ x :=
      ⟨fun h => ⟨h.1, hx⟩, fun h => ⟨h.1, hx.trans_le hbc⟩⟩
    rw [if_neg hno, Nat.add_zero]
    simp only [hiff]
  · have hno : ¬ Has ⟨a, b⟩ x := fun h => absurd h.2 (Nat.not_lt.mpr hx)
    have hiff : Has ⟨a, c⟩ x ↔ Has ⟨b, c⟩ x :=
      ⟨fun h => ⟨hx, h.2⟩, fun h => ⟨hab.trans h.1, h.2⟩⟩
    rw [if_neg hno, Nat.add_zero]
    simp only [hiff]

theorem cover_eq_zero {bs : List Span} {x : ℕ} : cover bs x = 0 ↔ ∀ b ∈ bs, ¬ b.Has x := by
  simp [cover, List.countP_eq_zero]

theorem pairwise_of_cover {bs : List Span} (h : ∀ x, cover bs x ≤ 1) :
    bs.Pairwise fun a b => ∀ x, a.Has x → ¬ b.Has x := by
  induction bs with
  | nil => exact .nil
  | cons a bs ih =>
    rw [List.pairwise_cons]
    constructor
    · intro b hb x hax hbx
      have hle := h x
      rw [cover_cons, if_pos hax] at hle
      have hzero : cover bs x = 0 := by omega
      exact cover_eq_zero.mp hzero b hb hbx
    · refine ih fun x => ?_
      have hle := h x
      rw [cover_cons] at hle
      omega

end Span

end Xv6.Lib
