import Mathlib

/-!
# Circular doubly linked lists

A circular list through a sentinel node, kept by two pointers in every node.
Nodes are `some x` for an entry `x` and `none` for the sentinel.  The pointers
stand for a list of entries; unlinking a node and linking it in behind the
sentinel are list operations, and following the pointers is a search.
-/

namespace Xv6.Lib

open Function (update update_self update_of_ne)

variable {α : Type*}

/-- The two pointers of every node. -/
structure Links (α : Type*) where
  next : Option α → Option α
  prev : Option α → Option α

namespace Links

def swap (L : Links α) : Links α := ⟨L.prev, L.next⟩

def Follows (L : Links α) (x y : Option α) : Prop := L.next x = y ∧ L.prev y = x

/-- The nodes behind the sentinel, and the sentinel again. -/
def tour (l : List α) : List (Option α) := l.map some ++ [none]

/-- The pointers form one circle, through the sentinel and the entries `l`. -/
structure IsRing (L : Links α) (l : List α) : Prop where
  chain : (none :: tour l).IsChain L.Follows
  nodup : l.Nodup

/-- Follow a pointer from a node until an entry satisfies `p`, or the sentinel
is reached. -/
def scan (step : Option α → Option α) (p : α → Bool) : ℕ → Option α → Option α
  | 0, _ => none
  | _ + 1, none => none
  | n + 1, some x => if p x then some x else scan step p n (step (some x))

variable {L L' : Links α} {l u v : List α} {b : α}

theorem isChain_of_agree {R S : Option α → Option α → Prop} {r : List (Option α)}
    (h : r.IsChain R) (hRS : ∀ x ∈ r.dropLast, ∀ y ∈ r.tail, R x y → S x y) : r.IsChain S := by
  induction r with
  | nil => exact .nil
  | cons x r ih =>
    cases r with
    | nil => exact .singleton x
    | cons y r =>
      rw [List.isChain_cons_cons] at h ⊢
      refine ⟨hRS x (by simp) y (by simp) h.1, ih h.2 fun x' hx' y' hy' => ?_⟩
      exact hRS x' (by simp_all) y' (List.mem_cons_of_mem _ hy')

theorem tour_cons (x : α) (l : List α) : tour (x :: l) = some x :: tour l := rfl

theorem mem_tour {x : Option α} : x ∈ tour l ↔ x = none ∨ ∃ y ∈ l, x = some y := by
  simp [tour, or_comm, eq_comm]

theorem nodup_tour (h : l.Nodup) : (tour l).Nodup := by
  rw [tour, List.nodup_append]
  refine ⟨h.map (Option.some_injective α), List.nodup_singleton _, ?_⟩
  simp

theorem tour_ne_nil : tour l ≠ [] := by simp [tour]

theorem dropLast_tour : (tour l).dropLast = l.map some := by simp [tour]

theorem tour_append : tour (u ++ v) = u.map some ++ tour v := by simp [tour]

theorem IsRing.next_head (h : IsRing L l) : (tour l).head? = some (L.next none) := by
  have hc := h.chain
  cases ht : tour l with
  | nil => exact absurd ht tour_ne_nil
  | cons y r =>
    rw [ht, List.isChain_cons_cons] at hc
    rw [List.head?_cons, hc.1.1]

theorem IsRing.swap (h : IsRing L l) : IsRing L.swap l.reverse := by
  refine ⟨?_, List.nodup_reverse.mpr h.nodup⟩
  have hrev : none :: tour l.reverse = (none :: tour l).reverse := by simp [tour]
  rw [hrev, List.isChain_reverse]
  exact h.chain.imp fun x y hxy => ⟨hxy.2, hxy.1⟩

theorem scan_of_isChain (p : α → Bool) {a : Option α} (h : (a :: tour l).IsChain L.Follows) :
    scan L.next p l.length (L.next a) = l.find? p := by
  induction l generalizing a with
  | nil => rfl
  | cons x l ih =>
    rw [tour_cons, List.isChain_cons_cons] at h
    rw [h.1.1, List.length_cons, scan, List.find?_cons, ih h.2]
    cases p x <;> rfl

theorem IsRing.scan_next (h : IsRing L l) (p : α → Bool) :
    scan L.next p l.length (L.next none) = l.find? p :=
  scan_of_isChain p h.chain

theorem IsRing.scan_prev (h : IsRing L l) (p : α → Bool) :
    scan L.prev p l.length (L.prev none) = l.reverse.find? p := by
  have hs := h.swap.scan_next p
  rwa [List.length_reverse] at hs

variable [DecidableEq α]

def unlink (L : Links α) (b : α) : Links α :=
  let L := { L with prev := update L.prev (L.next (some b)) (L.prev (some b)) }
  { L with next := update L.next (L.prev (some b)) (L.next (some b)) }

def insertFront (L : Links α) (b : α) : Links α :=
  let L := { L with next := update L.next (some b) (L.next none) }
  let L := { L with prev := update L.prev (some b) none }
  let L := { L with prev := update L.prev (L.next none) (some b) }
  { L with next := update L.next none (some b) }

theorem IsRing.insertFront (h : IsRing L l) (hb : b ∉ l) : IsRing (L.insertFront b) (b :: l) := by
  have hhead := h.next_head
  have hne : L.next none ≠ some b := by
    intro heq
    have hmem : L.next none ∈ tour l := List.mem_of_mem_head? hhead
    rw [heq, mem_tour] at hmem
    simp [hb] at hmem
  have hnext : (L.insertFront b).next =
      update (update L.next (some b) (L.next none)) none (some b) := rfl
  have hprev : (L.insertFront b).prev =
      update (update L.prev (some b) none) (L.next none) (some b) := by
    simp [Links.insertFront]
  have htail : (tour l).IsChain L.Follows := h.chain.tail
  obtain ⟨r, hr⟩ : ∃ r, tour l = L.next none :: r := by
    cases ht : tour l with
    | nil => exact absurd ht tour_ne_nil
    | cons y r =>
      rw [ht, List.head?_cons, Option.some_inj] at hhead
      exact ⟨r, by rw [hhead]⟩
  refine ⟨?_, List.nodup_cons.mpr ⟨hb, h.nodup⟩⟩
  rw [tour_cons, List.isChain_cons_cons, hr, List.isChain_cons_cons]
  refine ⟨⟨?_, ?_⟩, ⟨?_, ?_⟩, ?_⟩
  · rw [hnext, update_self]
  · rw [hprev, update_of_ne hne.symm, update_self]
  · rw [hnext, update_of_ne (by simp), update_self]
  · rw [hprev, update_self]
  · -- behind the first entry nothing has changed
    rw [← hr]
    refine isChain_of_agree htail fun x hx y hy hxy => ?_
    have hnd := nodup_tour h.nodup
    rw [dropLast_tour, List.mem_map] at hx
    obtain ⟨z, hz, rfl⟩ := hx
    rw [hr] at hnd hy
    have hyh : y ≠ L.next none := fun heq => (List.nodup_cons.mp hnd).1 (heq ▸ hy)
    have hyb : y ≠ some b := by
      rintro rfl
      have hmem : some b ∈ tour l := by
        rw [hr]
        exact List.mem_cons_of_mem _ hy
      simp [mem_tour, hb] at hmem
    have hzb : z ≠ b := fun heq => hb (heq ▸ hz)
    refine ⟨?_, ?_⟩
    · rw [hnext, update_of_ne (by simp), update_of_ne (by simpa using hzb)]
      exact hxy.1
    · rw [hprev, update_of_ne hyh, update_of_ne hyb]
      exact hxy.2

theorem IsRing.unlink (h : IsRing L (u ++ b :: v)) : IsRing (L.unlink b) (u ++ v) := by
  have hnd : (u ++ v).Nodup := h.nodup.sublist (by simp)
  have hbuv : b ∉ u ++ v := (List.nodup_middle.mp h.nodup).notMem
  have hdisj := List.disjoint_of_nodup_append h.nodup
  have hc := h.chain
  rw [tour_append, tour_cons, ← List.cons_append, List.isChain_append] at hc
  obtain ⟨hu, hbv, hmid⟩ := hc
  -- the neighbours of `b`
  obtain ⟨w, hw⟩ : ∃ w, none :: u.map some = w ++ [L.prev (some b)] := by
    have hne : none :: u.map some ≠ [] := by simp
    have hlast := hmid _ (List.getLast?_eq_some_getLast hne) (some b) (by simp)
    exact ⟨_, by rw [hlast.2, List.dropLast_append_getLast hne]⟩
  obtain ⟨r, hr⟩ : ∃ r, tour v = L.next (some b) :: r := by
    cases ht : tour v with
    | nil => exact absurd ht tour_ne_nil
    | cons y r =>
      rw [ht, List.isChain_cons_cons] at hbv
      exact ⟨r, by rw [hbv.1.1]⟩
  have hv : (tour v).IsChain L.Follows := hbv.tail
  have hpu : L.prev (some b) ∈ none :: u.map some := by simp [hw]
  have hnv : L.next (some b) ∈ tour v := by simp [hr]
  have hnpb : L.next (some b) ≠ some b := by
    intro heq
    rw [heq, mem_tour] at hnv
    simp only [List.mem_append, not_or] at hbuv
    simp [hbuv.2] at hnv
  have hppb : L.prev (some b) ≠ some b := by
    intro heq
    simp only [List.mem_append, not_or] at hbuv
    simp [heq, hbuv.1] at hpu
  have hprev : (L.unlink b).prev = update L.prev (L.next (some b)) (L.prev (some b)) := rfl
  have hnext : (L.unlink b).next = update L.next (L.prev (some b)) (L.next (some b)) := by
    simp [Links.unlink, update_of_ne hnpb.symm]
  refine ⟨?_, hnd⟩
  rw [tour_append, ← List.cons_append, List.isChain_append]
  refine ⟨?_, ?_, ?_⟩
  · refine isChain_of_agree hu fun x hx y hy hxy => ⟨?_, ?_⟩
    · have hndu : (none :: u.map some).Nodup := by
        refine List.nodup_cons.mpr ⟨by simp, ?_⟩
        exact (hnd.of_append_left).map (Option.some_injective α)
      rw [hw, List.dropLast_concat] at hx
      rw [hw, List.nodup_append] at hndu
      rw [hnext, update_of_ne (hndu.2.2 x hx _ (by simp))]
      exact hxy.1
    · rw [hprev, update_of_ne]
      · exact hxy.2
      · rintro rfl
        rw [List.tail_cons, List.mem_map] at hy
        obtain ⟨z, hz, hz'⟩ := hy
        rw [← hz', mem_tour] at hnv
        simp only [reduceCtorEq, Option.some_inj, exists_eq_right', false_or] at hnv
        exact hdisj hz (List.mem_cons_of_mem _ hnv)
  · refine isChain_of_agree hv fun x hx y hy hxy => ⟨?_, ?_⟩
    · rw [hnext, update_of_ne]
      · exact hxy.1
      · rintro rfl
        rw [dropLast_tour, List.mem_map] at hx
        obtain ⟨z, hz, hz'⟩ := hx
        rw [← hz'] at hpu
        simp only [List.mem_cons, reduceCtorEq, List.mem_map, Option.some_inj, exists_eq_right,
          false_or] at hpu
        exact hdisj hpu (List.mem_cons_of_mem _ hz)
    · have hndv := nodup_tour (hnd.of_append_right)
      rw [hr] at hndv hy
      have hyn : y ≠ L.next (some b) := fun heq => (List.nodup_cons.mp hndv).1 (heq ▸ hy)
      rw [hprev, update_of_ne hyn]
      exact hxy.2
  · intro x hx y hy
    rw [hw, List.getLast?_concat, Option.mem_some_iff] at hx
    rw [hr, List.head?_cons, Option.mem_some_iff] at hy
    subst hx hy
    refine ⟨?_, ?_⟩
    · rw [hnext, update_self]
    · rw [hprev, update_self]

/-- Unlinking an entry and linking it in behind the sentinel moves it to the
front of the list. -/
theorem IsRing.moveToFront (h : IsRing L (u ++ b :: v)) :
    IsRing ((L.unlink b).insertFront b) (b :: (u ++ v)) :=
  h.unlink.insertFront (List.nodup_middle.mp h.nodup).notMem

end Links

end Xv6.Lib
