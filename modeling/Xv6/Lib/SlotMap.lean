import Mathlib

/-!
# Finite maps in slots

A table whose slots are free or hold a key and a value.  A new binding goes to
the first free slot, or to a new slot at the end; erasing frees a slot.  As long
as no key stands in two slots, the table is a finite map.
-/

namespace Xv6.Lib.SlotMap

variable {κ ν : Type*} {l : List (Option (κ × ν))} {a k : κ} {v w : ν} {i j : ℕ}

/-- Slot `i` binds `k` to `v`. -/
def Binds (l : List (Option (κ × ν))) (k : κ) (v : ν) (i : ℕ) : Prop := l[i]? = some (some (k, v))

def Distinct (l : List (Option (κ × ν))) : Prop :=
  ∀ k v w i j, Binds l k v i → Binds l k w j → i = j

def Bound (l : List (Option (κ × ν))) (k : κ) : Prop := ∃ v i, Binds l k v i

/-- The first free slot, or the one behind the last. -/
def place (l : List (Option (κ × ν))) : ℕ := l.findIdx Option.isNone

/-- Store `x` in slot `i`, which may be the one behind the last. -/
def put (l : List (Option (κ × ν))) (i : ℕ) (x : Option (κ × ν)) : List (Option (κ × ν)) :=
  if i < l.length then l.set i x else l ++ [x]

def insert (l : List (Option (κ × ν))) (k : κ) (v : ν) : List (Option (κ × ν)) :=
  put l (place l) (some (k, v))

theorem Binds.lt (h : Binds l k v i) : i < l.length := by
  rw [Binds, List.getElem?_eq_some_iff] at h
  exact h.1

theorem place_le (l : List (Option (κ × ν))) : place l ≤ l.length := List.findIdx_le_length

theorem not_binds_place (k : κ) (v : ν) : ¬ Binds l k v (place l) := by
  intro h
  obtain ⟨hlt, heq⟩ := List.getElem?_eq_some_iff.mp h
  have hnone : (l[place l]).isNone = true := List.findIdx_getElem
  rw [heq] at hnone
  exact Bool.noConfusion hnone

theorem getElem?_put {x : Option (κ × ν)} (hi : i ≤ l.length) (j : ℕ) :
    (put l i x)[j]? = if j = i then some x else l[j]? := by
  unfold put
  split_ifs with hlt hji hji
  · rw [hji, List.getElem?_set_self hlt]
  · rw [List.getElem?_set_ne (Ne.symm hji)]
  · rw [hji, List.getElem?_append_right (by omega), (by omega : i - l.length = 0)]
    rfl
  · rcases Nat.lt_or_ge j l.length with hj | hj
    · rw [List.getElem?_append_left hj]
    · rw [List.getElem?_eq_none (by simp; omega), List.getElem?_eq_none hj]

theorem binds_insert : Binds (insert l k v) a w i ↔ (a = k ∧ w = v ∧ i = place l) ∨
    Binds l a w i := by
  rw [Binds, insert, getElem?_put (place_le l)]
  by_cases hi : i = place l
  · subst hi
    rw [if_pos rfl]
    constructor
    · intro h
      simp only [Option.some_inj, Prod.mk.injEq] at h
      exact .inl ⟨h.1.symm, h.2.symm, rfl⟩
    · rintro (⟨rfl, rfl, -⟩ | h)
      · rfl
      · exact absurd h (not_binds_place a w)
  · rw [if_neg hi]
    constructor
    · exact .inr
    · rintro (⟨-, -, h⟩ | h)
      · exact absurd h hi
      · exact h

theorem Distinct.insert (h : Distinct l) (hk : ¬ Bound l k) : Distinct (insert l k v) := by
  intro a x y i j hi hj
  rw [binds_insert] at hi hj
  rcases hi with ⟨rfl, -, rfl⟩ | hi <;> rcases hj with ⟨hak, -, rfl⟩ | hj
  · rfl
  · exact absurd ⟨y, j, hj⟩ hk
  · exact absurd ⟨x, i, hak ▸ hi⟩ hk
  · exact h a x y i j hi hj

theorem binds_erase (hi : i < l.length) :
    Binds (put l i none) a w j ↔ j ≠ i ∧ Binds l a w j := by
  rw [Binds, getElem?_put hi.le]
  split_ifs with hji
  · simp [hji]
  · exact ⟨fun h => ⟨hji, h⟩, fun h => h.2⟩

theorem Distinct.erase (h : Distinct l) (hi : i < l.length) : Distinct (put l i none) := by
  intro a x y m n hm hn
  rw [binds_erase hi] at hm hn
  exact h a x y m n hm.2 hn.2

/-- The place of a new binding, found by a search from slot `n` on. -/
theorem place_eq (hj : j ≤ l.length) (hlive : ∀ i < j, ∃ x, l[i]? = some (some x))
    (hfree : l[j]? = some none ∨ j = l.length) : place l = j := by
  apply le_antisymm
  · rcases hfree with hfree | rfl
    · by_contra hlt
      have hlive := List.not_of_lt_findIdx (Nat.lt_of_not_le hlt)
      obtain ⟨_, heq⟩ := List.getElem?_eq_some_iff.mp hfree
      rw [heq] at hlive
      exact Bool.noConfusion hlive
    · exact place_le l
  · by_contra hlt
    obtain ⟨x, hx⟩ := hlive _ (Nat.lt_of_not_le hlt)
    have hbinds : Binds l x.1 x.2 (place l) := hx
    exact not_binds_place x.1 x.2 hbinds

/-! ### Looking up -/

section lookup

variable [DecidableEq κ]

end lookup

end Xv6.Lib.SlotMap
