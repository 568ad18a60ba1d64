import Mathlib

/-!
# Exclusive ownership of resources

Resources come from one pool.  Some of them are `fixed`; any other one is in
use exactly when a slot of a table refers to it, and no two slots refer to the
same one.  A slot that refers to nothing holds `none`.
-/

namespace Xv6.Lib

variable {ι β : Type*}

structure Owned (fixed used : Set β) (ref : ι → Option β) : Prop where
  inj : ∀ {i j b}, ref i = some b → ref j = some b → i = j
  not_fixed : ∀ {i b}, ref i = some b → b ∉ fixed
  used_iff : ∀ {b}, b ∈ used ↔ b ∈ fixed ∨ ∃ i, ref i = some b

namespace Owned

variable {fixed used : Set β} {ref : ι → Option β} {i : ι} {b : β}

theorem mem_used (h : Owned fixed used ref) (hi : ref i = some b) : b ∈ used :=
  h.used_iff.mpr (.inr ⟨i, hi⟩)

theorem ref_ne (h : Owned fixed used ref) (hb : b ∉ used) : ref i ≠ some b :=
  fun hi => hb (h.mem_used hi)

theorem not_mem_fixed (h : Owned fixed used ref) (hb : b ∉ used) : b ∉ fixed :=
  fun hfix => hb (h.used_iff.mpr (.inl hfix))

/-- Outside the fixed part, in use means referred to by exactly one slot. -/
theorem mem_used_iff_existsUnique (h : Owned fixed used ref) :
    b ∈ used ↔ b ∈ fixed ∨ ∃! i, ref i = some b := by
  rw [h.used_iff]
  refine or_congr Iff.rfl ⟨?_, ExistsUnique.exists⟩
  rintro ⟨i, hi⟩
  exact ⟨i, hi, fun j hj => h.inj hj hi⟩

theorem assign [DecidableEq ι] (h : Owned fixed used ref) (hi : ref i = none)
    (hb : b ∉ used) : Owned fixed (insert b used) (Function.update ref i (some b)) := by
  have hold : ∀ {j c}, Function.update ref i (some b) j = some c →
      (j = i ∧ c = b) ∨ ref j = some c := by
    intro j c hj
    by_cases hji : j = i
    · subst hji
      rw [Function.update_self] at hj
      exact .inl ⟨rfl, (Option.some.inj hj).symm⟩
    · rw [Function.update_of_ne hji] at hj
      exact .inr hj
  refine ⟨?_, ?_, ?_⟩
  · intro j k c hj hk
    rcases hold hj with ⟨hji, hcb⟩ | hj' <;> rcases hold hk with ⟨hki, hcb'⟩ | hk'
    · exact hji.trans hki.symm
    · exact absurd (hcb ▸ hk') (h.ref_ne hb)
    · exact absurd (hcb' ▸ hj') (h.ref_ne hb)
    · exact h.inj hj' hk'
  · intro j c hj
    rcases hold hj with ⟨rfl, rfl⟩ | hj
    · exact h.not_mem_fixed hb
    · exact h.not_fixed hj
  · intro c
    rw [Set.mem_insert_iff, h.used_iff]
    constructor
    · rintro (rfl | hfix | ⟨j, hj⟩)
      · exact .inr ⟨i, Function.update_self ..⟩
      · exact .inl hfix
      · have hji : j ≠ i := by
          rintro rfl
          simp [hi] at hj
        exact .inr ⟨j, by rwa [Function.update_of_ne hji]⟩
    · rintro (hfix | ⟨j, hj⟩)
      · exact .inr (.inl hfix)
      · rcases hold hj with ⟨-, rfl⟩ | hj
        · exact .inl rfl
        · exact .inr (.inr ⟨j, hj⟩)

/-- The slots outside `keep` are emptied and what they referred to is given back. -/
theorem restrict (h : Owned fixed used ref) (keep : ι → Prop) [DecidablePred keep] :
    Owned fixed (used \ {b | ∃ i, ¬ keep i ∧ ref i = some b})
      (fun i => if keep i then ref i else none) := by
  have hold : ∀ {j c}, (if keep j then ref j else none) = some c → keep j ∧ ref j = some c := by
    intro j c hj
    split_ifs at hj with hk
    exact ⟨hk, hj⟩
  refine ⟨fun hi hj => h.inj (hold hi).2 (hold hj).2, fun hi => h.not_fixed (hold hi).2, ?_⟩
  intro b
  rw [Set.mem_sdiff, h.used_iff, Set.mem_ofPred_eq]
  constructor
  · rintro ⟨hfix | ⟨i, hi⟩, hlost⟩
    · exact .inl hfix
    · have hk : keep i := by
        by_contra hk
        exact hlost ⟨i, hk, hi⟩
      exact .inr ⟨i, by rw [if_pos hk, hi]⟩
  · rintro (hfix | ⟨i, hi⟩)
    · exact ⟨.inl hfix, fun ⟨i, _, hi⟩ => h.not_fixed hi hfix⟩
    · obtain ⟨hk, hi⟩ := hold hi
      refine ⟨.inr ⟨i, hi⟩, ?_⟩
      rintro ⟨j, hj, hjb⟩
      obtain rfl := h.inj hi hjb
      exact hj hk

end Owned

end Xv6.Lib
