import Mathlib

/-!
# Write-back caches

What a cache of a slow store is for, whatever its replacement policy.  Every
key has at most one copy in the cache and a home in the store behind it.  A
read returns the copy, or makes one from the home; a write changes the copy
only; a flush brings the home up to date; and a copy that nobody uses may be
dropped at any time.
-/

namespace Xv6.Lib.WriteBack

variable {κ δ ν : Type*} [DecidableEq κ] [DecidableEq δ]

structure Store (κ δ ν : Type*) where
  copy : κ → Option ν
  home : δ → ν

/-- What one step of a user does to the cache. -/
inductive Act (κ ν : Type*)
  | read (k : κ) (v : ν)
  | write (k : κ) (v : ν)
  | flush (k : κ)
  | evict (k : κ)
  | skip

/-- What a read of `k` returns. -/
def Store.fetch (at_ : κ → δ) (S : Store κ δ ν) (k : κ) : ν := (S.copy k).getD (S.home (at_ k))

/-- The steps of a cache in which the keys that satisfy `busy` are in use. -/
inductive Step (at_ : κ → δ) (busy : κ → Prop) (S : Store κ δ ν) : Act κ ν → Store κ δ ν → Prop
  | read (k : κ) : Step at_ busy S (.read k (S.fetch at_ k))
      ⟨Function.update S.copy k (some (S.fetch at_ k)), S.home⟩
  | write (k : κ) (v : ν) (hk : S.copy k ≠ none) : Step at_ busy S (.write k v)
      ⟨Function.update S.copy k (some v), S.home⟩
  | flush (k : κ) (v : ν) (hk : S.copy k = some v) : Step at_ busy S (.flush k)
      ⟨S.copy, Function.update S.home (at_ k) v⟩
  | evict (k : κ) (hk : ¬ busy k) : Step at_ busy S (.evict k)
      ⟨Function.update S.copy k none, S.home⟩
  | skip : Step at_ busy S .skip S

/-- The value an action leaves in the copy of `k`, which held `v`. -/
def Act.left (k : κ) (v : ν) : Act κ ν → ν
  | .write k' v' => if k' = k then v' else v
  | _ => v

/-- The copy of a key in use is kept, with the last value written to it. -/
theorem Step.copy_of_busy {at_ : κ → δ} {busy : κ → Prop} {S T : Store κ δ ν} {a : Act κ ν} {k : κ}
    {v : ν} (h : Step at_ busy S a T) (hk : busy k) (hv : S.copy k = some v) :
    T.copy k = some (a.left k v) := by
  cases h with
  | read k' =>
    by_cases hkk : k = k'
    · subst hkk
      simp [Store.fetch, hv, Act.left]
    · simp [Function.update_of_ne hkk, hv, Act.left]
  | write k' v' =>
    by_cases hkk : k = k'
    · subst hkk
      simp [Act.left]
    · simp [Function.update_of_ne hkk, hv, Act.left, Ne.symm hkk]
  | flush k' v' => exact hv
  | evict k' hk' =>
    have hkk : k ≠ k' := fun heq => hk' (heq ▸ hk)
    simp [Function.update_of_ne hkk, hv, Act.left]
  | skip => exact hv

end Xv6.Lib.WriteBack
