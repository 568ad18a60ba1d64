import Mathlib

/-!
# Radix trees of nodes in a memory

A memory maps a node and an index to an entry, and some entries point to further
nodes.  A path of indices from a root leads to a node; the memory below a root is a
tree when different paths, up to a fixed depth, lead to different nodes.  A store
into a node at the lowest level moves no node, and a pointer to a blank node adds
that node and nothing else.
-/

namespace Xv6.Lib.Radix

variable {ν ι ε : Type*}

section node

variable (ptr : ε → Option ν)

/-- The node at the end of a path from `r`. -/
def node (get : ν → ι → ε) : ν → List ι → Option ν
  | r, [] => some r
  | r, i :: p => (ptr (get r i)).bind fun c => node get c p

/-- Different paths of length at most `d` lead to different nodes. -/
def Tree (get : ν → ι → ε) (r : ν) (d : ℕ) : Prop :=
  ∀ p q n, p.length ≤ d → q.length ≤ d →
    node ptr get r p = some n → node ptr get r q = some n → p = q

end node

variable {ptr : ε → Option ν} {get get' : ν → ι → ε} {r n c : ν} {i : ι} {e : ε} {d : ℕ}
  {p q : List ι}

@[simp] theorem node_nil : node ptr get r [] = some r := rfl

@[simp] theorem node_concat :
    node ptr get r (p ++ [i]) = (node ptr get r p).bind fun n => ptr (get n i) := by
  induction p generalizing r with
  | nil => simp [node]
  | cons j p ih => simp [node, ih, Option.bind_assoc]

theorem node_congr (h : ∀ q n, q.length < d → node ptr get r q = some n → get' n = get n)
    (hq : q.length ≤ d) : node ptr get' r q = node ptr get r q := by
  induction q using List.reverseRecOn with
  | nil => rfl
  | append_singleton q i ih =>
    have hlt : q.length < d := by simpa using hq
    rw [node_concat, node_concat, ih hlt.le]
    cases hn : node ptr get r q with
    | none => rfl
    | some n => rw [Option.bind_some, Option.bind_some, h q n hlt hn]

theorem Tree.congr (h : Tree ptr get r d)
    (hnode : ∀ q, q.length ≤ d → node ptr get' r q = node ptr get r q) : Tree ptr get' r d := by
  intro p q n hp hq hpn hqn
  rw [hnode p hp] at hpn
  rw [hnode q hq] at hqn
  exact h p q n hp hq hpn hqn

section update

variable [DecidableEq ν] [DecidableEq ι]

def set (get : ν → ι → ε) (n : ν) (i : ι) (e : ε) : ν → ι → ε :=
  Function.update get n (Function.update (get n) i e)

@[simp] theorem set_self : set get n i e n i = e := by simp [set]

theorem set_of_node_ne {m : ν} (h : m ≠ n) : set get n i e m = get m :=
  Function.update_of_ne h ..

theorem set_of_ne {m : ν} {j : ι} (h : m ≠ n ∨ j ≠ i) : set get n i e m j = get m j := by
  by_cases hm : m = n
  · subst hm
    simp [set, h.resolve_left (not_not.mpr rfl)]
  · rw [set_of_node_ne hm]

theorem Tree.node_set (h : Tree ptr get r d) (hp : p.length = d) (hn : node ptr get r p = some n)
    (hq : q.length ≤ d) : node ptr (set get n i e) r q = node ptr get r q := by
  refine node_congr (fun q m hlt hm => set_of_node_ne ?_) hq
  rintro rfl
  obtain rfl : p = q := h p q m hp.le hlt.le hn hm
  omega

/-- A pointer to a blank node that is not in the tree yet adds that node. -/
theorem Tree.node_graft {z : ε} (h : Tree ptr get r d) (hp : p.length < d)
    (hn : node ptr get r p = some n) (hempty : ptr (get n i) = none)
    (hc : ∀ q, q.length ≤ d → node ptr get r q ≠ some c) (hz : ptr z = none)
    (he : ptr e = some c) (hq : q.length ≤ d) :
    node ptr (set (Function.update get c fun _ => z) n i e) r q =
      if q = p ++ [i] then some c else node ptr get r q := by
  have hcn : n ≠ c := by
    rintro rfl
    exact hc p hp.le hn
  induction q using List.reverseRecOn with
  | nil => simp
  | append_singleton q j ih =>
    have hlt : q.length < d := by simpa using hq
    rw [node_concat, ih hlt.le, node_concat]
    by_cases hqp : q = p ++ [i]
    · -- below the new node there is nothing
      subst hqp
      have hne : p ++ [i] ++ [j] ≠ p ++ [i] := by simp
      rw [if_pos rfl, if_neg hne, node_concat, hn, Option.bind_some, Option.bind_some, hempty,
        set_of_node_ne hcn.symm, Function.update_self, hz]
      rfl
    · rw [if_neg hqp]
      cases hm : node ptr get r q with
      | none =>
        have hne : q ++ [j] ≠ p ++ [i] := by
          intro heq
          rw [(List.append_inj' heq rfl).1, hn] at hm
          cases hm
        rw [if_neg hne]
        rfl
      | some m =>
        rw [Option.bind_some, Option.bind_some]
        by_cases hmn : m = n
        · subst hmn
          obtain rfl := h p q m hp.le hlt.le hn hm
          by_cases hji : j = i
          · rw [hji, set_self, he, if_pos rfl]
          · rw [set_of_ne (.inr hji), Function.update_of_ne hcn, if_neg (by simpa using hji)]
        · have hmc : m ≠ c := by
            rintro rfl
            exact hc q hlt.le hm
          have hne : q ++ [j] ≠ p ++ [i] := by
            intro heq
            rw [(List.append_inj' heq rfl).1, hn] at hm
            exact hmn (Option.some.inj hm).symm
          rw [set_of_node_ne hmn, Function.update_of_ne hmc, if_neg hne]

theorem Tree.graft {z : ε} (h : Tree ptr get r d) (hp : p.length < d)
    (hn : node ptr get r p = some n) (hempty : ptr (get n i) = none)
    (hc : ∀ q, q.length ≤ d → node ptr get r q ≠ some c) (hz : ptr z = none)
    (he : ptr e = some c) :
    Tree ptr (set (Function.update get c fun _ => z) n i e) r d := by
  intro q q' m hq hq' hm hm'
  rw [h.node_graft hp hn hempty hc hz he hq] at hm
  rw [h.node_graft hp hn hempty hc hz he hq'] at hm'
  split_ifs at hm hm' with h1 h2 h2
  · rw [h1, h2]
  · exact absurd (hm'.trans hm.symm) (hc q' hq')
  · exact absurd (hm.trans hm'.symm) (hc q hq)
  · exact h q q' m hq hq' hm hm'

end update

end Xv6.Lib.Radix
