import Xv6.Bio.Basic

/-!
# The invariant of the buffer cache

The list order is the heart of it: of two unreferenced buffers the one nearer
the head was released later, and a buffer that `bget` has never returned is
never in front of one that holds block 0 of device 0, which is what an
untouched buffer claims to hold.
-/

namespace Xv6.Bio

open Lib
open Function (update update_self update_apply update_of_ne update_eq_self)

def Buf.held (b : Buf) : ℕ := if b.lock = none then 0 else 1

namespace State

/-- References of processes that wait for a buffer or are about to drop it. -/
def waiters (s : State) (i : Fin NBUF) : ℕ := ∑ p, (s.pc p).refs i

/-- What the list order says of a buffer `a` in front of a buffer `b`. -/
structure Ahead (s : State) (a b : Fin NBUF) : Prop where
  later : (s.buf a).refcnt = 0 → (s.buf b).refcnt = 0 → s.freed b ≤ s.freed a
  zero : s.used b = true → (s.buf b).key = 0 → s.used a = true

end State

/-- The links are one ring through all buffers, in the order `l`. -/
structure Lru (s : State) (l : List (Fin NBUF)) : Prop where
  ring : s.links.IsRing l
  all : ∀ i, i ∈ l
  sorted : l.Pairwise s.Ahead

/-- What a process inside `bread` relies on. -/
structure Bound (s : State) (p : Fin NPROC) : Prop where
  waiting : ∀ i k, s.pc p = .waiting i k → (s.buf i).key = k
  reading : ∀ i k, s.pc p = .reading i k → (s.buf i).key = k ∧ (s.buf i).lock = some p

/-- A buffer that `bget` has never returned is as it was at boot. -/
structure Fresh (s : State) (i : Fin NBUF) : Prop where
  refcnt : (s.buf i).refcnt = 0
  key : (s.buf i).key = 0
  valid : (s.buf i).valid = false
  freed : s.freed i = 0

/-- The record of when buffers were released. -/
structure Aged (s : State) : Prop where
  fresh : ∀ i, s.used i = false → Fresh s i
  stamped : ∀ i, s.used i = true → (s.buf i).refcnt = 0 → 0 < s.freed i
  past : ∀ i, s.freed i ≤ s.clock

/-- No two buffers that have been handed out are assigned to the same block. -/
def Distinct (s : State) : Prop :=
  ∀ i j, s.used i = true → s.used j = true → (s.buf i).key = (s.buf j).key → i = j

structure Inv (s : State) : Prop where
  lru : ∃ l, Lru s l
  refcnt : ∀ i, (s.buf i).refcnt = s.waiters i + (s.buf i).held + s.pins i
  bound : ∀ p, Bound s p
  aged : Aged s
  distinct : Distinct s

variable {s t : State} {l : List (Fin NBUF)} {i j : Fin NBUF} {k : Key} {p : Fin NPROC}

/-! ### What the scans find -/

theorem Lru.length (h : Lru s l) : l.length = NBUF := by
  have hperm : l.Perm (List.finRange NBUF) :=
    (List.perm_ext_iff_of_nodup h.ring.nodup (List.nodup_finRange NBUF)).mpr fun i =>
      ⟨fun _ => List.mem_finRange i, fun _ => h.all i⟩
  rw [hperm.length_eq, List.length_finRange]

theorem Lru.lookup (h : Lru s l) (k : Key) :
    s.lookup k = l.find? fun i => (s.buf i).dev = k.1 ∧ (s.buf i).blockno = k.2 := by
  have hscan := h.ring.scan_next fun i => (s.buf i).dev = k.1 ∧ (s.buf i).blockno = k.2
  rwa [h.length] at hscan

theorem Lru.victim (h : Lru s l) : s.victim = l.reverse.find? fun i => (s.buf i).refcnt = 0 := by
  have hscan := h.ring.scan_prev fun i => (s.buf i).refcnt = 0
  rwa [h.length] at hscan

theorem key_eq_iff {b : Buf} : b.key = k ↔ b.dev = k.1 ∧ b.blockno = k.2 := by
  rw [Buf.key, Prod.ext_iff]

theorem Lru.lookup_eq_some (h : Lru s l) (hi : s.lookup k = some i) :
    (s.buf i).key = k ∧ ∃ u v, l = u ++ i :: v ∧ ∀ j ∈ u, (s.buf j).key ≠ k := by
  rw [h.lookup, List.find?_eq_some_iff_append] at hi
  obtain ⟨hik, u, v, hl, hu⟩ := hi
  refine ⟨key_eq_iff.mpr (by simpa using hik), u, v, hl, fun j hj => ?_⟩
  have hj' := hu j hj
  rw [Ne, key_eq_iff]
  simpa [← not_and_or] using hj'

theorem Lru.lookup_eq_none (h : Lru s l) (hk : s.lookup k = none) (i : Fin NBUF) :
    (s.buf i).key ≠ k := by
  rw [h.lookup, List.find?_eq_none] at hk
  rw [Ne, key_eq_iff]
  simpa using hk i (h.all i)

/-- The victim is unreferenced, and of all such buffers the one released first. -/
theorem Lru.victim_eq_some (h : Lru s l) (hi : s.victim = some i) :
    (s.buf i).refcnt = 0 ∧ ∀ j, (s.buf j).refcnt = 0 → s.freed i ≤ s.freed j := by
  rw [h.victim, List.find?_eq_some_iff_append] at hi
  obtain ⟨hi0, u, v, hl, hu⟩ := hi
  have hi0 : (s.buf i).refcnt = 0 := by simpa using hi0
  refine ⟨hi0, fun j hj => ?_⟩
  have hl' : l = v.reverse ++ i :: u.reverse := by
    rw [← List.reverse_reverse l, hl]
    simp
  have hjl := h.all j
  have hsorted := h.sorted
  rw [hl', List.pairwise_append] at hsorted
  rw [hl', List.mem_append, List.mem_cons, List.mem_reverse, List.mem_reverse] at hjl
  rcases hjl with hjv | rfl | hju
  · exact (hsorted.2.2 j (List.mem_reverse.mpr hjv) i List.mem_cons_self).later hj hi0
  · exact le_rfl
  · exact absurd hj (by simpa using hu j hju)

/-! ### The order of the list -/

theorem Lru.of_le (h : Lru s l) (hl : t.links = s.links) (hf : t.freed = s.freed)
    (hu : t.used = s.used) (hk : ∀ i, (t.buf i).key = (s.buf i).key)
    (hr : ∀ i, (t.buf i).refcnt = 0 → (s.buf i).refcnt = 0) : Lru t l := by
  refine ⟨hl ▸ h.ring, h.all, h.sorted.imp fun {a b} hab => ⟨fun ha hb => ?_, fun hb hkb => ?_⟩⟩
  · rw [hf]
    exact hab.later (hr a ha) (hr b hb)
  · rw [hu] at hb ⊢
    exact hab.zero hb (hk b ▸ hkb)

/-- A buffer that is handed out for the first time by a hit is untouched, and so
are the buffers behind it; those in front are all in use. -/
theorem Lru.hit (h : Lru s l) (hfresh : ∀ i, s.used i = false → Fresh s i)
    (hi : s.lookup k = some i) (hl : t.links = s.links) (hf : t.freed = s.freed)
    (hu : t.used = update s.used i true) (hk : ∀ i, (t.buf i).key = (s.buf i).key)
    (hr : ∀ i, (t.buf i).refcnt = 0 → (s.buf i).refcnt = 0) : Lru t l := by
  obtain ⟨hik, u, v, huv, hfront⟩ := h.lookup_eq_some hi
  have hnd := h.ring.nodup
  have hused : ∀ j, s.used j = true → t.used j = true := by
    intro j hj
    rw [hu, update_apply]
    split_ifs <;> simp [hj]
  have hother : ∀ a b, b ≠ i → s.Ahead a b → t.Ahead a b := by
    intro a b hb hab
    refine ⟨fun ha0 hb0 => ?_, fun htb hkb => hused a (hab.zero ?_ (hk b ▸ hkb))⟩
    · rw [hf]
      exact hab.later (hr a ha0) (hr b hb0)
    · rwa [hu, update_of_ne hb] at htb
  have hlast : ∀ a ∈ u, s.Ahead a i → t.Ahead a i := by
    intro a ha hai
    refine ⟨fun ha0 hi0 => ?_, fun _ hki => hused a ?_⟩
    · rw [hf]
      exact hai.later (hr a ha0) (hr i hi0)
    · by_contra hn
      rw [hk i, hik] at hki
      exact hfront a ha (hki ▸ (hfresh a (by simpa using hn)).key)
  refine ⟨hl ▸ h.ring, h.all, ?_⟩
  have hsorted := h.sorted
  rw [huv] at hnd hsorted ⊢
  rw [List.nodup_append, List.nodup_cons] at hnd
  rw [List.pairwise_append, List.pairwise_cons] at hsorted ⊢
  obtain ⟨hpu, ⟨hpi, hpv⟩, hpuv⟩ := hsorted
  refine ⟨?_, ⟨?_, ?_⟩, ?_⟩
  · refine hpu.imp_of_mem fun {a b} _ hb hab => hother a b ?_ hab
    exact hnd.2.2 b hb i List.mem_cons_self
  · intro b hb
    exact hother i b (fun heq => hnd.2.1.1 (heq ▸ hb)) (hpi b hb)
  · refine hpv.imp_of_mem fun {a b} _ hb hab => hother a b ?_ hab
    exact fun heq => hnd.2.1.1 (heq ▸ hb)
  · intro a ha b hb
    by_cases hbi : b = i
    · subst hbi
      exact hlast a ha (hpuv a ha b List.mem_cons_self)
    · exact hother a b hbi (hpuv a ha b hb)

theorem Lru.recycle (h : Lru s l) (hfresh : ∀ i, s.used i = false → Fresh s i)
    (hmiss : s.lookup k = none) (hl : t.links = s.links) (hf : t.freed = s.freed)
    (hu : t.used = update s.used i true) (hik : (t.buf i).key = k)
    (hk : ∀ j ≠ i, (t.buf j).key = (s.buf j).key)
    (hr : ∀ i, (t.buf i).refcnt = 0 → (s.buf i).refcnt = 0) : Lru t l := by
  refine ⟨hl ▸ h.ring, h.all, h.sorted.imp fun {a b} hab => ⟨fun ha hb => ?_, fun hb hkb => ?_⟩⟩
  · rw [hf]
    exact hab.later (hr a ha) (hr b hb)
  · have hused : s.used a = true → t.used a = true := by
      intro ha
      rw [hu, update_apply]
      split_ifs <;> simp [ha]
    apply hused
    by_cases hbi : b = i
    · -- the block is block 0 of device 0, so no untouched buffer is left
      subst hbi
      rw [hik] at hkb
      by_contra hn
      exact h.lookup_eq_none hmiss a (hkb ▸ (hfresh a (by simpa using hn)).key)
    · rw [hu, update_of_ne hbi] at hb
      exact hab.zero hb (hk b hbi ▸ hkb)

theorem Lru.toFront (h : Lru s l) (hi : s.used i = true) (hpast : ∀ j, s.freed j ≤ s.clock)
    (hl : t.links = (s.links.unlink i).insertFront i)
    (hf : t.freed = update s.freed i (s.clock + 1)) (hu : t.used = s.used)
    (hb : ∀ j ≠ i, t.buf j = s.buf j) : ∃ l', Lru t l' := by
  obtain ⟨u, v, rfl⟩ := List.append_of_mem (h.all i)
  have hnot := (List.nodup_middle.mp h.ring.nodup).notMem
  have hne : ∀ j ∈ u ++ v, j ≠ i := fun j hj heq => hnot (heq ▸ hj)
  have hfreed : ∀ j ∈ u ++ v, t.freed j = s.freed j := by
    intro j hj
    rw [hf, update_of_ne (hne j hj)]
  refine ⟨i :: (u ++ v), hl ▸ h.ring.moveToFront, fun j => ?_, ?_⟩
  · have hj := h.all j
    simp only [List.mem_append, List.mem_cons] at hj ⊢
    tauto
  · rw [List.pairwise_cons]
    refine ⟨fun b hb => ⟨fun _ _ => ?_, fun _ _ => hu ▸ hi⟩, ?_⟩
    · rw [hfreed b hb, hf, update_self]
      exact (hpast b).trans (Nat.le_succ _)
    · have hrest : (u ++ v).Pairwise s.Ahead :=
        h.sorted.sublist (List.Sublist.append_left (List.sublist_cons_self i v) u)
      refine hrest.imp_of_mem fun {a b} ha hb' hab => ⟨fun ha0 hb0 => ?_, fun htb hkb => ?_⟩
      · rw [hb a (hne a ha)] at ha0
        rw [hb b (hne b hb')] at hb0
        rw [hfreed a ha, hfreed b hb']
        exact hab.later ha0 hb0
      · rw [hb b (hne b hb')] at hkb
        rw [hu] at htb ⊢
        exact hab.zero htb hkb

/-! ### Counting references -/

theorem waiters_update (s : State) (p : Fin NPROC) (c : Pc) (j : Fin NBUF) :
    (∑ q, (update s.pc p c q).refs j) + (s.pc p).refs j = s.waiters j + c.refs j :=
  sum_update (Pc.refs j) s.pc p c

/-- A step that changes one buffer, one process and the pins of the buffer keeps
the count if the changes of the buffer's references add up. -/
theorem refcnt_update (h : ∀ i, (s.buf i).refcnt = s.waiters i + (s.buf i).held + s.pins i)
    (i : Fin NBUF) (b : Buf) (p : Fin NPROC) (c : Pc) (n : ℕ)
    (hb : t.buf = update s.buf i b) (hp : t.pc = update s.pc p c)
    (hn : t.pins = update s.pins i n)
    (hi : b.refcnt + ((s.pc p).refs i + (s.buf i).held + s.pins i) =
      (s.buf i).refcnt + (c.refs i + b.held + n))
    (hj : ∀ j ≠ i, c.refs j = (s.pc p).refs j) (j : Fin NBUF) :
    (t.buf j).refcnt = t.waiters j + (t.buf j).held + t.pins j := by
  have hold := h j
  have hsum := waiters_update s p c j
  rw [State.waiters, hp, hb, hn]
  by_cases hji : j = i
  · subst hji
    simp only [update_self]
    omega
  · have hrefs := hj j hji
    simp only [update_of_ne hji]
    omega

namespace Inv

variable (h : Inv s)

include h

theorem refs_le (p : Fin NPROC) (i : Fin NBUF) :
    (s.pc p).refs i + (s.buf i).held + s.pins i ≤ (s.buf i).refcnt := by
  have hle := le_sum (Pc.refs i) s.pc p
  have hcount := h.refcnt i
  rw [State.waiters] at hcount
  omega

theorem pos_of_waiting (hp : s.pc p = .waiting i k) : 0 < (s.buf i).refcnt := by
  have hle := h.refs_le p i
  rw [hp, Pc.refs, if_pos rfl] at hle
  omega

theorem pos_of_releasing (hp : s.pc p = .releasing i) : 0 < (s.buf i).refcnt := by
  have hle := h.refs_le p i
  rw [hp, Pc.refs, if_pos rfl] at hle
  omega

theorem pos_of_lock (hl : (s.buf i).lock ≠ none) : s.pins i < (s.buf i).refcnt := by
  have hcount := h.refcnt i
  rw [Buf.held, if_neg hl] at hcount
  omega

theorem used_of_pos (hi : 0 < (s.buf i).refcnt) : s.used i = true := by
  by_contra hn
  have hz := (h.aged.fresh i (by simpa using hn)).refcnt
  omega

/-- A process inside `bread` keeps the buffer it asked for from being recycled. -/
theorem pos_of_asked (hp : s.pc p = .waiting i k ∨ s.pc p = .reading i k) :
    0 < (s.buf i).refcnt := by
  rcases hp with hp | hp
  · exact h.pos_of_waiting hp
  · have hlock := ((h.bound p).reading i k hp).2
    have hpos := h.pos_of_lock (i := i) (by simp [hlock])
    omega

theorem bound_update {b : Buf} {c : Pc} (hb : t.buf = update s.buf i b)
    (hp : t.pc = update s.pc p c)
    (hkey : b.key = (s.buf i).key ∨ (s.buf i).refcnt = 0)
    (hlock : ∀ q ≠ p, (s.buf i).lock = some q → b.lock = some q) (hc : Bound t p)
    (q : Fin NPROC) : Bound t q := by
  by_cases hqp : q = p
  · exact hqp ▸ hc
  · have hpc : t.pc q = s.pc q := by rw [hp, update_of_ne hqp]
    have hkeep : ∀ j k, s.pc q = .waiting j k ∨ s.pc q = .reading j k →
        (t.buf j).key = (s.buf j).key := by
      intro j k hq
      rw [hb, update_apply]
      split_ifs with hji
      · subst hji
        exact hkey.resolve_right (h.pos_of_asked hq).ne'
      · rfl
    refine ⟨fun j k hq => ?_, fun j k hq => ?_⟩
    · rw [hpc] at hq
      rw [hkeep j k (.inl hq)]
      exact (h.bound q).waiting j k hq
    · rw [hpc] at hq
      obtain ⟨hk, hl⟩ := (h.bound q).reading j k hq
      refine ⟨(hkeep j k (.inr hq)).trans hk, ?_⟩
      rw [hb, update_apply]
      split_ifs with hji
      · exact hlock q hqp (hji ▸ hl)
      · exact hl

end Inv

/-! ### One step -/

theorem Aged.update {b : Buf} (h : Aged s) (hb : t.buf = update s.buf i b)
    (hi : b.refcnt ≠ 0) (hu : t.used = update s.used i true) (hf : t.freed = s.freed)
    (hc : t.clock = s.clock) : Aged t := by
  refine ⟨fun j hj => ?_, fun j hj hj0 => ?_, fun j => ?_⟩
  · rw [hu, update_apply] at hj
    split_ifs at hj with hji
    have hold := h.fresh j hj
    have hbj : t.buf j = s.buf j := by rw [hb, update_of_ne hji]
    exact ⟨hbj ▸ hold.refcnt, hbj ▸ hold.key, hbj ▸ hold.valid, hf ▸ hold.freed⟩
  · have hji : j ≠ i := by
      rintro rfl
      rw [hb, update_self] at hj0
      exact hi hj0
    rw [hu, update_of_ne hji] at hj
    rw [hb, update_of_ne hji] at hj0
    exact hf ▸ h.stamped j hj hj0
  · rw [hf, hc]
    exact h.past j

theorem Distinct.of_eq (h : Distinct s) (hu : t.used = s.used)
    (hk : ∀ i, (t.buf i).key = (s.buf i).key) : Distinct t := by
  intro i j hi hj hij
  rw [hu] at hi hj
  rw [hk, hk] at hij
  exact h i j hi hj hij

/-- A hit returns the buffer in use for the block, if there is one. -/
theorem Lru.eq_of_lookup (h : Lru s l) (hi : s.lookup k = some i)
    (hfresh : ∀ i, s.used i = false → Fresh s i) (hd : Distinct s) (hj : s.used j = true)
    (hjk : (s.buf j).key = k) : i = j := by
  obtain ⟨hik, u, v, huv, hfront⟩ := h.lookup_eq_some hi
  by_cases hused : s.used i = true
  · exact hd i j hused hj (hik.trans hjk.symm)
  · -- an untouched buffer stands behind every buffer that holds its block
    exfalso
    have hz := (hfresh i (by simpa using hused)).key
    have hjl := h.all j
    have hsorted := h.sorted
    rw [huv, List.pairwise_append, List.pairwise_cons] at hsorted
    rw [huv, List.mem_append, List.mem_cons] at hjl
    rcases hjl with hju | rfl | hjv
    · exact hfront j hju hjk
    · exact hused hj
    · exact hused ((hsorted.2.1.1 j hjv).zero hj (hjk.trans (hik.symm.trans hz)))

theorem Distinct.use (h : Distinct s) (hu : t.used = update s.used i true)
    (hk : ∀ j ≠ i, (t.buf j).key = (s.buf j).key)
    (hi : ∀ j ≠ i, s.used j = true → (s.buf j).key ≠ (t.buf i).key) : Distinct t := by
  intro a b ha hb hab
  rw [hu] at ha hb
  by_cases hai : a = i <;> by_cases hbi : b = i
  · exact hai.trans hbi.symm
  · subst hai
    rw [update_of_ne hbi] at hb
    rw [hk b hbi] at hab
    exact absurd hab.symm (hi b hbi hb)
  · subst hbi
    rw [update_of_ne hai] at ha
    rw [hk a hai] at hab
    exact absurd hab (hi a hai ha)
  · rw [update_of_ne hai] at ha
    rw [update_of_ne hbi] at hb
    rw [hk a hai, hk b hbi] at hab
    exact h a b ha hb hab

theorem key_update {b : Buf} (hb : t.buf = update s.buf i b)
    (hk : b.key = (s.buf i).key) (j : Fin NBUF) : (t.buf j).key = (s.buf j).key := by
  rw [hb, update_apply]
  split_ifs with hji
  · rw [hk, hji]
  · rfl

theorem refcnt_zero_update {b : Buf} (hb : t.buf = update s.buf i b)
    (hr : b.refcnt = 0 → (s.buf i).refcnt = 0) (j : Fin NBUF) (hj : (t.buf j).refcnt = 0) :
    (s.buf j).refcnt = 0 := by
  rw [hb, update_apply] at hj
  split_ifs at hj with hji
  · exact hji ▸ hr hj
  · exact hj

theorem Inv.touch {b : Buf} {c : Pc} {n : ℕ} (h : Inv s) (i : Fin NBUF) (p : Fin NPROC)
    (hb : t.buf = update s.buf i b) (hp : t.pc = update s.pc p c)
    (hn : t.pins = update s.pins i n)
    (hrest : t.links = s.links ∧ t.used = s.used ∧ t.freed = s.freed ∧ t.clock = s.clock)
    (hi : s.used i = true) (hk : b.key = (s.buf i).key) (hr : b.refcnt ≠ 0)
    (hcount : b.refcnt + ((s.pc p).refs i + (s.buf i).held + s.pins i) =
      (s.buf i).refcnt + (c.refs i + b.held + n))
    (hj : ∀ j ≠ i, c.refs j = (s.pc p).refs j)
    (hlock : ∀ q ≠ p, (s.buf i).lock = some q → b.lock = some q) (hc : Bound t p) : Inv t := by
  obtain ⟨hlinks, hused, hfreed, hclock⟩ := hrest
  obtain ⟨l, hl⟩ := h.lru
  have hkey := key_update hb hk
  refine ⟨⟨l, ?_⟩, ?_, ?_, ?_, ?_⟩
  · exact hl.of_le hlinks hfreed hused hkey (refcnt_zero_update hb fun hz => absurd hz hr)
  · exact refcnt_update h.refcnt i b p c n hb hp hn hcount hj
  · exact h.bound_update hb hp (.inl hk) hlock hc
  · refine h.aged.update hb hr ?_ hfreed hclock
    rw [hused, ← hi, update_eq_self]
  · exact h.distinct.of_eq hused hkey

theorem Inv.hit (h : Inv s) (hp : s.pc p = .idle) (hi : s.lookup k = some i) :
    Inv ({ s.setBuf i { s.buf i with refcnt := (s.buf i).refcnt + 1 } with
      used := update s.used i true }.setPc p (.waiting i k)) := by
  set b : Buf := { s.buf i with refcnt := (s.buf i).refcnt + 1 }
  set t := { s.setBuf i b with used := update s.used i true }.setPc p (.waiting i k)
  obtain ⟨l, hl⟩ := h.lru
  have hik : (s.buf i).key = k := (hl.lookup_eq_some hi).1
  have hb : t.buf = update s.buf i b := rfl
  have hpc : t.pc = update s.pc p (.waiting i k) := rfl
  have hkey := key_update hb (rfl : b.key = (s.buf i).key)
  refine ⟨⟨l, ?_⟩, ?_, ?_, ?_, ?_⟩
  · refine hl.hit h.aged.fresh hi rfl rfl rfl hkey (refcnt_zero_update hb fun hz => ?_)
    exact absurd hz (Nat.succ_ne_zero _)
  · refine refcnt_update h.refcnt i b p _ (s.pins i) hb hpc (update_eq_self _ _).symm ?_ ?_
    · simp only [b, Buf.held, hp, Pc.refs, if_pos]
      omega
    · intro j hj
      simp [hp, Pc.refs, hj.symm]
  · refine h.bound_update hb hpc (.inl rfl) (fun q _ hq => hq)
      ⟨fun j k' hj => ?_, fun j k' hj => ?_⟩
    · rw [hpc, update_self, Pc.waiting.injEq] at hj
      rw [hkey, ← hj.1, ← hj.2, hik]
    · simp [hpc] at hj
  · exact h.aged.update hb (Nat.succ_ne_zero _) rfl rfl rfl
  · refine h.distinct.use rfl (fun j _ => hkey j) fun j hji hj hjk => hji ?_
    rw [hkey, hik] at hjk
    exact (hl.eq_of_lookup hi h.aged.fresh h.distinct hj hjk).symm

theorem Inv.miss (h : Inv s) (hp : s.pc p = .idle) (hk : s.lookup k = none)
    (hi : s.victim = some i) :
    Inv ({ s.setBuf i { s.buf i with dev := k.1, blockno := k.2, valid := false, refcnt := 1 } with
      used := update s.used i true }.setPc p (.waiting i k)) := by
  set b : Buf := { s.buf i with dev := k.1, blockno := k.2, valid := false, refcnt := 1 }
  set t := { s.setBuf i b with used := update s.used i true }.setPc p (.waiting i k)
  obtain ⟨l, hl⟩ := h.lru
  have hi0 : (s.buf i).refcnt = 0 := (hl.victim_eq_some hi).1
  have hb : t.buf = update s.buf i b := rfl
  have hpc : t.pc = update s.pc p (.waiting i k) := rfl
  have hik : (t.buf i).key = k := by rw [hb, update_self]; rfl
  have hkey : ∀ j ≠ i, (t.buf j).key = (s.buf j).key := by
    intro j hj
    rw [hb, update_of_ne hj]
  refine ⟨⟨l, ?_⟩, ?_, ?_, ?_, ?_⟩
  · exact hl.recycle h.aged.fresh hk rfl rfl rfl hik hkey (refcnt_zero_update hb fun _ => hi0)
  · refine refcnt_update h.refcnt i b p _ (s.pins i) hb hpc (update_eq_self _ _).symm ?_ ?_
    · simp only [b, Buf.held, hp, Pc.refs, if_pos, hi0]
      omega
    · intro j hj
      simp [hp, Pc.refs, hj.symm]
  · refine h.bound_update hb hpc (.inr hi0) (fun q _ hq => hq)
      ⟨fun j k' hj => ?_, fun j k' hj => ?_⟩
    · rw [hpc, update_self, Pc.waiting.injEq] at hj
      rw [← hj.1, ← hj.2, hik]
    · simp [hpc] at hj
  · exact h.aged.update hb Nat.one_ne_zero rfl rfl rfl
  · refine h.distinct.use rfl hkey fun j _ _ hjk => ?_
    rw [hik] at hjk
    exact hl.lookup_eq_none hk j hjk

theorem Inv.last (h : Inv s) (hp : s.pc p = .releasing i) (hi : (s.buf i).refcnt - 1 = 0) :
    Inv (((s.unref i).toFront i).setPc p .idle) := by
  set b : Buf := { s.buf i with refcnt := (s.buf i).refcnt - 1 }
  set t := ((s.unref i).toFront i).setPc p .idle
  obtain ⟨l, hl⟩ := h.lru
  have hpos := h.pos_of_releasing hp
  have hused := h.used_of_pos hpos
  have hb : t.buf = update s.buf i b := rfl
  have hpc : t.pc = update s.pc p .idle := rfl
  have hf : t.freed = update s.freed i (s.clock + 1) := rfl
  refine ⟨?_, ?_, ?_, ⟨?_, ?_, ?_⟩, ?_⟩
  · refine hl.toFront hused h.aged.past rfl hf rfl fun j hj => ?_
    rw [hb, update_of_ne hj]
  · refine refcnt_update h.refcnt i b p _ (s.pins i) hb hpc (update_eq_self _ _).symm ?_ ?_
    · simp only [b, Buf.held, hp, Pc.refs, if_pos]
      omega
    · intro j hj
      simp [hp, Pc.refs, hj.symm]
  · refine h.bound_update hb hpc (.inl rfl) (fun q _ hq => hq)
      ⟨fun j k' hj => ?_, fun j k' hj => ?_⟩
    · simp [hpc] at hj
    · simp [hpc] at hj
  · intro j hj
    have hji : j ≠ i := by
      rintro rfl
      exact Bool.noConfusion (hj.symm.trans hused)
    have hold := h.aged.fresh j hj
    have hbj : t.buf j = s.buf j := by rw [hb, update_of_ne hji]
    refine ⟨hbj ▸ hold.refcnt, hbj ▸ hold.key, hbj ▸ hold.valid, ?_⟩
    rw [hf, update_of_ne hji]
    exact hold.freed
  · intro j hj hj0
    rw [hf, update_apply]
    split_ifs with hji
    · exact Nat.succ_pos _
    · rw [hb, update_of_ne hji] at hj0
      exact h.aged.stamped j hj hj0
  · intro j
    rw [hf, update_apply]
    split_ifs
    · exact le_rfl
    · exact (h.aged.past j).trans (Nat.le_succ _)
  · exact h.distinct.of_eq rfl (key_update hb rfl)

theorem Inv.effect {e : Event} (h : Inv s) (he : Effect s e t) : Inv t := by
  have hself {α β : Type} [DecidableEq α] (f : α → β) (a : α) : f = update f a (f a) :=
    (update_eq_self a f).symm
  cases he with
  | hit hp hi => exact h.hit hp hi
  | miss hp hk hi => exact h.miss hp hk hi
  | @acquiresleep p k i hp hi =>
    have hpos := h.pos_of_waiting hp
    refine h.touch i p rfl rfl (hself s.pins i) ⟨rfl, rfl, rfl, rfl⟩ (h.used_of_pos hpos) rfl
      hpos.ne' ?_ ?_ ?_ ⟨?_, ?_⟩
    · simp [hp, Pc.refs, Buf.held, hi]
    · intro j hj
      simp [hp, Pc.refs, hj.symm]
    · simp [hi]
    · simp [State.setPc]
    · intro j k' hj
      simp only [State.setPc, update_self, Pc.reading.injEq] at hj
      obtain ⟨rfl, rfl⟩ := hj
      simp only [State.setPc, State.setBuf, update_self]
      exact ⟨(h.bound p).waiting i k hp, trivial⟩
  | @cached p k i hp hi =>
    have hpos := h.pos_of_asked (.inr hp)
    refine h.touch i p (hself s.buf i) rfl (hself s.pins i) ⟨rfl, rfl, rfl, rfl⟩
      (h.used_of_pos hpos) rfl hpos.ne' ?_ ?_ (fun q _ hq => hq) ⟨?_, ?_⟩
    · simp [hp, Pc.refs]
    · simp [hp, Pc.refs]
    · simp [State.setPc]
    · simp [State.setPc]
  | @load p k i hp hi =>
    have hpos := h.pos_of_asked (.inr hp)
    refine h.touch i p rfl rfl (hself s.pins i) ⟨rfl, rfl, rfl, rfl⟩
      (h.used_of_pos hpos) rfl hpos.ne' ?_ ?_ (fun q _ hq => hq) ⟨?_, ?_⟩
    · simp [hp, Pc.refs, Buf.held]
    · simp [hp, Pc.refs]
    · simp [State.setPc]
    · simp [State.setPc]
  | @modify p i x hp hi =>
    have hpos := (Nat.zero_le _).trans_lt (h.pos_of_lock (i := i) (by simp [hi]))
    refine h.touch i p rfl (hself s.pc p) (hself s.pins i) ⟨rfl, rfl, rfl, rfl⟩
      (h.used_of_pos hpos) rfl hpos.ne' rfl (fun _ _ => rfl) (fun q _ hq => hq) ⟨?_, ?_⟩
    · simp [State.setBuf, hp]
    · simp [State.setBuf, hp]
  | bwrite hp hi =>
    obtain ⟨l, hl⟩ := h.lru
    refine ⟨⟨l, hl.of_le rfl rfl rfl (fun _ => rfl) fun _ hz => hz⟩, h.refcnt, fun q => ?_, ?_,
      h.distinct.of_eq rfl fun _ => rfl⟩
    · exact ⟨(h.bound q).waiting, (h.bound q).reading⟩
    · refine ⟨fun i hi => ?_, h.aged.stamped, h.aged.past⟩
      have hold := h.aged.fresh i hi
      exact ⟨hold.refcnt, hold.key, hold.valid, hold.freed⟩
  | @brelse p i hp hi =>
    have hpos := (Nat.zero_le _).trans_lt (h.pos_of_lock (i := i) (by simp [hi]))
    refine h.touch i p rfl rfl (hself s.pins i) ⟨rfl, rfl, rfl, rfl⟩
      (h.used_of_pos hpos) rfl hpos.ne' ?_ ?_ ?_ ⟨?_, ?_⟩
    · simp [hp, Pc.refs, Buf.held, hi]
    · intro j hj
      simp [hp, Pc.refs, hj.symm]
    · intro q hq hlock
      rw [hi, Option.some_inj] at hlock
      exact absurd hlock.symm hq
    · simp [State.setPc]
    · simp [State.setPc]
  | last hp hi => exact h.last hp hi
  | @drop p i hp hi =>
    have hpos := h.pos_of_releasing hp
    refine h.touch i p rfl rfl (hself s.pins i) ⟨rfl, rfl, rfl, rfl⟩
      (h.used_of_pos hpos) rfl hi ?_ ?_ (fun q _ hq => hq) ⟨?_, ?_⟩
    · simp only [hp, Pc.refs, Buf.held, if_pos]
      omega
    · intro j hj
      simp [hp, Pc.refs, hj.symm]
    · simp [State.setPc]
    · simp [State.setPc]
  | @bpin p i hp hi =>
    refine h.touch i p rfl (hself s.pc p) rfl ⟨rfl, rfl, rfl, rfl⟩ hi rfl (Nat.succ_ne_zero _)
      ?_ (fun _ _ => rfl) (fun q _ hq => hq) ⟨?_, ?_⟩
    · simp only [Buf.held]
      omega
    · simp [State.bpin, State.setBuf, hp]
    · simp [State.bpin, State.setBuf, hp]
  | @bunpin p i hp hn hi =>
    have hpos := h.pos_of_lock hi
    refine h.touch i p rfl (hself s.pc p) rfl ⟨rfl, rfl, rfl, rfl⟩ (h.used_of_pos (by omega)) rfl
      (by change (s.buf i).refcnt - 1 ≠ 0; omega) ?_ (fun _ _ => rfl) (fun q _ hq => hq) ⟨?_, ?_⟩
    · simp only [Buf.held]
      omega
    · simp [State.bunpin, State.unref, State.setBuf, hp]
    · simp [State.bunpin, State.unref, State.setBuf, hp]

/-! ### Every run -/

theorem isRing_foldl {L : Links (Fin NBUF)} {l m : List (Fin NBUF)} (h : L.IsRing l)
    (hm : m.Nodup) (hml : ∀ i ∈ m, i ∉ l) :
    (m.foldl Links.insertFront L).IsRing (m.reverse ++ l) := by
  induction m generalizing L l with
  | nil => exact h
  | cons i m ih =>
    rw [List.foldl_cons, List.reverse_cons, List.append_assoc]
    rw [List.nodup_cons] at hm
    refine ih (h.insertFront (hml i List.mem_cons_self)) hm.2 fun j hj => ?_
    rw [List.singleton_append, List.mem_cons, not_or]
    exact ⟨fun heq => hm.1 (heq ▸ hj), hml j (List.mem_cons_of_mem _ hj)⟩

theorem isRing_binit : binit.IsRing (List.finRange NBUF).reverse := by
  have hempty : (⟨fun _ => none, fun _ => none⟩ : Links (Fin NBUF)).IsRing [] := by
    refine ⟨?_, List.nodup_nil⟩
    exact List.isChain_cons_cons.mpr ⟨⟨rfl, rfl⟩, .singleton _⟩
  have hring := isRing_foldl hempty (List.nodup_finRange NBUF) fun _ _ => List.not_mem_nil
  rwa [List.append_nil] at hring

theorem inv_boot (disk : BitVec 32 → Block) : Inv (boot disk) := by
  refine ⟨⟨_, isRing_binit, ?_, ?_⟩, ?_, ?_, ⟨?_, ?_, ?_⟩, ?_⟩
  · exact fun i => List.mem_reverse.mpr (List.mem_finRange i)
  · exact List.pairwise_of_forall fun a b => ⟨fun _ _ => le_rfl, nofun⟩
  · intro i
    simp [boot, State.waiters, Pc.refs, Buf.held]
  · exact fun p => ⟨nofun, nofun⟩
  · exact fun i _ => ⟨rfl, rfl, rfl, rfl⟩
  · exact nofun
  · exact fun _ => le_rfl
  · exact nofun

theorem inv_of_run {disk : BitVec 32 → Block} {tr : List Event}
    (hrun : Run step (boot disk) tr s) : Inv s :=
  hrun.state_invariant (inv_boot disk) fun _ _ _ ht he => ht.effect (effect_of_step he)

end Xv6.Bio
