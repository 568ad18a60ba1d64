import Xv6.Umalloc.FreeList

/-!
# The heap stays partitioned

In every run of `malloc` and `free` the blocks in use and the free blocks cover
each byte obtained from `sbrk` exactly once, and the loops end.
-/

namespace Xv6.Umalloc

open Lib
open Function (update update_self update_of_ne)

variable {L : Layout} {s : State} {bs : List Block} {b : Block}

/-- The blocks in use and the free blocks. -/
def blocks (s : State) (bs : List Block) : List Block := s.live.map Live.block ++ bs

/-- The heap once `malloc` has been called, with the free blocks `bs`. -/
structure Heap (L : Layout) (s : State) (bs : List Block) : Prop where
  list : FreeList L s.mem bs
  freep : ∃ f ∈ nodes L bs, s.freep = some f
  aligned : ∀ b ∈ blocks s bs, HEADER ∣ b.addr
  size : ∀ l ∈ s.live, (s.mem l.block.addr).size = l.block.size
  enough : ∀ l ∈ s.live, l.nbytes + HEADER ≤ HEADER * l.block.size
  cover : Span.cover ((blocks s bs).map Block.span) = Span.cover (s.regions.map Block.span)
  units : units (blocks s bs) = units s.regions
  small : Umalloc.units s.regions < 2 ^ 32
  brk_aligned : HEADER ∣ s.brk
  start_le : L.start ≤ s.brk
  inside : ∀ r ∈ s.regions, L.start ≤ r.addr ∧ r.stop ≤ s.brk
  once : ∀ x, Span.cover (s.regions.map Block.span) x ≤ 1

theorem Heap.pos (h : Heap L s bs) (hb : b ∈ blocks s bs) : 0 < b.size := by
  rcases List.mem_append.mp hb with hb | hb
  · obtain ⟨l, hl, rfl⟩ := List.mem_map.mp hb
    have henough := h.enough l hl
    unfold HEADER at henough
    omega
  · exact h.list.pos b hb

theorem Heap.cover_le_one (h : Heap L s bs) (x : ℕ) :
    Span.cover ((blocks s bs).map Block.span) x ≤ 1 := by
  rw [h.cover]
  exact h.once x

theorem Heap.region (h : Heap L s bs) (hb : b ∈ blocks s bs) {x : ℕ} (hx : b.span.Has x) :
    ∃ r ∈ s.regions, r.span.Has x := by
  by_contra hno
  have hzero : Span.cover (s.regions.map Block.span) x = 0 := by
    rw [Span.cover_eq_zero]
    intro c hc
    obtain ⟨r, hr, rfl⟩ := List.mem_map.mp hc
    exact fun hhas => hno ⟨r, hr, hhas⟩
  rw [← h.cover, Span.cover_eq_zero] at hzero
  exact hzero _ (List.mem_map_of_mem hb) hx

theorem Heap.bounds (h : Heap L s bs) (hb : b ∈ blocks s bs) :
    L.base < b.addr ∧ L.start ≤ b.addr ∧ b.stop ≤ s.brk := by
  have hpos := h.pos hb
  have hlt : b.addr < b.stop := by
    unfold Block.stop HEADER
    omega
  have habove := L.above
  unfold HEADER at habove
  obtain ⟨r, hr, hlo⟩ := h.region hb (x := b.addr) ⟨le_rfl, hlt⟩
  obtain ⟨r', hr', hhi⟩ := h.region hb (x := b.stop - 1)
    ⟨Nat.le_sub_one_of_lt hlt, Nat.sub_lt (Nat.zero_lt_of_lt hlt) Nat.one_pos⟩
  have hin := h.inside r hr
  have hin' := h.inside r' hr'
  have hlo' : r.addr ≤ b.addr := hlo.1
  have hhi' : b.stop - 1 < r'.stop := hhi.2
  omega

theorem apart_of_disjoint {a b : Block} (ha : 0 < a.size) (hb : 0 < b.size)
    (h : ∀ x, a.span.Has x → ¬ b.span.Has x) : a.stop ≤ b.addr ∨ b.stop ≤ a.addr := by
  by_contra hno
  rw [not_or, Nat.not_le, Nat.not_le] at hno
  have hlt : a.addr < a.stop ∧ b.addr < b.stop := by
    unfold Block.stop HEADER
    omega
  refine h (max a.addr b.addr) ⟨le_max_left _ _, ?_⟩ ⟨le_max_right _ _, ?_⟩
  · exact max_lt hlt.1 hno.1
  · exact max_lt hno.2 hlt.2

theorem length_le_units {bs : List Block} (h : ∀ b ∈ bs, 0 < b.size) : bs.length ≤ units bs := by
  induction bs with
  | nil => exact Nat.zero_le _
  | cons b bs ih =>
    have hb := h b List.mem_cons_self
    have hbs := ih fun c hc => h c (List.mem_cons_of_mem b hc)
    simp only [units, List.length_cons, List.map_cons, List.sum_cons] at hbs ⊢
    omega

theorem Heap.length_le (h : Heap L s bs) : bs.length ≤ Umalloc.units s.regions := by
  have hunits := h.units
  rw [blocks, units_append] at hunits
  have hle := length_le_units h.list.pos
  omega

/-! ## free -/

/-- The free blocks before and behind a block that does not overlap with them. -/
theorem exists_place {bs : List Block} (hsorted : bs.Pairwise fun a c => a.stop < c.addr)
    (hapart : ∀ a ∈ bs, a.stop ≤ b.addr ∨ b.stop ≤ a.addr) :
    ∃ l r, bs = l ++ r ∧ (∀ a ∈ l, a.stop ≤ b.addr) ∧ ∀ a ∈ r, b.stop ≤ a.addr := by
  by_cases hex : ∃ a ∈ bs, b.stop ≤ a.addr
  · obtain ⟨l, c, r, rfl, hl, hc⟩ := exists_first hex
    refine ⟨l, c :: r, rfl, ?_, ?_⟩
    · intro a ha
      exact (hapart a (by simp [ha])).resolve_right (hl a ha)
    · intro a ha
      rcases List.mem_cons.mp ha with rfl | ha
      · exact hc
      · have hlt := (List.pairwise_cons.mp (List.pairwise_append.mp hsorted).2.1).1 a ha
        have hle := c.addr_le_stop
        omega
  · refine ⟨bs, [], by simp, ?_, by simp⟩
    intro a ha
    exact (hapart a ha).resolve_right fun hle => hex ⟨a, ha, hle⟩

theorem free_spec (h : FreeList L s.mem bs) {f : ℕ} (hfreep : s.freep = some f)
    (hf : f ∈ nodes L bs) (hsize : (s.mem b.addr).size = b.size) (hpos : 0 < b.size)
    (hbase : L.base < b.addr) (hapart : ∀ a ∈ bs, a.stop ≤ b.addr ∨ b.stop ≤ a.addr)
    (hsmall : units (b :: bs) < 2 ^ 32) (hfuel : bs.length < s.fuel) :
    ∃ l r bs' p mem', bs = l ++ r ∧ p ∈ nodes L bs' ∧ Inserted L s.mem mem' l b r bs' ∧
      free s b.addr = some { s with mem := mem', freep := some p } := by
  obtain ⟨l, r, rfl, hl, hr⟩ := exists_place h.sorted hapart
  obtain ⟨u, p, hnodes, hup⟩ := exists_prev L l r
  have hp : p < b.addr := by
    have hmem : p ∈ nodes L l := by simp [← hup]
    rcases List.mem_cons.mp hmem with rfl | hmem
    · exact hbase
    · obtain ⟨a, ha, rfl⟩ := List.mem_map.mp hmem
      have hpos := h.pos a (List.mem_append_left _ ha)
      have hstop := hl a ha
      simp only [Block.stop, HEADER] at hstop
      omega
  have hr' : ∀ x ∈ r.map Block.addr, b.addr < x := by
    intro x hx
    obtain ⟨a, ha, rfl⟩ := List.mem_map.mp hx
    have hstop := hr a ha
    simp only [Block.stop, HEADER] at hstop
    omega
  have hunits : units (l ++ b :: r) < 2 ^ 32 := by
    simp only [units, List.map_cons, List.map_append, List.sum_cons, List.sum_append] at hsmall ⊢
    omega
  obtain ⟨bs', hins, hpmem⟩ := h.insert hsize hpos hbase hl hr hunits hnodes hup hp
  refine ⟨l, r, bs', p, _, rfl, hpmem, hins, ?_⟩
  rw [free, hfreep]
  have hseek := h.seek_fits hnodes hp hr' hf hfuel
  simp only [Option.bind_eq_bind, Option.bind_some, hseek]
  rfl

theorem Heap.alone (h : Heap L s bs) {rest : List Block} (hperm : (blocks s bs).Perm (b :: rest)) :
    ∀ a ∈ rest, a.stop ≤ b.addr ∨ b.stop ≤ a.addr := by
  intro a ha
  have hle : ∀ x, Span.cover ((b :: rest).map Block.span) x ≤ 1 := by
    rw [← Span.cover_perm (hperm.map Block.span)]
    exact h.cover_le_one
  have hdisj := (List.pairwise_cons.mp (Span.pairwise_of_cover hle)).1 a.span
    (List.mem_map_of_mem ha)
  have hposb := h.pos (hperm.mem_iff.mpr List.mem_cons_self)
  have hposa := h.pos (hperm.mem_iff.mpr (List.mem_cons_of_mem b ha))
  exact (apart_of_disjoint hposb hposa hdisj).symm

theorem addr_ne_of_apart {a b : Block} (ha : 0 < a.size) (hb : 0 < b.size)
    (h : a.stop ≤ b.addr ∨ b.stop ≤ a.addr) : a.addr ≠ b.addr := by
  unfold Block.stop HEADER at h
  omega

theorem FreeList.not_mem_nodes {mem : ℕ → Header} (h : FreeList L mem bs) (hpos : 0 < b.size)
    (hbase : L.base < b.addr) (hapart : ∀ a ∈ bs, a.stop ≤ b.addr ∨ b.stop ≤ a.addr) :
    b.addr ∉ nodes L bs := by
  intro hnode
  rcases List.mem_cons.mp hnode with heq | hnode
  · exact hbase.ne' heq
  · obtain ⟨a, ha, heq⟩ := List.mem_map.mp hnode
    exact addr_ne_of_apart (h.pos a ha) hpos (hapart a ha) heq

theorem Heap.live_perm {l : Live} {A B : List Live} (hlive : s.live = A ++ l :: B) :
    (blocks s bs).Perm (l.block :: ((A ++ B).map Live.block ++ bs)) := by
  rw [blocks, hlive, List.map_append, List.map_cons, List.map_append, List.append_assoc,
    List.append_assoc, List.cons_append]
  exact List.perm_middle

theorem Heap.free (h : Heap L s bs) {l : Live} {A B : List Live} (hlive : s.live = A ++ l :: B) :
    ∃ bs' p mem', free s l.block.addr = some { s with mem := mem', freep := some p } ∧
      Heap L { s with mem := mem', freep := some p, live := A ++ B } bs' ∧
      bs'.length ≤ bs.length + 1 ∧ ∃ c ∈ bs', l.block.size ≤ c.size := by
  obtain ⟨f, hf, hfreep⟩ := h.freep
  have hperm : (blocks s bs).Perm _ := Heap.live_perm hlive
  have hmem : l.block ∈ blocks s bs := hperm.mem_iff.mpr List.mem_cons_self
  have halone := h.alone hperm
  have hpos := h.pos hmem
  have hbase := (h.bounds hmem).1
  have hl : l ∈ s.live := by simp [hlive]
  have hunits : Umalloc.units (l.block :: bs) < 2 ^ 32 := by
    have hsum := h.units
    have hsmall := h.small
    rw [blocks, hlive] at hsum
    simp only [Umalloc.units, List.map_append, List.map_cons, List.sum_append, List.sum_cons]
      at hsum hsmall ⊢
    omega
  have hfuel : bs.length < s.fuel := by
    have hle := h.length_le
    unfold State.fuel
    omega
  obtain ⟨l', r', bs', p, mem', rfl, hp, hins, hfree⟩ := free_spec h.list hfreep hf (h.size l hl)
    hpos hbase (fun a ha => halone a (List.mem_append_right _ ha)) hunits hfuel
  refine ⟨bs', p, mem', hfree, ⟨hins.list, ⟨p, hp, rfl⟩, ?_, ?_, ?_, ?_, ?_, h.small,
    h.brk_aligned, h.start_le, h.inside, h.once⟩, by simpa using hins.length, hins.grown⟩
  · intro c hc
    rcases List.mem_append.mp hc with hc | hc
    · exact h.aligned c (hperm.mem_iff.mpr (List.mem_cons_of_mem _ (List.mem_append_left _ hc)))
    · rcases hins.addr c hc with heq | ⟨a, ha, heq⟩
      · rw [heq]
        exact h.aligned _ hmem
      · rw [heq]
        exact h.aligned a (List.mem_append_right _ ha)
  · intro y hy
    have hy' : y.block ∈ (A ++ B).map Live.block := List.mem_map_of_mem hy
    have hylive : y ∈ s.live := by
      rw [hlive]
      rcases List.mem_append.mp hy with hy | hy <;> simp [hy]
    have hymem : y.block ∈ blocks s (l' ++ r') :=
      List.mem_append_left _ (List.mem_map_of_mem hylive)
    have hne : y.block.addr ≠ l.block.addr :=
      addr_ne_of_apart (h.pos hymem) hpos (halone _ (List.mem_append_left _ hy'))
    obtain ⟨A', B', hsplit⟩ := List.append_of_mem hylive
    have hnode : y.block.addr ∉ nodes L (l' ++ r') :=
      h.list.not_mem_nodes (h.pos hymem) (h.bounds hymem).1 fun a ha =>
        h.alone (Heap.live_perm hsplit) a (List.mem_append_right _ ha)
    change (mem' y.block.addr).size = _
    rw [hins.frame _ hnode hne]
    exact h.size y hylive
  · intro y hy
    refine h.enough y ?_
    rw [hlive]
    rcases List.mem_append.mp hy with hy | hy <;> simp [hy]
  · have hcover := h.cover
    rw [Span.cover_perm (hperm.map Block.span)] at hcover
    rw [← hcover]
    funext x
    have hx := congrFun hins.cover x
    simp only [blocks, List.map_append, List.map_cons, Span.cover_append, Span.cover_cons] at hx ⊢
    omega
  · have hsum := h.units
    have hins' := hins.units
    simp only [blocks, hlive, Umalloc.units, List.map_append, List.map_cons, List.sum_append,
      List.sum_cons] at hsum hins' ⊢
    omega

/-! ## malloc -/

theorem le_coreUnits (nu : ℕ) : nu ≤ coreUnits nu := by
  unfold coreUnits
  split_ifs <;> omega

theorem coreUnits_pos (nu : ℕ) : 0 < coreUnits nu := by
  unfold coreUnits
  split_ifs <;> omega

/-- A region from `sbrk` is a block in use, until `morecore` frees it. -/
theorem Heap.sbrk (h : Heap L s bs) (hle : s.brk ≤ b.addr) (haligned : HEADER ∣ b.addr)
    (hpos : 0 < b.size) (hsmall : Umalloc.units s.regions + b.size < 2 ^ 32) :
    Heap L { s with
      calls := s.calls + 1
      brk := b.stop
      regions := s.regions ++ [b]
      mem := update s.mem b.addr ⟨(s.mem b.addr).ptr, b.size⟩
      live := s.live ++ [⟨b, 0⟩] } bs := by
  have hbelow : ∀ a ∈ blocks s bs, a.stop ≤ b.addr := fun a ha => (h.bounds ha).2.2.trans hle
  have hne : ∀ a ∈ blocks s bs, a.addr ≠ b.addr := fun a ha =>
    addr_ne_of_apart (h.pos ha) hpos (.inl (hbelow a ha))
  have hbase : L.base < b.addr := by
    have habove := L.above
    have hstart := h.start_le
    unfold HEADER at habove
    omega
  have hnew : b.addr ∉ nodes L bs := h.list.not_mem_nodes hpos hbase fun a ha =>
    .inl (hbelow a (List.mem_append_right _ ha))
  refine ⟨h.list.congr fun x hx => update_of_ne (by rintro rfl; exact hnew hx) _ _, h.freep,
    fun c hc => ?_, fun y hy => ?_, fun y hy => ?_, ?_, ?_, ?_, haligned.add (Dvd.intro _ rfl),
    h.start_le.trans (hle.trans b.addr_le_stop), fun r hr => ?_, fun x => ?_⟩
  · simp only [blocks, List.map_append, List.map_singleton, List.mem_append,
      List.mem_singleton] at hc
    rcases hc with (hc | rfl) | hc
    · exact h.aligned c (List.mem_append_left _ hc)
    · exact haligned
    · exact h.aligned c (List.mem_append_right _ hc)
  · rcases List.mem_append.mp hy with hy | hy
    · have hy' := hne _ (List.mem_append_left _ (List.mem_map_of_mem hy))
      exact (congrArg Header.size (update_of_ne hy' _ _)).trans (h.size y hy)
    · rw [List.mem_singleton.mp hy]
      simp
  · rcases List.mem_append.mp hy with hy | hy
    · exact h.enough y hy
    · rw [List.mem_singleton.mp hy, Nat.zero_add]
      exact Nat.le_mul_of_pos_right HEADER hpos
  · funext x
    have hcover := congrFun h.cover x
    simp only [blocks, List.map_append, List.map_cons, List.map_nil, Span.cover_append,
      Span.cover_cons, Span.cover_nil] at hcover ⊢
    omega
  · have hsum := h.units
    simp only [blocks, Umalloc.units, List.map_append, List.map_cons, List.sum_append,
      List.sum_cons, List.map_nil, List.sum_nil] at hsum ⊢
    omega
  · rwa [units_append]
  · rcases List.mem_append.mp hr with hr | hr
    · obtain ⟨hlo, hhi⟩ := h.inside r hr
      exact ⟨hlo, hhi.trans (hle.trans b.addr_le_stop)⟩
    · rw [List.mem_singleton.mp hr]
      exact ⟨h.start_le.trans hle, le_rfl⟩
  · rw [List.map_append, Span.cover_append]
    by_cases hx : b.span.Has x
    · have hzero : Span.cover (s.regions.map Block.span) x = 0 := by
        rw [Span.cover_eq_zero]
        intro c hc hhas
        obtain ⟨r, hr, rfl⟩ := List.mem_map.mp hc
        have hhi := (h.inside r hr).2
        have hlt : x < r.stop := hhas.2
        have hge : b.addr ≤ x := hx.1
        omega
      rw [hzero, List.map_singleton, Span.cover_cons, if_pos hx, Span.cover_nil]
    · rw [List.map_singleton, Span.cover_cons, if_neg hx, Span.cover_nil]
      exact h.once x

theorem free_live (s : State) (bp : ℕ) (live : List Live) :
    free s bp = (free { s with live := live } bp).map fun t => { t with live := s.live } := by
  simp only [free, State.fuel, Option.bind_eq_bind, Option.map_bind, Function.comp_def]
  rfl

theorem Heap.morecore (h : Heap L s bs) {sbrk : Sbrk} {nu gap : ℕ} (hsbrk : sbrk s.calls = some gap)
    (hsmall : Umalloc.units s.regions + coreUnits nu < 2 ^ 32) :
    ∃ t bs', morecore whole sbrk s nu = some (t, true) ∧ Heap L t bs' ∧ t.live = s.live ∧
      bs'.length ≤ bs.length + 1 ∧ ∃ c ∈ bs', nu ≤ c.size := by
  have hcore := h.sbrk (b := ⟨s.brk + HEADER * gap, coreUnits nu⟩) (Nat.le_add_right _ _)
    (h.brk_aligned.add (Dvd.intro _ rfl)) (coreUnits_pos nu) hsmall
  obtain ⟨bs', p, mem', hfree, hheap, hlen, c, hc, hle⟩ := hcore.free rfl
  rw [List.append_nil] at hheap
  refine ⟨_, bs', ?_, hheap, rfl, hlen, c, hc, (le_coreUnits nu).trans hle⟩
  simp only [Umalloc.morecore, hsbrk, whole_sub]
  rw [free_live _ _ (s.live ++ [⟨⟨s.brk + HEADER * gap, coreUnits nu⟩, 0⟩])]
  exact congrArg (fun o => (o.map fun t => { t with live := s.live }).map fun t => (t, true)) hfree

/-- The block that the loop of `malloc` returns when it stops behind `prevp`. -/
def hit (s : State) (nunits prevp : ℕ) : State × Option ℕ :=
  let (mem, p) := carve s.mem nunits prevp (s.mem prevp).ptr
  ({ s with mem := mem, freep := some prevp }, some p)

/-- What the loop of `malloc` does once it has come around. -/
def grow (sbrk : Sbrk) (nunits fuel : ℕ) (s : State) : Option (State × Option ℕ) :=
  match Umalloc.morecore whole sbrk s nunits with
  | none => none
  | some (s, false) => some (s, none)
  | some (s, true) =>
    match s.freep with
    | none => none
    | some f => mallocLoop whole sbrk nunits fuel s f

/-- The loop looks at the headers `l` and then at `freep`. -/
theorem mallocLoop_walk (sbrk : Sbrk) (nunits : ℕ) {fuel x f y : ℕ} {l : List ℕ}
    (hseg : Segment (next s.mem) (next s.mem x) (l ++ [f]) y) (hf : f ∉ l)
    (hfreep : s.freep = some f) (hfuel : l.length < fuel) :
    (∃ prevp ∈ x :: l, nunits ≤ (s.mem (s.mem prevp).ptr).size ∧
      mallocLoop whole sbrk nunits fuel s x = some (hit s nunits prevp)) ∨
    ((∀ p ∈ l ++ [f], (s.mem p).size < nunits) ∧
      mallocLoop whole sbrk nunits fuel s x = grow sbrk nunits (fuel - (l.length + 1)) s) := by
  induction l generalizing x fuel with
  | nil =>
    obtain ⟨k, rfl⟩ : ∃ k, fuel = k + 1 := ⟨fuel - 1, by omega⟩
    have hnext : (s.mem x).ptr = f := hseg.1
    by_cases hbig : nunits ≤ (s.mem (s.mem x).ptr).size
    · refine .inl ⟨x, List.mem_cons_self, hbig, ?_⟩
      rw [mallocLoop, if_pos hbig]
      rfl
    · refine .inr ⟨?_, ?_⟩
      · intro p hp
        rw [List.mem_singleton.mp hp, ← hnext]
        exact Nat.not_le.mp hbig
      · rw [mallocLoop, if_neg hbig, hnext, if_pos hfreep]
        rfl
  | cons p l ih =>
    obtain ⟨k, rfl⟩ : ∃ k, fuel = k + 1 := ⟨fuel - 1, by omega⟩
    obtain ⟨hnext, htail⟩ := hseg
    have hnext' : (s.mem x).ptr = p := hnext
    by_cases hbig : nunits ≤ (s.mem (s.mem x).ptr).size
    · refine .inl ⟨x, List.mem_cons_self, hbig, ?_⟩
      rw [mallocLoop, if_pos hbig]
      rfl
    · have hne : s.freep ≠ some p := by
        rw [hfreep]
        rintro heq
        exact hf (by simp [Option.some.inj heq])
      have hstep : mallocLoop whole sbrk nunits (k + 1) s x =
          mallocLoop whole sbrk nunits k s p := by
        rw [mallocLoop, if_neg hbig, hnext', if_neg hne]
      rw [List.length_cons] at hfuel
      rcases ih htail (fun hmem => hf (List.mem_cons_of_mem p hmem)) (by omega : l.length < k) with
        ⟨prevp, hprev, hle, heq⟩ | ⟨hsmall, heq⟩
      · exact .inl ⟨prevp, List.mem_cons_of_mem x hprev, hle, hstep.trans heq⟩
      · refine .inr ⟨?_, ?_⟩
        · intro z hz
          rcases List.mem_cons.mp hz with rfl | hz
          · rw [← hnext']
            exact Nat.not_le.mp hbig
          · exact hsmall z hz
        · rw [hstep, heq, List.length_cons]
          congr 1
          omega

theorem Heap.walk (h : Heap L s bs) (sbrk : Sbrk) (nunits : ℕ) {fuel f : ℕ}
    (hfreep : s.freep = some f) (hfuel : bs.length < fuel) :
    (∃ prevp ∈ nodes L bs, nunits ≤ (s.mem (s.mem prevp).ptr).size ∧
      mallocLoop whole sbrk nunits fuel s f = some (hit s nunits prevp)) ∨
    ((∀ p ∈ nodes L bs, (s.mem p).size < nunits) ∧
      mallocLoop whole sbrk nunits fuel s f = grow sbrk nunits (fuel - (bs.length + 1)) s) := by
  obtain ⟨f', hf, hfreep'⟩ := h.freep
  obtain rfl : f' = f := Option.some.inj (hfreep'.symm.trans hfreep)
  obtain ⟨a, c, hac⟩ := List.append_of_mem hf
  have hring := h.list.ring
  have hnodup := h.list.nodup
  have hlen := length_nodes L bs
  rw [hac] at hring hnodup hlen
  have hrot := hring.rotate
  have hseg : Segment (next s.mem) (next s.mem f') (c ++ a ++ [f']) (next s.mem f') :=
    Segment.append hrot.2 ⟨rfl, rfl⟩
  have hnot : f' ∉ c ++ a := by
    have hperm : (a ++ f' :: c).Perm (f' :: (c ++ a)) :=
      List.perm_middle.trans (List.perm_append_comm.cons f')
    exact (List.nodup_cons.mp (hperm.nodup_iff.mp hnodup)).1
  have hcount : (c ++ a).length = bs.length := by
    simp only [List.length_append, List.length_cons] at hlen ⊢
    omega
  have hmem : ∀ x, x ∈ nodes L bs ↔ x = f' ∨ x ∈ c ++ a := by
    intro x
    rw [hac]
    simp only [List.mem_append, List.mem_cons]
    tauto
  rcases mallocLoop_walk sbrk nunits hseg hnot hfreep
    (by rwa [hcount] : (c ++ a).length < fuel) with ⟨prevp, hprev, hle, heq⟩ | ⟨hsmall, heq⟩
  · exact .inl ⟨prevp, (hmem prevp).mpr (List.mem_cons.mp hprev), hle, heq⟩
  · refine .inr ⟨?_, by rw [heq, hcount]⟩
    intro p hp
    apply hsmall
    rcases (hmem p).mp hp with rfl | hp
    · simp
    · exact List.mem_append_left _ hp

theorem Heap.hit (h : Heap L s bs) {nunits nbytes prevp : ℕ} (hprev : prevp ∈ nodes L bs)
    (hle : nunits ≤ (s.mem (s.mem prevp).ptr).size) (henough : nbytes + HEADER ≤ HEADER * nunits) :
    ∃ mem' q bs', hit s nunits prevp = ({ s with mem := mem', freep := some prevp }, some q) ∧
      Heap L { s with
        mem := mem', freep := some prevp, live := s.live ++ [⟨⟨q, nunits⟩, nbytes⟩] } bs' := by
  have hpos : 0 < nunits := by
    unfold HEADER at henough
    omega
  obtain ⟨bs', q, hcarved, hq, hprev'⟩ := h.list.carve hprev hpos hle
  refine ⟨_, q, bs', ?_, hcarved.list, ⟨prevp, hprev', rfl⟩, ?_, ?_, ?_, ?_, ?_, h.small,
    h.brk_aligned, h.start_le, h.inside, h.once⟩
  · rw [Umalloc.hit, ← hq]
  · intro c hc
    rw [blocks, List.map_append] at hc
    rcases List.mem_append.mp hc with hc | hc
    · rcases List.mem_append.mp hc with hc | hc
      · exact h.aligned c (List.mem_append_left _ hc)
      · rw [List.mem_singleton.mp hc]
        exact hcarved.aligned fun a ha => h.aligned a (List.mem_append_right _ ha)
    · obtain ⟨a, ha, heq⟩ := hcarved.addr c hc
      rw [heq]
      exact h.aligned a (List.mem_append_right _ ha)
  · intro y hy
    rcases List.mem_append.mp hy with hy | hy
    · have hymem : y.block ∈ blocks s bs := List.mem_append_left _ (List.mem_map_of_mem hy)
      obtain ⟨A', B', hsplit⟩ := List.append_of_mem hy
      have hapart : ∀ a ∈ bs, a.stop ≤ y.block.addr ∨ y.block.stop ≤ a.addr := fun a ha =>
        h.alone (Heap.live_perm hsplit) a (List.mem_append_right _ ha)
      have hnode := h.list.not_mem_nodes (h.pos hymem) (h.bounds hymem).1 hapart
      -- the new header lies inside a free block
      have hne : y.block.addr ≠ q := by
        rintro heq
        have hx := congrFun hcarved.cover q
        have hhas : (⟨q, nunits⟩ : Block).span.Has q := by
          refine ⟨le_rfl, ?_⟩
          change q < q + HEADER * nunits
          unfold HEADER
          omega
        rw [List.map_cons, Span.cover_cons, if_pos hhas] at hx
        have hnz : Span.cover (bs.map Block.span) q ≠ 0 := by omega
        rw [ne_eq, Span.cover_eq_zero] at hnz
        refine hnz fun d hd hdq => ?_
        obtain ⟨a, ha, rfl⟩ := List.mem_map.mp hd
        have hlo : a.addr ≤ q := hdq.1
        have hhi : q < a.stop := hdq.2
        have hposy := h.pos hymem
        have hap := hapart a ha
        unfold Block.stop HEADER at hap hhi
        omega
      change ((carve s.mem nunits prevp (s.mem prevp).ptr).1 y.block.addr).size = _
      rw [hcarved.frame _ hnode hne]
      exact h.size y hy
    · rw [List.mem_singleton.mp hy]
      exact hcarved.size
  · intro y hy
    rcases List.mem_append.mp hy with hy | hy
    · exact h.enough y hy
    · rw [List.mem_singleton.mp hy]
      exact henough
  · funext x
    have hx := congrFun hcarved.cover x
    have hcover := congrFun h.cover x
    simp only [blocks, List.map_append, List.map_cons, List.map_nil, Span.cover_append,
      Span.cover_cons, Span.cover_nil] at hx hcover ⊢
    omega
  · have hsum := h.units
    have hcu := hcarved.units
    simp only [blocks, Umalloc.units, List.map_append, List.map_cons, List.sum_append,
      List.sum_cons, List.map_nil, List.sum_nil] at hsum hcu ⊢
    omega

theorem Heap.mallocLoop (h : Heap L s bs) (sbrk : Sbrk) {nunits nbytes fuel f : ℕ}
    (hfreep : s.freep = some f) (henough : nbytes + HEADER ≤ HEADER * nunits)
    (hsmall : sbrk s.calls = none ∨ Umalloc.units s.regions + coreUnits nunits < 2 ^ 32)
    (hfuel : 2 * bs.length + 3 ≤ fuel) :
    ∃ t r, mallocLoop whole sbrk nunits fuel s f = some (t, r) ∧ t.live = s.live ∧
      match r with
      | none => sbrk s.calls = none ∧ Heap L t bs
      | some q => ∃ bs', Heap L { t with live := s.live ++ [⟨⟨q, nunits⟩, nbytes⟩] } bs' := by
  rcases h.walk sbrk nunits hfreep (by omega : bs.length < fuel) with
    ⟨prevp, hprev, hle, heq⟩ | ⟨-, heq⟩
  · obtain ⟨mem', q, bs', hhit, hheap⟩ := h.hit hprev hle henough
    rw [heq, hhit]
    exact ⟨_, _, rfl, rfl, bs', hheap⟩
  rw [heq, grow]
  cases hsbrk : sbrk s.calls with
  | none =>
    have hcore : Umalloc.morecore whole sbrk s nunits =
        some ({ s with calls := s.calls + 1 }, false) := by
      rw [Umalloc.morecore, hsbrk]
    rw [hcore]
    exact ⟨_, _, rfl, rfl, rfl, h.list, h.freep, h.aligned, h.size, h.enough, h.cover, h.units,
      h.small, h.brk_aligned, h.start_le, h.inside, h.once⟩
  | some gap =>
    have hunits := hsmall.resolve_left (by rw [hsbrk]; nofun)
    obtain ⟨t, bs', hcore, ht, hlive, hlen, c, hc, hcn⟩ := h.morecore hsbrk hunits
    obtain ⟨g, hg, hgfreep⟩ := ht.freep
    rw [hcore]
    simp only [hgfreep]
    rcases ht.walk sbrk nunits hgfreep
      (by omega : bs'.length < fuel - (bs.length + 1)) with
      ⟨prevp, hprev, hle, heq⟩ | ⟨hall, -⟩
    · obtain ⟨mem', q, bs'', hhit, hheap⟩ := ht.hit hprev hle henough
      rw [heq, hhit]
      rw [hlive] at hheap
      exact ⟨_, _, rfl, hlive, bs'', hheap⟩
    · -- the block with the new region is large enough
      have hlt := hall c.addr (List.mem_cons_of_mem _ (List.mem_map_of_mem hc))
      rw [ht.list.size c hc] at hlt
      omega

/-! ## Runs -/

/-- The states that a run can reach. -/
inductive Inv (L : Layout) (s : State) : Prop
  | fresh (freep : s.freep = none) (live : s.live = []) (regions : s.regions = [])
      (brk : s.brk = L.start)
  | heap {bs : List Block} (h : Heap L s bs)

theorem Heap.first (L : Layout) (mem : ℕ → Header) (hlive : s.live = []) (hregions : s.regions = [])
    (hbrk : s.brk = L.start) :
    Heap L { s with mem := update mem L.base ⟨L.base, 0⟩, freep := some L.base } [] := by
  have hbase : update mem L.base ⟨L.base, 0⟩ L.base = ⟨L.base, 0⟩ :=
    update_self _ _ _
  have hlist : FreeList L (update mem L.base ⟨L.base, 0⟩) [] := by
    refine ⟨⟨rfl, ?_⟩, by rw [hbase], by simp, by simp, by simp, .nil⟩
    rw [next, hbase]
    rfl
  refine ⟨hlist, ⟨L.base, List.mem_cons_self, rfl⟩, ?_, ?_, ?_, ?_, ?_, ?_, ?_, ?_, ?_, ?_⟩
  · simp [blocks, hlive]
  · simp [hlive]
  · simp [hlive]
  · simp [blocks, hlive, hregions]
  · simp [blocks, hlive, hregions]
  · simp [hregions, Umalloc.units]
  · exact hbrk ▸ L.aligned
  · exact hbrk.ge
  · simp [hregions]
  · simp [hregions]

theorem nunitsOf_enough (nbytes : ℕ) : nbytes + HEADER ≤ HEADER * nunitsOf nbytes := by
  unfold nunitsOf HEADER
  omega

theorem Inv.malloc {sbrk : Sbrk} {nbytes : ℕ} (h : Inv L s)
    (hsmall : Small sbrk s (.malloc nbytes)) :
    ∃ t r, malloc whole L sbrk s nbytes = some (t, r) ∧ t.live = s.live ∧
      match r with
      | none => sbrk s.calls = none ∧ ∃ bs, Heap L t bs
      | some q => ∃ bs, Heap L { t with live := s.live ++ [⟨⟨q, nunitsOf nbytes⟩, nbytes⟩] }
          bs := by
  have henough := nunitsOf_enough nbytes
  cases h with
  | fresh hfreep hlive hregions hbrk =>
    have hheap := Heap.first L s.mem hlive hregions hbrk
    have hfuel : 2 * ([] : List Block).length + 3 ≤ s.fuel := by
      unfold State.fuel
      simp
    obtain ⟨t, r, heq, hlive', hr⟩ := hheap.mallocLoop sbrk rfl henough hsmall hfuel
    refine ⟨t, r, ?_, hlive', ?_⟩
    · rw [Umalloc.malloc, hfreep]
      exact heq
    · cases r with
      | none => exact ⟨hr.1, _, hr.2⟩
      | some q => exact hr
  | @heap bs h =>
    obtain ⟨f, -, hfreep⟩ := h.freep
    have hfuel : 2 * bs.length + 3 ≤ s.fuel := by
      have hlen := h.length_le
      unfold State.fuel
      omega
    obtain ⟨t, r, heq, hlive', hr⟩ := h.mallocLoop sbrk hfreep henough hsmall hfuel
    refine ⟨t, r, ?_, hlive', ?_⟩
    · rw [Umalloc.malloc, hfreep]
      exact heq
    · cases r with
      | none => exact ⟨hr.1, _, hr.2⟩
      | some q => exact hr

theorem Heap.write (h : Heap L s bs) {x : ℕ} (hx : s.Owned x) (hd : Header) :
    Heap L { s with mem := update s.mem x hd } bs := by
  obtain ⟨l, hl, hlo, hhi⟩ := hx
  have hlmem : l.block ∈ blocks s bs := List.mem_append_left _ (List.mem_map_of_mem hl)
  obtain ⟨A, B, hsplit⟩ := List.append_of_mem hl
  have halone := h.alone (Heap.live_perm hsplit)
  have hbounds := h.bounds hlmem
  have hne : ∀ b ∈ blocks s bs, b.addr ≠ x := by
    intro b hb heq
    have hposb := h.pos hb
    rcases List.mem_cons.mp ((Heap.live_perm hsplit).mem_iff.mp hb) with rfl | hb
    · unfold HEADER at hlo
      omega
    · have hap := halone b hb
      unfold Block.stop HEADER at *
      omega
  have hlist : FreeList L (update s.mem x hd) bs := by
    refine h.list.congr fun y hy => update_of_ne ?_ _ _
    rcases List.mem_cons.mp hy with rfl | hy
    · omega
    · obtain ⟨a, ha, rfl⟩ := List.mem_map.mp hy
      exact hne a (List.mem_append_right _ ha)
  refine ⟨hlist, h.freep, h.aligned, ?_, h.enough, h.cover, h.units, h.small, h.brk_aligned,
    h.start_le, h.inside, h.once⟩
  intro y hy
  change (update s.mem x hd y.block.addr).size = _
  rw [update_of_ne (hne _ (List.mem_append_left _ (List.mem_map_of_mem hy)))]
  exact h.size y hy

theorem Inv.step {sbrk : Sbrk} {t : State} {e : Event} (h : Inv L s) (hsmall : Small sbrk s e)
    (hstep : step whole MAXBYTES L sbrk s e = some t) : Inv L t := by
  cases e with
  | malloc nbytes =>
    obtain ⟨u, r, heq, hlive, hr⟩ := h.malloc hsmall
    simp only [Umalloc.step, heq] at hstep
    obtain ⟨-, hstep⟩ := Option.ite_none_right_eq_some.mp hstep
    cases r with
    | none =>
      obtain ⟨-, bs, hheap⟩ := hr
      obtain rfl := Option.some.inj hstep
      exact .heap hheap
    | some q =>
      obtain ⟨bs, hheap⟩ := hr
      obtain rfl := Option.some.inj hstep
      rw [← hlive] at hheap
      exact .heap hheap
  | free bp =>
    simp only [Umalloc.step] at hstep
    split at hstep
    next => cases hstep
    next l hfind =>
      obtain ⟨hl, A, B, hlive, hA⟩ := List.find?_eq_some_iff_append.mp hfind
      have hbp : l.block.addr = bp := of_decide_eq_true hl
      cases h with
      | fresh _ hnil _ _ => simp [hnil] at hlive
      | @heap bs h =>
        obtain ⟨bs', p, mem', hfree, hheap, -⟩ := h.free hlive
        rw [hbp] at hfree
        rw [hfree] at hstep
        obtain rfl := Option.some.inj hstep
        have herase : s.live.eraseP (fun l => decide (l.block.addr = bp)) = A ++ B := by
          rw [hlive, List.eraseP_append_right _ (fun a ha => by simpa using hA a ha),
            List.eraseP_cons_of_pos (p := fun l : Live => decide (l.block.addr = bp)) hl]
        refine .heap (?_ : Heap L _ bs')
        change Heap L { s with mem := mem', freep := some p, live := s.live.eraseP _ } bs'
        rw [herase]
        exact hheap
  | write x hd =>
    obtain ⟨hx, hstep⟩ := Option.ite_none_right_eq_some.mp hstep
    obtain rfl := Option.some.inj hstep
    cases h with
    | fresh _ hnil _ _ =>
      obtain ⟨l, hl, -⟩ := hx
      simp [hnil] at hl
    | heap h => exact .heap (h.write hx hd)

/-- The heap is partitioned into blocks in use and free blocks, the free list is a
ring in the order of addresses without adjacent blocks, and the loops end. -/
theorem heap_partitioned (L : Layout) (sbrk : Sbrk) (mem : ℕ → Header) (tr : List Event) (s : State)
    (hrun : Run (guarded (Small sbrk) (step whole MAXBYTES L sbrk)) (init L mem) tr s) :
    (∃ bs : List Block,
      ((s.freep = none ∧ bs = [] ∧ s.live = [] ∧ s.regions = []) ∨
        FreeList L s.mem bs ∧ ∃ f ∈ nodes L bs, s.freep = some f) ∧
      (blocks s bs).Pairwise (fun a b => a.stop ≤ b.addr ∨ b.stop ≤ a.addr) ∧
      (∀ l ∈ s.live, HEADER ∣ l.block.addr ∧
        l.block.addr + HEADER + l.nbytes ≤ l.block.stop) ∧
      ∀ x, Span.cover ((blocks s bs).map Block.span) x =
        if ∃ r ∈ s.regions, r.span.Has x then 1 else 0) ∧
    (∀ nbytes, Small sbrk s (.malloc nbytes) →
      ∃ t r, malloc whole L sbrk s nbytes = some (t, r) ∧ (r = none → sbrk s.calls = none)) ∧
    ∀ l ∈ s.live, ∃ t, free s l.block.addr = some t := by
  have h : Inv L s := hrun.state_invariant (I := Inv L) (.fresh rfl rfl rfl rfl) fun t e u ht he =>
    ht.step (guarded_eq_some.mp he).1 (guarded_eq_some.mp he).2
  refine ⟨?_, ?_, ?_⟩
  · cases h with
    | fresh hfreep hlive hregions _ =>
      refine ⟨[], .inl ⟨hfreep, rfl, hlive, hregions⟩, ?_, ?_, ?_⟩
      · simp [blocks, hlive]
      · simp [hlive]
      · simp [blocks, hlive, hregions]
    | @heap bs h =>
      refine ⟨bs, .inr ⟨h.list, h.freep⟩, ?_, ?_, ?_⟩
      · have hpair := List.pairwise_map.mp (Span.pairwise_of_cover h.cover_le_one)
        exact hpair.imp_of_mem fun ha hb hab => apart_of_disjoint (h.pos ha) (h.pos hb) hab
      · intro l hl
        refine ⟨h.aligned _ (List.mem_append_left _ (List.mem_map_of_mem hl)), ?_⟩
        have henough := h.enough l hl
        unfold Block.stop
        omega
      · intro x
        rw [h.cover]
        split_ifs with hex
        · obtain ⟨r, hr, hx⟩ := hex
          have hle := h.once x
          have hnz : Span.cover (s.regions.map Block.span) x ≠ 0 := fun hzero =>
            Span.cover_eq_zero.mp hzero _ (List.mem_map_of_mem hr) hx
          omega
        · rw [Span.cover_eq_zero]
          intro c hc hx
          obtain ⟨r, hr, rfl⟩ := List.mem_map.mp hc
          exact hex ⟨r, hr, hx⟩
  · intro nbytes hsmall
    obtain ⟨t, r, heq, -, hr⟩ := h.malloc hsmall
    refine ⟨t, r, heq, ?_⟩
    rintro rfl
    exact hr.1
  · intro l hl
    cases h with
    | fresh _ hnil _ _ => simp [hnil] at hl
    | heap h =>
      obtain ⟨A, B, hsplit⟩ := List.append_of_mem hl
      obtain ⟨bs', p, mem', hfree, -⟩ := h.free hsplit
      exact ⟨_, hfree⟩

def exampleLayout : Layout where
  base := 4080
  start := 4096
  above := by decide
  aligned := by decide

/-- Two blocks are cut from one region, and a third one is put where the first was. -/
def reuseTrace : List Event :=
  [.malloc 100, .malloc 24, .write 69520 ⟨7, 7⟩, .free 69504, .malloc 40]

theorem heap_partitioned_reuse : ∃ s : State,
    Run (guarded (Small fun _ => some 0) (step whole MAXBYTES exampleLayout fun _ => some 0))
        (init exampleLayout fun _ => ⟨0, 0⟩) reuseTrace s ∧
      (s.live.map fun l => l.block.addr) = [69456, 69568] ∧
      ∀ l ∈ s.live, ∃ t, free s l.block.addr = some t := by
  obtain ⟨s, hrun, hs⟩ := Run.exists_of_any
    (P := fun s : State => decide ((s.live.map fun l => l.block.addr) = [69456, 69568]))
    (by decide +kernel : (reuseTrace.foldlM
      (guarded (Small fun _ => some 0) (step whole MAXBYTES exampleLayout fun _ => some 0))
      (init exampleLayout fun _ => ⟨0, 0⟩)).any _ = true)
  exact ⟨s, hrun, of_decide_eq_true hs, (heap_partitioned _ _ _ _ s hrun).2.2⟩

/-- The largest request, 33 times, and then all blocks are freed in order. -/
def hugeTrace : List Event :=
  List.replicate 33 (.malloc (MAXBYTES - 1)) ++
    (List.range 33).map fun k => .free (4096 + HEADER * nunitsOf (MAXBYTES - 1) * k)

/-- The free block that is left covers more than `2 ^ 32` units, but its size has
wrapped around: the last units of the heap are in no block. -/
theorem heap_not_partitioned : ∃ s : State,
    Run (step whole MAXBYTES exampleLayout fun _ => some 0)
      (init exampleLayout fun _ => ⟨0, 0⟩) hugeTrace s ∧
      ¬ ∃ bs : List Block, FreeList exampleLayout s.mem bs ∧
        ∀ x, Span.cover ((blocks s bs).map Block.span) x =
          if ∃ r ∈ s.regions, r.span.Has x then 1 else 0 := by
  obtain ⟨s, hrun, hs⟩ := Run.exists_of_any
    (P := fun s : State => decide (s.live.length = 0 ∧ (s.mem 4080).ptr = 4096 ∧
      (s.mem 4096).ptr = 4080 ∧ (s.mem 4096).size = 134082593 ∧
        ∃ r ∈ s.regions, r.span.Has (4096 + HEADER * 134082593)))
    (by decide +kernel : (hugeTrace.foldlM (step whole MAXBYTES exampleLayout fun _ => some 0)
      (init exampleLayout fun _ => ⟨0, 0⟩)).any _ = true)
  obtain ⟨hlive, hbase, hfirst, hsize, hregion⟩ := of_decide_eq_true hs
  refine ⟨s, hrun, ?_⟩
  rintro ⟨bs, hlist, hcover⟩
  have hx := hcover (4096 + HEADER * 134082593)
  rw [if_pos hregion, blocks, List.length_eq_zero_iff.mp hlive, List.map_nil, List.nil_append] at hx
  -- the ring has one block
  have hring := hlist.ring
  cases bs with
  | nil =>
    have hptr : (s.mem 4080).ptr = 4080 := hring.2
    omega
  | cons b bs =>
    have hb : (s.mem 4080).ptr = b.addr := hring.2.1
    rw [hbase] at hb
    have hbsize : 134082593 = b.size := by
      rw [← hlist.size b List.mem_cons_self, ← hb, hsize]
    cases bs with
    | nil =>
      have hno : ¬ b.span.Has (4096 + HEADER * 134082593) := by
        rintro ⟨-, hlt⟩
        have hlt' : 4096 + HEADER * 134082593 < b.addr + HEADER * b.size := hlt
        rw [← hb, ← hbsize] at hlt'
        exact lt_irrefl _ hlt'
      rw [List.map_singleton, Span.cover_cons, if_neg hno, Span.cover_nil] at hx
      cases hx
    | cons c bs =>
      have hc : (s.mem b.addr).ptr = c.addr := hring.2.2.1
      have habove : 4080 < c.addr := hlist.above c (by simp)
      rw [← hb, hfirst] at hc
      omega

end Xv6.Umalloc
