import Xv6.Umalloc.Basic

/-!
# The free list

A circular list through `base`, in the order of addresses, of blocks that do
not touch.  `free` finds the place of a block in it and joins the block with
its neighbours; `malloc` takes a block out or cuts off its end.
-/

namespace Xv6.Umalloc

open Lib
open Function (update update_self update_of_ne)

variable {L : Layout} {mem : ℕ → Header} {bs l r : List Block} {b : Block}

def nodes (L : Layout) (bs : List Block) : List ℕ := L.base :: bs.map Block.addr

structure FreeList (L : Layout) (mem : ℕ → Header) (bs : List Block) : Prop where
  ring : Segment (next mem) L.base (nodes L bs) L.base
  base_size : (mem L.base).size = 0
  size : ∀ b ∈ bs, (mem b.addr).size = b.size
  pos : ∀ b ∈ bs, 0 < b.size
  above : ∀ b ∈ bs, L.base < b.addr
  sorted : bs.Pairwise fun a b => a.stop < b.addr

theorem Block.addr_le_stop (b : Block) : b.addr ≤ b.stop := Nat.le_add_right _ _

theorem FreeList.sorted_nodes (h : FreeList L mem bs) : (nodes L bs).Pairwise (· < ·) := by
  refine List.pairwise_cons.mpr ⟨?_, List.pairwise_map.mpr ?_⟩
  · intro x hx
    obtain ⟨b, hb, rfl⟩ := List.mem_map.mp hx
    exact h.above b hb
  · exact h.sorted.imp fun {a b} hab => a.addr_le_stop.trans_lt hab

theorem FreeList.nodup (h : FreeList L mem bs) : (nodes L bs).Nodup :=
  h.sorted_nodes.imp fun hab => hab.ne

theorem exists_prev (L : Layout) (l r : List Block) :
    ∃ u p, nodes L (l ++ r) = u ++ p :: r.map Block.addr ∧ u ++ [p] = nodes L l := by
  induction l using List.reverseRecOn with
  | nil => exact ⟨[], L.base, rfl, rfl⟩
  | append_singleton l a _ =>
    refine ⟨nodes L l, a.addr, ?_, ?_⟩
    · simp [nodes]
    · simp [nodes]

theorem FreeList.congr {mem' : ℕ → Header} (h : FreeList L mem bs)
    (heq : ∀ x ∈ nodes L bs, mem' x = mem x) : FreeList L mem' bs := by
  refine ⟨?_, ?_, ?_, h.pos, h.above, h.sorted⟩
  · refine h.ring.congr fun x hx => ?_
    rw [next, heq x hx]
    rfl
  · rw [heq _ List.mem_cons_self, h.base_size]
  · intro b hb
    rw [heq _ (List.mem_cons_of_mem _ (List.mem_map_of_mem hb))]
    exact h.size b hb

theorem FreeList.base_le (h : FreeList L mem bs) {x : ℕ} (hx : x ∈ nodes L bs) : L.base ≤ x := by
  rcases List.mem_cons.mp hx with rfl | hx
  · exact le_rfl
  · obtain ⟨b, hb, rfl⟩ := List.mem_map.mp hx
    exact (h.above b hb).le

theorem FreeList.next_cases (h : FreeList L mem bs) {u v : List ℕ} {x : ℕ}
    (hnodes : nodes L bs = u ++ x :: v) :
    (v = [] ∧ (mem x).ptr = L.base) ∨ ∃ v', v = (mem x).ptr :: v' := by
  have hring := h.ring
  rw [hnodes] at hring
  obtain ⟨-, -, htail⟩ := hring.split
  cases v with
  | nil => exact .inl ⟨rfl, htail⟩
  | cons y v => exact .inr ⟨v, by rw [← htail.1]; rfl⟩

/-- The loop of `free` stops only at the last header before `bp`. -/
theorem FreeList.fits_iff (h : FreeList L mem bs) {u v : List ℕ} {p bp : ℕ}
    (hnodes : nodes L bs = u ++ p :: v) (hp : p < bp) (hv : ∀ x ∈ v, bp < x)
    {x : ℕ} (hx : x ∈ nodes L bs) : Fits mem bp x ↔ x = p := by
  have hsorted := h.sorted_nodes
  have hbp : L.base < bp := (h.base_le (by simp [hnodes])).trans_lt hp
  constructor
  · intro hfits
    by_contra hne
    rw [hnodes] at hx
    rcases List.mem_append.mp hx with hx | hx
    · -- a header before `p` points at most to `p`
      obtain ⟨a, c, rfl⟩ := List.append_of_mem hx
      rw [List.append_assoc, List.cons_append] at hnodes
      rcases h.next_cases hnodes with ⟨hnil, -⟩ | ⟨v', hv'⟩
      · simp at hnil
      rw [hnodes, List.pairwise_append, List.pairwise_cons] at hsorted
      obtain ⟨-, ⟨hlt, hrest⟩, -⟩ := hsorted
      have hlt' := hlt (mem x).ptr (by simp [hv'])
      have hle : (mem x).ptr ≤ p := by
        cases c with
        | nil => exact (List.cons.inj hv').1.ge
        | cons y c =>
          obtain rfl : y = _ := (List.cons.inj hv').1
          exact ((List.pairwise_cons.mp hrest).1 p (by simp)).le
      unfold Fits at hfits
      omega
    · -- a header behind `p` lies behind `bp`
      have hxv : x ∈ v := (List.mem_cons.mp hx).resolve_left hne
      have hbpx := hv x hxv
      obtain ⟨a, c, rfl⟩ := List.append_of_mem hxv
      have hnodes' : nodes L bs = (u ++ p :: a) ++ x :: c := by simp [hnodes]
      rcases h.next_cases hnodes' with ⟨-, hbase⟩ | ⟨v', rfl⟩
      · rw [Fits, hbase] at hfits
        omega
      · rw [hnodes', List.pairwise_append, List.pairwise_cons] at hsorted
        have hlt := hsorted.2.1.1 (mem x).ptr List.mem_cons_self
        unfold Fits at hfits
        omega
  · rintro rfl
    rcases h.next_cases hnodes with ⟨-, hbase⟩ | ⟨v', rfl⟩
    · right
      rw [hbase]
      exact ⟨h.base_le hx, .inl hp⟩
    · exact .inl ⟨hp, hv _ List.mem_cons_self⟩

theorem length_nodes (L : Layout) (bs : List Block) : (nodes L bs).length = bs.length + 1 := by
  simp [nodes]

/-- From any header the loop of `free` reaches the place of the block. -/
theorem FreeList.seek_fits (h : FreeList L mem bs) {u v : List ℕ} {p bp f fuel : ℕ}
    (hnodes : nodes L bs = u ++ p :: v) (hp : p < bp) (hv : ∀ x ∈ v, bp < x)
    (hf : f ∈ nodes L bs) (hfuel : bs.length < fuel) :
    seek (next mem) (Fits mem bp) fuel f = some p := by
  have hring := h.ring
  have hfits : ∀ {x}, x ∈ nodes L bs → (Fits mem bp x ↔ x = p) :=
    fun hx => h.fits_iff hnodes hp hv hx
  obtain ⟨a, c, hac⟩ := List.append_of_mem hf
  have hperm : ∀ x, x ∈ f :: c ++ a ↔ x ∈ nodes L bs := by
    intro x
    rw [hac]
    simp [or_comm, or_left_comm]
  have hlen := length_nodes L bs
  rw [hac] at hring hlen
  have hpmem : p ∈ nodes L bs := by simp [hnodes]
  obtain ⟨u', y, v', heq, hbefore, hy⟩ := exists_first (p := Fits mem bp) (l := f :: c ++ a)
    ⟨p, (hperm p).mpr hpmem, (hfits hpmem).mpr rfl⟩
  have hymem : y ∈ nodes L bs := (hperm y).mp (by simp [heq])
  obtain rfl := (hfits hymem).mp hy
  have hrot := hring.rotate
  rw [heq] at hrot
  refine hrot.seek hbefore hy ?_
  have hlen' := congrArg List.length heq
  simp only [List.length_append, List.length_cons] at hlen hlen'
  omega

/-! ## Joining -/

/-- The block behind `p` once `joinNext` has run: its header, and the list behind it. -/
structure Joined (L : Layout) (mem : ℕ → Header) (b : Block) (r : List Block) (b' : Block)
    (r' : List Block) (ptr : ℕ) : Prop where
  addr : b'.addr = b.addr
  le : b.size ≤ b'.size
  tail : Segment (next mem) ptr (r'.map Block.addr) L.base
  sub : r' <:+ r
  gap : ∀ a ∈ r', b'.stop < a.addr
  cover : Span.cover ((b' :: r').map Block.span) = Span.cover ((b :: r).map Block.span)
  units : units (b' :: r') = units (b :: r)

theorem joinNext_spec {p : ℕ} (h : FreeList L mem (l ++ r)) (hb : (mem b.addr).size = b.size)
    (hbase : L.base < b.addr) (htail : Segment (next mem) (mem p).ptr (r.map Block.addr) L.base)
    (hgap : ∀ a ∈ r, b.stop ≤ a.addr) (hsmall : units (b :: r) < 2 ^ 32) :
    ∃ b' r' ptr, Joined L mem b r b' r' ptr ∧
      joinNext mem b.addr p = update mem b.addr ⟨ptr, b'.size⟩ := by
  have hstop : b.addr + HEADER * (mem b.addr).size = b.stop := by rw [hb, Block.stop]
  cases r with
  | nil =>
    have hptr : (mem p).ptr = L.base := htail
    have hne : b.stop ≠ (mem p).ptr := by
      have := b.addr_le_stop
      omega
    refine ⟨b, [], (mem p).ptr, ⟨rfl, le_rfl, htail, List.nil_suffix, by simp, rfl, rfl⟩, ?_⟩
    rw [joinNext, hstop, if_neg hne, hb]
  | cons a r =>
    obtain ⟨hptr, htail'⟩ := htail
    have hsorted := (List.pairwise_append.mp h.sorted).2.1
    rw [List.pairwise_cons] at hsorted
    have hsize : (mem a.addr).size = a.size := h.size a (by simp)
    by_cases hjoin : b.stop = a.addr
    · have hend : b.addr + HEADER * (b.size + a.size) = a.stop := by
        rw [Block.stop, ← hjoin, Block.stop]
        ring
      have hsum : (b.size + a.size) % 2 ^ 32 = b.size + a.size := by
        refine Nat.mod_eq_of_lt ?_
        simp only [units, List.map_cons, List.sum_cons] at hsmall
        omega
      refine ⟨⟨b.addr, b.size + a.size⟩, r, (mem a.addr).ptr,
        ⟨rfl, Nat.le_add_right _ _, htail', List.suffix_cons a r, ?_, ?_, ?_⟩, ?_⟩
      · intro c hc
        rw [Block.stop, hend]
        exact hsorted.1 c hc
      · have hspan : Block.span ⟨b.addr, b.size + a.size⟩ = ⟨b.addr, a.stop⟩ := by
          rw [Block.span, Block.stop, hend]
        rw [List.map_cons, hspan, Span.cover_join b.addr_le_stop (hjoin ▸ a.addr_le_stop)]
        rw [List.map_cons, List.map_cons, Block.span, Block.span, hjoin]
      · simp only [units, List.map_cons, List.sum_cons]
        omega
      · rw [joinNext, hstop, hptr, if_pos hjoin, hb, hsize, hsum]
    · have hlt : b.stop < a.addr := lt_of_le_of_ne (hgap a List.mem_cons_self) hjoin
      refine ⟨b, a :: r, (mem p).ptr,
        ⟨rfl, le_rfl, ⟨hptr, htail'⟩, List.suffix_rfl, ?_, rfl, rfl⟩, ?_⟩
      · intro c hc
        rcases List.mem_cons.mp hc with rfl | hc
        · exact hlt
        · exact hlt.trans (a.addr_le_stop.trans_lt (hsorted.1 c hc))
      · rw [joinNext, hstop, hptr, if_neg hjoin, hb]

/-- What `free` does to the list when the block `b` belongs between `l` and `r`. -/
structure Inserted (L : Layout) (mem mem' : ℕ → Header) (l : List Block) (b : Block)
    (r bs' : List Block) : Prop where
  list : FreeList L mem' bs'
  addr : ∀ c ∈ bs', c.addr = b.addr ∨ ∃ a ∈ l ++ r, c.addr = a.addr
  grown : ∃ c ∈ bs', b.size ≤ c.size
  cover : Span.cover (bs'.map Block.span) = Span.cover ((l ++ b :: r).map Block.span)
  units : units bs' = units (l ++ b :: r)
  length : bs'.length ≤ l.length + r.length + 1
  frame : ∀ x, x ∉ nodes L (l ++ r) → x ≠ b.addr → mem' x = mem x

section insert

variable {u : List ℕ} {p : ℕ}

theorem units_append (as bs : List Block) : units (as ++ bs) = units as + units bs := by
  simp [units]

theorem cover_map_append (as bs : List Block) :
    Span.cover ((as ++ bs).map Block.span) =
      fun x => Span.cover (as.map Block.span) x + Span.cover (bs.map Block.span) x := by
  funext x
  rw [List.map_append, Span.cover_append]

theorem Joined.lt {b' : Block} {r' : List Block} {ptr x : ℕ} (hj : Joined L mem b r b' r' ptr)
    (hx : x ∈ r'.map Block.addr) : b.addr < x := by
  obtain ⟨a, ha, rfl⟩ := List.mem_map.mp hx
  rw [← hj.addr]
  exact b'.addr_le_stop.trans_lt (hj.gap a ha)

/-- The blocks `m` of the list are replaced by one block `c`, and perhaps the
first blocks of the rest are dropped. -/
theorem FreeList.splice {mem' : ℕ → Header} {m r' : List Block} {c : Block}
    (h : FreeList L mem (l ++ m ++ r)) (hsub : r' <:+ r)
    (hring : Segment (next mem') L.base (nodes L l ++ c.addr :: r'.map Block.addr) L.base)
    (hkeep : ∀ x ∈ nodes L (l ++ r'), (mem' x).size = (mem x).size)
    (hsize : (mem' c.addr).size = c.size) (hpos : 0 < c.size) (hbase : L.base < c.addr)
    (hl : ∀ a ∈ l, a.stop < c.addr) (hr : ∀ a ∈ r', c.stop < a.addr) :
    FreeList L mem' (l ++ c :: r') := by
  have hmem : ∀ a ∈ l ++ r', a ∈ l ++ m ++ r := by
    intro a ha
    rcases List.mem_append.mp ha with ha | ha
    · exact List.mem_append_left _ (List.mem_append_left _ ha)
    · exact List.mem_append_right _ (hsub.subset ha)
  have hold : ∀ a ∈ l ++ c :: r', a = c ∨ a ∈ l ++ r' := by
    intro a ha
    rcases List.mem_append.mp ha with ha | ha
    · exact .inr (List.mem_append_left _ ha)
    rcases List.mem_cons.mp ha with rfl | ha
    · exact .inl rfl
    · exact .inr (List.mem_append_right _ ha)
  refine ⟨?_, ?_, ?_, ?_, ?_, ?_⟩
  · have happ : nodes L (l ++ c :: r') = nodes L l ++ c.addr :: r'.map Block.addr := by
      simp [nodes]
    rwa [happ]
  · rw [hkeep _ List.mem_cons_self, h.base_size]
  · intro a ha
    rcases hold a ha with rfl | ha
    · exact hsize
    · rw [hkeep _ (List.mem_cons_of_mem _ (List.mem_map_of_mem ha))]
      exact h.size a (hmem a ha)
  · intro a ha
    rcases hold a ha with rfl | ha
    · exact hpos
    · exact h.pos a (hmem a ha)
  · intro a ha
    rcases hold a ha with rfl | ha
    · exact hbase
    · exact h.above a (hmem a ha)
  · obtain ⟨hlm, hsr, hcross⟩ := List.pairwise_append.mp h.sorted
    refine List.pairwise_append.mpr ⟨(List.pairwise_append.mp hlm).1,
      List.pairwise_cons.mpr ⟨hr, hsr.sublist hsub.sublist⟩, ?_⟩
    intro a ha d hd
    rcases List.mem_cons.mp hd with rfl | hd
    · exact hl a ha
    · exact hcross a (List.mem_append_left _ ha) d (hsub.subset hd)

theorem Joined.mem_of_mem {b' c : Block} {r' : List Block} {ptr : ℕ}
    (hj : Joined L mem b r b' r' ptr) (hc : c ∈ r') : c ∈ r := hj.sub.subset hc

theorem FreeList.insert_apart {b' : Block} {r' : List Block} {ptr : ℕ}
    (h : FreeList L mem (l ++ r)) (hj : Joined L mem b r b' r' ptr) (hpos : 0 < b.size)
    (hbase : L.base < b.addr) (hl : ∀ a ∈ l, a.stop < b.addr) (hp : p < b.addr)
    (hnodes : nodes L (l ++ r) = u ++ p :: r.map Block.addr) (hup : u ++ [p] = nodes L l) :
    Inserted L mem (update (update mem b.addr ⟨ptr, b'.size⟩) p
      ⟨b.addr, (mem p).size⟩) l b r (l ++ b' :: r') := by
  set mem' := update (update mem b.addr ⟨ptr, b'.size⟩) p ⟨b.addr, (mem p).size⟩
    with hmem'
  have hother : ∀ x, x ≠ p → x ≠ b.addr → mem' x = mem x := by
    intro x hxp hxb
    rw [hmem', update_of_ne hxp, update_of_ne hxb]
  have hself : mem' p = ⟨b.addr, (mem p).size⟩ := update_self _ _ _
  have hnew : mem' b.addr = ⟨ptr, b'.size⟩ := by
    rw [hmem', update_of_ne hp.ne', update_self]
  have hring := h.ring
  have hsorted := h.sorted_nodes
  rw [hnodes] at hring hsorted
  obtain ⟨hhead, -⟩ := hring.split
  have hu : ∀ x ∈ u, x < p := fun x hx =>
    (List.pairwise_append.mp hsorted).2.2 x hx p List.mem_cons_self
  have hlist : FreeList L mem' (l ++ b' :: r') := by
    have h' : FreeList L mem (l ++ [] ++ r) := by rwa [List.append_nil]
    refine h'.splice hj.sub ?_ ?_ ?_ (hpos.trans_le hj.le) (hj.addr ▸ hbase) ?_ hj.gap
    · rw [← hup, List.append_assoc, hj.addr]
      refine (hhead.congr fun x hx => ?_).append ⟨rfl, ?_, ?_⟩
      · rw [next, hother x (hu x hx).ne ((hu x hx).trans hp).ne]
        rfl
      · rw [next, hself]
      · rw [next, hnew]
        refine hj.tail.congr fun x hx => ?_
        rw [next, hother x (hp.trans (hj.lt hx)).ne' (hj.lt hx).ne']
        rfl
    · intro x hx
      have hxb : x ≠ b.addr := by
        rintro rfl
        rcases List.mem_cons.mp hx with heq | hx
        · exact hbase.ne' heq
        rw [List.map_append] at hx
        rcases List.mem_append.mp hx with hx | hx
        · obtain ⟨a, ha, heq⟩ := List.mem_map.mp hx
          exact (a.addr_le_stop.trans_lt (hl a ha)).ne heq
        · exact (hj.lt hx).ne rfl
      by_cases hxp : x = p
      · rw [hxp, hself]
      · rw [hother x hxp hxb]
    · rw [hj.addr, hnew]
    · intro a ha
      rw [hj.addr]
      exact hl a ha
  refine ⟨hlist, ?_, ⟨b', by simp, hj.le⟩, ?_, ?_, ?_, ?_⟩
  · intro c hc
    rcases List.mem_append.mp hc with hc | hc
    · exact .inr ⟨c, List.mem_append_left _ hc, rfl⟩
    rcases List.mem_cons.mp hc with rfl | hc
    · exact .inl hj.addr
    · exact .inr ⟨c, List.mem_append_right _ (hj.mem_of_mem hc), rfl⟩
  · rw [cover_map_append, cover_map_append, hj.cover]
  · rw [units_append, units_append, hj.units]
  · have hlen := hj.sub.length_le
    rw [List.length_append, List.length_cons]
    omega
  · intro x hx hxb
    refine hother x ?_ hxb
    rintro rfl
    exact hx (by simp [hnodes])

theorem FreeList.insert_joined {a b' : Block} {r' : List Block} {ptr : ℕ}
    (h : FreeList L mem (l ++ [a] ++ r)) (hj : Joined L mem b r b' r' ptr)
    (hstop : a.stop = b.addr) :
    Inserted L mem (update (update mem b.addr ⟨ptr, b'.size⟩) a.addr
      ⟨ptr, a.size + b'.size⟩) (l ++ [a]) b r (l ++ ⟨a.addr, a.size + b'.size⟩ :: r') := by
  set mem' := update (update mem b.addr ⟨ptr, b'.size⟩) a.addr
    ⟨ptr, a.size + b'.size⟩ with hmem'
  have hother : ∀ x, x ≠ a.addr → x ≠ b.addr → mem' x = mem x := by
    intro x hxa hxb
    rw [hmem', update_of_ne hxa, update_of_ne hxb]
  have hself : mem' a.addr = ⟨ptr, a.size + b'.size⟩ := update_self _ _ _
  have ha : a ∈ l ++ [a] ++ r := by simp
  have hab : a.addr < b.addr := by
    have hpos := h.pos a ha
    simp only [Block.stop, HEADER] at hstop
    omega
  have hring := h.ring
  have hsorted := h.sorted_nodes
  have hnodes : nodes L (l ++ [a] ++ r) = nodes L l ++ a.addr :: r.map Block.addr := by
    simp [nodes]
  rw [hnodes] at hring hsorted
  obtain ⟨hhead, -⟩ := hring.split
  have hu : ∀ x ∈ nodes L l, x < a.addr := fun x hx =>
    (List.pairwise_append.mp hsorted).2.2 x hx _ List.mem_cons_self
  have hend : a.addr + HEADER * (a.size + b'.size) = b'.stop := by
    rw [Block.stop, hj.addr, ← hstop, Block.stop]
    ring
  have hlist : FreeList L mem' (l ++ ⟨a.addr, a.size + b'.size⟩ :: r') := by
    refine h.splice hj.sub ?_ ?_ (by rw [hself]) ?_ (h.above a ha) ?_ ?_
    · refine (hhead.congr fun x hx => ?_).append ⟨rfl, ?_⟩
      · rw [next, hother x (hu x hx).ne ((hu x hx).trans hab).ne]
        rfl
      · rw [next, hself]
        refine hj.tail.congr fun x hx => ?_
        rw [next, hother x (hab.trans (hj.lt hx)).ne' (hj.lt hx).ne']
        rfl
    · intro x hx
      have hx' : x ∈ nodes L l ∨ x ∈ r'.map Block.addr := by
        simpa [nodes, or_assoc] using hx
      rcases hx' with hx | hx
      · rw [hother x (hu x hx).ne ((hu x hx).trans hab).ne]
      · rw [hother x (hab.trans (hj.lt hx)).ne' (hj.lt hx).ne']
    · exact Nat.add_pos_left (h.pos a ha) _
    · intro c hc
      exact (List.pairwise_append.mp (List.pairwise_append.mp h.sorted).1).2.2 c hc a
        List.mem_cons_self
    · intro c hc
      rw [Block.stop, hend]
      exact hj.gap c hc
  have hcover : Span.cover ((⟨a.addr, a.size + b'.size⟩ :: r' : List Block).map Block.span) =
      Span.cover ((a :: b :: r).map Block.span) := by
    have hspan : Block.span ⟨a.addr, a.size + b'.size⟩ = ⟨a.addr, b'.stop⟩ := by
      rw [Block.span, Block.stop, hend]
    have hle : b.addr ≤ b'.stop := hj.addr ▸ b'.addr_le_stop
    rw [List.map_cons, hspan, Span.cover_join (hstop ▸ a.addr_le_stop) hle]
    have hb' : (⟨b.addr, b'.stop⟩ : Span) = b'.span := by rw [Block.span, hj.addr]
    have ha' : (⟨a.addr, b.addr⟩ : Span) = a.span := by rw [Block.span, hstop]
    rw [hb', ha']
    funext x
    have hx := congrFun hj.cover x
    simp only [List.map_cons, Span.cover_cons] at hx ⊢
    omega
  refine ⟨hlist, ?_, ⟨⟨a.addr, a.size + b'.size⟩, by simp, ?_⟩, ?_, ?_, ?_, ?_⟩
  · intro c hc
    rcases List.mem_append.mp hc with hc | hc
    · exact .inr ⟨c, by simp [hc], rfl⟩
    rcases List.mem_cons.mp hc with rfl | hc
    · exact .inr ⟨a, ha, rfl⟩
    · exact .inr ⟨c, List.mem_append_right _ (hj.mem_of_mem hc), rfl⟩
  · exact hj.le.trans (Nat.le_add_left _ _)
  · rw [List.append_assoc, cover_map_append, cover_map_append, hcover]
    rfl
  · have hunits := hj.units
    simp only [units, List.map_append, List.map_cons, List.sum_append, List.sum_cons,
      List.map_nil, List.sum_nil] at hunits ⊢
    omega
  · have hlen := hj.sub.length_le
    simp only [List.length_append, List.length_cons, List.length_nil]
    omega
  · intro x hx hxb
    refine hother x ?_ hxb
    rintro rfl
    rw [hnodes] at hx
    exact hx (by simp)

theorem FreeList.insert (h : FreeList L mem (l ++ r)) (hb : (mem b.addr).size = b.size)
    (hpos : 0 < b.size) (hbase : L.base < b.addr) (hl : ∀ a ∈ l, a.stop ≤ b.addr)
    (hr : ∀ a ∈ r, b.stop ≤ a.addr) (hsmall : units (l ++ b :: r) < 2 ^ 32)
    (hnodes : nodes L (l ++ r) = u ++ p :: r.map Block.addr) (hup : u ++ [p] = nodes L l)
    (hp : p < b.addr) :
    ∃ bs', Inserted L mem (joinPrev (joinNext mem b.addr p) b.addr p) l b r bs' ∧
      p ∈ nodes L bs' := by
  have hring := h.ring
  rw [hnodes] at hring
  obtain ⟨hhead, -, htail⟩ := hring.split
  have hsmall' : units (b :: r) < 2 ^ 32 := by
    rw [units_append] at hsmall
    omega
  obtain ⟨b', r', ptr, hj, hmem⟩ := joinNext_spec h hb hbase htail hr hsmall'
  have hmemp : update mem b.addr ⟨ptr, b'.size⟩ p = mem p := update_of_ne hp.ne _ _
  rw [hmem, joinPrev, hmemp, update_self]
  rcases List.eq_nil_or_concat l with rfl | ⟨l, a, rfl⟩
  · -- the block becomes the first one, and `base` has no units
    have hup' : u ++ [p] = [] ++ [L.base] := hup
    have hpbase : p = L.base := List.singleton_inj.mp (List.append_inj' hup' rfl).2
    have hne : p + HEADER * (mem p).size ≠ b.addr := by
      rw [hpbase, h.base_size]
      exact hbase.ne
    rw [if_neg hne]
    refine ⟨_, h.insert_apart hj hpos hbase (by simp) hp hnodes hup, ?_⟩
    rw [hpbase]
    exact List.mem_cons_self
  · rw [List.concat_eq_append] at *
    have hup' : u = nodes L l ∧ p = a.addr := by
      have happ : nodes L (l ++ [a]) = nodes L l ++ [a.addr] := by simp [nodes]
      rw [happ] at hup
      obtain ⟨hu, hp⟩ := List.append_inj' hup rfl
      exact ⟨hu, List.singleton_inj.mp hp⟩
    obtain ⟨rfl, rfl⟩ := hup'
    have hsize : (mem a.addr).size = a.size := h.size a (by simp)
    have hstop : a.addr + HEADER * (mem a.addr).size = a.stop := by rw [hsize, Block.stop]
    rw [hstop, hsize]
    by_cases hjoin : a.stop = b.addr
    · rw [if_pos hjoin]
      have hsum : (a.size + b'.size) % 2 ^ 32 = a.size + b'.size := by
        refine Nat.mod_eq_of_lt ?_
        have hunits := hj.units
        simp only [units, List.map_append, List.map_cons, List.sum_append, List.sum_cons,
          List.map_nil, List.sum_nil] at hunits hsmall
        omega
      rw [hsum]
      exact ⟨_, h.insert_joined hj hjoin, by simp [nodes]⟩
    · rw [if_neg hjoin, ← hsize]
      refine ⟨_, h.insert_apart hj hpos hbase ?_ hp hnodes hup, by simp [nodes]⟩
      intro c hc
      rcases List.mem_append.mp hc with hc' | hc'
      · have hlt := (List.pairwise_append.mp (List.pairwise_append.mp h.sorted).1).2.2 c hc' a
          List.mem_cons_self
        exact hlt.trans hp
      · rw [List.mem_singleton.mp hc']
        exact lt_of_le_of_ne (hl a (by simp)) hjoin

end insert

/-! ## Taking blocks out -/

/-- What `malloc` does to the list when it takes the block `b`. -/
structure Carved (L : Layout) (mem mem' : ℕ → Header) (bs : List Block) (b : Block)
    (bs' : List Block) : Prop where
  list : FreeList L mem' bs'
  addr : ∀ c ∈ bs', ∃ a ∈ bs, c.addr = a.addr
  size : (mem' b.addr).size = b.size
  aligned : (∀ a ∈ bs, HEADER ∣ a.addr) → HEADER ∣ b.addr
  cover : Span.cover ((b :: bs').map Block.span) = Span.cover (bs.map Block.span)
  units : units (b :: bs') = units bs
  frame : ∀ x, x ∉ nodes L bs → x ≠ b.addr → mem' x = mem x

section carve

variable {u : List ℕ} {prevp nunits : ℕ}

theorem exists_block {v : List ℕ} {x y : ℕ} (h : nodes L bs = u ++ x :: y :: v) :
    ∃ l b r, bs = l ++ b :: r ∧ u ++ [x] = nodes L l ∧ b.addr = y := by
  have htail : bs.map Block.addr = (u ++ [x]).tail ++ y :: v := by
    have := congrArg List.tail h
    cases u with
    | nil => exact this
    | cons a u =>
      rw [nodes, List.tail_cons] at this
      rw [this]
      simp
  have hhead : u ++ [x] = L.base :: (u ++ [x]).tail := by
    have hne : u ++ [x] ≠ [] := by simp
    have hcons := (List.cons_head_tail hne).symm
    have hbase : (u ++ [x]).head hne = L.base := by
      have := congrArg List.head? h
      cases u with
      | nil | cons a u => exact (Option.some.inj this).symm
    rwa [hbase] at hcons
  obtain ⟨l, r, rfl, hl, hr⟩ := List.map_eq_append_iff.mp htail
  obtain ⟨b, r, rfl, hb, -⟩ := List.map_eq_cons_iff.mp hr
  exact ⟨l, b, r, rfl, by rw [hhead, nodes, hl], hb⟩

theorem FreeList.unlink (h : FreeList L mem (l ++ b :: r)) (hup : u ++ [prevp] = nodes L l) :
    Carved L mem (update mem prevp ⟨(mem b.addr).ptr, (mem prevp).size⟩) (l ++ b :: r) b
      (l ++ r) := by
  set mem' := update mem prevp ⟨(mem b.addr).ptr, (mem prevp).size⟩ with hmem'
  have hother : ∀ x, x ≠ prevp → mem' x = mem x := fun x hx => update_of_ne hx _ _
  have hsize : ∀ x, (mem' x).size = (mem x).size := by
    intro x
    by_cases hx : x = prevp
    · rw [hx, hmem', update_self]
    · rw [hother x hx]
  have hring := h.ring
  have hnodup := h.nodup
  have hnodes : nodes L (l ++ b :: r) = u ++ prevp :: b.addr :: r.map Block.addr := by
    have happ : nodes L (l ++ b :: r) = nodes L l ++ b.addr :: r.map Block.addr := by
      simp [nodes]
    rw [happ, ← hup]
    simp
  rw [hnodes] at hring hnodup
  obtain ⟨hhead, -, -, htail⟩ := hring.split
  obtain ⟨-, hnd, hdisj⟩ := List.nodup_append.mp hnodup
  rw [List.nodup_cons] at hnd
  have hprev : prevp ∈ nodes L (l ++ b :: r) := by
    rw [hnodes]
    simp
  have hsub : (l ++ r).Sublist (l ++ b :: r) := (List.sublist_cons_self b r).append_left l
  have hlist : FreeList L mem' (l ++ r) := by
    refine ⟨?_, ?_, ?_, ?_, ?_, ?_⟩
    · have hnodes' : nodes L (l ++ r) = u ++ prevp :: r.map Block.addr := by
        have happ : nodes L (l ++ r) = nodes L l ++ r.map Block.addr := by simp [nodes]
        rw [happ, ← hup]
        simp
      rw [hnodes']
      refine (hhead.congr fun x hx => ?_).append ⟨rfl, ?_⟩
      · rw [next, hother x (hdisj x hx prevp List.mem_cons_self)]
        rfl
      · rw [next, hmem', update_self]
        refine htail.congr fun x hx => ?_
        have hne : x ≠ prevp := by
          rintro rfl
          exact hnd.1 (List.mem_cons_of_mem _ hx)
        rw [next, update_of_ne hne]
        rfl
    · rw [hsize, h.base_size]
    · intro c hc
      rw [hsize]
      exact h.size c (hsub.subset hc)
    · exact fun c hc => h.pos c (hsub.subset hc)
    · exact fun c hc => h.above c (hsub.subset hc)
    · exact h.sorted.sublist hsub
  refine ⟨hlist, fun c hc => ⟨c, hsub.subset hc, rfl⟩, ?_, fun hal => hal b (by simp), ?_, ?_, ?_⟩
  · rw [hsize]
    exact h.size b (by simp)
  · exact Span.cover_perm (List.perm_middle.symm.map _)
  · simp only [units, List.map_cons, List.map_append, List.sum_cons, List.sum_append]
    omega
  · intro x hx _
    refine hother x ?_
    rintro rfl
    exact hx hprev

theorem FreeList.cut (h : FreeList L mem (l ++ b :: r)) (hpos : 0 < nunits)
    (hlt : nunits < b.size) {q : ℕ} (hq : q = b.addr + HEADER * (b.size - nunits)) {ptr : ℕ} :
    Carved L mem (update (update mem b.addr
        ⟨(mem b.addr).ptr, b.size - nunits⟩) q ⟨ptr, nunits⟩) (l ++ b :: r) ⟨q, nunits⟩
      (l ++ ⟨b.addr, b.size - nunits⟩ :: r) := by
  set mem' := update (update mem b.addr ⟨(mem b.addr).ptr, b.size - nunits⟩) q
    ⟨ptr, nunits⟩ with hmem'
  have hbq : b.addr < q ∧ q < b.stop := by
    rw [hq, Block.stop]
    unfold HEADER
    omega
  have hother : ∀ x, x ≠ b.addr → x ≠ q → mem' x = mem x := by
    intro x hxb hxq
    rw [hmem', update_of_ne hxq, update_of_ne hxb]
  have hself : mem' b.addr = ⟨(mem b.addr).ptr, b.size - nunits⟩ := by
    rw [hmem', update_of_ne hbq.1.ne, update_self]
  obtain ⟨-, hsr, hcross⟩ := List.pairwise_append.mp h.sorted
  rw [List.pairwise_cons] at hsr
  have hbmem : b ∈ l ++ b :: r := by simp
  have hnodes : nodes L (l ++ b :: r) = nodes L l ++ b.addr :: r.map Block.addr := by
    simp [nodes]
  -- the new header lies inside the block, so it is no header of the list
  have hl : ∀ x ∈ nodes L l, x < b.addr := by
    have hsorted := h.sorted_nodes
    rw [hnodes] at hsorted
    exact fun x hx => (List.pairwise_append.mp hsorted).2.2 x hx _ List.mem_cons_self
  have hr : ∀ x ∈ r.map Block.addr, b.stop < x := by
    intro x hx
    obtain ⟨c, hc, rfl⟩ := List.mem_map.mp hx
    exact hsr.1 c hc
  have hring := h.ring
  rw [hnodes] at hring
  obtain ⟨hhead, -, htail⟩ := hring.split
  have hend : b.addr + HEADER * (b.size - nunits) = q := hq.symm
  have hlist : FreeList L mem' (l ++ ⟨b.addr, b.size - nunits⟩ :: r) := by
    have h' : FreeList L mem (l ++ [b] ++ r) := by rwa [List.append_assoc]
    refine h'.splice List.suffix_rfl ?_ ?_ (by rw [hself]) (Nat.sub_pos_of_lt hlt)
      (h.above b hbmem) (fun a ha => hcross a ha b List.mem_cons_self) ?_
    · refine (hhead.congr fun x hx => ?_).append ⟨rfl, ?_⟩
      · rw [next, hother x (hl x hx).ne ((hl x hx).trans hbq.1).ne]
        rfl
      · rw [next, hself]
        refine htail.congr fun x hx => ?_
        have hlt := hr x hx
        rw [next, hother x (by omega) (by omega)]
        rfl
    · intro x hx
      have hx' : x ∈ nodes L l ∨ x ∈ r.map Block.addr := by
        simpa [nodes, or_assoc] using hx
      rcases hx' with hx | hx
      · rw [hother x (hl x hx).ne ((hl x hx).trans hbq.1).ne]
      · have hlt := hr x hx
        rw [hother x (by omega) (by omega)]
    · intro c hc
      rw [Block.stop, hend]
      exact hbq.2.trans (hsr.1 c hc)
  refine ⟨hlist, ?_, ?_, ?_, ?_, ?_, ?_⟩
  · intro c hc
    rcases List.mem_append.mp hc with hc | hc
    · exact ⟨c, by simp [hc], rfl⟩
    rcases List.mem_cons.mp hc with rfl | hc
    · exact ⟨b, hbmem, rfl⟩
    · exact ⟨c, by simp [hc], rfl⟩
  · rw [hmem', update_self]
  · intro hal
    rw [hq]
    exact (hal b hbmem).add (Dvd.intro _ rfl)
  · have hqs : q + HEADER * nunits = b.stop := by
      rw [hq, Block.stop]
      unfold HEADER
      omega
    have hjoin := Span.cover_join hbq.1.le hbq.2.le
    funext x
    have hx := congrFun (hjoin []) x
    simp only [List.map_cons, List.map_append, Span.cover_cons, Span.cover_append, Span.cover_nil,
      Block.span, Block.stop, hend, hqs] at hx ⊢
    omega
  · simp only [units, List.map_cons, List.map_append, List.sum_cons, List.sum_append]
    omega
  · intro x hx hxq
    refine hother x ?_ hxq
    rintro rfl
    rw [hnodes] at hx
    exact hx (by simp)

theorem FreeList.carve (h : FreeList L mem bs) (hprev : prevp ∈ nodes L bs) (hpos : 0 < nunits)
    (hle : nunits ≤ (mem (mem prevp).ptr).size) :
    ∃ bs' q, Carved L mem (carve mem nunits prevp (mem prevp).ptr).1 bs ⟨q, nunits⟩ bs' ∧
      (Umalloc.carve mem nunits prevp (mem prevp).ptr).2 = q ∧ prevp ∈ nodes L bs' := by
  obtain ⟨u, v, hnodes⟩ := List.append_of_mem hprev
  rcases h.next_cases hnodes with ⟨-, hbase⟩ | ⟨v', rfl⟩
  · rw [hbase, h.base_size] at hle
    omega
  -- the block behind `prevp`
  obtain ⟨l, b, r, rfl, hup, hb⟩ := exists_block hnodes
  have hsize : (mem b.addr).size = b.size := h.size b (by simp)
  rw [← hb] at hle ⊢
  rw [hsize] at hle
  unfold Umalloc.carve
  have hprev' : prevp ∈ nodes L l := by
    rw [← hup]
    simp
  by_cases heq : (mem b.addr).size = nunits
  · rw [if_pos heq]
    have hnun : b = ⟨b.addr, nunits⟩ := by rw [← heq, hsize]
    refine ⟨l ++ r, b.addr, ?_, rfl, ?_⟩
    · rw [← hnun]
      exact h.unlink hup
    · simp only [nodes, List.map_append, List.mem_cons, List.mem_append] at hprev' ⊢
      tauto
  · rw [if_neg heq, hsize]
    rw [hsize] at heq
    refine ⟨_, _, h.cut hpos (lt_of_le_of_ne hle (Ne.symm heq)) rfl, rfl, ?_⟩
    simp only [nodes, List.map_append, List.mem_cons, List.mem_append] at hprev' ⊢
    tauto

end carve

end Xv6.Umalloc
