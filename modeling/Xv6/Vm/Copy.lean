import Xv6.Vm.Map
import Xv6.Mem.Memmove

/-!
# Copies between the kernel and a user

`copyout`, `copyin` and `copyinstr` go page by page.  Each round moves the bytes of one
page between the kernel's buffer and the page that the user's address is mapped to; user
pages are not tables, so the mapping stays the same from round to round.
-/

namespace Xv6.Vm

open Lib

variable {k k' k₁ : Kernel} {m m' : Bytes} {r n b p v w len max dst src srcva dstva : ℕ}
  {write : Bool}

/-! ## User pages -/

/-- The entry lets a user read its page, and also write to it if `write`. -/
def UserPte (write : Bool) (pte : ℕ) : Prop :=
  pte &&& PTE_V ≠ 0 ∧ pte &&& PTE_U ≠ 0 ∧ (write → pte &&& PTE_W ≠ 0)

/-- A user can reach the address, for writing if `write`. -/
def Reach (write : Bool) (m : Bytes) (r v : ℕ) : Prop := v < MAXVA ∧ UserPte write (leaf m r v)

/-- The physical address that the page table gives to an address. -/
def place (m : Bytes) (r v : ℕ) : ℕ := PGSIZE * frame (leaf m r v) + v % PGSIZE

/-- The page table is a tree with the user's pages as its leaves: they differ from each
other, from the tables and from page 0. -/
structure UserPages (m : Bytes) (r : ℕ) : Prop extends IsTree m r where
  user_ne_zero : ∀ v, Reach false m r v → frame (leaf m r v) ≠ 0
  user_inj : ∀ v w, Reach false m r v → Reach false m r w →
    frame (leaf m r v) = frame (leaf m r w) → v / PGSIZE = w / PGSIZE
  user_apart : ∀ v, Reach false m r v → frame (leaf m r v) ∉ Tables m r

/-- The physical address of a byte that a user can read, or write if `write`. -/
def Kernel.userAddr (k : Kernel) (r : ℕ) (write : Bool) (v : ℕ) : Option ℕ :=
  if MAXVA ≤ v then none
  else
    match k.lookup (PGSIZE * r) v with
    | .ok (some (pa, flags)) =>
      if flags &&& PTE_U ≠ 0 ∧ (write → flags &&& PTE_W ≠ 0) then some pa else none
    | _ => none

theorem UserPte.read {pte : ℕ} (h : UserPte write pte) : UserPte false pte :=
  ⟨h.1, h.2.1, fun hw => by cases hw⟩

theorem Reach.read (h : Reach write m r v) : Reach false m r v := ⟨h.1, h.2.read⟩

theorem lt_maxva_iff : v < MAXVA ↔ v / PGSIZE < 2 ^ 26 := by
  unfold MAXVA PGSIZE
  omega

theorem reach_of_page (h : v / PGSIZE = w / PGSIZE) : Reach write m r v ↔ Reach write m r w := by
  unfold Reach
  rw [lt_maxva_iff, lt_maxva_iff, h, leaf_of_page h]

theorem place_add {i : ℕ} (h : v % PGSIZE + i < PGSIZE) : place m r (v + i) = place m r v + i := by
  have hpage : (v + i) / PGSIZE = v / PGSIZE := by
    unfold PGSIZE at *
    omega
  have hmod : (v + i) % PGSIZE = v % PGSIZE + i := by
    unfold PGSIZE at *
    omega
  rw [place, place, leaf_of_page hpage, hmod, Nat.add_assoc]

theorem place_page (m : Bytes) (r v : ℕ) : place m r v / PGSIZE = frame (leaf m r v) := by
  unfold place
  generalize frame (leaf m r v) = f
  unfold PGSIZE
  omega

theorem UserPages.place_inj (h : UserPages m r) (hv : Reach false m r v) (hw : Reach false m r w)
    (heq : place m r v = place m r w) : v = w := by
  have hframe : frame (leaf m r v) = frame (leaf m r w) := by
    rw [← place_page, ← place_page, heq]
  have hpage := h.user_inj v w hv hw hframe
  have hmod : v % PGSIZE = w % PGSIZE := by
    unfold place at heq
    rw [hframe] at heq
    exact Nat.add_left_cancel heq
  rw [← Nat.div_add_mod v PGSIZE, hpage, hmod, Nat.div_add_mod]

theorem userAddr_eq (ht : IsTree k.mem r) [Decidable (Reach write k.mem r v)] :
    k.userAddr r write v = if Reach write k.mem r v then some (place k.mem r v) else none := by
  unfold Kernel.userAddr
  by_cases hv : MAXVA ≤ v
  · rw [if_pos hv, if_neg fun h => absurd h.1 (Nat.not_lt.mpr hv)]
  rw [if_neg hv, lookup_eq ht (Nat.not_le.mp hv), translate]
  have hbit : ∀ b < 2 ^ 10, PTE_FLAGS (leaf k.mem r v) &&& b = leaf k.mem r v &&& b :=
    fun b hb => (and_eq_mod_and hb).symm
  by_cases hvalid : leaf k.mem r v &&& PTE_V = 0
  · rw [if_pos hvalid, if_neg fun h => h.2.1 hvalid]
  · simp only [if_neg hvalid, hbit PTE_U (by decide), hbit PTE_W (by decide), PTE2PA_eq]
    by_cases hu : leaf k.mem r v &&& PTE_U ≠ 0 ∧ (write → leaf k.mem r v &&& PTE_W ≠ 0)
    · have hreach : Reach write k.mem r v := ⟨Nat.not_le.mp hv, hvalid, hu⟩
      rw [if_pos hu, if_pos hreach, place]
    · rw [if_neg hu, if_neg fun h : Reach write k.mem r v => hu h.2.2]

theorem userAddr_eq_some (ht : IsTree k.mem r) {a : ℕ} :
    k.userAddr r write v = some a ↔ Reach write k.mem r v ∧ place k.mem r v = a := by
  classical
  rw [userAddr_eq ht, Option.ite_none_right_eq_some, Option.some_inj]

theorem userAddr_isSome (ht : IsTree k.mem r) :
    (k.userAddr r write v).isSome ↔ Reach write k.mem r v := by
  classical
  rw [userAddr_eq ht]
  split_ifs with h <;> simp [h]

/-! ## Memory that keeps the tables -/

def SameTables (r : ℕ) (m m' : Bytes) : Prop :=
  ∀ f ∈ Tables m r, ∀ o < PGSIZE, m' (PGSIZE * f + o) = m (PGSIZE * f + o)

theorem SameTables.reach (h : SameTables r m m') : Reach write m' r v ↔ Reach write m r v := by
  rw [Reach, leaf_congr h, Reach]

theorem SameTables.place (h : SameTables r m m') : place m' r v = place m r v := by
  rw [Vm.place, leaf_congr h, Vm.place]

theorem SameTables.userPages (h : SameTables r m m') (hu : UserPages m r) : UserPages m' r := by
  refine ⟨hu.toIsTree.congr h, fun v hv => ?_, fun v w hv hw => ?_, fun v hv => ?_⟩
  · rw [leaf_congr h]
    exact hu.user_ne_zero v (h.reach.mp hv)
  · rw [leaf_congr h, leaf_congr h]
    exact hu.user_inj v w (h.reach.mp hv) (h.reach.mp hw)
  · rw [leaf_congr h, tables_congr h]
    exact hu.user_apart v (h.reach.mp hv)

theorem sameTables_of_moves {a b : ℕ → ℕ} (h : Moves a b n m m')
    (ha : ∀ i < n, a i / PGSIZE ∉ Tables m r) : SameTables r m m' := by
  intro f hf o ho
  apply h.frame
  rintro i hi heq
  apply ha i hi
  rw [heq, Nat.mul_add_div (by decide), Nat.div_eq_of_lt ho]
  exact hf

theorem moves_memmove (k : Kernel) {a b : ℕ → ℕ} (ha : ∀ i < n, a i = dst + i)
    (hb : ∀ i < n, b i = src + i) : Moves a b n k.mem (k.memmove dst src n).mem :=
  (moves_moveRange k.mem dst src n).congr (fun i hi => (ha i hi).symm)
    fun i hi => (hb i hi).symm

/-- What `memmove` of `string.c` does to physical memory, for a count that is a `uint`. -/
theorem Kernel.memmove_eq (k : Kernel) (hdst : dst + n ≤ 2 ^ 64) (hsrc : src + n ≤ 2 ^ 64)
    (hn : n < 2 ^ 32) :
    Mem.Kernel.memmove (Mem.region 0 k.mem) (BitVec.ofNat 64 dst) (BitVec.ofNat 64 src)
        (BitVec.ofNat 32 n) =
      (BitVec.ofNat 64 dst, Mem.region 0 (k.memmove dst src n).mem) := by
  have hmove := @Mem.Kernel.memmove_region 0 dst src n k.mem (by simpa using hdst)
    (by simpa using hsrc) hn
  rwa [Mem.byteOf, Mem.byteOf, zero_add, zero_add] at hmove

/-! ## One round -/

/-- The bytes of a range that lie in its first page. -/
def chunk (v len : ℕ) : ℕ := min (PGSIZE - v % PGSIZE) len

theorem chunk_pos (h : len ≠ 0) : 0 < chunk v len := by
  have := Nat.mod_lt v (by decide : PGSIZE > 0)
  unfold chunk
  omega

theorem chunk_le (v len : ℕ) : chunk v len ≤ len := Nat.min_le_right _ _

theorem mod_add_lt_of_chunk {i : ℕ} (h : i < chunk v len) : v % PGSIZE + i < PGSIZE := by
  unfold chunk at h
  omega

theorem next_page (h : chunk v len ≠ len) : PGROUNDDOWN v + PGSIZE = v + chunk v len := by
  unfold chunk PGROUNDDOWN at *
  unfold PGSIZE at *
  omega

theorem sub_pgrounddown (v : ℕ) : v - PGROUNDDOWN v = v % PGSIZE := by
  unfold PGROUNDDOWN PGSIZE
  omega

theorem pgrounddown_page (v : ℕ) : PGROUNDDOWN v / PGSIZE = v / PGSIZE := by
  unfold PGROUNDDOWN PGSIZE
  omega

theorem reach_of_chunk {i : ℕ} (h : i < chunk v len) :
    Reach write m r (v + i) ↔ Reach write m r v := by
  have := mod_add_lt_of_chunk h
  apply reach_of_page
  unfold PGSIZE at *
  omega

theorem place_pgrounddown (m : Bytes) (r v : ℕ) :
    PGSIZE * frame (leaf m r (PGROUNDDOWN v)) + (v - PGROUNDDOWN v) = place m r v := by
  rw [place, sub_pgrounddown, leaf_of_page (pgrounddown_page v)]

theorem walkaddr_eq (ht : IsTree k.mem r) [Decidable (Reach false k.mem r v)] :
    k.walkaddr (PGSIZE * r) v =
      .ok (if Reach false k.mem r v then PGSIZE * frame (leaf k.mem r v) else 0) := by
  unfold Kernel.walkaddr
  by_cases hv : MAXVA ≤ v
  · rw [if_pos hv, if_neg fun h => absurd h.1 (Nat.not_lt.mpr hv)]
  rw [if_neg hv, walk_eq (Nat.not_le.mp hv)]
  cases hn : node k.mem r (path v) with
  | none =>
    have hleaf : leaf k.mem r v = 0 := by rw [leaf, hn, Option.elim_none]
    rw [if_neg fun h => h.2.1 (by rw [hleaf]; rfl)]
    rfl
  | some f =>
    have hslot : k.load (PGSIZE * f + 8 * PX 0 v) = leaf k.mem r v := (leaf_of_node hn).symm
    simp only [bind, Except.bind, Option.elim_some, if_neg (slot_ne_zero ht hn), hslot, PTE2PA_eq]
    by_cases hvalid : leaf k.mem r v &&& PTE_V = 0
    · rw [if_pos hvalid, if_neg fun h => h.2.1 hvalid]
    by_cases huser : leaf k.mem r v &&& PTE_U = 0
    · rw [if_neg hvalid, if_pos huser, if_neg fun h => h.2.2.1 huser]
    · have hreach : Reach false k.mem r v :=
        ⟨Nat.not_le.mp hv, hvalid, huser, fun h => by cases h⟩
      rw [if_neg hvalid, if_neg huser, if_pos hreach]

/-! ## Copying page by page -/

/-- Where a copy from or to the user address `v` and the kernel address `b` writes its byte
`i`; `out` is the direction of `copyout`. -/
def target (out : Bool) (m : Bytes) (r v b i : ℕ) : ℕ := if out then place m r (v + i) else b + i

/-- Where the copy reads its byte `i`. -/
def source (out : Bool) (m : Bytes) (r v b i : ℕ) : ℕ := if out then b + i else place m r (v + i)

/-- The kernel's buffer lies in no page of the user, and in no table if it is written to. -/
structure Buffer (out : Bool) (m : Bytes) (r b len : ℕ) : Prop where
  user : ∀ i < len, ∀ v, Reach false m r v → place m r v ≠ b + i
  tables : out = false → ∀ i < len, (b + i) / PGSIZE ∉ Tables m r

theorem Buffer.drop {out : Bool} (h : Buffer out m r b len) (hn : n ≤ len) :
    Buffer out m r (b + n) (len - n) := by
  constructor
  · intro i hi v hv
    rw [Nat.add_assoc]
    exact h.user (n + i) (by omega) v hv
  · intro hout i hi
    rw [Nat.add_assoc]
    exact h.tables hout (n + i) (by omega)

theorem SameTables.buffer {out : Bool} (h : SameTables r m m') (hb : Buffer out m r b len) :
    Buffer out m' r b len := by
  constructor
  · intro i hi v hv
    rw [h.place]
    exact hb.user i hi v (h.reach.mp hv)
  · intro hout i hi
    rw [tables_congr h]
    exact hb.tables hout i hi

/-- A loop that copies page by page and gives up at a page that the user cannot reach. -/
structure PageLoop (out : Bool) (r : ℕ)
    (loop : ℕ → Kernel → ℕ → ℕ → ℕ → Except Panic (ℤ × Kernel)) : Prop where
  zero : ∀ fuel k v b, loop fuel k v b 0 = .ok (0, k)
  stop : ∀ fuel k v b len, IsTree k.mem r → len ≠ 0 → ¬Reach out k.mem r v →
    loop (fuel + 1) k v b len = .ok (-1, k)
  go : ∀ fuel k v b len, UserPages k.mem r → len ≠ 0 → Reach out k.mem r v →
    loop (fuel + 1) k v b len =
      loop fuel
        (k.memmove (target out k.mem r v b 0) (source out k.mem r v b 0) (chunk v len))
        (PGROUNDDOWN v + PGSIZE) (b + chunk v len) (len - chunk v len)

namespace PageLoop

variable {out : Bool} {loop : ℕ → Kernel → ℕ → ℕ → ℕ → Except Panic (ℤ × Kernel)}

theorem moves_chunk (out : Bool) (k : Kernel) (r v b len : ℕ) :
    Moves (target out k.mem r v b) (source out k.mem r v b) (chunk v len) k.mem
      (k.memmove (target out k.mem r v b 0) (source out k.mem r v b 0) (chunk v len)).mem := by
  cases out with
  | true => exact moves_memmove k (fun i hi => place_add (mod_add_lt_of_chunk hi)) fun _ _ => rfl
  | false => exact moves_memmove k (fun _ _ => rfl) fun i hi => place_add (mod_add_lt_of_chunk hi)

theorem sameTables (hu : UserPages k.mem r) (hb : Buffer out k.mem r b len) (hn : n ≤ len)
    (hreach : ∀ i < n, Reach out k.mem r (v + i))
    (hmove : Moves (target out k.mem r v b) (source out k.mem r v b) n k.mem m') :
    SameTables r k.mem m' := by
  refine sameTables_of_moves hmove fun i hi => ?_
  cases out with
  | true =>
    change place k.mem r (v + i) / PGSIZE ∉ _
    rw [place_page]
    exact hu.user_apart _ (hreach i hi).read
  | false => exact hb.tables rfl i (by omega)

/-- The loop stops at the first byte `j` that the user cannot reach and has copied the bytes
before it. -/
theorem spec (hloop : PageLoop out r loop) (hu : UserPages k.mem r)
    (hb : Buffer out k.mem r b len) :
    ∃ j k', j ≤ len ∧
      (∀ fuel ≥ len, loop fuel k v b len = .ok (if j = len then 0 else -1, k')) ∧
      (∀ i < j, Reach out k.mem r (v + i)) ∧ (j < len → ¬Reach out k.mem r (v + j)) ∧
      Moves (target out k.mem r v b) (source out k.mem r v b) j k.mem k'.mem ∧
      k' = { k with mem := k'.mem } := by
  induction len using Nat.strong_induction_on generalizing k v b with
  | _ len ih =>
    by_cases hlen : len = 0
    · subst hlen
      exact ⟨0, k, le_rfl, fun fuel _ => hloop.zero fuel k v b, fun i hi => absurd hi i.not_lt_zero,
        fun h => absurd h (lt_irrefl 0), .zero _ _ _, rfl⟩
    by_cases hreach : Reach out k.mem r v
    swap
    · refine ⟨0, k, len.zero_le, fun fuel hfuel => ?_, fun i hi => absurd hi i.not_lt_zero,
        fun _ => hreach, .zero _ _ _, rfl⟩
      obtain ⟨fuel, rfl⟩ : ∃ a, fuel = a + 1 := ⟨fuel - 1, by omega⟩
      rw [hloop.stop fuel k v b len hu.toIsTree hlen hreach, if_neg (Ne.symm hlen)]
    set n := chunk v len with hn
    have hpos : 0 < n := chunk_pos hlen
    have hle : n ≤ len := chunk_le v len
    have hfirst : ∀ i < n, Reach out k.mem r (v + i) := fun i hi => (reach_of_chunk hi).mpr hreach
    have hmove := moves_chunk out k r v b len
    rw [← hn] at hmove
    set k₁ := k.memmove (target out k.mem r v b 0) (source out k.mem r v b 0) n with hk₁
    have hsame : SameTables r k.mem k₁.mem := sameTables hu hb hle hfirst hmove
    have hstep : ∀ fuel ≥ len, ∃ fuel', fuel' ≥ len - n ∧ loop fuel k v b len =
        loop fuel' k₁ (PGROUNDDOWN v + PGSIZE) (b + n) (len - n) := by
      intro fuel hfuel
      obtain ⟨fuel, rfl⟩ : ∃ a, fuel = a + 1 := ⟨fuel - 1, by omega⟩
      exact ⟨fuel, by omega, hloop.go fuel k v b len hu hlen hreach⟩
    by_cases hdone : n = len
    · refine ⟨len, k₁, le_rfl, fun fuel hfuel => ?_, fun i hi => hfirst i (by omega),
        fun h => absurd h (lt_irrefl len), by rw [← hdone]; exact hmove, rfl⟩
      obtain ⟨fuel', -, heq⟩ := hstep fuel hfuel
      rw [heq, hdone, Nat.sub_self, hloop.zero, if_pos rfl]
    rw [next_page hdone] at hstep
    obtain ⟨j, k', hj, hend, hbefore, hstop, hrest, hk'⟩ := ih (len - n) (by omega)
      (hsame.userPages hu) (v := v + n) (hsame.buffer (hb.drop hle))
    simp only [hsame.reach, Nat.add_assoc] at hbefore hstop
    have hrest' : Moves (fun i => target out k.mem r v b (n + i))
        (fun i => source out k.mem r v b (n + i)) j k₁.mem k'.mem := by
      refine hrest.congr (fun i _ => ?_) fun i _ => ?_
      · simp only [target, hsame.place, Nat.add_assoc]
      · simp only [source, hsame.place, Nat.add_assoc]
    refine ⟨n + j, k', by omega, fun fuel hfuel => ?_, fun i hi => ?_, fun h => hstop (by omega),
      hmove.append hrest' (fun i hi a ha heq => ?_) fun i hi a ha heq => ?_, ?_⟩
    · obtain ⟨fuel', hfuel', heq⟩ := hstep fuel hfuel
      rw [heq, hend fuel' hfuel']
      by_cases hlast : j = len - n
      · rw [if_pos hlast, if_pos (by omega)]
      · rw [if_neg hlast, if_neg (by omega)]
    · rcases Nat.lt_or_ge i n with hi' | hi'
      · exact hfirst i hi'
      · have hr := hbefore (i - n) (by omega)
        rwa [Nat.add_sub_cancel' hi'] at hr
    · -- user addresses have different places, and so have the bytes of the buffer
      cases out with
      | true =>
        have := hu.place_inj (hbefore a ha).read (hfirst i hi).read heq
        omega
      | false =>
        change b + (n + a) = b + i at heq
        omega
    · cases out with
      | true => exact hb.user (n + a) (by omega) _ (hfirst i hi).read heq
      | false => exact hb.user i (by omega) _ (hbefore a ha).read heq.symm
    · rw [hk', hk₁]
      rfl

end PageLoop

/-! ## `copyout` and `copyin` -/

theorem pageLoop_copyout (r : ℕ) : PageLoop true r (Kernel.copyoutLoop (PGSIZE * r)) := by
  have hpage : ∀ {k : Kernel} {v : ℕ}, Reach true k.mem r v ↔ Reach true k.mem r (PGROUNDDOWN v) :=
    reach_of_page (pgrounddown_page _).symm
  refine ⟨fun fuel k v b => by cases fuel <;> rfl, fun fuel k v b len ht hlen hreach => ?_,
    fun fuel k v b len hu hlen hreach => ?_⟩
  · rw [Kernel.copyoutLoop, if_neg hlen]
    by_cases hv : MAXVA ≤ PGROUNDDOWN v
    · simp only [if_pos hv]
    simp only [if_neg hv, walk_eq (Nat.not_le.mp hv), bind, Except.bind]
    cases hn : node k.mem r (path (PGROUNDDOWN v)) with
    | none => exact if_pos (.inl rfl)
    | some f =>
      have hslot : k.load (PGSIZE * f + 8 * PX 0 (PGROUNDDOWN v)) =
          leaf k.mem r (PGROUNDDOWN v) := (leaf_of_node hn).symm
      rw [Option.elim_some, hslot, if_pos]
      by_contra hall
      obtain ⟨-, hall⟩ := not_or.mp hall
      obtain ⟨hvalid, hall⟩ := not_or.mp hall
      obtain ⟨huser, hwrite⟩ := not_or.mp hall
      exact hreach (hpage.mpr ⟨Nat.not_le.mp hv, hvalid, huser, fun _ => hwrite⟩)
  · obtain ⟨hv, hvalid, huser, hwrite⟩ := hpage.mp hreach
    obtain ⟨f, hn⟩ := node_of_leaf (fun h0 => hvalid (by rw [h0]; rfl) :
      leaf k.mem r (PGROUNDDOWN v) ≠ 0)
    have hslot : k.load (PGSIZE * f + 8 * PX 0 (PGROUNDDOWN v)) =
        leaf k.mem r (PGROUNDDOWN v) := (leaf_of_node hn).symm
    rw [Kernel.copyoutLoop, if_neg hlen]
    simp only [if_neg (Nat.not_le.mpr hv), walk_eq hv, bind, Except.bind, hn, Option.elim_some,
      hslot, PTE2PA_eq, place_pgrounddown, slot_ne_zero hu.toIsTree hn, false_or]
    rw [if_neg, sub_pgrounddown, chunk]
    · rfl
    · rintro (h | h | h)
      · exact hvalid h
      · exact huser h
      · exact hwrite rfl h

theorem pageLoop_copyin (r : ℕ) : PageLoop false r fun fuel k v b len =>
    Kernel.copyinLoop (PGSIZE * r) fuel k b v len := by
  classical
  have hpage : ∀ {k : Kernel} {v : ℕ},
      Reach false k.mem r v ↔ Reach false k.mem r (PGROUNDDOWN v) :=
    reach_of_page (pgrounddown_page _).symm
  refine ⟨fun fuel k v b => by cases fuel <;> rfl, fun fuel k v b len ht hlen hreach => ?_,
    fun fuel k v b len hu hlen hreach => ?_⟩
  · rw [Kernel.copyinLoop, if_neg hlen]
    simp only [walkaddr_eq ht, bind, Except.bind]
    rw [if_neg fun h => hreach (hpage.mpr h), if_pos rfl]
  · have hreach' := hpage.mp hreach
    have hne : PGSIZE * frame (leaf k.mem r (PGROUNDDOWN v)) ≠ 0 :=
      Nat.mul_ne_zero (by decide) (hu.user_ne_zero _ hreach')
    rw [Kernel.copyinLoop, if_neg hlen]
    simp only [walkaddr_eq hu.toIsTree, bind, Except.bind, if_pos hreach', if_neg hne,
      place_pgrounddown]
    rw [sub_pgrounddown, chunk]
    rfl

/-! ## `copyinstr` -/

/-- The inner loop copies up to and including a NUL, or all of the page's bytes. -/
theorem strLoop_spec (dst max : ℕ) (hsep : ∀ i < n, ∀ j < n, dst + i ≠ p + j) :
    ∃ j k', j ≤ n ∧ Kernel.strLoop n k p dst max = (k', decide (j < n), dst + j, max - j) ∧
      (∀ i < j, k.mem (p + i) ≠ 0) ∧ (j < n → k.mem (p + j) = 0) ∧
      Moves (dst + ·) (p + ·) (min (j + 1) n) k.mem k'.mem ∧ k' = { k with mem := k'.mem } := by
  induction n generalizing k p dst max with
  | zero =>
    exact ⟨0, k, le_rfl, rfl, fun i hi => absurd hi i.not_lt_zero, fun h => absurd h (lt_irrefl 0),
      .zero _ _ _, rfl⟩
  | succ n ih =>
    have hone : Moves (dst + ·) (p + ·) 1 k.mem (k.setByte dst (k.mem p)).mem := by
      constructor
      · intro i hi
        obtain rfl : i = 0 := by omega
        exact Function.update_self ..
      · intro x hx
        exact Function.update_of_ne (Ne.symm (hx 0 one_pos)) ..
    rw [Kernel.strLoop]
    by_cases hnul : k.mem p = 0
    · refine ⟨0, k.setByte dst 0, Nat.zero_le _, by rw [if_pos hnul]; rfl,
        fun i hi => absurd hi i.not_lt_zero, fun _ => hnul, ?_, rfl⟩
      rw [hnul] at hone
      rwa [Nat.min_eq_left (by omega)]
    rw [if_neg hnul]
    obtain ⟨j, k', hj, hloop, hbefore, hend, hrest, hk'⟩ :=
      ih (k := k.setByte dst (k.mem p)) (p := p + 1) (dst + 1) (max - 1) (by
        intro i hi j hj
        have := hsep (i + 1) (by omega) (j + 1) (by omega)
        omega)
    have hsame : ∀ i < n, (k.setByte dst (k.mem p)).mem (p + 1 + i) = k.mem (p + (i + 1)) := by
      intro i hi
      rw [Nat.add_right_comm, Nat.add_assoc]
      exact Function.update_of_ne (Ne.symm (hsep 0 (by omega) (i + 1) (by omega))) ..
    refine ⟨j + 1, k', by omega, ?_, fun i hi => ?_, fun h => ?_, ?_, ?_⟩
    · rw [hloop, decide_eq_decide.mpr (by omega : j + 1 < n + 1 ↔ j < n), Nat.add_assoc dst,
        Nat.add_comm 1 j, Nat.sub_sub, Nat.add_comm 1 j]
    · cases i with
      | zero => exact hnul
      | succ i =>
        rw [← hsame i (by omega)]
        exact hbefore i (by omega)
    · rw [← hsame j (by omega)]
      exact hend (by omega)
    · have hcount : min (j + 1 + 1) (n + 1) = 1 + min (j + 1) n := by omega
      rw [hcount]
      refine hone.append (hrest.congr (fun i _ => Nat.add_assoc ..) fun i _ => Nat.add_assoc ..)
        (fun i hi a ha => by omega) fun i hi a ha => hsep i (by omega) (1 + a) (by omega)
    · rw [hk']
      rfl

theorem copyinstrLoop_zero (fuel : ℕ) :
    Kernel.copyinstrLoop (PGSIZE * r) fuel k dst srcva 0 = .ok (-1, k) := by
  cases fuel <;> rfl

/-- What `copyinstr` has done at its end: it has copied the `j` bytes before the first one
that is NUL or that the user cannot reach, and the NUL if it `got` one. -/
structure Scans (r dst srcva max j : ℕ) (got : Bool) (k k' : Kernel) : Prop where
  le : j ≤ max
  before : ∀ i < j, Reach false k.mem r (srcva + i) ∧ k.mem (place k.mem r (srcva + i)) ≠ 0
  nul : got → j < max ∧ Reach false k.mem r (srcva + j) ∧ k.mem (place k.mem r (srcva + j)) = 0
  stop : ¬got → j < max → ¬Reach false k.mem r (srcva + j)
  moves : Moves (dst + ·) (fun i => place k.mem r (srcva + i))
    (if got then j + 1 else j) k.mem k'.mem
  rest : k' = { k with mem := k'.mem }

theorem Scans.reach {j i : ℕ} {got : Bool} (h : Scans r dst srcva max j got k k')
    (hi : i < if got then j + 1 else j) : Reach false k.mem r (srcva + i) := by
  by_cases hij : i < j
  · exact (h.before i hij).1
  · split_ifs at hi with hgot
    · obtain rfl : i = j := by omega
      exact (h.nul hgot).2.1
    · exact absurd hi hij

theorem copyinstr_round (hu : UserPages k.mem r) (hb : Buffer false k.mem r dst max)
    (hmax : max ≠ 0) (hreach : Reach false k.mem r srcva) :
    ∃ j k₁, j ≤ chunk srcva max ∧
      (∀ fuel, Kernel.copyinstrLoop (PGSIZE * r) (fuel + 1) k dst srcva max =
        if j < chunk srcva max then .ok (0, k₁)
        else Kernel.copyinstrLoop (PGSIZE * r) fuel k₁ (dst + j) (PGROUNDDOWN srcva + PGSIZE)
          (max - j)) ∧
      (∀ i < j, k.mem (place k.mem r (srcva + i)) ≠ 0) ∧
      (j < chunk srcva max → k.mem (place k.mem r (srcva + j)) = 0) ∧
      Moves (dst + ·) (fun i => place k.mem r (srcva + i)) (min (j + 1) (chunk srcva max)) k.mem
        k₁.mem ∧ k₁ = { k with mem := k₁.mem } := by
  classical
  have hle : chunk srcva max ≤ max := chunk_le srcva max
  have hpage : Reach false k.mem r (PGROUNDDOWN srcva) :=
    (reach_of_page (pgrounddown_page srcva)).mpr hreach
  have hne : PGSIZE * frame (leaf k.mem r (PGROUNDDOWN srcva)) ≠ 0 :=
    Nat.mul_ne_zero (by decide) (hu.user_ne_zero _ hpage)
  have hplace : ∀ i < chunk srcva max, place k.mem r (srcva + i) = place k.mem r srcva + i :=
    fun i hi => place_add (mod_add_lt_of_chunk hi)
  have hsep : ∀ i < chunk srcva max, ∀ j < chunk srcva max, dst + i ≠ place k.mem r srcva + j := by
    intro i hi j hj
    rw [← hplace j hj]
    exact (hb.user i (by omega) _ ((reach_of_chunk hj).mpr hreach)).symm
  obtain ⟨j, k₁, hj, hstr, hbefore, hnul, hmove, hk₁⟩ := strLoop_spec dst max hsep
  refine ⟨j, k₁, hj, fun fuel => ?_, fun i hi => ?_, fun h => ?_, ?_, hk₁⟩
  · rw [Kernel.copyinstrLoop, if_neg hmax]
    simp only [walkaddr_eq hu.toIsTree, bind, Except.bind, if_pos hpage, if_neg hne,
      place_pgrounddown]
    rw [sub_pgrounddown, ← chunk, hstr]
    simp only [decide_eq_true_eq]
  · rw [hplace i (by omega)]
    exact hbefore i hi
  · rw [hplace j h]
    exact hnul h
  · exact hmove.congr (fun _ _ => rfl) fun i hi => (hplace i (by omega)).symm

theorem copyinstrLoop_spec (srcva : ℕ) (hu : UserPages k.mem r)
    (hb : Buffer false k.mem r dst max) :
    ∃ (j : ℕ) (got : Bool) (k' : Kernel), Scans r dst srcva max j got k k' ∧
      ∀ fuel ≥ max, Kernel.copyinstrLoop (PGSIZE * r) fuel k dst srcva max =
        .ok (if got then 0 else -1, k') := by
  classical
  induction max using Nat.strong_induction_on generalizing k dst srcva with
  | _ max ih =>
    by_cases hmax : max = 0
    · subst hmax
      exact ⟨0, false, k, ⟨le_rfl, fun i hi => absurd hi i.not_lt_zero, fun h => (by cases h),
        fun _ h => absurd h (lt_irrefl 0), .zero _ _ _, rfl⟩, fun fuel _ => copyinstrLoop_zero fuel⟩
    by_cases hreach : Reach false k.mem r srcva
    swap
    · refine ⟨0, false, k, ⟨max.zero_le, fun i hi => absurd hi i.not_lt_zero,
        fun h => (by cases h), fun _ _ => hreach, .zero _ _ _, rfl⟩, fun fuel hfuel => ?_⟩
      obtain ⟨fuel, rfl⟩ : ∃ a, fuel = a + 1 := ⟨fuel - 1, by omega⟩
      have hpage : ¬Reach false k.mem r (PGROUNDDOWN srcva) := fun h =>
        hreach ((reach_of_page (pgrounddown_page srcva)).mp h)
      rw [Kernel.copyinstrLoop, if_neg hmax]
      simp only [walkaddr_eq hu.toIsTree, bind, Except.bind]
      rw [if_neg hpage, if_pos rfl]
      rfl
    obtain ⟨j, k₁, hj, hround, hbefore, hnul, hmove, hk₁⟩ := copyinstr_round hu hb hmax hreach
    have hle : chunk srcva max ≤ max := chunk_le srcva max
    have hpos : 0 < chunk srcva max := chunk_pos hmax
    have hfirst : ∀ i < chunk srcva max, Reach false k.mem r (srcva + i) := fun i hi =>
      (reach_of_chunk hi).mpr hreach
    have hpart : ∀ i < j,
        Reach false k.mem r (srcva + i) ∧ k.mem (place k.mem r (srcva + i)) ≠ 0 :=
      fun i hi => ⟨hfirst i (by omega), hbefore i hi⟩
    by_cases hgot : j < chunk srcva max
    · rw [Nat.min_eq_left (by omega)] at hmove
      refine ⟨j, true, k₁, ⟨by omega, hpart, fun _ => ⟨by omega, hfirst j hgot, hnul hgot⟩,
        fun h => absurd rfl h, hmove, hk₁⟩, fun fuel hfuel => ?_⟩
      obtain ⟨fuel, rfl⟩ : ∃ a, fuel = a + 1 := ⟨fuel - 1, by omega⟩
      rw [hround fuel, if_pos hgot]
      rfl
    -- the page holds no NUL
    have hall : chunk srcva max = j := by omega
    rw [hall, Nat.min_eq_right (by omega)] at hmove
    have hsame : SameTables r k.mem k₁.mem := sameTables_of_moves hmove fun i hi =>
      hb.tables rfl i (by omega)
    have hbytes : ∀ v, Reach false k.mem r v → k₁.mem (place k.mem r v) = k.mem (place k.mem r v) :=
      fun v hv => hmove.frame _ fun i hi => (hb.user i (by omega) v hv).symm
    have hstep : ∀ fuel ≥ max, ∃ fuel', fuel' ≥ max - j ∧
        Kernel.copyinstrLoop (PGSIZE * r) fuel k dst srcva max =
          Kernel.copyinstrLoop (PGSIZE * r) fuel' k₁ (dst + j) (PGROUNDDOWN srcva + PGSIZE)
            (max - j) := by
      intro fuel hfuel
      obtain ⟨fuel, rfl⟩ : ∃ a, fuel = a + 1 := ⟨fuel - 1, by omega⟩
      exact ⟨fuel, by omega, by rw [hround fuel, if_neg hgot]⟩
    by_cases hdone : j = max
    · refine ⟨j, false, k₁, ⟨by omega, hpart, fun h => (by cases h),
        fun _ h => absurd h (by omega), hmove, hk₁⟩, fun fuel hfuel => ?_⟩
      obtain ⟨fuel', -, heq⟩ := hstep fuel hfuel
      rw [heq, hdone, Nat.sub_self, copyinstrLoop_zero]
      rfl
    rw [next_page (by rw [hall]; exact hdone), hall] at hstep
    obtain ⟨a, got, k', hscan, hend⟩ := ih (max - j) (by omega) (srcva + j)
      (hsame.userPages hu) (hsame.buffer (hb.drop (by omega)))
    have hreach' : ∀ b < if got then a + 1 else a, Reach false k.mem r (srcva + (j + b)) := by
      intro b hb'
      rw [← Nat.add_assoc]
      exact hsame.reach.mp (hscan.reach hb')
    obtain ⟨ha, hbefore', hnul', hstop, hrest, hk'⟩ := hscan
    simp only [hsame.reach, hsame.place, Nat.add_assoc] at hbefore' hnul' hstop hrest
    refine ⟨j + a, got, k', ⟨by omega, fun i hi => ?_, fun h => ?_, fun h hlt => hstop h (by omega),
      ?_, by rw [hk', hk₁]⟩, fun fuel hfuel => ?_⟩
    · rcases Nat.lt_or_ge i j with hi' | hi'
      · exact hpart i hi'
      · obtain ⟨hr, hne⟩ := hbefore' (i - j) (by omega)
        rw [Nat.add_sub_cancel' hi'] at hr hne
        rw [hbytes _ hr] at hne
        exact ⟨hr, hne⟩
    · obtain ⟨hlt, hr, hzero⟩ := hnul' h
      rw [hbytes _ hr] at hzero
      exact ⟨by omega, hr, hzero⟩
    · have hcount : (if got then j + a + 1 else j + a) = j + if got then a + 1 else a := by
        split_ifs <;> omega
      rw [hcount]
      exact hmove.append hrest (fun i hi b hb => by omega) fun i hi b hb' =>
        (hb.user i (by omega) _ (hreach' b hb')).symm
    · obtain ⟨fuel', hfuel', heq⟩ := hstep fuel hfuel
      rw [heq, hend fuel' hfuel']

/-! ## Copies as a user sees them -/

theorem copyout_exact (dstva : ℕ) (hu : UserPages k.mem r) (hb : Buffer true k.mem r src len) :
    ∃ (ret : ℤ) (k' : Kernel),
      (∀ fuel ≥ len, Kernel.copyoutLoop (PGSIZE * r) fuel k dstva src len = .ok (ret, k')) ∧
      (ret = 0 ∨ ret = -1) ∧
      (ret = 0 ↔ ∀ i < len, (k.userAddr r true (dstva + i)).isSome) ∧
      (ret = 0 → ∀ i < len, (k.userAddr r true (dstva + i)).map k'.mem = some (k.mem (src + i))) ∧
      ∀ x, (∀ i < len, k.userAddr r true (dstva + i) ≠ some x) → k'.mem x = k.mem x := by
  obtain ⟨j, k', hj, hok, hbefore, hstop, hmove, -⟩ := (pageLoop_copyout r).spec (v := dstva) hu hb
  have hret : (if j = len then (0 : ℤ) else -1) = 0 ↔ j = len := by split_ifs with h <;> simp [h]
  refine ⟨_, k', hok, by split_ifs <;> simp, ?_, fun h0 i hi => ?_, fun x hx => ?_⟩
  · simp only [hret, userAddr_isSome hu.toIsTree]
    refine ⟨fun h i hi => hbefore i (by omega), fun hall => ?_⟩
    by_contra hne
    exact hstop (by omega) (hall j (by omega))
  · obtain rfl : j = len := hret.mp h0
    rw [(userAddr_eq_some hu.toIsTree).mpr ⟨hbefore i hi, rfl⟩, Option.map_some]
    exact congrArg some (hmove.moved i hi)
  · refine hmove.frame x fun i hi heq => hx i (by omega) ?_
    exact (userAddr_eq_some hu.toIsTree).mpr ⟨hbefore i hi, heq⟩

theorem copyin_exact (srcva : ℕ) (hu : UserPages k.mem r) (hb : Buffer false k.mem r dst len) :
    ∃ (ret : ℤ) (k' : Kernel),
      (∀ fuel ≥ len, Kernel.copyinLoop (PGSIZE * r) fuel k dst srcva len = .ok (ret, k')) ∧
      (ret = 0 ∨ ret = -1) ∧
      (ret = 0 ↔ ∀ i < len, (k.userAddr r false (srcva + i)).isSome) ∧
      (ret = 0 → ∀ i < len, (k.userAddr r false (srcva + i)).map k.mem = some (k'.mem (dst + i))) ∧
      ∀ x, ¬(dst ≤ x ∧ x < dst + len) → k'.mem x = k.mem x := by
  obtain ⟨j, k', hj, hok, hbefore, hstop, hmove, -⟩ := (pageLoop_copyin r).spec (v := srcva) hu hb
  have hret : (if j = len then (0 : ℤ) else -1) = 0 ↔ j = len := by split_ifs with h <;> simp [h]
  refine ⟨_, k', hok, by split_ifs <;> simp, ?_, fun h0 i hi => ?_, fun x hx => ?_⟩
  · simp only [hret, userAddr_isSome hu.toIsTree]
    refine ⟨fun h i hi => hbefore i (by omega), fun hall => ?_⟩
    by_contra hne
    exact hstop (by omega) (hall j (by omega))
  · obtain rfl : j = len := hret.mp h0
    rw [(userAddr_eq_some hu.toIsTree).mpr ⟨hbefore i hi, rfl⟩, Option.map_some]
    exact congrArg some (hmove.moved i hi).symm
  · refine hmove.frame x fun i hi heq => hx ?_
    change dst + i = x at heq
    omega

/-- The user's string at `srcva` ends at byte `j`. -/
def Kernel.UserString (k : Kernel) (r srcva j : ℕ) : Prop :=
  (k.userAddr r false (srcva + j)).map k.mem = some 0 ∧
    ∀ i < j, ∃ c ≠ 0, (k.userAddr r false (srcva + i)).map k.mem = some c

theorem userByte_eq_some (ht : IsTree k.mem r) {c : UInt8} :
    (k.userAddr r false v).map k.mem = some c ↔
      Reach false k.mem r v ∧ k.mem (place k.mem r v) = c := by
  rw [Option.map_eq_some_iff]
  constructor
  · rintro ⟨a, ha, rfl⟩
    obtain ⟨hr, rfl⟩ := (userAddr_eq_some ht).mp ha
    exact ⟨hr, rfl⟩
  · rintro ⟨hr, rfl⟩
    exact ⟨_, (userAddr_eq_some ht).mpr ⟨hr, rfl⟩, rfl⟩

theorem copyinstr_exact (srcva : ℕ) (hu : UserPages k.mem r) (hb : Buffer false k.mem r dst max) :
    ∃ (ret : ℤ) (k' : Kernel),
      (∀ fuel ≥ max, Kernel.copyinstrLoop (PGSIZE * r) fuel k dst srcva max = .ok (ret, k')) ∧
      (ret = 0 ∨ ret = -1) ∧
      (ret = 0 ↔ ∃ j < max, k.UserString r srcva j) ∧
      (∀ j < max, k.UserString r srcva j → ∀ i ≤ j,
        (k.userAddr r false (srcva + i)).map k.mem = some (k'.mem (dst + i))) ∧
      ∀ x, ¬(dst ≤ x ∧ x < dst + max) → k'.mem x = k.mem x := by
  obtain ⟨j, got, k', hscan, hok⟩ := copyinstrLoop_spec srcva hu hb
  have hcount : (if got then j + 1 else j) ≤ max := by
    split_ifs with hgot
    · exact (hscan.nul hgot).1
    · exact hscan.le
  -- a string that ends before `max` ends where `copyinstr` found a NUL
  have hend : ∀ j' < max, k.UserString r srcva j' → got ∧ j' = j := by
    rintro j' hj' ⟨hnul, hne⟩
    obtain ⟨hr, hzero⟩ := (userByte_eq_some hu.toIsTree).mp hnul
    have hjj' : j ≤ j' := by
      by_contra hlt
      exact (hscan.before j' (by omega)).2 hzero
    have hreach : Reach false k.mem r (srcva + j) := by
      rcases Nat.lt_or_ge j j' with hlt | hge
      · obtain ⟨c, -, hc⟩ := hne j hlt
        exact ((userByte_eq_some hu.toIsTree).mp hc).1
      · obtain rfl : j = j' := by omega
        exact hr
    have hgot : got := by
      by_contra hgot
      exact hscan.stop hgot (by omega) hreach
    refine ⟨hgot, le_antisymm ?_ hjj'⟩
    by_contra hlt
    obtain ⟨c, hc0, hc⟩ := hne j (by omega)
    exact hc0 ((userByte_eq_some hu.toIsTree).mp hc |>.2 ▸ (hscan.nul hgot).2.2)
  refine ⟨_, k', hok, by split_ifs <;> simp, ?_, fun j' hj' hstr i hi => ?_, fun x hx => ?_⟩
  · constructor
    · intro h0
      have hgot : got := by
        by_contra hgot
        rw [if_neg hgot] at h0
        exact absurd h0 (by decide)
      obtain ⟨hlt, hr, hzero⟩ := hscan.nul hgot
      refine ⟨j, hlt, (userByte_eq_some hu.toIsTree).mpr ⟨hr, hzero⟩, fun i hi => ?_⟩
      obtain ⟨hri, hne⟩ := hscan.before i hi
      exact ⟨_, hne, (userByte_eq_some hu.toIsTree).mpr ⟨hri, rfl⟩⟩
    · rintro ⟨j', hj', hstr⟩
      rw [if_pos (hend j' hj' hstr).1]
  · obtain ⟨hgot, rfl⟩ := hend j' hj' hstr
    have hi' : i < if got then j' + 1 else j' := by
      rw [if_pos hgot]
      omega
    exact (userByte_eq_some hu.toIsTree).mpr ⟨hscan.reach hi', (hscan.moves.moved i hi').symm⟩
  · refine hscan.moves.frame x fun i hi heq => hx ?_
    change dst + i = x at heq
    omega

/-- Copies between the kernel and a user are exact, touch nothing outside their range, and
their loops end, whatever the user's address and the length are. -/
theorem user_copies_exact (hu : UserPages k.mem r) :
    (∀ dstva src len, Buffer true k.mem r src len → ∃ (ret : ℤ) (k' : Kernel),
      k.copyout (PGSIZE * r) dstva src len = .ok (ret, k') ∧
      (∀ fuel ≥ len, Kernel.copyoutLoop (PGSIZE * r) fuel k dstva src len = .ok (ret, k')) ∧
      (ret = 0 ∨ ret = -1) ∧
      (ret = 0 ↔ ∀ i < len, (k.userAddr r true (dstva + i)).isSome) ∧
      (ret = 0 → ∀ i < len, (k.userAddr r true (dstva + i)).map k'.mem = some (k.mem (src + i))) ∧
      ∀ x, (∀ i < len, k.userAddr r true (dstva + i) ≠ some x) → k'.mem x = k.mem x) ∧
    (∀ dst srcva len, Buffer false k.mem r dst len → ∃ (ret : ℤ) (k' : Kernel),
      k.copyin (PGSIZE * r) dst srcva len = .ok (ret, k') ∧
      (∀ fuel ≥ len, Kernel.copyinLoop (PGSIZE * r) fuel k dst srcva len = .ok (ret, k')) ∧
      (ret = 0 ∨ ret = -1) ∧
      (ret = 0 ↔ ∀ i < len, (k.userAddr r false (srcva + i)).isSome) ∧
      (ret = 0 → ∀ i < len, (k.userAddr r false (srcva + i)).map k.mem = some (k'.mem (dst + i))) ∧
      ∀ x, ¬(dst ≤ x ∧ x < dst + len) → k'.mem x = k.mem x) ∧
    ∀ dst srcva max, Buffer false k.mem r dst max → ∃ (ret : ℤ) (k' : Kernel),
      k.copyinstr (PGSIZE * r) dst srcva max = .ok (ret, k') ∧
      (∀ fuel ≥ max, Kernel.copyinstrLoop (PGSIZE * r) fuel k dst srcva max = .ok (ret, k')) ∧
      (ret = 0 ∨ ret = -1) ∧
      (ret = 0 ↔ ∃ j < max, k.UserString r srcva j) ∧
      (∀ j < max, k.UserString r srcva j → ∀ i ≤ j,
        (k.userAddr r false (srcva + i)).map k.mem = some (k'.mem (dst + i))) ∧
      ∀ x, ¬(dst ≤ x ∧ x < dst + max) → k'.mem x = k.mem x := by
  refine ⟨fun dstva src len hb => ?_, fun dst srcva len hb => ?_, fun dst srcva max hb => ?_⟩
  · obtain ⟨ret, k', hok, hspec⟩ := copyout_exact dstva hu hb
    exact ⟨ret, k', hok len le_rfl, hok, hspec⟩
  · obtain ⟨ret, k', hok, hspec⟩ := copyin_exact srcva hu hb
    exact ⟨ret, k', hok len le_rfl, hok, hspec⟩
  · obtain ⟨ret, k', hok, hspec⟩ := copyinstr_exact srcva hu hb
    exact ⟨ret, k', hok max le_rfl, hok, hspec⟩

theorem exists_userPages : ∃ k : Kernel, UserPages k.mem 1 ∧
    (∀ v < MAXVA, leaf k.mem 1 v = if v / PGSIZE = 0 then 4 * 1024 + 23 else 0) := by
  obtain ⟨ret, j, k, hok, hedit, hret⟩ := mappages_spec (f := 4) (u := 0)
    threePages_isTree threePages_fresh one_pos (by decide) (by decide)
    (by decide : PTE_R ||| PTE_W ||| PTE_U < 1024)
    fun v _ _ _ => by rw [leaf_blank threePages_blank]; rfl
  have hrun : (threePages.mappages (PGSIZE * 1) (PGSIZE * 0) (PGSIZE * 1) (PGSIZE * 4)
      (PTE_R ||| PTE_W ||| PTE_U)).toOption.any (fun x => decide (x.1 = 0)) = true := by
    decide +kernel
  rw [hok] at hrun
  obtain rfl : ret = 0 := of_decide_eq_true hrun
  obtain rfl : j = 1 := by omega
  have hleaf : ∀ v < MAXVA, leaf k.mem 1 v = if v / PGSIZE = 0 then 4 * 1024 + 23 else 0 := by
    intro v hv
    rw [hedit.leaf_eq v hv, mapped, leaf_blank threePages_blank]
    by_cases h0 : v / PGSIZE = 0
    · rw [if_pos (by omega), if_pos h0, h0]
      rfl
    · rw [if_neg (by omega), if_neg h0]
  have hpage : ∀ v, Reach false k.mem 1 v → v / PGSIZE = 0 ∧ frame (leaf k.mem 1 v) = 4 := by
    rintro v ⟨hv, hvalid, -⟩
    rw [hleaf v hv] at hvalid ⊢
    split_ifs at hvalid ⊢ with h0
    · exact ⟨h0, by decide⟩
    · exact absurd rfl hvalid
  refine ⟨k, ⟨hedit.tree, fun v hv => ?_, fun v w hv hw _ => ?_, fun v hv hmem => ?_⟩, hleaf⟩
  · rw [(hpage v hv).2]
    decide
  · rw [(hpage v hv).1, (hpage w hw).1]
  · rw [(hpage v hv).2] at hmem
    rcases (hedit.pages 4).mp (.inl hmem) with h | h
    · rw [tables_blank threePages_blank] at h
      exact absurd h (by decide)
    · simp [Kernel.Free, threePages, PGSIZE] at h

theorem user_copies_exact_onePage : ∃ k : Kernel, UserPages k.mem 1 ∧
    Buffer true k.mem 1 (PGSIZE * 9) 3 ∧ ∃ k', k.copyout (PGSIZE * 1) 5 (PGSIZE * 9) 3 =
      .ok (0, k') ∧
      ∀ i < 3, (k.userAddr 1 true (5 + i)).map k'.mem = some (k.mem (PGSIZE * 9 + i)) := by
  obtain ⟨k, hu, hleaf⟩ := exists_userPages
  have hreach : ∀ i < 3, Reach true k.mem 1 (5 + i) := by
    intro i hi
    have hv : 5 + i < MAXVA := (by omega : 5 + i < 8).trans (by decide)
    refine ⟨hv, ?_⟩
    rw [hleaf _ hv, if_pos (by unfold PGSIZE; omega)]
    exact ⟨by decide, by decide, fun _ => by decide⟩
  have hb : Buffer true k.mem 1 (PGSIZE * 9) 3 := by
    refine ⟨fun i hi v hv => ?_, fun h => (by cases h)⟩
    obtain ⟨hlt, hvalid, -⟩ := hv
    intro heq
    have hpage := place_page k.mem 1 v
    rw [heq, hleaf v hlt] at hpage
    rw [hleaf v hlt] at hvalid
    split_ifs at hpage hvalid with h0
    · have hframe : frame (4 * 1024 + 23) = 4 := by decide
      rw [hframe] at hpage
      unfold PGSIZE at hpage
      omega
    · exact absurd rfl hvalid
  obtain ⟨ret, k', hok, -, -, hret, hbytes, -⟩ := (user_copies_exact hu).1 5 (PGSIZE * 9) 3 hb
  obtain rfl : ret = 0 := hret.mpr fun i hi => (userAddr_isSome hu.toIsTree).mpr (hreach i hi)
  exact ⟨k, hu, hb, k', hok, hbytes rfl⟩

end Xv6.Vm
