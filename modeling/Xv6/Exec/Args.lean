import Xv6.Exec.Image

/-!
# The arguments of a program

`exec` copies the argument strings to the stack page, from its top downwards, and below
them an array of their addresses, which it puts together on the kernel's stack.
-/

namespace Xv6.Exec

open Lib Vm

variable {k k' k₀ k₁ : Kernel} {r w us ustack sp sp' len argc dst src a f i v x : ℕ}
  {argv : List ℕ} {S : ℕ → Prop}

/-! ## Lengths -/

/-- A length rounded up to the alignment of the stack pointer. -/
def up16 (len : ℕ) : ℕ := (len + 15) / 16 * 16

theorem le_up16 (len : ℕ) : len ≤ up16 len := by
  unfold up16
  omega

theorem up16_le (h : len ≤ 16 * x) : up16 len ≤ 16 * x := by
  unfold up16
  omega

theorem up16_mod (len : ℕ) : up16 len % 16 = 0 := Nat.mul_mod_left _ 16

theorem lower_eq (hsp : sp % 16 = 0) (hle : len ≤ sp) (hlt : sp < 2 ^ 64) :
    lower sp len = sp - up16 len := by
  have hmod : (sp + 2 ^ 64 - len) % 2 ^ 64 = sp - len := by omega
  rw [lower, hmod]
  unfold up16
  omega

theorem strlenFrom_congr {fuel : ℕ} (h : ∀ o < fuel, k'.mem (a + o) = k.mem (a + o)) :
    strlenFrom k' fuel a = strlenFrom k fuel a := by
  induction fuel generalizing a with
  | zero => rfl
  | succ fuel ih =>
    have hrest : ∀ o < fuel, k'.mem (a + 1 + o) = k.mem (a + 1 + o) := fun o ho => by
      rw [Nat.add_assoc]
      exact h (1 + o) (by omega)
    have hhead := h 0 (Nat.succ_pos fuel)
    rw [Nat.add_zero] at hhead
    rw [strlenFrom, strlenFrom, hhead, ih hrest]

theorem strlen_congr (h : SamePage k k' f) : strlen k' (PGSIZE * f) = strlen k (PGSIZE * f) :=
  strlenFrom_congr h

theorem strlenFrom_spec {fuel : ℕ} (h : strlenFrom k fuel a < fuel) :
    k.mem (a + strlenFrom k fuel a) = 0 ∧ ∀ j < strlenFrom k fuel a, k.mem (a + j) ≠ 0 := by
  induction fuel generalizing a with
  | zero => exact absurd h (Nat.not_lt_zero _)
  | succ fuel ih =>
    rw [strlenFrom] at h ⊢
    by_cases h0 : k.mem a = 0
    · rw [if_pos h0]
      exact ⟨h0, fun j hj => absurd hj (Nat.not_lt_zero j)⟩
    rw [if_neg h0] at h ⊢
    obtain ⟨hend, hbefore⟩ := ih (Nat.lt_of_succ_lt_succ h)
    rw [Nat.add_assoc, Nat.add_comm 1] at hend
    refine ⟨hend, fun j hj => ?_⟩
    cases j with
    | zero => exact h0
    | succ j =>
      have := hbefore j (by omega)
      rwa [Nat.add_assoc, Nat.add_comm 1] at this

def depth (k : Kernel) (argv : List ℕ) : ℕ := (argv.map fun a => up16 (strlen k a + 1)).sum

def slot (k : Kernel) (sp : ℕ) (argv : List ℕ) (i : ℕ) : ℕ := sp - depth k (argv.take (i + 1))

theorem depth_cons : depth k (a :: argv) = up16 (strlen k a + 1) + depth k argv := rfl

theorem slot_cons_zero : slot k sp (a :: argv) 0 = sp - up16 (strlen k a + 1) := by
  rw [slot, List.take_succ_cons, depth_cons, List.take_zero]
  rfl

theorem slot_cons_succ :
    slot k sp (a :: argv) (i + 1) = slot k (sp - up16 (strlen k a + 1)) argv i := by
  rw [slot, List.take_succ_cons, depth_cons, slot, Nat.sub_sub]

theorem depth_take_succ (h : argv[i]? = some a) :
    depth k (argv.take (i + 1)) = depth k (argv.take i) + up16 (strlen k a + 1) := by
  rw [depth, List.take_add_one, h, List.map_append, List.sum_append, depth]
  rfl

theorem depth_take_le {j : ℕ} (h : i ≤ j) : depth k (argv.take i) ≤ depth k (argv.take j) := by
  have htake : argv.take i = (argv.take j).take i := by rw [List.take_take, Nat.min_eq_left h]
  rw [htake]
  refine List.Sublist.sum_le_sum ((List.take_sublist _ _).map _) fun _ _ => Nat.zero_le _

theorem depth_take_le_self (argv : List ℕ) (i : ℕ) : depth k (argv.take i) ≤ depth k argv :=
  List.Sublist.sum_le_sum ((List.take_sublist _ _).map _) fun _ _ => Nat.zero_le _

theorem slot_add (h : argv[i]? = some a) (hd : depth k argv ≤ sp) :
    slot k sp argv i + up16 (strlen k a + 1) + depth k (argv.take i) = sp := by
  have hle : depth k (argv.take (i + 1)) ≤ depth k argv := depth_take_le_self argv (i + 1)
  have hsucc : depth k (argv.take (i + 1)) = depth k (argv.take i) + up16 (strlen k a + 1) :=
    depth_take_succ h
  rw [slot]
  omega

theorem le_slot (hd : x + depth k argv = sp) : x ≤ slot k sp argv i := by
  have hle : depth k (argv.take (i + 1)) ≤ depth k argv := depth_take_le_self argv (i + 1)
  rw [slot]
  omega

/-! ## Writing to the stack -/

theorem touches_store (hlow : PGSIZE * us ≤ a) (hhigh : a + 8 ≤ PGSIZE * (us + 1)) :
    Touches (· = us) k (k.store a x) := by
  refine ⟨fun f hf o ho => setWord_of_outside k.mem ?_, rfl, rfl⟩
  change f ≠ us at hf
  unfold PGSIZE at *
  omega

theorem load_eq_of_samePage (h : SamePage k k' us) (hlow : PGSIZE * us ≤ a)
    (hhigh : a + 8 ≤ PGSIZE * (us + 1)) : k'.load a = k.load a := by
  refine getWord_congr fun i hi => ?_
  have hlt : a + i - PGSIZE * us < PGSIZE := by
    unfold PGSIZE at *
    omega
  have := h _ hlt
  rwa [Nat.add_sub_cancel' (by omega)] at this

/-- The stack page `w` of an image and the kernel's array of addresses, which lies in one
page `us` outside the image. -/
structure Stack (r w us ustack : ℕ) (k : Kernel) : Prop where
  image : Image k r (w + 1)
  flags : PTE_FLAGS (leaf k.mem r (PGSIZE * w)) = userPerm PTE_W ||| PTE_V
  pos : 0 < w
  low : PGSIZE * us ≤ ustack
  high : ustack + 8 * MAXARG ≤ PGSIZE * (us + 1)
  apart : ¬Held k r (w + 1) us

/-- The pages that `exec` writes to for the arguments. -/
def StackPage (k : Kernel) (r w us f : ℕ) : Prop := f = us ∨ f = userFrame k.mem r w

namespace Stack

theorem tables (h : Stack r w us ustack k) : ∀ f ∈ Tables k.mem r, ¬StackPage k r w us f := by
  rintro f hf (rfl | rfl)
  · exact h.apart (.inl hf)
  · exact h.image.apart w (Nat.lt_succ_self w) hf

theorem userFrame_ne (h : Stack r w us ustack k) (hv : v < PGSIZE * (w + 1)) :
    userFrame k.mem r (v / PGSIZE) ≠ us := by
  rintro rfl
  exact h.apart (.inr ⟨v / PGSIZE, Nat.div_lt_of_lt_mul hv, rfl⟩)

theorem touch (h : Stack r w us ustack k) (ht : Touches (StackPage k r w us) k k') :
    Stack r w us ustack k' := by
  obtain ⟨himage, hheld⟩ := h.image.congr (fun f hf => ht.same f (h.tables f hf)) ht.kernelEnd
  refine ⟨himage, ?_, h.pos, h.low, h.high, fun hus => h.apart ((hheld us).mp hus)⟩
  rw [ht.leaf_eq h.tables]
  exact h.flags

theorem stackPage_iff (h : Stack r w us ustack k) (ht : Touches (StackPage k r w us) k k') :
    StackPage k' r w us f ↔ StackPage k r w us f := by
  rw [StackPage, userFrame, ht.leaf_eq h.tables, ← userFrame, StackPage]

theorem reach (h : Stack r w us ustack k) (hv : v / PGSIZE = w) : Reach true k.mem r v := by
  have hleaf : PTE_FLAGS (leaf k.mem r v) = userPerm PTE_W ||| PTE_V := by
    rw [leaf_eq_page, hv]
    exact h.flags
  refine ⟨?_, ?_, ?_, fun _ => ?_⟩
  · have := h.image.lt_trapframe
    unfold TRAPFRAME TRAMPOLINE MAXVA PGSIZE at *
    omega
  · rw [and_flags (by decide), hleaf]
    decide
  · rw [and_flags (by decide), hleaf]
    decide
  · rw [and_flags (by decide), hleaf]
    decide

theorem copyout (h : Stack r w us ustack k) (hlow : PGSIZE * w ≤ dst)
    (hhigh : dst + len ≤ PGSIZE * (w + 1))
    (hsrc : ∀ i < len, ¬UserPage k r (w + 1) ((src + i) / PGSIZE)) :
    ∃ k', k.copyout (PGSIZE * r) dst src len = .ok (0, k') ∧
      Touches (· = userFrame k.mem r w) k k' ∧
      ∀ v < PGSIZE * (w + 1), userByte k' r v =
        if dst ≤ v ∧ v < dst + len then k.mem (src + (v - dst)) else userByte k r v := by
  have hpage : ∀ i < len, (dst + i) / PGSIZE = w := fun i hi => by
    unfold PGSIZE at *
    omega
  have hbuf : Buffer true k.mem r src len := by
    refine ⟨fun i hi v hv heq => hsrc i hi ⟨v / PGSIZE, reach_user h.image hv, ?_⟩,
      fun h => by cases h⟩
    rw [← heq, place_page, leaf_eq_page, userFrame]
  obtain ⟨j, k', hj, hok, -, hat, hmove, hk'⟩ :=
    (pageLoop_copyout r).spec (v := dst) h.image.userPages hbuf
  obtain rfl : j = len := by
    by_contra hne
    have hlt : j < len := by omega
    exact hat hlt (h.reach (hpage j hlt))
  have hframe : ∀ i < j, place k.mem r (dst + i) / PGSIZE = userFrame k.mem r w := fun i hi => by
    rw [place_page, leaf_eq_page, hpage i hi, userFrame]
  have htouch : Touches (· = userFrame k.mem r w) k k' := by
    refine ⟨fun g hg o ho => hmove.frame _ fun i hi heq => hg ?_, ?_, ?_⟩
    · change place k.mem r (dst + i) = _ at heq
      rw [← hframe i hi, heq, Nat.mul_add_div (by decide), Nat.div_eq_of_lt ho, Nat.add_zero]
    · rw [hk']
    · rw [hk']
  have htab : ∀ f ∈ Tables k.mem r, f ≠ userFrame k.mem r w := fun f hf heq =>
    h.image.apart w (Nat.lt_succ_self w) (heq ▸ hf)
  refine ⟨k', ?_, htouch, fun v hv => ?_⟩
  · rw [Kernel.copyout, hok j le_rfl, if_pos rfl]
  have hplace : userByte k' r v = k'.mem (place k.mem r v) := by
    rw [userByte, place, htouch.leaf_eq htab, place]
  rw [hplace]
  by_cases hin : dst ≤ v ∧ v < dst + j
  · rw [if_pos hin]
    have hmoved := hmove.moved (v - dst) (by omega)
    change k'.mem (place k.mem r (dst + (v - dst))) = _ at hmoved
    rwa [Nat.add_sub_cancel' hin.1] at hmoved
  · rw [if_neg hin]
    refine hmove.frame _ fun i hi heq => hin ?_
    change place k.mem r (dst + i) = place k.mem r v at heq
    -- a place belongs to one address only
    have hvw : v / PGSIZE = w := by
      refine h.image.inj _ (Nat.div_lt_of_lt_mul hv) w (Nat.lt_succ_self w) ?_
      rw [← hframe i hi, heq, place_page, leaf_eq_page, userFrame]
    rw [place_eq, place_eq, hpage i hi, hvw] at heq
    have hmod : (dst + i) % PGSIZE = v % PGSIZE := Nat.add_left_cancel heq
    have hdiv := hpage i hi
    unfold PGSIZE at *
    omega

end Stack

theorem Touches.userByte_eq (h : Touches S k k') (hS : ∀ f ∈ Tables k.mem r, ¬S f)
    (hv : ¬S (userFrame k.mem r (v / PGSIZE))) : userByte k' r v = userByte k r v :=
  userByte_eq_of_samePage (h.leaf_eq hS) (h.same _ hv)

/-! ## The loop -/

/-- A string of `argv`, as it was in `k₀`, in a page of its own. -/
def Arg (k₀ k : Kernel) (r w us a : ℕ) : Prop :=
  ∃ f, a = PGSIZE * f ∧ f ≠ us ∧ ¬UserPage k r (w + 1) f ∧ SamePage k₀ k f ∧ strlen k₀ a < PGSIZE

theorem Arg.touch (h : Arg k₀ k r w us a) (hs : Stack r w us ustack k)
    (ht : Touches (StackPage k r w us) k k') : Arg k₀ k' r w us a := by
  obtain ⟨f, rfl, hus, huser, hsame, hlen⟩ := h
  refine ⟨f, rfl, hus, ?_, hsame.trans (ht.same f ?_), hlen⟩
  · rintro ⟨u, hu, heq⟩
    rw [userFrame, ht.leaf_eq hs.tables] at heq
    exact huser ⟨u, hu, heq⟩
  · rintro (rfl | rfl)
    · exact hus rfl
    · exact huser ⟨w, Nat.lt_succ_self w, rfl⟩

/-- From `k` to `k'` the strings of `argv` and the array have been pushed, the first string
being number `argc`. -/
structure Pushed (k₀ : Kernel) (r w ustack argc : ℕ) (argv : List ℕ) (sp sp' : ℕ)
    (k k' : Kernel) : Prop where
  sp_eq : sp' + up16 (8 * (argc + argv.length + 1)) + depth k₀ argv = sp
  base : PGSIZE * w ≤ sp'
  strings : ∀ i a, argv[i]? = some a → ∀ j ≤ strlen k₀ a,
    userByte k' r (slot k₀ sp argv i + j) = k₀.mem (a + j)
  pointers : ∀ i < argv.length, k'.load (ustack + 8 * (argc + i)) = slot k₀ sp argv i
  null : k'.load (ustack + 8 * (argc + argv.length)) = 0
  earlier : ∀ i < argc, k'.load (ustack + 8 * i) = k.load (ustack + 8 * i)
  array : ∀ j < 8 * (argc + argv.length + 1), userByte k' r (sp' + j) = k'.mem (ustack + j)
  above : ∀ v, sp ≤ v → v < PGSIZE * (w + 1) → userByte k' r v = userByte k r v

theorem Stack.store (h : Stack r w us ustack k) (hargc : argc < MAXARG) (hx : x < 2 ^ 64) :
    Touches (· = us) k (k.store (ustack + 8 * argc) x) ∧
      (k.store (ustack + 8 * argc) x).load (ustack + 8 * argc) = x ∧
      (∀ i, i ≠ argc → (k.store (ustack + 8 * argc) x).load (ustack + 8 * i) =
        k.load (ustack + 8 * i)) ∧
      ∀ v < PGSIZE * (w + 1), userByte (k.store (ustack + 8 * argc) x) r v = userByte k r v := by
  have hlow := h.low
  have hhigh := h.high
  have htouch : Touches (· = us) k (k.store (ustack + 8 * argc) x) :=
    touches_store (by omega) (by omega)
  refine ⟨htouch, getWord_setWord_self 8 _ _ (hx.trans_eq (by norm_num)), fun i hi => ?_,
    fun v hv => ?_⟩
  · exact getWord_setWord_of_disjoint _ (by omega)
  · refine Touches.userByte_eq htouch (fun f hf heq => ?_) (h.userFrame_ne hv)
    exact h.tables f hf (.inl heq)

namespace Stack

theorem us_ne (h : Stack r w us ustack k) : us ≠ userFrame k.mem r w := fun heq =>
  h.apart (.inr ⟨w, Nat.lt_succ_self w, heq.symm⟩)

theorem page_ustack (h : Stack r w us ustack k) (hi : i < 8 * MAXARG) :
    (ustack + i) / PGSIZE = us := by
  have hlow := h.low
  have hhigh := h.high
  unfold PGSIZE at *
  omega

theorem byte_ustack (h : Stack r w us ustack k) (hsame : SamePage k₁ k' us) (hi : i < 8 * MAXARG) :
    k'.mem (ustack + i) = k₁.mem (ustack + i) := by
  have hlow := h.low
  have hhigh := h.high
  have hlt : ustack + i - PGSIZE * us < PGSIZE := by
    unfold PGSIZE at *
    omega
  have := hsame _ hlt
  rwa [Nat.add_sub_cancel' (by omega)] at this

end Stack

theorem pushArgs_nil (h : Stack r w us ustack k) (hcount : argc < MAXARG) (hsp : sp % 16 = 0)
    (hlow : PGSIZE * w ≤ sp) (hhigh : sp ≤ PGSIZE * (w + 1)) :
    ∃ res k', pushArgs (PGSIZE * r) (PGSIZE * w) ustack [] argc k sp = .ok (res, k') ∧
      Touches (StackPage k r w us) k k' ∧
      (res = none ∧ sp < PGSIZE * w + up16 (8 * (argc + 1)) ∨
        ∃ sp', res = some (argc, sp') ∧ Pushed k₀ r w ustack argc [] sp sp' k k') := by
  have hw := h.pos
  have hsmall := h.image.count
  have hup : up16 (8 * (argc + 1)) ≤ 16 * 16 := up16_le (by unfold MAXARG at hcount; omega)
  have hup' := le_up16 (8 * (argc + 1))
  have hpos : up16 (8 * (argc + 1)) ≤ sp := by
    unfold PGSIZE at *
    omega
  obtain ⟨hstore, hself, hother, hbytes⟩ := h.store hcount (Nat.two_pow_pos 64)
  have hlower : lower sp ((argc + 1) * 8) = sp - up16 (8 * (argc + 1)) := by
    rw [Nat.mul_comm]
    refine lower_eq hsp ?_ ?_
    · unfold PGSIZE at *
      omega
    · unfold PHYSTOP PGSIZE at *
      omega
  rw [pushArgs, hlower]
  set k₁ := k.store (ustack + 8 * argc) 0 with hk₁
  have htouch₁ : Touches (StackPage k r w us) k k₁ := hstore.mono fun f hf => .inl hf
  by_cases hfit : sp - up16 (8 * (argc + 1)) < PGSIZE * w
  · refine ⟨none, k₁, ?_, htouch₁, .inl ⟨rfl, by omega⟩⟩
    rw [if_pos hfit]
  have h₁ := h.touch htouch₁
  have hsrc : ∀ i < (argc + 1) * 8, ¬UserPage k₁ r (w + 1) ((ustack + i) / PGSIZE) := fun i hi => by
    rw [h.page_ustack (by omega)]
    exact fun hus => h₁.apart (.inr hus)
  obtain ⟨k', hcopy, htouch', hbytes'⟩ := h₁.copyout (Nat.not_lt.mp hfit)
    (by omega : sp - up16 (8 * (argc + 1)) + (argc + 1) * 8 ≤ PGSIZE * (w + 1)) hsrc
  have hus : SamePage k₁ k' us := htouch'.same us h₁.us_ne
  have hload : ∀ i ≤ argc, k'.load (ustack + 8 * i) = k₁.load (ustack + 8 * i) := fun i hi =>
    load_eq_of_samePage hus (by have := h.low; omega) (by have := h.high; omega)
  refine ⟨some (argc, sp - up16 (8 * (argc + 1))), k', ?_,
    htouch₁.trans (htouch'.mono fun f hf => ?_), .inr ⟨sp - up16 (8 * (argc + 1)), rfl, ?_⟩⟩
  · simp only [if_neg hfit, hcopy, bind, Except.bind]
    rw [if_neg (by decide)]
  · exact (h.stackPage_iff htouch₁).mp (.inr hf)
  refine ⟨?_, Nat.not_lt.mp hfit, fun i a hi => (by cases hi),
    fun i hi => absurd hi (Nat.not_lt_zero i),
    (hload argc le_rfl).trans hself, fun i hi => (hload i hi.le).trans (hother i hi.ne),
    fun j hj => ?_, fun v hge hv => ?_⟩
  · exact Nat.sub_add_cancel hpos
  · change j < 8 * (argc + 1) at hj
    rw [hbytes' _ (by omega), if_pos (by omega), Nat.add_sub_cancel_left]
    exact (h.byte_ustack hus (by omega)).symm
  · rw [hbytes' v hv, if_neg (by omega), hbytes v hv]

/-- Pushing the arguments: they do not fit, or they are all there. -/
theorem pushArgs_spec (h : Stack r w us ustack k) (hargs : ∀ a ∈ argv, Arg k₀ k r w us a)
    (hcount : argc + argv.length < MAXARG) (hsp : sp % 16 = 0) (hlow : PGSIZE * w ≤ sp)
    (hhigh : sp ≤ PGSIZE * (w + 1)) :
    ∃ res k', pushArgs (PGSIZE * r) (PGSIZE * w) ustack argv argc k sp = .ok (res, k') ∧
      Touches (StackPage k r w us) k k' ∧
      (res = none ∧
          sp < PGSIZE * w + up16 (8 * (argc + argv.length + 1)) + depth k₀ argv ∨
        ∃ sp', res = some (argc + argv.length, sp') ∧
          Pushed k₀ r w ustack argc argv sp sp' k k') := by
  induction argv generalizing k argc sp with
  | nil => exact pushArgs_nil h hcount hsp hlow hhigh
  | cons a argv ih =>
    have hw := h.pos
    have hsmall := h.image.count
    obtain ⟨f, rfl, hus, huser, hsame, hlen⟩ := hargs a List.mem_cons_self
    have hstrlen : strlen k (PGSIZE * f) = strlen k₀ (PGSIZE * f) := strlen_congr hsame
    have hlower : lower sp (strlen k₀ (PGSIZE * f) + 1) =
        sp - up16 (strlen k₀ (PGSIZE * f) + 1) := by
      refine lower_eq hsp ?_ ?_
      · unfold PGSIZE at *
        omega
      · unfold PHYSTOP PGSIZE at *
        omega
    have hup := le_up16 (strlen k₀ (PGSIZE * f) + 1)
    have hmod := up16_mod (strlen k₀ (PGSIZE * f) + 1)
    rw [List.length_cons] at hcount
    rw [pushArgs, if_neg (by omega), hstrlen, hlower, depth_cons, List.length_cons]
    generalize hl : strlen k₀ (PGSIZE * f) = l at *
    by_cases hfit : sp - up16 (l + 1) < PGSIZE * w
    · refine ⟨none, k, ?_, .refl _ k, .inl ⟨rfl, by omega⟩⟩
      rw [if_pos hfit]
    have hpos : up16 (l + 1) ≤ sp := by
      unfold PGSIZE at *
      omega
    -- the string
    have hsrc : ∀ i < l + 1, ¬UserPage k r (w + 1) ((PGSIZE * f + i) / PGSIZE) := fun i hi => by
      rw [Nat.mul_add_div (by decide), Nat.div_eq_of_lt (by omega), Nat.add_zero]
      exact huser
    obtain ⟨k₁, hcopy, htouch₁, hbytes₁⟩ := h.copyout (Nat.not_lt.mp hfit)
      (by omega : sp - up16 (l + 1) + (l + 1) ≤ PGSIZE * (w + 1)) hsrc
    have ht₁ : Touches (StackPage k r w us) k k₁ := htouch₁.mono fun g hg => .inr hg
    have h₁ := h.touch ht₁
    -- its address
    obtain ⟨htouch₂, hself, hother, hbytes₂⟩ := h₁.store (by omega : argc < MAXARG)
      (by unfold PHYSTOP PGSIZE at *; omega : sp - up16 (l + 1) < 2 ^ 64)
    set k₂ := k₁.store (ustack + 8 * argc) (sp - up16 (l + 1)) with hk₂
    have ht₂ : Touches (StackPage k r w us) k k₂ := ht₁.trans (htouch₂.mono fun g hg => .inl hg)
    have h₂ := h.touch ht₂
    obtain ⟨res, k', hok, htouch', hor⟩ := ih h₂
      (fun a ha => (hargs a (List.mem_cons_of_mem _ ha)).touch h ht₂)
      (by omega : argc + 1 + argv.length < MAXARG)
      (by omega : (sp - up16 (l + 1)) % 16 = 0) (Nat.not_lt.mp hfit) (by omega)
    have hadd : argc + (argv.length + 1) = argc + 1 + argv.length := by omega
    rw [hadd]
    refine ⟨res, k', ?_, ht₂.trans (htouch'.mono fun g hg => (h.stackPage_iff ht₂).mp hg), ?_⟩
    · simp only [if_neg hfit, hcopy, bind, Except.bind]
      rw [if_neg (by decide)]
      exact hok
    refine hor.imp (fun ⟨hnone, hlt⟩ => ⟨hnone, by omega⟩) ?_
    rintro ⟨sp', hres, hpush⟩
    refine ⟨sp', hres, ?_⟩
    have hbyte : ∀ v < PGSIZE * (w + 1), userByte k₂ r v =
        if sp - up16 (l + 1) ≤ v ∧ v < sp - up16 (l + 1) + (l + 1) then
          k.mem (PGSIZE * f + (v - (sp - up16 (l + 1)))) else userByte k r v := fun v hv => by
      rw [hbytes₂ v hv, hbytes₁ v hv]
    have hload : ∀ i < argc, k₂.load (ustack + 8 * i) = k.load (ustack + 8 * i) := fun i hi => by
      rw [hother i hi.ne]
      exact load_eq_of_samePage (htouch₁.same us h.us_ne) (by have := h.low; omega)
        (by have := h.high; omega)
    refine ⟨?_, hpush.base, fun i a hi j hj => ?_, fun i hi => ?_, ?_, fun i hi => ?_, ?_,
      fun v hge hv => ?_⟩
    · have := hpush.sp_eq
      rw [List.length_cons, hadd, depth_cons, hl]
      omega
    · cases i with
      | zero =>
        obtain rfl : PGSIZE * f = a := Option.some.inj hi
        rw [hl] at hj
        rw [slot_cons_zero, hl, hpush.above _ (by omega) (by omega), hbyte _ (by omega),
          if_pos (by omega), Nat.add_sub_cancel_left]
        exact hsame j (by omega)
      | succ i =>
        rw [slot_cons_succ, hl]
        exact hpush.strings i a hi j hj
    · cases i with
      | zero =>
        rw [slot_cons_zero, hl, Nat.add_zero, hpush.earlier argc (Nat.lt_succ_self argc)]
        exact hself
      | succ i =>
        rw [slot_cons_succ, hl, ← hpush.pointers i (Nat.lt_of_succ_lt_succ hi),
          Nat.add_right_comm, Nat.add_assoc argc]
    · rw [List.length_cons, hadd]
      exact hpush.null
    · rw [hpush.earlier i (Nat.lt_succ_of_lt hi), hload i hi]
    · rw [List.length_cons, hadd]
      exact hpush.array
    · rw [hpush.above v (by omega) hv, hbyte v hv, if_neg (by omega)]

end Xv6.Exec
