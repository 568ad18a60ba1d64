import Xv6.Exec.Args

/-!
# The outcome of `exec`

`exec` works on two images, that of the process and the new one.  The pages of the new one
come from the free list, so neither image can be damaged by what happens to the other.
-/

namespace Xv6.Exec

open Lib Vm

variable {k k' k₀ k₁ : Kernel} {s s' : State}
  {r n r₀ n₀ m t tf us ustack sp f v trampoline entry : ℕ}
  {argv : List ℕ} {data path : List UInt8} {file : Option (List UInt8)}

/-- What holds when `sys_exec` calls `exec`: the process has an image, and its trapframe, the
kernel's stack and the copies of the arguments are in pages of their own. -/
structure Calls (s : State) (trampoline : ℕ) (argv : List ℕ) (ustack r₀ t tf us : ℕ) : Prop where
  pagetable : s.p.pagetable = PGSIZE * r₀
  space : Space s.k r₀ (pages s.p.sz)
  topped : Topped s.k.mem r₀
  locked : s.locked = false
  trampoline_eq : trampoline = PGSIZE * t
  trampoline_lt : t < 2 ^ 44
  trapframe_eq : s.p.trapframe = PGSIZE * tf
  trapframe_lt : tf < 2 ^ 44
  trapframe_apart : ¬Owned s.k r₀ (pages s.p.sz) tf
  ustack_low : PGSIZE * us ≤ ustack
  ustack_high : ustack + 8 * MAXARG ≤ PGSIZE * (us + 1)
  ustack_apart : ¬Owned s.k r₀ (pages s.p.sz) us
  ustack_ne : us ≠ tf
  args : ∀ a ∈ argv, ∃ f, a = PGSIZE * f ∧ ¬Owned s.k r₀ (pages s.p.sz) f ∧ f ≠ us ∧
    strlen s.k a < PGSIZE
  count : argv.length ≤ MAXARG - 1

/-- `exec` has given up: no page is lost, and nothing that was in use has changed but the
kernel's own array. -/
structure GivesUp (us : ℕ) (s s' : State) : Prop where
  rest : s' = { s with k := s'.k }
  pool : Pool s'.k
  free : ∀ f, s'.k.Free f ↔ s.k.Free f
  same : ∀ f, ¬s.k.Free f → f ≠ us → SamePage s.k s'.k f

/-- The user's word at an address. -/
def userWord (k : Kernel) (r a : ℕ) : ℕ := getWord 8 (userByte k r) a

/-- `exec` has succeeded: the process has a new image with `m` pages of program. -/
structure Execs (r₀ tf us : ℕ) (path data : List UInt8) (argv : List ℕ) (r m sp : ℕ)
    (s s' : State) : Prop where
  rest : s' = { s with k := s'.k, name := (State.lastElem path).take 15,
                       p := { s.p with pagetable := PGSIZE * r, sz := PGSIZE * (m + 2) } }
  space : Space s'.k r (m + 2)
  topped : Topped s'.k.mem r
  owned : ∀ f, Owned s'.k r (m + 2) f ↔ Owned s.k r₀ (pages s.p.sz) f
  same : ∀ f, ¬Owned s.k r₀ (pages s.p.sz) f → f ≠ us → f ≠ tf → SamePage s.k s'.k f
  fresh : ∀ f, Held s'.k r (m + 2) f → s.k.Free f
  program : ∀ v < PGSIZE * m,
    Reach false s'.k.mem r v ∧ userByte s'.k r v = imageByte data (segments data) v
  below : ∀ ph ∈ segments data, ph.vaddr + ph.filesz ≤ PGSIZE * m
  inFile : ∀ ph ∈ segments data, ph.filesz = 0 ∨ ph.off + ph.filesz ≤ data.length
  guard : ∀ v, v / PGSIZE = m → ¬Reach false s'.k.mem r v
  stack : ∀ v, v / PGSIZE = m + 1 → Reach true s'.k.mem r v
  a1 : s'.k.load (PGSIZE * tf + 120) = sp
  epc : s'.k.load (PGSIZE * tf + 24) = (Elfhdr.ofBytes (data.take elfhdrSize)).entry
  sp_reg : s'.k.load (PGSIZE * tf + 48) = sp
  sp_eq : sp + up16 (8 * (argv.length + 1)) + depth s.k argv = PGSIZE * (m + 2)
  base : PGSIZE * (m + 1) ≤ sp
  strings : ∀ i a, argv[i]? = some a → ∀ j ≤ strlen s.k a,
    userByte s'.k r (slot s.k (PGSIZE * (m + 2)) argv i + j) = s.k.mem (a + j)
  words : ∀ i < argv.length, userWord s'.k r (sp + 8 * i) = slot s.k (PGSIZE * (m + 2)) argv i
  null : userWord s'.k r (sp + 8 * argv.length) = 0

theorem getWord_shift {b a a' : ℕ} {c c' : Bytes} (h : ∀ j < b, c (a + j) = c' (a' + j)) :
    getWord b c a = getWord b c' a' := by
  induction b generalizing a a' with
  | zero => rfl
  | succ b ih =>
    have hrest : ∀ j < b, c (a + 1 + j) = c' (a' + 1 + j) := fun j hj => by
      rw [Nat.add_assoc, Nat.add_assoc]
      exact h (1 + j) (by omega)
    have hhead : c a = c' a' := h 0 (Nat.succ_pos b)
    rw [getWord, getWord, hhead, ih hrest]

/-! ## Two images -/

/-- What becomes of the image `r` when its pages are left alone. -/
structure Keeps (r n : ℕ) (k k' : Kernel) : Prop where
  space : Space k' r n
  held : ∀ f, Held k' r n f ↔ Held k r n f
  leaf_eq : ∀ v, leaf k'.mem r v = leaf k.mem r v
  bytes : ∀ v < PGSIZE * n, userByte k' r v = userByte k r v

theorem keeps_of_same (h : Space k r n) (hpool : Pool k')
    (hsame : ∀ f, Held k r n f → SamePage k k' f) (hfree : ∀ f, k'.Free f → ¬Held k r n f)
    (hend : k'.kernelEnd = k.kernelEnd) : Keeps r n k k' := by
  have htab : ∀ f ∈ Tables k.mem r, SamePage k k' f := fun f hf => hsame f (.inl hf)
  have hleaf : ∀ v, leaf k'.mem r v = leaf k.mem r v := fun v => leaf_congr htab
  refine ⟨h.congr hpool htab hfree hend, (h.toImage.congr htab hend).2, hleaf, fun v hv => ?_⟩
  exact userByte_eq_of_samePage (hleaf v) (hsame _ (.inr ⟨_, Nat.div_lt_of_lt_mul hv, rfl⟩))

theorem Keeps.trans (h : Keeps r n k k₁) (h' : Keeps r n k₁ k') : Keeps r n k k' :=
  ⟨h'.space, fun f => (h'.held f).trans (h.held f), fun v => (h'.leaf_eq v).trans (h.leaf_eq v),
    fun v hv => (h'.bytes v hv).trans (h.bytes v hv)⟩

theorem Keeps.reach {write : Bool} (h : Keeps r n k k') :
    Reach write k'.mem r v ↔ Reach write k.mem r v := by
  rw [Reach, h.leaf_eq, Reach]

theorem Keeps.topped (h : Keeps r n k k') (ht : Topped k.mem r) : Topped k'.mem r :=
  ht.congr fun v _ _ => h.leaf_eq v

theorem Touches.keeps {S : ℕ → Prop} (ht : Touches S k k') (h : Space k r n)
    (hS : ∀ f, Held k r n f → ¬S f) : Keeps r n k k' :=
  keeps_of_same h (ht.pool h.pool) (fun f hf => ht.same f (hS f hf))
    (fun f hf => h.free_apart f (ht.free_iff.mp hf)) ht.kernelEnd

theorem Returns.keeps {S : ℕ → Prop} (hret : Returns S k k') (h : Space k r n)
    (hS : ∀ f, Held k r n f → ¬S f) : Keeps r n k k' := by
  refine keeps_of_same h hret.pool (fun f hf => hret.same f (hS f hf)) (fun f hf hh => ?_)
    hret.kernelEnd
  exact ((hret.free f).mp hf).elim (hS f hh) fun hfree => h.free_apart f hfree hh

theorem Builds.keeps (hb : Builds r n k k') (h : Space k r₀ n₀) : Keeps r₀ n₀ k k' := by
  refine keeps_of_same h hb.space.pool (fun f hf => hb.same f fun hfree => h.free_apart f hfree hf)
    (fun f hf => h.free_apart f ((hb.owned f).mp (.inr hf))) hb.kernelEnd

/-! ## `commit` -/

theorem touches_trapframe {o x : ℕ} (ho : o + 8 ≤ PGSIZE) :
    Touches (· = tf) k (k.store (PGSIZE * tf + o) x) :=
  touches_store (by omega) (by unfold PGSIZE at *; omega)

namespace State

/-- What `commit` does: the old image is freed, and the trapframe leads to the new one. -/
theorem commit_spec (path : List UInt8) (pagetable sz entry sp : ℕ)
    (hold : Space s.k r₀ (pages s.p.sz))
    (htop : Topped s.k.mem r₀) (hpt : s.p.pagetable = PGSIZE * r₀)
    (htf : s.p.trapframe = PGSIZE * tf) (hapart : ¬Held s.k r₀ (pages s.p.sz) tf)
    (hsp : sp < 2 ^ 64) (hentry : entry < 2 ^ 64) :
    ∃ kt k', s.commit path pagetable sz entry sp =
        .ok { s with k := k', p := { s.p with pagetable := pagetable, sz := sz },
                     name := (lastElem path).take 15 } ∧
      Touches (· = tf) s.k kt ∧ Returns (Held s.k r₀ (pages s.p.sz)) kt k' ∧
      k'.load (PGSIZE * tf + 120) = sp ∧ k'.load (PGSIZE * tf + 24) = entry ∧
      k'.load (PGSIZE * tf + 48) = sp := by
  set k₁ := s.k.store (PGSIZE * tf + 120) sp with hk₁
  set k₂ := k₁.store (PGSIZE * tf + 24) entry with hk₂
  set kt := k₂.store (PGSIZE * tf + 48) sp with hkt
  have htouch : Touches (· = tf) s.k kt :=
    ((touches_trapframe (by decide)).trans (touches_trapframe (by decide))).trans
      (touches_trapframe (by decide))
  have hne : ∀ f, Held s.k r₀ (pages s.p.sz) f → ¬f = tf := fun f hf heq => hapart (heq ▸ hf)
  have hkeeps := Touches.keeps htouch hold hne
  obtain ⟨k', hok, hret⟩ := procFreepagetable_spec hkeeps.space (hkeeps.topped htop)
  have hheld : Held kt r₀ (pages s.p.sz) = Held s.k r₀ (pages s.p.sz) :=
    funext fun f => propext (hkeeps.held f)
  rw [hheld] at hret
  have hload : ∀ o, o + 8 ≤ PGSIZE → k'.load (PGSIZE * tf + o) = kt.load (PGSIZE * tf + o) :=
    fun o ho => load_eq_of_samePage (hret.same tf hapart) (by omega) (by unfold PGSIZE at *; omega)
  have hwide : ∀ {x : ℕ}, x < 2 ^ 64 → x < 256 ^ 8 := fun hx => hx.trans_eq (by norm_num)
  refine ⟨kt, k', ?_, htouch, hret, (hload 120 (by decide)).trans ?_,
    (hload 24 (by decide)).trans ?_, (hload 48 (by decide)).trans ?_⟩
  · rw [commit, htf, hpt]
    change (kt.procFreepagetable _ _ >>= _) = _
    rw [hok]
    rfl
  · refine (getWord_setWord_of_disjoint _ (by omega)).trans ?_
    refine (getWord_setWord_of_disjoint _ (by omega)).trans ?_
    exact getWord_setWord_self 8 _ _ (hwide hsp)
  · refine (getWord_setWord_of_disjoint _ (by omega)).trans ?_
    exact getWord_setWord_self 8 _ _ (hwide hentry)
  · exact getWord_setWord_self 8 _ _ (hwide hsp)

end State

/-! ## `exec` -/

namespace Calls

variable (h : Calls s trampoline argv ustack r₀ t tf us)
include h

theorem not_free_us : ¬s.k.Free us := fun hf => h.ustack_apart (.inr hf)

theorem stack (hl : Loaded data r m s.k k) : Stack r (m + 1) us ustack k := by
  refine ⟨hl.builds.space.toImage, hl.stack, Nat.succ_pos m, h.ustack_low, h.ustack_high, ?_⟩
  exact fun hheld => h.not_free_us ((hl.builds.owned us).mp (.inl hheld))

theorem arg (hl : Loaded data r m s.k k) : ∀ a ∈ argv, Arg s.k k r (m + 1) us a := by
  intro a ha
  obtain ⟨f, hf, hapart, hne, hlen⟩ := h.args a ha
  have hfree : ¬s.k.Free f := fun hf => hapart (.inr hf)
  exact ⟨f, hf, hne, fun hu => hfree ((hl.builds.owned f).mp (.inl (.inr hu))),
    hl.builds.same f hfree, hlen⟩

theorem givesUp (hl : Loaded data r m s.k k) (hr : PGSIZE * r ≠ 0)
    (ht : Touches (StackPage k r (m + 1) us) k k') :
    ∃ s', State.bad { s with k := k' } (PGSIZE * r) (PGSIZE * (m + 2)) false = .ok s' ∧
      GivesUp us s s' := by
  have hstack := h.stack hl
  have hspace : Space k' r (m + 2) := ht.space hl.builds.space hstack.tables
  have htop : Topped k'.mem r := hl.topped.congr fun v _ _ => ht.leaf_eq hstack.tables
  have hheld : ∀ f, Held k' r (m + 2) f ↔ Held k r (m + 2) f := fun f =>
    ht.held_iff hl.builds.space.toImage hstack.tables
  have hpages : Space k' r (pages (PGSIZE * (m + 2))) := by rwa [pages_mul]
  obtain ⟨k₂, hok, hret⟩ := procFreepagetable_spec hpages htop
  rw [pages_mul] at hret
  refine ⟨{ s with k := k₂ }, ?_, rfl, hret.pool, fun f => ?_, fun f hf hne => ?_⟩
  · simp only [State.bad, if_neg hr, hok, bind, Except.bind]
    rfl
  · change k₂.Free f ↔ _
    rw [hret.free, hheld, ht.free_iff]
    exact hl.builds.owned f
  · have hout : ¬Held k r (m + 2) f := fun hh => hf ((hl.builds.owned f).mp (.inl hh))
    refine ((hl.builds.same f hf).trans (ht.same f ?_)).trans
      (hret.same f fun hh => hout ((hheld f).mp hh))
    rintro (heq | heq)
    · exact hne heq
    · exact hout (.inr ⟨m + 1, Nat.lt_succ_self _, heq.symm⟩)

theorem keeps_old (hl : Loaded data r m s.k k) (ht : Touches (StackPage k r (m + 1) us) k k') :
    Keeps r₀ (pages s.p.sz) s.k k' := by
  have hkeeps := Builds.keeps hl.builds h.space
  refine hkeeps.trans (Touches.keeps ht hkeeps.space ?_)
  rintro f hf (rfl | rfl)
  · exact h.ustack_apart (.inl ((hkeeps.held f).mp hf))
  · refine h.space.free_apart _ ?_ ((hkeeps.held _).mp hf)
    exact (hl.builds.owned _).mp (.inl (.inr ⟨m + 1, Nat.lt_succ_self _, rfl⟩))

theorem execs (path : List UInt8) (hl : Loaded data r m s.k k)
    (ht : Touches (StackPage k r (m + 1) us) k k')
    (hp : Pushed s.k r (m + 1) ustack 0 argv (PGSIZE * (m + 2)) sp k k') :
    ∃ s', State.commit { s with k := k' } path (PGSIZE * r) (PGSIZE * (m + 2))
        (Elfhdr.ofBytes (data.take elfhdrSize)).entry sp = .ok s' ∧
      Execs r₀ tf us path data argv r m sp s s' := by
  have hstack := h.stack hl
  have hold := h.keeps_old hl ht
  have hspace : Space k' r (m + 2) := ht.space hl.builds.space hstack.tables
  have hheld : ∀ f, Held k' r (m + 2) f ↔ Held k r (m + 2) f := fun f =>
    ht.held_iff hl.builds.space.toImage hstack.tables
  have hleaf : ∀ v, leaf k'.mem r v = leaf k.mem r v := fun v => ht.leaf_eq hstack.tables
  have hfresh : ∀ f, Held k' r (m + 2) f → s.k.Free f := fun f hf =>
    (hl.builds.owned f).mp (.inl ((hheld f).mp hf))
  have hsmall : PGSIZE * (m + 2) < 2 ^ 64 := by
    have := hspace.count
    unfold PHYSTOP PGSIZE at *
    omega
  have hspeq := hp.sp_eq
  rw [Nat.zero_add] at hspeq
  obtain ⟨kt, k₂, hok, htouch, hret, ha1, hepc, hspreg⟩ := State.commit_spec
    (s := { s with k := k' }) path (PGSIZE * r) (PGSIZE * (m + 2)) _ sp hold.space
    (hold.topped h.topped) h.pagetable h.trapframe_eq
    (fun hh => h.trapframe_apart (.inl ((hold.held tf).mp hh))) (by omega)
    (number_lt (data.take elfhdrSize) 24)
  have hdisjoint : ∀ f, s.k.Free f → ¬Held k' r₀ (pages s.p.sz) f := fun f hf hh =>
    h.space.free_apart f hf ((hold.held f).mp hh)
  -- the new image from here on
  have htf : ∀ f, Held k' r (m + 2) f → ¬f = tf := fun f hf heq =>
    h.trapframe_apart (.inr (heq ▸ hfresh f hf))
  have hkeeps₁ := Touches.keeps htouch hspace htf
  have hkeeps : Keeps r (m + 2) k' k₂ := hkeeps₁.trans <| Returns.keeps hret hkeeps₁.space
    fun f hf => hdisjoint f (hfresh f ((hkeeps₁.held f).mp hf))
  have hprogram : ∀ v < PGSIZE * m, userByte k' r v = userByte k r v := fun v hv => by
    refine Touches.userByte_eq ht hstack.tables ?_
    have hlt : v < PGSIZE * (m + 1 + 1) := by
      unfold PGSIZE at *
      omega
    rintro (heq | heq)
    · exact hstack.userFrame_ne hlt heq
    · have := hstack.image.inj _ (Nat.div_lt_of_lt_mul hlt) _ (Nat.lt_succ_self _) heq
      unfold PGSIZE at *
      omega
  have hdepth : depth s.k argv ≤ PGSIZE * (m + 2) := by omega
  have hword : ∀ i ≤ argv.length, userWord k₂ r (sp + 8 * i) = k'.load (ustack + 8 * i) :=
    fun i hi => getWord_shift fun j hj => by
      have hup := le_up16 (8 * (argv.length + 1))
      rw [hkeeps.bytes _ (by omega), Nat.add_assoc, hp.array _ (by omega), Nat.add_assoc]
  refine ⟨_, hok, ?_⟩
  constructor
  case rest => rfl
  case space => exact hkeeps.space
  case topped => exact hkeeps.topped (hl.topped.congr fun v _ _ => hleaf v)
  case owned =>
    intro f
    have hfree : k₂.Free f ↔ Held s.k r₀ (pages s.p.sz) f ∨ k.Free f := by
      rw [hret.free, htouch.free_iff, ht.free_iff]
      exact or_congr_left (hold.held f)
    change Held k₂ r (m + 2) f ∨ k₂.Free f ↔ _
    rw [hkeeps.held, hheld, hfree, or_left_comm]
    exact or_congr_right (hl.builds.owned f)
  case same =>
    intro f hf hus hne
    have hnf : ¬s.k.Free f := fun hfree => hf (.inr hfree)
    refine (((hl.builds.same f hnf).trans (ht.same f ?_)).trans (htouch.same f hne)).trans
      (hret.same f fun hh => hf (.inl ((hold.held f).mp hh)))
    rintro (heq | heq)
    · exact hus heq
    · exact hnf ((hl.builds.owned f).mp (.inl (.inr ⟨m + 1, Nat.lt_succ_self _, heq.symm⟩)))
  case fresh => exact fun f hf => hfresh f ((hkeeps.held f).mp hf)
  case program =>
    intro v hv
    have hu : v / PGSIZE < m := Nat.div_lt_of_lt_mul hv
    have hlt : v < PGSIZE * (m + 2) := by
      unfold PGSIZE at *
      omega
    refine ⟨hkeeps.reach.mpr ⟨hlt.trans (hspace.lt_maxva le_rfl), ?_, ?_, fun h => by cases h⟩, ?_⟩
    · rw [leaf_eq_page]
      exact (hspace.user _ (by omega)).1
    · rw [hleaf, leaf_eq_page]
      exact hl.user _ hu
    · exact (hkeeps.bytes v hlt).trans ((hprogram v hv).trans (hl.program v hv))
  case below => exact hl.below
  case inFile => exact hl.inFile
  case guard =>
    rintro v hv ⟨-, -, huser, -⟩
    change leaf k₂.mem r v &&& PTE_U ≠ 0 at huser
    rw [hkeeps.leaf_eq, hleaf, leaf_eq_page, hv] at huser
    exact huser hl.guard
  case stack => exact fun v hv => hkeeps.reach.mpr ((hstack.touch ht).reach hv)
  case a1 => exact ha1
  case epc => exact hepc
  case sp_reg => exact hspreg
  case sp_eq => exact hspeq
  case base => exact hp.base
  case strings =>
    intro i a hi j hj
    have hslot := slot_add hi hdepth
    have hup := le_up16 (strlen s.k a + 1)
    rw [← hp.strings i a hi j hj]
    exact hkeeps.bytes _ (by omega)
  case words =>
    intro i hi
    rw [← hp.pointers i hi, Nat.zero_add]
    exact hword i hi.le
  case null =>
    rw [← hp.null, Nat.zero_add]
    exact hword _ le_rfl

end Calls

/-- What `exec` can end with, and when the arguments make it fail. -/
theorem exec_spec (h : Calls s trampoline argv ustack r₀ t tf us)
    (hfile : ∀ data ∈ file, data.length < 2 ^ 31) (path : List UInt8) :
    ∃ image k₁ ret s', s.load trampoline file = .ok (image, { s with k := k₁ }) ∧
      s.exec trampoline path file argv ustack = .ok (ret, s') ∧
      (ret = -1 ∧ GivesUp us s s' ∧
          (image = none ∨ PGSIZE < up16 (8 * (argv.length + 1)) + depth s.k argv) ∨
        ∃ data r m sp, file = some data ∧ image.isSome ∧ ret = argv.length ∧
          Execs r₀ tf us path data argv r m sp s s') := by
  obtain ⟨image, k₁, hload, hends⟩ := State.load_spec h.space.pool h.locked h.trampoline_eq
    h.trampoline_lt h.trapframe_eq h.trapframe_lt hfile
  rcases hends with ⟨rfl, hres⟩ | ⟨data, r, m, rfl, hr, hl, rfl⟩
  · refine ⟨none, k₁, -1, { s with k := k₁ }, hload, ?_, .inl ⟨rfl, ?_, .inl rfl⟩⟩
    · simp only [State.exec, hload, bind, Except.bind]
    · exact ⟨rfl, hres.pool, hres.free, fun f hf _ => hres.same f hf⟩
  have hbase : PGSIZE * (m + 2) - PGSIZE = PGSIZE * (m + 1) := by
    unfold PGSIZE
    omega
  have hcount := h.count
  obtain ⟨res, k₂, hpush, ht, hor⟩ := pushArgs_spec (h.stack hl) (h.arg hl)
    (by unfold MAXARG at *; omega : 0 + argv.length < MAXARG)
    (by unfold PGSIZE; omega : PGSIZE * (m + 2) % 16 = 0)
    (Nat.mul_le_mul_left PGSIZE (Nat.le_succ (m + 1))) le_rfl
  rw [Nat.zero_add] at hor
  rcases hor with ⟨rfl, hlt⟩ | ⟨sp, rfl, hp⟩
  · obtain ⟨s', hbad, hgives⟩ := h.givesUp hl hr ht
    refine ⟨_, k₁, -1, s', hload, ?_, .inl ⟨rfl, hgives, .inr ?_⟩⟩
    · simp only [State.exec, hload, hbase, hpush, hbad, bind, Except.bind]
    · unfold PGSIZE at *
      omega
  · obtain ⟨s', hcommit, hexecs⟩ := h.execs path hl ht hp
    refine ⟨_, k₁, argv.length, s', hload, ?_, .inr ⟨data, r, m, sp, rfl, rfl, rfl, hexecs⟩⟩
    simp only [State.exec, hload, hbase, hpush, hcommit, bind, Except.bind]

end Xv6.Exec
