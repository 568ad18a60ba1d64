import Xv6.Exec.Commit
import Xv6.Vm.Grow

/-!
# All or nothing

`exec` never panics: it leaves the process as it was, or gives it the image that the file
describes, with the arguments on its stack.
-/

namespace Xv6.Exec

open Lib Vm

variable {k : Kernel} {s s' : State} {r r₀ m t tf us ustack sp v trampoline : ℕ} {argv : List ℕ}
  {data path : List UInt8} {file : Option (List UInt8)}

/-- The `LOAD` segments that the file's headers describe. -/
def programSegments (data : List UInt8) : List Proghdr :=
  let elf := Elfhdr.ofBytes (data.take elfhdrSize)
  loadable data elf.phoff elf.phnum

/-- The image holds the segments that the headers describe: their bytes are in the file and
in the image, later segments counting, and every other byte is zero. -/
def HoldsSegments (data : List UInt8) (k : Kernel) (r m : ℕ) : Prop :=
  (∀ ph ∈ programSegments data, ph.vaddr + ph.filesz ≤ PGSIZE * m ∧
    (ph.filesz = 0 ∨ ph.off + ph.filesz ≤ data.length)) ∧
  ∀ v < PGSIZE * m, userByte k r v = imageByte data (programSegments data) v

/-- The file offsets that `exec` reads at fit into a `uint`.  Where the table of program
headers is cut off itself, the file has no headers, and what is found in their place must
put nothing but zeros into the image. -/
def OffsetsFit (data : List UInt8) : Prop :=
  ((Elfhdr.ofBytes (data.take elfhdrSize)).phnum = 0 ∨
    (Elfhdr.ofBytes (data.take elfhdrSize)).phoff < 2 ^ 32 ∨
    ∀ v, imageByte data (segments data) v = 0) ∧
  ∀ ph ∈ programSegments data, ph.filesz = 0 ∨ ph.off < 2 ^ 32

theorem headers_of_length_le {off n : ℕ} (h : data.length ≤ off) :
    ∀ ph ∈ headers data off n, ph.type ≠ ELF_PROG_LOAD := by
  induction n generalizing off with
  | zero => exact fun ph hph => absurd hph List.not_mem_nil
  | succ n ih =>
    intro ph hph
    rcases List.mem_cons.mp hph with rfl | hph
    · rw [List.drop_of_length_le h, List.take_nil]
      decide
    · exact ih (h.trans (Nat.le_add_right ..)) ph hph

theorem programSegments_eq_nil
    (h : data.length ≤ (Elfhdr.ofBytes (data.take elfhdrSize)).phoff) :
    programSegments data = [] :=
  List.filter_eq_nil_iff.mpr fun ph hph => by
    simpa using headers_of_length_le h ph hph

theorem imageByte_map_cut {segs : List Proghdr} (h : ∀ ph ∈ segs, ph.filesz = 0 ∨ ph.off < 2 ^ 32) :
    imageByte data (segs.map .cut) v = imageByte data segs v := by
  induction segs using List.reverseRecOn with
  | nil => rfl
  | append_singleton segs ph ih =>
    rw [List.map_append, List.map_singleton, imageByte_concat, imageByte_concat,
      ih fun p hp => h p (List.mem_append_left _ hp)]
    change (if ph.vaddr ≤ v ∧ v < ph.vaddr + ph.filesz then _ else _) = _
    split_ifs with hin
    · have hoff := (h ph (by simp)).resolve_left (by omega)
      rw [Proghdr.cut, Nat.mod_eq_of_lt hoff]
    · rfl

theorem segments_eq (h : (Elfhdr.ofBytes (data.take elfhdrSize)).phnum = 0 ∨
    (Elfhdr.ofBytes (data.take elfhdrSize)).phoff < 2 ^ 32) :
    segments data = (programSegments data).map .cut := by
  unfold segments programSegments
  dsimp only
  rcases h with h0 | hlt
  · rw [h0]
    rfl
  · rw [Nat.mod_eq_of_lt hlt]

/-- The image that `exec` makes is the one that the headers describe exactly if no offset
that matters is cut. -/
theorem Execs.holdsSegments_iff {m sp : ℕ} (h : Execs r₀ tf us path data argv r m sp s s')
    (hlen : data.length < 2 ^ 31) : HoldsSegments data s'.k r m ↔ OffsetsFit data := by
  by_cases hoff : (Elfhdr.ofBytes (data.take elfhdrSize)).phnum = 0 ∨
      (Elfhdr.ofBytes (data.take elfhdrSize)).phoff < 2 ^ 32
  · have hsegs := segments_eq hoff
    constructor
    · rintro ⟨hfile, -⟩
      refine ⟨by rw [← or_assoc]; exact .inl hoff, fun ph hph => ?_⟩
      exact (hfile ph hph).2.imp_right fun hin => by omega
    · rintro ⟨-, hfit⟩
      refine ⟨fun ph hph => ?_, fun v hv => ?_⟩
      · have hmem : ph.cut ∈ segments data := hsegs ▸ List.mem_map_of_mem hph
        refine ⟨h.below ph.cut hmem, (Nat.eq_zero_or_pos ph.filesz).imp_right fun hpos => ?_⟩
        have hin := (h.inFile _ hmem).resolve_left hpos.ne'
        rwa [Proghdr.cut, Nat.mod_eq_of_lt ((hfit ph hph).resolve_left hpos.ne')] at hin
      · rw [(h.program v hv).2, hsegs, imageByte_map_cut hfit]
  · -- the file has no program headers where its header says
    have hnil : programSegments data = [] := programSegments_eq_nil (by omega)
    unfold HoldsSegments OffsetsFit
    rw [hnil]
    simp only [List.not_mem_nil, false_imp_iff, implies_true, true_and, and_true, ← or_assoc,
      hoff, false_or]
    constructor
    · intro hbytes v
      rcases Nat.lt_or_ge v (PGSIZE * m) with hv | hv
      · rw [← (h.program v hv).2, hbytes v hv]
        rfl
      · exact imageByte_above fun ph hph => (h.below ph hph).trans hv
    · intro hzero v hv
      rw [(h.program v hv).2, hzero v]
      rfl

theorem length_lt (h : ∀ data ∈ file, data.length ≤ MAXFILE * BSIZE) :
    ∀ data ∈ file, data.length < 2 ^ 31 := fun data hdata =>
  (h data hdata).trans_lt (by decide)

theorem GivesUp.keeps (h : GivesUp us s s') (hs : Space s.k r₀ (pages s.p.sz))
    (hus : ¬Owned s.k r₀ (pages s.p.sz) us) {f : ℕ} (hf : Held s.k r₀ (pages s.p.sz) f) :
    SamePage s.k s'.k f :=
  h.same f (fun hfree => hs.free_apart f hfree hf) fun heq => hus (.inl (heq ▸ hf))

/-- `exec` is all or nothing, for every file and every pattern of allocation failures.  The
image is the one that the headers describe exactly if the file offsets in them fit into
32 bits. -/
theorem exec_all_or_nothing (h : Calls s trampoline argv ustack r₀ t tf us)
    (hfile : ∀ data ∈ file, data.length ≤ MAXFILE * BSIZE) (path : List UInt8) :
    ∃ ret s', s.exec trampoline path file argv ustack = .ok (ret, s') ∧
      s'.ops = s.ops ∧ s'.ref = s.ref ∧ s'.locked = false ∧
      (ret = -1 ∧ s'.p = s.p ∧ s'.name = s.name ∧ (∀ f, s'.k.Free f ↔ s.k.Free f) ∧
          SamePage s.k s'.k tf ∧
          (∀ v < MAXVA, s'.k.lookup (PGSIZE * r₀) v = s.k.lookup (PGSIZE * r₀) v) ∧
          (∀ v < s.p.sz, s'.k.view (PGSIZE * r₀) v = s.k.view (PGSIZE * r₀) v) ∨
        ∃ data r m, file = some data ∧ ret = argv.length ∧
          s'.p = { s.p with pagetable := PGSIZE * r, sz := PGSIZE * (m + 2) } ∧
          Space s'.k r (m + 2) ∧ (∀ f, Held s'.k r (m + 2) f → s.k.Free f) ∧
          (∀ f, Owned s'.k r (m + 2) f ↔ Owned s.k r₀ (pages s.p.sz) f) ∧
          (∀ v < PGSIZE * m, Reach false s'.k.mem r v) ∧
          (∀ v, v / PGSIZE = m → ¬Reach false s'.k.mem r v) ∧
          (HoldsSegments data s'.k r m ↔ OffsetsFit data)) := by
  obtain ⟨image, k₁, ret, s', -, hok, hor⟩ := exec_spec h (length_lt hfile) path
  refine ⟨ret, s', hok, ?_⟩
  rcases hor with ⟨rfl, hup, -⟩ | ⟨data, r, m, sp, rfl, -, rfl, hex⟩
  · have hkeep : ∀ f, Held s.k r₀ (pages s.p.sz) f → SamePage s.k s'.k f := fun f hf =>
      hup.keeps h.space h.ustack_apart hf
    have htab : ∀ f ∈ Tables s.k.mem r₀, SamePage s.k s'.k f := fun f hf => hkeep f (.inl hf)
    have htree : IsTree s'.k.mem r₀ := h.space.tree.congr htab
    have hleaf : ∀ v, leaf s'.k.mem r₀ v = leaf s.k.mem r₀ v := fun v => leaf_congr htab
    have htf : SamePage s.k s'.k tf := hup.same tf (fun hf => h.trapframe_apart (.inr hf))
      h.ustack_ne.symm
    have hrest := hup.rest
    refine ⟨by rw [hrest], by rw [hrest], by rw [hrest]; exact h.locked,
      .inl ⟨rfl, by rw [hrest], by rw [hrest], hup.free, htf, fun v hv => ?_, fun v hv => ?_⟩⟩
    · rw [lookup_eq htree hv, lookup_eq h.space.tree hv, hleaf]
    · have hpage : v / PGSIZE < pages s.p.sz := div_lt_pages hv
      have hmax : v < MAXVA := by
        have := h.space.lt_maxva le_rfl
        unfold PGSIZE at *
        omega
      refine view_eq_of_leaf h.space.tree htree hmax (hleaf v) (hkeep _ (.inr ⟨_, hpage, ?_⟩))
      rw [leaf_eq_page, userFrame]
  · have hrest := hex.rest
    refine ⟨by rw [hrest], by rw [hrest], by rw [hrest]; exact h.locked,
      .inr ⟨data, r, m, rfl, rfl, by rw [hrest], hex.space, hex.fresh, hex.owned,
        fun v hv => (hex.program v hv).1, hex.guard,
        hex.holdsSegments_iff (length_lt hfile data rfl)⟩⟩

theorem depth_mod (k : Kernel) (argv : List ℕ) : depth k argv % 16 = 0 := by
  induction argv with
  | nil => rfl
  | cons a argv ih =>
    have := up16_mod (strlen k a + 1)
    rw [depth_cons]
    omega

theorem slot_add_le {sz i j a b : ℕ} (hi : argv[i]? = some a) (hj : argv[j]? = some b) (hij : i < j)
    (hd : depth k argv ≤ sz) : slot k sz argv j + (strlen k b + 1) ≤ slot k sz argv i := by
  have hup := le_up16 (strlen k b + 1)
  have haddi := slot_add hi hd
  have haddj := slot_add hj hd
  have hmono : depth k (argv.take (i + 1)) ≤ depth k (argv.take j) := depth_take_le hij
  rw [depth_take_succ hi] at hmono
  omega

/-- The argument stack: `exec` returns the number of strings, the words at the stack pointer
are the addresses of copies of them, and the copies and the array share the stack page.  Once
the program is loaded, `exec` fails exactly if they do not fit. -/
theorem exec_arguments (h : Calls s trampoline argv ustack r₀ t tf us)
    (hfile : ∀ data ∈ file, data.length ≤ MAXFILE * BSIZE) (path : List UInt8) :
    ∃ image s₁ ret s', s.load trampoline file = .ok (image, s₁) ∧
      s.exec trampoline path file argv ustack = .ok (ret, s') ∧
      (image = none → ret = -1) ∧
      (image.isSome → (ret = -1 ↔ PGSIZE < up16 (8 * (argv.length + 1)) + depth s.k argv)) ∧
      (ret ≠ -1 → ret = argv.length ∧ ∃ (r sp : ℕ) (addr : ℕ → ℕ),
        s'.p.pagetable = PGSIZE * r ∧
        s'.k.load (s'.p.trapframe + 120) = sp ∧ s'.k.load (s'.p.trapframe + 48) = sp ∧
        sp % 16 = 0 ∧ (∀ v, s'.p.sz - PGSIZE ≤ v → v < s'.p.sz → Reach true s'.k.mem r v) ∧
        (∀ i < argv.length, userWord s'.k r (sp + 8 * i) = addr i) ∧
        userWord s'.k r (sp + 8 * argv.length) = 0 ∧
        (∀ i a, argv[i]? = some a →
          (∀ j ≤ strlen s.k a, userByte s'.k r (addr i + j) = s.k.mem (a + j)) ∧
          userByte s'.k r (addr i + strlen s.k a) = 0 ∧
          (∀ j < strlen s.k a, userByte s'.k r (addr i + j) ≠ 0) ∧
          sp + 8 * (argv.length + 1) ≤ addr i ∧ addr i + (strlen s.k a + 1) ≤ s'.p.sz) ∧
        (∀ i j a b, i < j → argv[i]? = some a → argv[j]? = some b →
          addr j + (strlen s.k b + 1) ≤ addr i) ∧
        s'.p.sz - PGSIZE ≤ sp ∧ sp + 8 * (argv.length + 1) ≤ s'.p.sz) := by
  obtain ⟨image, k₁, ret, s', hload, hok, hor⟩ := exec_spec h (length_lt hfile) path
  refine ⟨image, _, ret, s', hload, hok, ?_⟩
  rcases hor with ⟨rfl, -, hwhy⟩ | ⟨data, r, m, sp, rfl, hsome, rfl, hex⟩
  · refine ⟨fun _ => rfl, fun hsome => ⟨fun _ => hwhy.resolve_left ?_, fun _ => rfl⟩,
      fun hne => absurd rfl hne⟩
    rintro rfl
    cases hsome
  have hret : (argv.length : ℤ) ≠ -1 := by omega
  have hsp := hex.sp_eq
  have hbase := hex.base
  have hup := le_up16 (8 * (argv.length + 1))
  have hsz : s'.p.sz = PGSIZE * (m + 2) := by rw [hex.rest]
  have htf : s'.p.trapframe = PGSIZE * tf := by
    rw [hex.rest]
    exact h.trapframe_eq
  have hdepth : depth s.k argv ≤ PGSIZE * (m + 2) := by omega
  have hstackbase : PGSIZE * (m + 2) - PGSIZE = PGSIZE * (m + 1) := by
    unfold PGSIZE
    omega
  refine ⟨fun hnone => ?_, fun _ => ⟨fun h => absurd h hret, fun hbig => ?_⟩, fun _ => ⟨rfl, r, sp,
    slot s.k (PGSIZE * (m + 2)) argv, by rw [hex.rest], ?_, ?_, ?_, fun v hlo hhi => ?_, hex.words,
    hex.null, fun i a hi => ?_, fun i j a b hij hi hj => slot_add_le hi hj hij hdepth, ?_, ?_⟩⟩
  · rw [hnone] at hsome
    cases hsome
  · unfold PGSIZE at *
    omega
  · rw [htf]
    exact hex.a1
  · rw [htf]
    exact hex.sp_reg
  · have h16 := up16_mod (8 * (argv.length + 1))
    have hd16 := depth_mod s.k argv
    unfold PGSIZE at *
    omega
  · rw [hsz] at hlo hhi
    refine hex.stack v ?_
    unfold PGSIZE at *
    omega
  · have hcopy := hex.strings i a hi
    obtain ⟨f, rfl, -, -, hlen⟩ := h.args a (List.mem_of_getElem? hi)
    obtain ⟨hend, hbefore⟩ := strlenFrom_spec hlen
    have hslot := slot_add hi hdepth
    have hupa := le_up16 (strlen s.k (PGSIZE * f) + 1)
    refine ⟨hcopy, (hcopy _ le_rfl).trans hend, fun j hj => ?_, ?_, ?_⟩
    · rw [hcopy j hj.le]
      exact hbefore j hj
    · exact (Nat.add_le_add_left hup sp).trans (le_slot (by omega))
    · rw [hsz]
      omega
  · rw [hsz, hstackbase]
    exact hbase
  · rw [hsz]
    omega

/-! ## A process that calls `exec` -/

/-- Fifteen free pages, and one argument, "a", in page 43. -/
def smallKernel : Kernel where
  mem := fun x => if x = PGSIZE * 43 then 97 else 0
  freelist := (List.range 15).map fun i => PGSIZE * (i + 2)
  busy := []
  kernelEnd := PGSIZE

/-- A process without memory, with its trapframe in page 40. -/
def smallProc (pagetable : ℕ) : Vm.Proc := ⟨pagetable, 0, PGSIZE * 40⟩

def smallState (pagetable : ℕ) (k : Kernel) : State where
  k := k
  p := smallProc pagetable
  name := []
  ops := 0
  ref := 0
  locked := false

/-- A program of one byte at file offset 120, to be loaded at address 0.  The program header
says that it is at offset 120 + `high` · 2³². -/
def oneByteElf (high : UInt8) : List UInt8 :=
  [0x7f, 0x45, 0x4c, 0x46] ++ List.replicate 28 0 ++ [64] ++ List.replicate 23 0 ++ [1] ++
    List.replicate 7 0 ++ [1, 0, 0, 0, 7, 0, 0, 0, 120, 0, 0, 0, high] ++ List.replicate 19 0 ++
    [1] ++ List.replicate 7 0 ++ [1] ++ List.replicate 15 0 ++ [42]

def wrappedElf : List UInt8 := oneByteElf 1

theorem smallKernel_pool : Pool smallKernel := by
  refine ⟨by decide, fun pa hpa => ?_⟩
  obtain ⟨i, hi, rfl⟩ := List.mem_map.mp hpa
  have hlt : i < 15 := List.mem_range.mp hi
  refine ⟨i + 2, rfl, by decide, ?_, ?_⟩
  · exact Nat.le_mul_of_pos_right PGSIZE (Nat.succ_pos _)
  · unfold PHYSTOP PGSIZE
    omega

theorem smallKernel_free {f : ℕ} : smallKernel.Free f → f < 17 := by
  intro hf
  obtain ⟨i, hi, heq⟩ := List.mem_map.mp hf
  have hlt : i < 15 := List.mem_range.mp hi
  unfold PGSIZE at heq
  omega

def loads (data : List UInt8) : Bool :=
  (smallKernel.procPagetable (PGSIZE * 41) (smallProc 0)).toOption.any fun x =>
    decide (x.1 ≠ 0) && ((smallState x.1 x.2).load (PGSIZE * 41) (some data)).toOption.any
      fun y => y.1.isSome

/-- The process can call `exec` with its argument, and loading the program succeeds. -/
theorem exists_calls (hrun : loads data = true) :
    ∃ (s : State) (r : ℕ) (image : ℕ × ℕ × ℕ) (s₁ : State),
    Calls s (PGSIZE * 41) [PGSIZE * 43] (PGSIZE * 42) r 41 40 42 ∧
      s.load (PGSIZE * 41) (some data) = .ok (some image, s₁) ∧
      s.k.mem (PGSIZE * 43) = 97 ∧ strlen s.k (PGSIZE * 43) = 1 := by
  obtain ⟨pagetable, k, hproc, hor⟩ := procPagetable_spec (p := smallProc 0) smallKernel_pool
    (rfl : PGSIZE * 41 = PGSIZE * 41) (by decide) (rfl : (smallProc 0).trapframe = PGSIZE * 40)
    (by decide)
  unfold loads at hrun
  rw [hproc] at hrun
  obtain ⟨hne, hload⟩ := (Bool.and_eq_true _ _).mp hrun
  rcases hor with ⟨rfl, -⟩ | ⟨r, rfl, -, hbuild, htop⟩
  · exact absurd rfl (of_decide_eq_true hne)
  have hspace : Space k r (pages 0) := hbuild.space
  have hout : ∀ f, 17 ≤ f → ¬Owned k r (pages 0) f := fun f hf ho =>
    absurd (smallKernel_free ((hbuild.owned f).mp ho)) (Nat.not_lt.mpr hf)
  have hsame : SamePage smallKernel k 43 :=
    hbuild.same 43 fun hf => absurd (smallKernel_free hf) (by decide)
  have hlen : strlen k (PGSIZE * 43) = 1 := by
    rw [strlen_congr hsame]
    decide +kernel
  cases hl : (smallState (PGSIZE * r) k).load (PGSIZE * 41) (some data) with
  | error e =>
    simp only [hl] at hload
    cases hload
  | ok x =>
    obtain ⟨image, s₁⟩ := x
    simp only [hl] at hload
    obtain ⟨image, rfl⟩ := Option.isSome_iff_exists.mp hload
    refine ⟨smallState (PGSIZE * r) k, r, image, s₁, ⟨rfl, hspace, htop, rfl, rfl, by decide, rfl,
      by decide, hout 40 (by decide), le_rfl, by decide, hout 42 (by decide), by decide,
      fun a ha => ?_,
      by decide⟩, hl, hsame 0 (by decide), hlen⟩
    obtain rfl := List.mem_singleton.mp ha
    exact ⟨43, rfl, hout 43 (by decide), by decide, hlen.trans_lt (by decide)⟩

theorem loads_wrappedElf : loads wrappedElf = true := by decide +kernel

theorem oneByteElf_length (high : UInt8) :
    ∀ data ∈ some (oneByteElf high), data.length ≤ MAXFILE * BSIZE := by
  intro data hdata
  obtain rfl := Option.some.inj hdata
  simp [oneByteElf, MAXFILE, NINDIRECT, NDIRECT, BSIZE]

theorem wrappedElf_length : ∀ data ∈ some wrappedElf, data.length ≤ MAXFILE * BSIZE :=
  oneByteElf_length 1

theorem depth_oneArg (h : strlen k (PGSIZE * 43) = 1) :
    ¬PGSIZE < up16 (8 * ([PGSIZE * 43].length + 1)) + depth k [PGSIZE * 43] := by
  rw [depth_cons, h, show depth k [] = 0 from rfl]
  decide

theorem exec_arguments_oneArg : ∃ (s s' : State) (r sp : ℕ),
    s.exec (PGSIZE * 41) [] (some wrappedElf) [PGSIZE * 43] (PGSIZE * 42) = .ok (1, s') ∧
      s'.p.pagetable = PGSIZE * r ∧ s'.k.load (s'.p.trapframe + 120) = sp ∧
      userByte s'.k r (userWord s'.k r sp) = 97 ∧ userByte s'.k r (userWord s'.k r sp + 1) = 0 := by
  obtain ⟨s, r₀, image, s₁, hcalls, hload, hmem, hlen⟩ := exists_calls loads_wrappedElf
  obtain ⟨image', s₁', ret, s', hload', hok, -, hfits, hdone⟩ :=
    exec_arguments hcalls wrappedElf_length []
  rw [hload] at hload'
  obtain ⟨rfl, -⟩ := Prod.mk.inj (Except.ok.inj hload')
  have hne : ret ≠ -1 := fun hret => depth_oneArg hlen ((hfits rfl).mp hret)
  obtain ⟨rfl, r, sp, addr, hpt, hsp, -, -, -, hwords, -, hcopies, -⟩ := hdone hne
  have hword : userWord s'.k r sp = addr 0 := hwords 0 (by decide)
  obtain ⟨hcopy, hnul, -⟩ := hcopies 0 _ rfl
  rw [hlen] at hcopy hnul
  refine ⟨s, s', r, sp, hok, hpt, hsp, ?_, ?_⟩
  · rw [hword]
    exact (hcopy 0 (by decide)).trans hmem
  · rw [hword]
    exact hnul

theorem exec_all_or_nothing_oneArg : OffsetsFit (oneByteElf 0) ∧ ∃ (s s' : State) (r m : ℕ),
    s.exec (PGSIZE * 41) [] (some (oneByteElf 0)) [PGSIZE * 43] (PGSIZE * 42) = .ok (1, s') ∧
      s'.ops = s.ops ∧ s'.ref = s.ref ∧ s'.locked = false ∧ s'.p.pagetable = PGSIZE * r ∧
      HoldsSegments (oneByteElf 0) s'.k r m ∧ userByte s'.k r 0 = 42 := by
  have hfit : OffsetsFit (oneByteElf 0) := by
    have hsegs : (programSegments (oneByteElf 0)).map (fun ph => ph.off) = [120] := by
      decide +kernel
    refine ⟨.inr (.inl (by decide +kernel)), fun ph hph => .inr ?_⟩
    have hoff : ph.off ∈ (programSegments (oneByteElf 0)).map (fun ph => ph.off) :=
      List.mem_map_of_mem hph
    rw [hsegs, List.mem_singleton] at hoff
    omega
  obtain ⟨s, r₀, image, s₁, hcalls, hload, -, hlen⟩ :=
    exists_calls (by decide +kernel : loads (oneByteElf 0) = true)
  obtain ⟨image', k₁, ret', s'', hload', hok', hor⟩ :=
    exec_spec hcalls (length_lt (oneByteElf_length 0)) []
  obtain ⟨ret, s', hok, hops, href, hlocked, hall⟩ :=
    exec_all_or_nothing hcalls (oneByteElf_length 0) []
  obtain ⟨rfl, rfl⟩ := Prod.mk.inj (Except.ok.inj (hok'.symm.trans hok))
  obtain ⟨rfl, -⟩ := Prod.mk.inj (Except.ok.inj (hload.symm.trans hload'))
  -- the program is loaded and the argument fits, so this call does not fail
  have hne : ret' ≠ -1 := by
    rcases hor with ⟨-, -, hnone | hbig⟩ | ⟨data, r, m, sp, -, -, rfl, -⟩
    · cases hnone
    · exact absurd hbig (depth_oneArg hlen)
    · decide
  rcases hall with ⟨rfl, -⟩ | ⟨data, r, m, hdata, rfl, hp, -, -, -, -, -, hiff⟩
  · exact absurd rfl hne
  obtain rfl := Option.some.inj hdata
  have hholds := hiff.mpr hfit
  refine ⟨hfit, s, s'', r, m, hok, hops, href, hlocked, by rw [hp], hholds, ?_⟩
  have hone : (programSegments (oneByteElf 0)).map (fun ph => ph.vaddr + ph.filesz) = [1] := by
    decide +kernel
  have hmem : 1 ∈ (programSegments (oneByteElf 0)).map (fun ph => ph.vaddr + ph.filesz) := by
    rw [hone]
    exact List.mem_singleton.mpr rfl
  obtain ⟨ph, hph, hend⟩ := List.mem_map.mp hmem
  have hpos : 0 < PGSIZE * m := (by omega : 0 < ph.vaddr + ph.filesz).trans_le (hholds.1 ph hph).1
  rw [hholds.2 0 hpos]
  decide +kernel

/-- A header with an offset of 2³² + 120 makes `exec` load the byte at offset 120, although
the file has no byte where the header says. -/
theorem exec_truncates_offset : ∃ (s s' : State) (r₀ r m : ℕ),
    Calls s (PGSIZE * 41) [PGSIZE * 43] (PGSIZE * 42) r₀ 41 40 42 ∧
      s.exec (PGSIZE * 41) [] (some wrappedElf) [PGSIZE * 43] (PGSIZE * 42) = .ok (1, s') ∧
      s'.p.pagetable = PGSIZE * r ∧ s'.p.sz = PGSIZE * (m + 2) ∧
      (programSegments wrappedElf).map (fun ph => (ph.vaddr, ph.filesz, ph.off)) =
        [(0, 1, 2 ^ 32 + 120)] ∧
      ¬∀ v < PGSIZE * m, userByte s'.k r v =
        imageByte wrappedElf (programSegments wrappedElf) v := by
  obtain ⟨s, r₀, image, s₁, hcalls, hload, hmem, hlen⟩ := exists_calls loads_wrappedElf
  obtain ⟨image', k₁, ret, s', hload', hok, hor⟩ :=
    exec_spec hcalls (length_lt wrappedElf_length) []
  rw [hload] at hload'
  obtain ⟨rfl, -⟩ := Prod.mk.inj (Except.ok.inj hload')
  rcases hor with ⟨-, -, hwhy⟩ | ⟨data, r, m, sp, hdata, -, rfl, hex⟩
  · rcases hwhy with hnone | hbig
    · cases hnone
    · exact absurd hbig (depth_oneArg hlen)
  obtain rfl := Option.some.inj hdata
  refine ⟨s, s', r₀, r, m, hcalls, hok, by rw [hex.rest], by rw [hex.rest], by decide +kernel,
    fun hall => ?_⟩
  have hpos : 0 < PGSIZE * m := by
    have hlist : (segments wrappedElf).map (fun ph => ph.vaddr + ph.filesz) = [1] := by
      decide +kernel
    have hmem : 1 ∈ (segments wrappedElf).map (fun ph => ph.vaddr + ph.filesz) := by
      rw [hlist]
      exact List.mem_singleton.mpr rfl
    obtain ⟨ph, hph, hone⟩ := List.mem_map.mp hmem
    exact (by omega : 0 < ph.vaddr + ph.filesz).trans_le (hex.below ph hph)
  have hbyte := (hex.program 0 hpos).2
  rw [hall 0 hpos] at hbyte
  exact absurd hbyte (by decide +kernel)

end Xv6.Exec
