import Xv6.Log.Machine

/-!
# The invariant of the logging machine

The invariant relates the on-disk header, the log blocks, the home blocks and
the pinned buffers.  While the machine is up it says in which of the phases of
`commit` the disk is; each phase is recoverable, and recovery keeps it so.
-/

namespace Xv6.Log.Machine

open Lib

def Spec.base (sp : Spec) (D : ℕ → Block) : ℕ → Block := replay D sp.groups.flatten

/-- What a `bread` is to return: the log area as it is on the disk, and the
home blocks with every logged write applied. -/
def upView (D : ℕ → Block) (sp : Spec) (s : State) : ℕ → Block := fun b =>
  if inLog s.log b then s.dev.disk b else replay (sp.base D) sp.cur b

/-- The blocks whose buffers the log keeps in the cache. -/
def pinList (s : State) : List ℕ :=
  match s.phase with
  | .idle | .writeLog _ => s.log.lh.blocks
  | .install tail => s.log.lh.blocks.drop tail
  | _ => []

/-- The recorded block numbers are distinct, lie outside the log area, and
their copies fit into it. -/
structure HeaderOk (log : Log) : Prop where
  nodup : log.lh.blocks.Nodup
  le_logsize : log.lh.n ≤ LOGSIZE
  lt_size : log.lh.n < log.size
  home : ∀ b ∈ log.lh.blocks, ¬ inLog log b ∧ b < 2 ^ 32

structure Up (D : ℕ → Block) (sp : Spec) (s : State) : Prop where
  header : HeaderOk s.log
  opens : sp.openOps = s.active
  outstanding : s.log.outstanding = s.active.card
  held_active : ∀ p b, (p, b) ∈ s.dev.held → p ∈ s.active
  held_unique : ∀ p q b, (p, b) ∈ s.dev.held → (q, b) ∈ s.dev.held → p = q
  coherent : s.dev.Coherent (upView D sp s) (· ∈ pinList s)

/-- Operations run; the disk has every closed group and an empty log. -/
structure Idle (D : ℕ → Block) (sp : Spec) (s : State) : Prop extends Up D sp s where
  not_committing : s.log.committing = false
  returned : sp.returned ≤ sp.groups.length
  logged : ∀ b, b ∈ s.log.lh.blocks ↔ b ∈ sp.cur.map Prod.fst
  head : headN (s.dev.disk s.log.start) = 0
  home : ∀ b, ¬ inLog s.log b → s.dev.disk b = sp.base D b

/-- `commit` runs for the group `g`, the last of the closed ones. -/
structure Committing (D : ℕ → Block) (sp : Spec) (s : State)
    (gs : List (List (ℕ × Block))) (g : List (ℕ × Block)) : Prop extends Up D sp s where
  committing : s.log.committing = true
  active : s.active = ∅
  groups : sp.groups = gs ++ [g]
  cur : sp.cur = []
  returned : sp.returned ≤ gs.length

/-- Before the header is written the disk has the groups before `g`. -/
structure WritingLog (D : ℕ → Block) (sp : Spec) (s : State) (tail : ℕ)
    (gs : List (List (ℕ × Block))) (g : List (ℕ × Block)) : Prop extends
    Committing D sp s gs g where
  tail_le : tail ≤ s.log.lh.n
  logged : ∀ b, b ∈ s.log.lh.blocks ↔ b ∈ g.map Prod.fst
  head : headN (s.dev.disk s.log.start) = 0
  home : ∀ b, ¬ inLog s.log b → s.dev.disk b = replay D gs.flatten b
  copied : ∀ i < tail, s.dev.disk (s.log.start + i + 1) = sp.base D (s.log.lh.block i)

/-- Once the header is written the log blocks hold the whole group `g`. -/
structure Installing (D : ℕ → Block) (sp : Spec) (s : State) (tail : ℕ)
    (gs : List (List (ℕ × Block))) (g : List (ℕ × Block)) : Prop extends
    Committing D sp s gs g where
  tail_le : tail ≤ s.log.lh.n
  head : headN (s.dev.disk s.log.start) = s.log.lh.n
  headBlocks : ∀ i < s.log.lh.n, headBlock (s.dev.disk s.log.start) i = s.log.lh.block i
  copied : ∀ i < s.log.lh.n, s.dev.disk (s.log.start + i + 1) = sp.base D (s.log.lh.block i)

/-- After the clearing `write_head` the disk has the group `g` too. -/
structure Done (D : ℕ → Block) (sp : Spec) (s : State)
    (gs : List (List (ℕ × Block))) (g : List (ℕ × Block)) : Prop extends
    Committing D sp s gs g where
  cleared : s.log.lh.n = 0
  head : headN (s.dev.disk s.log.start) = 0

/-- A disk from which `recover_from_log` produces `target`. -/
structure Recoverable (log : Log) (target disk : ℕ → Block) : Prop where
  lt_size : headN (disk log.start) < log.size
  le_logsize : headN (disk log.start) ≤ LOGSIZE
  outside : ∀ i < headN (disk log.start), ¬ inLog log (headBlock (disk log.start) i)
  copied : ∀ i < headN (disk log.start),
    disk (log.start + i + 1) = target (headBlock (disk log.start) i)
  home : ∀ b, ¬ inLog log b → (∀ i < headN (disk log.start), headBlock (disk log.start) i ≠ b) →
    disk b = target b

/-- Recovery runs towards the first `k` groups. -/
structure Recovering (D : ℕ → Block) (sp : Spec) (s : State) (k : ℕ) : Prop where
  active : s.active = ∅
  held : s.dev.held = ∅
  returned_le : sp.returned ≤ k
  le_groups : k ≤ sp.groups.length
  coherent : s.dev.Coherent s.dev.disk (fun _ => False)
  recoverable : Recoverable s.log (replay D (sp.groups.take k).flatten) s.dev.disk

/-- `install_trans(1)` has installed the first `tail` blocks. -/
structure Reinstalling (D : ℕ → Block) (sp : Spec) (s : State) (tail k : ℕ) : Prop extends
    Recovering D sp s k where
  tail_le : tail ≤ s.log.lh.n
  n_eq : s.log.lh.n = headN (s.dev.disk s.log.start)
  block_eq : ∀ i < s.log.lh.n, s.log.lh.block i = headBlock (s.dev.disk s.log.start) i
  installed : ∀ i < tail, s.dev.disk (s.log.lh.block i) =
    replay D (sp.groups.take k).flatten (s.log.lh.block i)

def Inv (D : ℕ → Block) (sp : Spec) (s : State) : Prop :=
  match s.phase with
  | .idle => Idle D sp s
  | .writeLog tail => ∃ gs g, WritingLog D sp s tail gs g
  | .install tail => ∃ gs g, Installing D sp s tail gs g
  | .done => ∃ gs g, Done D sp s gs g
  | .boot => ∃ k, Recovering D sp s k
  | .recover tail => ∃ k, Reinstalling D sp s tail k
  | .recovered => ∃ k, Recovering D sp s k ∧ headN (s.dev.disk s.log.start) = 0

/-! ## Events that only touch the cache -/

theorem Inv.of_cache {D : ℕ → Block} {sp : Spec} {s : State} {dev : Dev} (h : Inv D sp s)
    (hdisk : dev.disk = s.dev.disk) (hheld : dev.held = s.dev.held)
    (hcoh : ∀ view (pins : ℕ → Prop) [DecidablePred pins],
      s.dev.Coherent view pins → dev.Coherent view pins) :
    Inv D sp { s with dev := dev } := by
  have hup : Up D sp s → Up D sp { s with dev := dev } := by
    intro hu
    refine ⟨hu.header, hu.opens, hu.outstanding, ?_, ?_, ?_⟩
    · simpa only [hheld] using hu.held_active
    · simpa only [hheld] using hu.held_unique
    · have hview : upView D sp { s with dev := dev } = upView D sp s := by
        funext b
        simp only [upView, hdisk]
      rw [hview]
      exact hcoh _ _ hu.coherent
  have hcommitting : ∀ gs g, Committing D sp s gs g →
      Committing D sp { s with dev := dev } gs g := fun gs g hc =>
    ⟨hup hc.toUp, hc.committing, hc.active, hc.groups, hc.cur, hc.returned⟩
  have hrec : ∀ k, Recovering D sp s k → Recovering D sp { s with dev := dev } k := fun k hr =>
    ⟨hr.active, hheld.trans hr.held, hr.returned_le, hr.le_groups,
      by simpa only [hdisk] using hcoh _ _ hr.coherent,
      by simpa only [hdisk] using hr.recoverable⟩
  obtain ⟨dev₀, log, active, phase⟩ := s
  cases phase with
  | idle =>
    exact ⟨hup h.toUp, h.not_committing, h.returned, h.logged,
      by simpa only [hdisk] using h.head, by simpa only [hdisk] using h.home⟩
  | writeLog tail =>
    obtain ⟨gs, g, hw⟩ := h
    exact ⟨gs, g, hcommitting gs g hw.toCommitting, hw.tail_le, hw.logged,
      by simpa only [hdisk] using hw.head, by simpa only [hdisk] using hw.home,
      by simpa only [hdisk] using hw.copied⟩
  | install tail =>
    obtain ⟨gs, g, hi⟩ := h
    exact ⟨gs, g, hcommitting gs g hi.toCommitting, hi.tail_le,
      by simpa only [hdisk] using hi.head, by simpa only [hdisk] using hi.headBlocks,
      by simpa only [hdisk] using hi.copied⟩
  | done =>
    obtain ⟨gs, g, hd⟩ := h
    exact ⟨gs, g, hcommitting gs g hd.toCommitting, hd.cleared,
      by simpa only [hdisk] using hd.head⟩
  | boot =>
    obtain ⟨k, hr⟩ := h
    exact ⟨k, hrec k hr⟩
  | recover tail =>
    obtain ⟨k, hr⟩ := h
    exact ⟨k, hrec k hr.toRecovering, hr.tail_le, by simpa only [hdisk] using hr.n_eq,
      by simpa only [hdisk] using hr.block_eq, by simpa only [hdisk] using hr.installed⟩
  | recovered =>
    obtain ⟨k, hr, hhead⟩ := h
    exact ⟨k, hrec k hr, by simpa only [hdisk] using hhead⟩

theorem Inv.read {D : ℕ → Block} {sp : Spec} {s : State} (h : Inv D sp s) (b : ℕ) :
    Inv D sp { s with dev := s.dev.touch b } :=
  h.of_cache rfl rfl fun _ _ _ hc => hc.touch b

theorem Inv.evict {D : ℕ → Block} {sp : Spec} {s : State} {dev : Dev} {b : ℕ} (h : Inv D sp s)
    (hd : s.dev.evict b = some dev) : Inv D sp { s with dev := dev } := by
  have heq : dev.disk = s.dev.disk ∧ dev.held = s.dev.held := by
    unfold Dev.evict at hd
    split_ifs at hd
    obtain rfl := Option.some.inj hd
    exact ⟨rfl, rfl⟩
  exact h.of_cache heq.1 heq.2 fun _ _ _ hc => hc.evict hd

end Xv6.Log.Machine
