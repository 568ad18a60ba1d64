import Xv6.Log.Invariant

/-!
# Crashes and recovery

Whatever the phase, a crash leaves a disk that `recover_from_log` can bring to
a whole number of groups, and recovery keeps such a disk recoverable to the
same groups until it has cleared the header.
-/

namespace Xv6.Log.Machine

open Lib
open Function (update update_self update_of_ne)

/-! ## A crash -/

/-- The state a crash leaves, by what was on the disk. -/
theorem recovering_crash {D : ℕ → Block} {sp : Spec} {s s' : State} {k : ℕ}
    (hs : step s .crash = some s') (hret : sp.returned ≤ k) (hk : k ≤ sp.groups.length)
    (hrec : Recoverable s.log (replay D (sp.groups.take k).flatten) s.dev.disk) :
    Inv D sp s' := by
  obtain rfl := Option.some.inj hs
  exact ⟨k, rfl, rfl, hret, hk, Dev.coherent_reset s.dev,
    ⟨hrec.lt_size, hrec.le_logsize, hrec.outside, hrec.copied, hrec.home⟩⟩

theorem recoverable_of_empty {log : Log} {target disk : ℕ → Block} (hsize : 0 < log.size)
    (hhead : headN (disk log.start) = 0) (hhome : ∀ b, ¬ inLog log b → disk b = target b) :
    Recoverable log target disk where
  lt_size := by omega
  le_logsize := by omega
  outside := by intro i hi; omega
  copied := by intro i hi; omega
  home := fun b hb _ => hhome b hb

theorem Up.size_pos {D : ℕ → Block} {sp : Spec} {s : State} (h : Up D sp s) : 0 < s.log.size :=
  (Nat.zero_le _).trans_lt h.header.lt_size

theorem Installing.recoverable {D : ℕ → Block} {sp : Spec} {s : State} {tail : ℕ}
    {gs : List (List (ℕ × Block))} {g : List (ℕ × Block)} (h : Installing D sp s tail gs g)
    (hphase : s.phase = .install tail) : Recoverable s.log (sp.base D) s.dev.disk where
  lt_size := by rw [h.head]; exact h.header.lt_size
  le_logsize := by rw [h.head]; exact h.header.le_logsize
  outside := by
    intro i hi
    rw [h.head] at hi
    rw [h.headBlocks i hi]
    exact (h.header.home _ (LogHeader.mem_blocks.mpr ⟨i, hi, rfl⟩)).1
  copied := by
    intro i hi
    rw [h.head] at hi
    rw [h.headBlocks i hi]
    exact h.copied i hi
  home := by
    intro b hb hne
    have hpin : b ∉ pinList s := by
      simp only [pinList, hphase]
      intro hmem
      obtain ⟨i, hi, hib⟩ := LogHeader.mem_blocks.mp (List.mem_of_mem_drop hmem)
      exact hne i (by rw [h.head]; exact hi) ((h.headBlocks i hi).trans hib)
    have hclean := h.coherent.clean b hpin
    simpa [upView, hb, h.cur] using hclean

theorem Done.home {D : ℕ → Block} {sp : Spec} {s : State} {gs : List (List (ℕ × Block))}
    {g : List (ℕ × Block)} (h : Done D sp s gs g) (hphase : s.phase = .done) (b : ℕ)
    (hb : ¬ inLog s.log b) : s.dev.disk b = sp.base D b := by
  have hclean := h.coherent.clean b (by simp [pinList, hphase])
  simpa [upView, hb, h.cur] using hclean

theorem Inv.crash {D : ℕ → Block} {sp : Spec} {s s' : State} (h : Inv D sp s)
    (hs : step s .crash = some s') : Inv D sp s' := by
  have hall : replay D (sp.groups.take sp.groups.length).flatten = sp.base D := by
    rw [List.take_length]
    rfl
  unfold Inv at h
  split at h
  · refine recovering_crash hs h.returned le_rfl ?_
    rw [hall]
    exact recoverable_of_empty h.size_pos h.head h.home
  · obtain ⟨gs, g, hw⟩ := h
    refine recovering_crash hs hw.returned (by simp [hw.groups]) ?_
    rw [hw.groups, List.take_left]
    exact recoverable_of_empty hw.size_pos hw.head hw.home
  · obtain ⟨gs, g, hi⟩ := h
    refine recovering_crash hs (hi.returned.trans (by simp [hi.groups])) le_rfl ?_
    rw [hall]
    exact hi.recoverable ‹_›
  · obtain ⟨gs, g, hd⟩ := h
    refine recovering_crash hs (hd.returned.trans (by simp [hd.groups])) le_rfl ?_
    rw [hall]
    exact recoverable_of_empty hd.size_pos hd.head (hd.home ‹_›)
  · obtain ⟨k, hr⟩ := h
    exact recovering_crash hs hr.returned_le hr.le_groups hr.recoverable
  · obtain ⟨k, hr⟩ := h
    exact recovering_crash hs hr.returned_le hr.le_groups hr.recoverable
  · obtain ⟨k, hr, -⟩ := h
    exact recovering_crash hs hr.returned_le hr.le_groups hr.recoverable

/-! ## Recovery -/

theorem coherent_bwrite_disk {d : Dev} (h : d.Coherent d.disk (fun _ => False)) (b : ℕ)
    (x : Block) :
    (d.bwrite b x).Coherent (d.bwrite b x).disk (fun _ => False) := h.bwrite b x

theorem inLog_start {log : Log} (h : 0 < log.size) : inLog log log.start :=
  ⟨le_rfl, by omega⟩

theorem inLog_copy {log : Log} {i : ℕ} (h : i + 1 < log.size) : inLog log (log.start + i + 1) :=
  ⟨by omega, by omega⟩

/-- Installing one block brings its home block to the target and leaves the
log area alone. -/
theorem Recoverable.install {log : Log} {target disk : ℕ → Block} {i : ℕ}
    (h : Recoverable log target disk) (hi : i < headN (disk log.start)) :
    Recoverable log target
      (update disk (headBlock (disk log.start) i) (disk (log.start + i + 1))) := by
  have hout := h.outside i hi
  have hlog : ∀ b, inLog log b → update disk (headBlock (disk log.start) i)
      (disk (log.start + i + 1)) b = disk b := by
    intro b hb
    refine update_of_ne ?_ _ _
    rintro rfl
    exact hout hb
  have hstart := hlog _ (inLog_start (by have := h.lt_size; omega))
  refine ⟨by rw [hstart]; exact h.lt_size, by rw [hstart]; exact h.le_logsize,
    by rw [hstart]; exact h.outside, ?_, ?_⟩
  · rw [hstart]
    intro j hj
    have := h.lt_size
    rw [hlog _ (inLog_copy (by omega))]
    exact h.copied j hj
  · rw [hstart]
    intro b hb hne
    rw [update_of_ne (hne i hi).symm]
    exact h.home b hb hne

/-- When every entry is installed, clearing the header finishes recovery. -/
theorem Recoverable.clear {log : Log} {target disk : ℕ → Block} (h : Recoverable log target disk)
    (x : Block)
    (hall : ∀ i < headN (disk log.start), disk (headBlock (disk log.start) i) =
      target (headBlock (disk log.start) i))
    (hx : headN x = 0) : Recoverable log target (update disk log.start x) := by
  have hsize : 0 < log.size := by have := h.lt_size; omega
  refine recoverable_of_empty hsize (by simpa using hx) ?_
  intro b hb
  have hne : b ≠ log.start := by
    rintro rfl
    exact hb (inLog_start hsize)
  rw [update_of_ne hne]
  by_cases hmem : ∃ i < headN (disk log.start), headBlock (disk log.start) i = b
  · obtain ⟨i, hi, rfl⟩ := hmem
    exact hall i hi
  · push Not at hmem
    exact h.home b hb hmem

theorem Inv.recover {D : ℕ → Block} {sp : Spec} {s s' : State} (h : Inv D sp s)
    (hs : step s .recover = some s') : Inv D sp s' := by
  simp only [step, Machine.recover] at hs
  unfold Inv at h
  split at hs
  · -- `read_head`
    rename_i hphase
    rw [hphase] at h
    obtain ⟨k, hr⟩ := h
    obtain rfl := Option.some.inj hs
    have hhead : (s.dev.buf s.log.start).data = s.dev.disk s.log.start :=
      hr.coherent.buf_data s.log.start
    refine ⟨k, ⟨hr.active, hr.held, hr.returned_le, hr.le_groups, hr.coherent.touch _, ?_⟩,
      Nat.zero_le _, ?_, ?_, ?_⟩
    · exact ⟨hr.recoverable.lt_size, hr.recoverable.le_logsize, hr.recoverable.outside,
        hr.recoverable.copied, hr.recoverable.home⟩
    · simp only [headRead, hhead]
      rfl
    · intro i hi
      simp only [headRead, hhead] at hi ⊢
      exact if_pos hi
    · intro i hi
      omega
  · rename_i tail hphase
    rw [hphase] at h
    obtain ⟨k, hr⟩ := h
    split_ifs at hs with htail
    · -- one iteration of `install_trans(1)`
      obtain rfl := Option.some.inj hs
      have hlog : (s.dev.buf (s.log.start + tail + 1)).data =
          s.dev.disk (s.log.start + tail + 1) := hr.coherent.buf_data _
      have hblock := hr.block_eq tail htail
      have hi : tail < headN (s.dev.disk s.log.start) := hr.n_eq ▸ htail
      have hdisk : (installOne s tail).disk = update s.dev.disk
          (headBlock (s.dev.disk s.log.start) tail) (s.dev.disk (s.log.start + tail + 1)) := by
        simp only [installOne, Dev.bwrite, hlog, hblock]
        rfl
      have hrec := hr.recoverable.install hi
      have hstart : (installOne s tail).disk s.log.start = s.dev.disk s.log.start := by
        rw [hdisk]
        refine update_of_ne ?_ _ _
        intro heq
        apply hr.recoverable.outside tail hi
        rw [← heq]
        exact inLog_start (by have := hr.recoverable.lt_size; omega)
      refine ⟨k, ⟨hr.active, hr.held, hr.returned_le, hr.le_groups, ?_, ?_⟩, htail, ?_, ?_, ?_⟩
      · exact coherent_bwrite_disk (hr.coherent.touch _) _ _
      · rw [← hdisk] at hrec
        exact hrec
      · rw [hstart]
        exact hr.n_eq
      · rw [hstart]
        exact hr.block_eq
      · intro i hi'
        change (installOne s tail).disk _ = _
        rw [hdisk]
        by_cases heq : s.log.lh.block i = headBlock (s.dev.disk s.log.start) tail
        · rw [heq, update_self]
          exact hr.recoverable.copied tail hi
        · rw [update_of_ne heq]
          have hne : i ≠ tail := by
            rintro rfl
            exact heq hblock
          exact hr.installed i (by omega)
    · -- `log.lh.n = 0; write_head()`
      obtain rfl := Option.some.inj hs
      have hend : tail = s.log.lh.n := by have := hr.tail_le; omega
      have hfill : headN (headFill { s.log.lh with n := 0 } (s.dev.buf s.log.start).data) = 0 :=
        headN_headFill (by simp)
      refine ⟨k, ⟨hr.active, hr.held, hr.returned_le, hr.le_groups, ?_, ?_⟩, ?_⟩
      · exact coherent_bwrite_disk hr.coherent _ _
      · have hclear := hr.recoverable.clear
          (headFill { s.log.lh with n := 0 } (s.dev.buf s.log.start).data) ?_ hfill
        · exact ⟨hclear.lt_size, hclear.le_logsize, hclear.outside, hclear.copied, hclear.home⟩
        · intro i hi
          rw [← hr.n_eq] at hi
          rw [← hr.block_eq i hi]
          exact hr.installed i (by omega)
      · simpa [writeHead, Dev.bwrite] using hfill
  · simp at hs

end Xv6.Log.Machine
