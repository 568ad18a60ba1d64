import Xv6.Log.Recovery

/-!
# The block writes of commit

Each block write of `commit` takes the disk from one phase of the invariant to
the next.
-/

namespace Xv6.Log.Machine

open Lib

theorem inLog_congr {log log' : Log} (hstart : log'.start = log.start)
    (hsize : log'.size = log.size) (b : ℕ) : inLog log' b ↔ inLog log b := by
  simp only [inLog, hstart, hsize]

theorem coherent_bwrite_log {D : ℕ → Block} {sp : Spec} {s : State} (s' : State) {d : Dev}
    {pins : ℕ → Prop} [DecidablePred pins] {b : ℕ} {x : Block}
    (hc : d.Coherent (upView D sp s) pins) (hd : d.disk = s.dev.disk) (hb : inLog s.log b)
    (hdev : s'.dev = d.bwrite b x) (hstart : s'.log.start = s.log.start)
    (hsize : s'.log.size = s.log.size) : s'.dev.Coherent (upView D sp s') pins := by
  have hview : upView D sp s' = Function.update (upView D sp s) b x := by
    funext c
    by_cases hcb : c = b
    · subst hcb
      simp [upView, inLog_congr hstart hsize, hb, hdev, Dev.bwrite]
    · simp [upView, inLog_congr hstart hsize, hdev, Dev.bwrite, hcb, hd]
  rw [hview, hdev]
  exact hc.bwrite b x

theorem upView_home {D : ℕ → Block} {sp : Spec} {s : State} {b : ℕ} (hcur : sp.cur = [])
    (hb : ¬ inLog s.log b) : upView D sp s b = sp.base D b := by
  simp [upView, hb, hcur]

section Commit

variable {D : ℕ → Block} {sp : Spec} {s : State} {tail : ℕ} {gs : List (List (ℕ × Block))}
  {g : List (ℕ × Block)}

theorem HeaderOk.block_home {log : Log} (h : HeaderOk log) {i : ℕ} (hi : i < log.lh.n) :
    ¬ inLog log (log.lh.block i) ∧ log.lh.block i < 2 ^ 32 :=
  h.home _ (LogHeader.mem_blocks.mpr ⟨i, hi, rfl⟩)

theorem WritingLog.copy (h : WritingLog D sp s tail gs g) (hphase : s.phase = .writeLog tail)
    (htail : tail < s.log.lh.n) : WritingLog D sp (writeLogOne s tail) (tail + 1) gs g := by
  have hlt := h.header.lt_size
  have hcopy : inLog s.log (s.log.start + tail + 1) := inLog_copy (by omega)
  have hx : (s.dev.buf (s.log.lh.block tail)).data = sp.base D (s.log.lh.block tail) := by
    rw [h.coherent.buf_data, upView_home h.cur (h.header.block_home htail).1]
  have hother : ∀ c, c ≠ s.log.start + tail + 1 →
      (writeLogOne s tail).dev.disk c = s.dev.disk c := fun c hc => Function.update_of_ne hc _ _
  have hcoh : (writeLogOne s tail).dev.Coherent (upView D sp (writeLogOne s tail))
      (· ∈ pinList (writeLogOne s tail)) := by
    have hpins : pinList (writeLogOne s tail) = pinList s := by simp [pinList, hphase, writeLogOne]
    rw [hpins]
    exact coherent_bwrite_log _ (h.coherent.touch _) rfl hcopy rfl rfl rfl
  refine ⟨⟨⟨h.header, h.opens, h.outstanding, h.held_active, h.held_unique, hcoh⟩, h.committing,
    h.active, h.groups, h.cur, h.returned⟩, htail, h.logged, ?_, ?_, ?_⟩
  · change headN ((writeLogOne s tail).dev.disk s.log.start) = 0
    rw [hother _ (by omega)]
    exact h.head
  · intro b hb
    rw [hother]
    · exact h.home b hb
    · rintro rfl
      exact hb hcopy
  · intro i hi
    by_cases hit : i = tail
    · subst hit
      change Function.update s.dev.disk _ _ _ = _
      rw [hx]
      exact Function.update_self _ _ _
    · change (writeLogOne s tail).dev.disk (s.log.start + i + 1) = _
      rw [hother _ (by omega)]
      exact h.copied i (by omega)

theorem WritingLog.writeHead (h : WritingLog D sp s s.log.lh.n gs g)
    (hphase : s.phase = .writeLog s.log.lh.n) :
    Installing D sp { Machine.writeHead s with phase := .install 0 } 0 gs g := by
  have hlt := h.header.lt_size
  have hother : ∀ c, c ≠ s.log.start → (Machine.writeHead s).dev.disk c = s.dev.disk c :=
    fun c hc => Function.update_of_ne hc _ _
  have hself : (Machine.writeHead s).dev.disk s.log.start =
      headFill s.log.lh (s.dev.buf s.log.start).data := Function.update_self _ _ _
  have hn32 : s.log.lh.n < 2 ^ 32 := by
    have := h.header.le_logsize
    have : LOGSIZE < 2 ^ 32 := by decide
    omega
  have hcoh : (Machine.writeHead s).dev.Coherent
      (upView D sp { Machine.writeHead s with phase := .install 0 })
      (· ∈ pinList { Machine.writeHead s with phase := .install 0 }) := by
    have hpins : pinList { Machine.writeHead s with phase := .install 0 } = pinList s := by
      simp [pinList, hphase, Machine.writeHead]
    rw [hpins]
    exact coherent_bwrite_log { Machine.writeHead s with phase := .install 0 } h.coherent rfl
      (inLog_start h.size_pos) rfl rfl rfl
  refine ⟨⟨⟨h.header, h.opens, h.outstanding, h.held_active, h.held_unique, hcoh⟩, h.committing,
    h.active, h.groups, h.cur, h.returned⟩, Nat.zero_le _, ?_, ?_, ?_⟩
  · change headN ((Machine.writeHead s).dev.disk s.log.start) = _
    rw [hself]
    exact headN_headFill hn32
  · intro i hi
    change headBlock ((Machine.writeHead s).dev.disk s.log.start) i = _
    rw [hself]
    exact headBlock_headFill hi (h.header.block_home hi).2
  · intro i hi
    change (Machine.writeHead s).dev.disk (s.log.start + i + 1) = _
    rw [hother _ (by omega)]
    exact h.copied i hi

theorem Installing.copy (h : Installing D sp s tail gs g) (hphase : s.phase = .install tail)
    (htail : tail < s.log.lh.n) :
    Installing D sp { s with dev := (installOne s tail).bunpin (s.log.lh.block tail),
                             phase := .install (tail + 1) } (tail + 1) gs g := by
  have hlt := h.header.lt_size
  obtain ⟨hout, -⟩ := h.header.block_home htail
  have hcopy : inLog s.log (s.log.start + tail + 1) := inLog_copy (by omega)
  have hx : (s.dev.buf (s.log.start + tail + 1)).data = upView D sp s (s.log.lh.block tail) := by
    rw [h.coherent.buf_data, upView_home h.cur hout]
    simp only [upView, hcopy, if_true]
    exact h.copied tail htail
  have hother : ∀ c, inLog s.log c → (installOne s tail).disk c = s.dev.disk c := by
    intro c hc
    refine Function.update_of_ne ?_ _ _
    rintro rfl
    exact hout hc
  have hself : (installOne s tail).disk (s.log.lh.block tail) =
      upView D sp s (s.log.lh.block tail) := by
    rw [← hx]
    exact Function.update_self _ _ _
  have hcoh : (installOne s tail).Coherent (upView D sp s) (· ∈ s.log.lh.blocks.drop tail) := by
    have hpins : pinList s = s.log.lh.blocks.drop tail := by simp [pinList, hphase]
    have hbw := (h.coherent.touch (s.log.start + tail + 1)).bwrite (s.log.lh.block tail)
      (s.dev.buf (s.log.start + tail + 1)).data
    rw [hx, Function.update_eq_self] at hbw
    simp only [installOne, hx]
    simpa only [hpins] using hbw
  have hdrop : s.log.lh.blocks.drop tail =
      s.log.lh.block tail :: s.log.lh.blocks.drop (tail + 1) := by
    rw [List.drop_eq_getElem_cons (by simpa using htail), LogHeader.getElem_blocks]
  have hnodup : (s.log.lh.blocks.drop tail).Nodup := h.header.nodup.sublist (List.drop_sublist _ _)
  rw [hdrop, List.nodup_cons] at hnodup
  have hunpin := hcoh.bunpin (· ∈ s.log.lh.blocks.drop (tail + 1))
    (b := s.log.lh.block tail) (by simp [hdrop]) hself (by
      intro c
      rw [hdrop, List.mem_cons]
      constructor
      · intro hc
        exact ⟨Or.inr hc, fun hcb => hnodup.1 (hcb ▸ hc)⟩
      · rintro ⟨hc | hc, hne⟩
        · exact absurd hc hne
        · exact hc)
  have hview : upView D sp { s with dev := (installOne s tail).bunpin (s.log.lh.block tail),
                                    phase := .install (tail + 1) } = upView D sp s := by
    funext c
    by_cases hc : inLog s.log c
    · simp only [upView, hc, if_true]
      exact hother c hc
    · simp only [upView, hc, if_false]
  refine ⟨⟨⟨h.header, h.opens, h.outstanding, h.held_active, h.held_unique, ?_⟩, h.committing,
    h.active, h.groups, h.cur, h.returned⟩, htail, ?_, ?_, ?_⟩
  · rw [hview]
    exact hunpin
  · change headN ((installOne s tail).disk s.log.start) = _
    rw [hother _ (inLog_start h.size_pos)]
    exact h.head
  · intro i hi
    change headBlock ((installOne s tail).disk s.log.start) i = _
    rw [hother _ (inLog_start h.size_pos)]
    exact h.headBlocks i hi
  · intro i hi
    change (installOne s tail).disk (s.log.start + i + 1) = _
    have hi' : i < s.log.lh.n := hi
    rw [hother _ (inLog_copy (by omega))]
    exact h.copied i hi

theorem Installing.clear (h : Installing D sp s s.log.lh.n gs g)
    (hphase : s.phase = .install s.log.lh.n) :
    Done D sp { Machine.writeHead
      { s with log := { s.log with lh := { s.log.lh with n := 0 } } } with
                phase := .done } gs g := by
  have hfill : headN (headFill { s.log.lh with n := 0 } (s.dev.buf s.log.start).data) = 0 :=
    headN_headFill (by simp)
  have hpins : pinList s = [] := by
    simp [pinList, hphase]
  have hcoh := h.coherent
  simp only [hpins] at hcoh
  refine ⟨⟨⟨⟨List.nodup_nil, Nat.zero_le _,
    h.size_pos, by simp [LogHeader.blocks, Machine.writeHead]⟩,
    h.opens, h.outstanding, h.held_active, h.held_unique, ?_⟩, h.committing, h.active, h.groups,
    h.cur, h.returned⟩, rfl, ?_⟩
  · exact coherent_bwrite_log _ (b := s.log.start)
      (x := headFill { s.log.lh with n := 0 } (s.dev.buf s.log.start).data) hcoh rfl
      (inLog_start h.size_pos) rfl rfl rfl
  · simpa [Machine.writeHead, Dev.bwrite] using hfill

end Commit

theorem Inv.commit {D : ℕ → Block} {sp : Spec} {s s' : State} (h : Inv D sp s)
    (hs : step s .commit = some s') : Inv D sp s' := by
  simp only [step, Machine.commit] at hs
  unfold Inv at h
  split at hs
  · rename_i tail hphase
    rw [hphase] at h
    obtain ⟨gs, g, hw⟩ := h
    split_ifs at hs with htail
    · obtain rfl := Option.some.inj hs
      exact ⟨gs, g, hw.copy hphase htail⟩
    · obtain rfl : tail = s.log.lh.n := by have := hw.tail_le; omega
      obtain rfl := Option.some.inj hs
      exact ⟨gs, g, hw.writeHead hphase⟩
  · rename_i tail hphase
    rw [hphase] at h
    obtain ⟨gs, g, hi⟩ := h
    split_ifs at hs with htail
    · obtain rfl := Option.some.inj hs
      exact ⟨gs, g, hi.copy hphase htail⟩
    · obtain rfl : tail = s.log.lh.n := by have := hi.tail_le; omega
      obtain rfl := Option.some.inj hs
      exact ⟨gs, g, hi.clear hphase⟩
  · simp at hs

end Xv6.Log.Machine
