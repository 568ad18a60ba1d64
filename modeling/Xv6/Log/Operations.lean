import Xv6.Log.Commit

/-!
# Operations

`begin_op`, buffer traffic, `log_write` and `end_op` keep the invariant.
-/

namespace Xv6.Log.Machine

open Lib

section Operations

variable {D : ℕ → Block} {sp : Spec} {s s' : State} {p b : ℕ}

theorem Inv.idle_of_active (h : Inv D sp s) (hp : p ∈ s.active) :
    s.phase = .idle ∧ Idle D sp s := by
  have hne : s.active ≠ ∅ := Finset.ne_empty_of_mem hp
  unfold Inv at h
  split at h
  · exact ⟨‹_›, h⟩
  · obtain ⟨gs, g, hw⟩ := h
    exact absurd hw.active hne
  · obtain ⟨gs, g, hi⟩ := h
    exact absurd hi.active hne
  · obtain ⟨gs, g, hd⟩ := h
    exact absurd hd.active hne
  · obtain ⟨k, hr⟩ := h
    exact absurd hr.active hne
  · obtain ⟨k, hr⟩ := h
    exact absurd hr.active hne
  · obtain ⟨k, hr, -⟩ := h
    exact absurd hr.active hne

theorem Inv.active_of_held (h : Inv D sp s) (hb : (p, b) ∈ s.dev.held) : p ∈ s.active := by
  unfold Inv at h
  split at h
  · exact h.held_active p b hb
  · obtain ⟨gs, g, hw⟩ := h
    exact hw.held_active p b hb
  · obtain ⟨gs, g, hi⟩ := h
    exact hi.held_active p b hb
  · obtain ⟨gs, g, hd⟩ := h
    exact hd.held_active p b hb
  · obtain ⟨k, hr⟩ := h
    simp [hr.held] at hb
  · obtain ⟨k, hr⟩ := h
    simp [hr.held] at hb
  · obtain ⟨k, hr, -⟩ := h
    simp [hr.held] at hb

theorem Inv.of_idle (hphase : s.phase = .idle) (h : Idle D sp s) : Inv D sp s := by
  simp only [Inv, hphase]
  exact h

theorem Inv.idle_of_not_committing (h : Inv D sp s) (hup : s.phase.up = true)
    (hc : s.log.committing = false) : s.phase = .idle ∧ Idle D sp s := by
  unfold Inv at h
  split at h
  · exact ⟨‹_›, h⟩
  · obtain ⟨gs, g, hw⟩ := h
    simp [hw.committing] at hc
  · obtain ⟨gs, g, hi⟩ := h
    simp [hi.committing] at hc
  · obtain ⟨gs, g, hd⟩ := h
    simp [hd.committing] at hc
  all_goals
    rename_i hphase
    simp [hphase, Phase.up] at hup

theorem Inv.beginOp (h : Inv D sp s) (hs : step s (.beginOp p) = some s') :
    Inv D (sp.step (.beginOp p)) s' := by
  simp only [step] at hs
  split_ifs at hs with hguard
  simp only [not_or, Bool.not_eq_false] at hguard
  obtain ⟨log, hlog, rfl⟩ := Option.map_eq_some_iff.mp hs
  obtain ⟨hc, -, rfl⟩ := Log.beginOp_eq_some.mp hlog
  obtain ⟨hphase, hi⟩ := h.idle_of_not_committing hguard.2 hc
  refine Inv.of_idle hphase ⟨⟨⟨hi.header.nodup, hi.header.le_logsize, hi.header.lt_size,
    hi.header.home⟩, ?_, ?_, ?_, hi.held_unique, hi.coherent⟩, hc, hi.returned, hi.logged,
    hi.head, hi.home⟩
  · simp [Spec.step, hi.opens]
  · simp [hi.outstanding, Finset.card_insert_of_notMem hguard.1]
  · intro q c hq
    exact Finset.mem_insert_of_mem (hi.held_active q c hq)

theorem Inv.bread (h : Inv D sp s) (hs : step s (.bread p b) = some s') :
    Inv D (sp.step (.bread p b)) s' := by
  simp only [step] at hs
  split_ifs at hs with hp
  obtain ⟨dev, hdev, rfl⟩ := Option.map_eq_some_iff.mp hs
  obtain ⟨hphase, hi⟩ := h.idle_of_active (by simpa using hp)
  have hcoh := hi.coherent.bread hdev
  unfold Dev.bread at hdev
  split_ifs at hdev with hlocked
  obtain rfl := Option.some.inj hdev
  refine Inv.of_idle hphase ⟨⟨hi.header, hi.opens, hi.outstanding, ?_, ?_, hcoh⟩,
    hi.not_committing, hi.returned, hi.logged, hi.head, hi.home⟩
  · intro q c hq
    rcases Finset.mem_insert.mp hq with heq | hq
    · obtain ⟨rfl, rfl⟩ := Prod.mk.inj heq
      simpa using hp
    · exact hi.held_active q c hq
  · have hfree : ∀ q, (q, b) ∉ s.dev.held := fun q hq =>
      hlocked (Finset.mem_image.mpr ⟨(q, b), hq, rfl⟩)
    intro q r c hq hr
    rcases Finset.mem_insert.mp hq with hqe | hq <;> rcases Finset.mem_insert.mp hr with hre | hr
    · exact (Prod.mk.inj hqe).1.trans (Prod.mk.inj hre).1.symm
    · exact absurd ((Prod.mk.inj hqe).2 ▸ hr) (hfree r)
    · exact absurd ((Prod.mk.inj hre).2 ▸ hq) (hfree q)
    · exact hi.held_unique q r c hq hr

theorem Inv.brelse (h : Inv D sp s) (hs : step s (.brelse p b) = some s') :
    Inv D (sp.step (.brelse p b)) s' := by
  simp only [step] at hs
  obtain ⟨dev, hdev, rfl⟩ := Option.map_eq_some_iff.mp hs
  have hheld : (p, b) ∈ s.dev.held := by
    by_contra hn
    simp [Dev.brelse, hn] at hdev
  obtain ⟨hphase, hi⟩ := h.idle_of_active (h.active_of_held hheld)
  have hcoh := hi.coherent.brelse (fun q hq => hi.held_unique q p b hq hheld) hdev
  unfold Dev.brelse at hdev
  split_ifs at hdev
  obtain rfl := Option.some.inj hdev
  exact Inv.of_idle hphase ⟨⟨hi.header, hi.opens, hi.outstanding,
    fun q c hq => hi.held_active q c (Finset.mem_of_mem_erase hq),
    fun q r c hq hr => hi.held_unique q r c (Finset.mem_of_mem_erase hq)
      (Finset.mem_of_mem_erase hr), hcoh⟩,
    hi.not_committing, hi.returned, hi.logged, hi.head, hi.home⟩

theorem Inv.write {x : Block} (h : Inv D sp s) (hs : step s (.write p b x) = some s') :
    Inv D (sp.step (.write p b x)) s' := by
  simp only [step] at hs
  split_ifs at hs with hguard
  simp only [not_or, not_not, not_le] at hguard
  obtain ⟨hp, hheld, hout, h32⟩ := hguard
  obtain ⟨hphase, hi⟩ := h.idle_of_active hp
  cases hlog : Log.logWrite s.log b with
  | error m => simp [hlog] at hs
  | ok r =>
    obtain ⟨log', pin⟩ := r
    simp only [hlog, Option.some.injEq] at hs
    subst hs
    obtain ⟨hn, hlt, -, hframe, hcases⟩ := Log.logWrite_eq_ok hlog
    have hstart : log'.start = s.log.start := by rw [hframe]
    have hsize : log'.size = s.log.size := by rw [hframe]
    have hmem : ∀ c, c ∈ log'.lh.blocks ↔ c ∈ s.log.lh.blocks ∨ c = b := by
      intro c
      rcases hcases with ⟨hb, -, heq⟩ | ⟨-, -, heq⟩ <;> rw [heq]
      · exact ⟨Or.inl, fun hc => hc.elim id fun hcb => hcb ▸ hb⟩
      · simp
    have hdev : (if pin = true then (s.dev.modify b x).bpin b else s.dev.modify b x) =
        if b ∈ s.log.lh.blocks then s.dev.modify b x else (s.dev.modify b x).bpin b := by
      rcases hcases with ⟨hb, rfl, -⟩ | ⟨hb, rfl, -⟩ <;> simp [hb]
    have hpins : pinList s = s.log.lh.blocks := by simp [pinList, hphase]
    have hcoh := hi.coherent
    simp only [hpins] at hcoh
    have hcoh' := hcoh.modify_pin (· ∈ log'.lh.blocks) (b := b) x hmem
    rw [← hdev] at hcoh'
    have hdisk : (if pin = true then (s.dev.modify b x).bpin b else s.dev.modify b x).disk =
        s.dev.disk := by split_ifs <;> rfl
    have hheldeq : (if pin = true then (s.dev.modify b x).bpin b else s.dev.modify b x).held =
        s.dev.held := by split_ifs <;> rfl
    refine Inv.of_idle hphase ⟨⟨⟨?_, ?_, ?_, ?_⟩, hi.opens, ?_, ?_, ?_, ?_⟩, ?_, hi.returned,
      ?_, ?_, ?_⟩
    · rcases hcases with ⟨-, -, heq⟩ | ⟨hb, -, heq⟩
      · rw [heq]
        exact hi.header.nodup
      · rw [heq, ← List.concat_eq_append]
        exact hi.header.nodup.concat hb
    · have hlen := LogHeader.length_blocks log'.lh
      rcases hcases with ⟨-, -, heq⟩ | ⟨-, -, heq⟩ <;> rw [heq] at hlen <;> simp at hlen <;>
        simp only <;> omega
    · have hlen := LogHeader.length_blocks log'.lh
      rcases hcases with ⟨-, -, heq⟩ | ⟨-, -, heq⟩ <;> rw [heq] at hlen <;> simp at hlen <;>
        simp only [hsize] <;> omega
    · intro c hc
      rw [inLog_congr hstart hsize]
      rcases (hmem c).mp hc with hc | rfl
      · exact hi.header.home c hc
      · exact ⟨hout, h32⟩
    · rw [hframe]
      exact hi.outstanding
    · simp only [hheldeq]
      exact hi.held_active
    · simp only [hheldeq]
      exact hi.held_unique
    · have hview : ∀ s' : State, s'.log.start = s.log.start → s'.log.size = s.log.size →
          s'.dev.disk = s.dev.disk → upView D (sp.step (.write p b x)) s' =
            Function.update (upView D sp s) b x := by
        intro s' h1 h2 h3
        funext c
        by_cases hcb : c = b
        · subst hcb
          simp [upView, inLog_congr h1 h2, hout, Spec.step, Spec.base]
        · simp [upView, inLog_congr h1 h2, Spec.step, Spec.base, h3, hcb]
      rw [hview _ hstart hsize hdisk]
      simpa only [pinList, hphase] using hcoh'
    · rw [hframe]
      exact hi.not_committing
    · intro c
      rw [hmem, hi.logged]
      simp [Spec.step]
    · simp only [hdisk, hstart]
      exact hi.head
    · intro c hc
      simp only [hdisk]
      exact hi.home c (by simpa only [inLog_congr hstart hsize] using hc)

/-- Closing the current group does not change what a `bread` is to return. -/
theorem base_close (D : ℕ → Block) (sp : Spec) :
    replay D (sp.groups ++ [sp.cur]).flatten = replay (sp.base D) sp.cur := by
  simp [Spec.base, replay_append]

theorem Idle.endOp_open (hi : Idle D sp s) (hphase : s.phase = .idle)
    (hheld : p ∉ s.dev.held.image Prod.fst) (hp : p ∈ s.active) (hlast : s.active.erase p ≠ ∅) :
    Inv D (sp.step (.endOp p)) { s with log := { s.log with outstanding := s.log.outstanding - 1 },
                                        active := s.active.erase p } := by
  have hspec : sp.step (.endOp p) = { sp with openOps := sp.openOps.erase p } := by
    simp [Spec.step, hi.opens, hlast]
  rw [hspec]
  refine Inv.of_idle hphase ⟨⟨⟨hi.header.nodup, hi.header.le_logsize, hi.header.lt_size,
    hi.header.home⟩, by simp [hi.opens], ?_, ?_, hi.held_unique, hi.coherent⟩, hi.not_committing,
    hi.returned, hi.logged, hi.head, hi.home⟩
  · rw [Finset.card_erase_of_mem hp, hi.outstanding]
  · intro q c hq
    refine Finset.mem_erase.mpr ⟨?_, hi.held_active q c hq⟩
    rintro rfl
    exact hheld (Finset.mem_image.mpr ⟨(q, c), hq, rfl⟩)

/-- The state in which `end_op` calls `commit`, with `commit` about to do `ph`. -/
def closed (s : State) (p : ℕ) (ph : Phase) : State where
  dev := s.dev
  log := { s.log with outstanding := 0, committing := true }
  active := s.active.erase p
  phase := ph

theorem Idle.endOp_last (hi : Idle D sp s) (hphase : s.phase = .idle)
    (hheld : p ∉ s.dev.held.image Prod.fst) (hlast : s.active.erase p = ∅) :
    Inv D (sp.step (.endOp p))
      (closed s p (if s.log.lh.n > 0 then .writeLog 0 else .done)) := by
  have hspec : sp.step (.endOp p) =
      { sp with openOps := ∅, cur := [], groups := sp.groups ++ [sp.cur] } := by
    simp [Spec.step, hi.opens, hlast]
  have hnone : ∀ q c, (q, c) ∉ s.dev.held := by
    intro q c hq
    have hqp : q = p := by
      by_contra hne
      have := Finset.mem_erase.mpr ⟨hne, hi.held_active q c hq⟩
      simp [hlast] at this
    exact hheld (Finset.mem_image.mpr ⟨(q, c), hq, hqp⟩)
  have hview : ∀ ph, upView D (sp.step (.endOp p)) (closed s p ph) = upView D sp s := by
    intro ph
    funext c
    simp only [upView, hspec, Spec.base, base_close, replay_nil]
    rfl
  have hcommitting : ∀ ph, pinList (closed s p ph) = s.log.lh.blocks →
      Committing D (sp.step (.endOp p)) (closed s p ph) sp.groups sp.cur := by
    intro ph hpins
    refine ⟨⟨⟨hi.header.nodup, hi.header.le_logsize, hi.header.lt_size, hi.header.home⟩,
      by simp [hspec, hlast, closed], by simp [hlast, closed],
      fun q c hq => absurd hq (hnone q c),
      fun q r c hq => absurd hq (hnone q c), ?_⟩, rfl, hlast, by simp [hspec], by simp [hspec],
      by simpa [hspec] using hi.returned⟩
    have hcoh := hi.coherent
    have hold : pinList s = s.log.lh.blocks := by simp [pinList, hphase]
    rw [hview]
    simp only [hpins]
    simp only [hold] at hcoh
    exact hcoh
  by_cases hn : s.log.lh.n > 0
  · rw [if_pos hn]
    exact ⟨sp.groups, sp.cur, hcommitting _ rfl, Nat.zero_le _, hi.logged, hi.head, hi.home,
      fun i hi' => absurd hi' (Nat.not_lt_zero i)⟩
  · have hzero : s.log.lh.n = 0 := by omega
    rw [if_neg hn]
    refine ⟨sp.groups, sp.cur, hcommitting _ ?_, hzero, hi.head⟩
    simp [pinList, LogHeader.blocks, hzero, closed]

theorem Inv.endOp (h : Inv D sp s) (hs : step s (.endOp p) = some s') :
    Inv D (sp.step (.endOp p)) s' := by
  simp only [step] at hs
  split_ifs at hs with hguard
  simp only [not_or, not_not] at hguard
  obtain ⟨hp, hheld⟩ := hguard
  obtain ⟨hphase, hi⟩ := h.idle_of_active hp
  rw [(Log.endOp_eq_ok hi.not_committing).mpr rfl, hi.outstanding,
    ← Finset.card_erase_of_mem hp] at hs
  by_cases hlast : s.active.erase p = ∅
  · simp only [hlast, Finset.card_empty, if_true, Option.some.injEq] at hs
    subst hs
    have hinv := hi.endOp_last hphase hheld hlast
    rw [closed, hlast] at hinv
    exact hinv
  · rw [if_neg (by simpa using hlast)] at hs
    simp only [Bool.false_eq_true, if_false, Option.some.injEq] at hs
    subst hs
    simpa only [hi.outstanding, Finset.card_erase_of_mem hp] using
      hi.endOp_open hphase hheld hp hlast

theorem Inv.commitReturn (h : Inv D sp s) (hs : step s .commitReturn = some s') :
    Inv D (sp.step .commitReturn) s' := by
  simp only [step] at hs
  split_ifs at hs with hphase
  obtain rfl := Option.some.inj hs
  unfold Inv at h
  rw [hphase] at h
  obtain ⟨gs, g, hd⟩ := h
  have hblocks : s.log.lh.blocks = [] := by simp [LogHeader.blocks, hd.cleared]
  have hcoh := hd.coherent
  have hpins : pinList s = [] := by simp [pinList, hphase]
  refine ⟨⟨⟨hd.header.nodup, hd.header.le_logsize, hd.header.lt_size, hd.header.home⟩, hd.opens,
    hd.outstanding, hd.held_active, hd.held_unique, ?_⟩, rfl, le_rfl, ?_, hd.head, hd.home hphase⟩
  · have hview : upView D (sp.step .commitReturn)
        { s with log := { s.log with committing := false }, phase := .idle } = upView D sp s := by
      funext c
      rfl
    rw [hview]
    simp only [pinList, hblocks]
    simpa only [hpins] using hcoh
  · intro c
    simp [hblocks, Spec.step, hd.cur]


end Operations

end Xv6.Log.Machine
