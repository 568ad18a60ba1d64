import Xv6.Virtio.Roles

/-!
# Every step keeps the descriptors owned

The steps of the threads, of the interrupt handler and of the device keep the
invariant, and none of them panics or follows a null pointer.
-/

namespace Xv6.Virtio

open Lib
open Function (update update_comm update_idem update_self update_of_ne update_eq_self
  update_eq_self_iff)

variable {τ β : Type} {s : State τ β} {u v : τ} {r : Req β} {x : Idx} {i : ℕ}

/-! ## The lock -/

section lock

variable {pc : τ → Pc β} {lock : Option (Holder τ)} {k : Pc β}

theorem LockOk.congr {pc' : τ → Pc β} (h : LockOk pc lock)
    (hpc : ∀ t, (pc' t).locked = (pc t).locked) : LockOk pc' lock := by
  intro t
  rw [hpc]
  exact h t

theorem LockOk.not_locked (h : LockOk pc none) (t : τ) : (pc t).locked = false := by
  have := h t
  simpa using this

theorem LockOk.eq_of_locked (h : LockOk pc lock) (hu : (pc u).locked = true)
    (hv : (pc v).locked = true) : v = u := by
  have hlock := (h v).mp hv
  rw [(h u).mp hu] at hlock
  cases hlock
  rfl

theorem LockOk.intr (h : LockOk pc none) : LockOk pc (some .intr) := by
  intro t
  rw [h.not_locked]
  simp

theorem LockOk.intrEnd (h : LockOk pc (some .intr)) : LockOk pc none := by
  intro t
  have := h t
  simpa using this

variable [DecidableEq τ]

theorem LockOk.goto (h : LockOk pc lock) (hk : k.locked = (pc u).locked) :
    LockOk (update pc u k) lock := by
  refine h.congr fun t => ?_
  by_cases ht : t = u
  · rw [ht, update_self, hk]
  · rw [update_of_ne ht]

theorem LockOk.acquire (h : LockOk pc none) (hk : k.locked = true) :
    LockOk (update pc u k) (some (.thread u)) := by
  intro t
  by_cases ht : t = u
  · subst ht
    simp [hk]
  · rw [update_of_ne ht, h.not_locked]
    simp [Ne.symm ht]

theorem LockOk.release (h : LockOk pc lock) (hu : (pc u).locked = true) (hk : k.locked = false) :
    LockOk (update pc u k) none := by
  intro t
  by_cases ht : t = u
  · subst ht
    simp [hk]
  · rw [update_of_ne ht]
    have hne : ¬ (pc t).locked = true := fun htl => ht (h.eq_of_locked hu htl)
    simp [hne]

end lock

theorem Pc.role_stored {k : Pc β} : k.role = .stored r x ↔ k = .publish r x := by
  cases k <;> simp [Pc.role]

theorem Pc.role_out {k : Pc β} : k.role = .out ↔ k = .idle := by
  cases k <;> simp [Pc.role]

/-! ## Descriptors -/

def freed (s : State τ β) (i : ℕ) : State τ β :=
  { s with
    desc := update s.desc i .zero
    free := update s.free i true
    pc := fun t => (s.pc t).wakeFree }

theorem freeDesc_eq (hi : i < NUM) (hfree : s.free i = false) : freeDesc s i = .ok (freed s i) := by
  unfold freeDesc
  rw [if_neg (by omega), hfree]
  rfl

theorem allocDesc_spec {free : ℕ → Bool} (h : allocDesc free = some i) : i < NUM ∧ free i = true :=
  ⟨List.mem_range.mp (List.mem_of_find?_eq_some h), List.find?_some h⟩

theorem update_back {free : ℕ → Bool} (hi : free i = true) : update free i true = free :=
  update_eq_self_iff.mpr hi.symm

/-- `alloc3_desc` takes three free descriptors, or gives back those it has taken. -/
theorem alloc3Desc_spec (s : State τ β) :
    (∃ desc pc, alloc3Desc s = .ok ({ s with desc := desc, pc := pc }, none) ∧
      (∀ i, s.free i = false → desc i = s.desc i) ∧
      ∀ t, (pc t).role = (s.pc t).role ∧ (pc t).locked = (s.pc t).locked) ∨
    ∃ x, alloc3Desc s = .ok ({ s with free := setFree s.free x false }, some x) ∧ x.toList.Nodup ∧
      ∀ i ∈ x.toList, i < NUM ∧ s.free i = true := by
  unfold alloc3Desc
  cases h0 : allocDesc s.free with
  | none => exact .inl ⟨s.desc, s.pc, rfl, fun _ _ => rfl, fun _ => ⟨rfl, rfl⟩⟩
  | some i0 =>
    obtain ⟨hlt0, hfree0⟩ := allocDesc_spec h0
    have hne0 : ∀ i, s.free i = false → i ≠ i0 := by
      rintro i hi rfl
      rw [hfree0] at hi
      cases hi
    dsimp only
    cases h1 : allocDesc (take s i0).free with
    | none =>
      left
      refine ⟨update s.desc i0 .zero, fun t => (s.pc t).wakeFree, ?_,
        fun i hi => update_of_ne (hne0 i hi) _ _, fun t => by simp⟩
      dsimp only
      rw [freeDesc_eq hlt0 (by simp [take])]
      simp only [bind, Except.bind, freed, take, update_idem, update_back hfree0]
    | some i1 =>
      obtain ⟨hlt1, hfree1⟩ := allocDesc_spec h1
      have h10 : i1 ≠ i0 := by
        rintro rfl
        simp [take] at hfree1
      replace hfree1 : s.free i1 = true := by simpa [take, h10] using hfree1
      have hne1 : ∀ i, s.free i = false → i ≠ i1 := by
        rintro i hi rfl
        rw [hfree1] at hi
        cases hi
      dsimp only
      cases h2 : allocDesc (take (take s i0) i1).free with
      | none =>
        left
        refine ⟨update (update s.desc i0 .zero) i1 .zero,
          fun t => (s.pc t).wakeFree.wakeFree, ?_, fun i hi => ?_, fun t => by simp⟩
        · dsimp only
          rw [freeDesc_eq hlt0 (by simp [take, h10.symm])]
          simp only [bind, Except.bind]
          rw [freeDesc_eq hlt1 (by simp [freed, take, h10])]
          simp only [freed, take, update_comm h10, update_idem, update_back hfree0,
            update_back hfree1]
        · rw [update_of_ne (hne1 i hi), update_of_ne (hne0 i hi)]
      | some i2 =>
        right
        obtain ⟨hlt2, hfree2⟩ := allocDesc_spec h2
        have h21 : i2 ≠ i1 := by
          rintro rfl
          simp [take] at hfree2
        have h20 : i2 ≠ i0 := by
          rintro rfl
          simp [take, h21] at hfree2
        replace hfree2 : s.free i2 = true := by simpa [take, h20, h21] using hfree2
        refine ⟨⟨i0, i1, i2⟩, rfl, ?_, ?_⟩
        · simp [Idx.toList, h10.symm, h20.symm, h21.symm]
        · simp [Idx.toList, hlt0, hlt1, hlt2, hfree0, hfree1, hfree2]

/-- The descriptors after the chain `x` has been cleared. -/
def clearDesc (desc : ℕ → Desc β) (x : Idx) : ℕ → Desc β :=
  update (update (update desc x.i0 .zero) x.i1 .zero) x.i2 .zero

theorem clearDesc_of_notMem {desc : ℕ → Desc β} (hi : i ∉ x.toList) :
    clearDesc desc x i = desc i := by
  simp only [Idx.toList, List.mem_cons, List.not_mem_nil, or_false, not_or] at hi
  obtain ⟨h0, h1, h2⟩ := hi
  simp [clearDesc, h0, h1, h2]

theorem dataFlags_next (r : Req β) : dataFlags r &&& VRING_DESC_F_NEXT ≠ 0 := by
  unfold dataFlags
  cases r.write <;> decide

theorem first_next : VRING_DESC_F_NEXT &&& VRING_DESC_F_NEXT ≠ 0 := by decide

theorem third_next : VRING_DESC_F_WRITE &&& VRING_DESC_F_NEXT = 0 := by decide

theorem freeChain_next {fuel : ℕ} (hi : i < NUM) (hfree : s.free i = false)
    (hflag : (s.desc i).flags &&& VRING_DESC_F_NEXT ≠ 0) :
    freeChain (fuel + 1) s i = freeChain fuel (freed s i) (s.desc i).next := by
  conv_lhs => unfold freeChain
  rw [freeDesc_eq hi hfree]
  exact if_pos hflag

theorem freeChain_last {fuel : ℕ} (hi : i < NUM) (hfree : s.free i = false)
    (hflag : (s.desc i).flags &&& VRING_DESC_F_NEXT = 0) :
    freeChain (fuel + 1) s i = .ok (freed s i) := by
  unfold freeChain
  rw [freeDesc_eq hi hfree]
  exact if_neg (not_not.mpr hflag)

theorem freeChain_eq {ops : ℕ → Op} {info : ℕ → Info β} (hx : Formatted s.desc ops info r x)
    (hnodup : x.toList.Nodup) (hlt : ∀ i ∈ x.toList, i < NUM)
    (hfree : ∀ i ∈ x.toList, s.free i = false) :
    freeChain NUM s x.i0 = .ok { s with
      desc := clearDesc s.desc x
      free := setFree s.free x true
      pc := fun t => (s.pc t).wakeFree.wakeFree.wakeFree } := by
  simp only [Idx.toList, List.nodup_cons, List.mem_cons, List.not_mem_nil, or_false,
    not_or] at hnodup
  obtain ⟨⟨h01, h02⟩, h12, -⟩ := hnodup
  simp only [Idx.toList, List.forall_mem_cons] at hlt hfree
  obtain ⟨hlt0, hlt1, hlt2, -⟩ := hlt
  obtain ⟨hfree0, hfree1, hfree2, -⟩ := hfree
  have hsecond : (freed s x.i0).desc x.i1 = ⟨.data r.b, BSIZE, dataFlags r, x.i2⟩ := by
    simp [freed, Ne.symm h01, hx.second]
  have hthird : (freed (freed s x.i0) x.i1).desc x.i2 =
      ⟨.status x.i0, 1, VRING_DESC_F_WRITE, 0⟩ := by
    simp [freed, Ne.symm h02, Ne.symm h12, hx.third]
  change freeChain (5 + 1 + 1 + 1) s x.i0 = _
  rw [freeChain_next hlt0 hfree0 (by rw [hx.first]; exact first_next), hx.first,
    freeChain_next hlt1 (by simp [freed, Ne.symm h01, hfree1])
      (by rw [hsecond]; exact dataFlags_next r), hsecond,
    freeChain_last hlt2 (by simp [freed, Ne.symm h02, Ne.symm h12, hfree2])
      (by rw [hthird]; exact third_next)]
  rfl

section steps

variable [DecidableEq β]

theorem Inv.of_roles {pc : τ → Pc β} {d : Core τ β} (hrole : ∀ t, (pc t).role = s.roles t)
    (hown : Owned s.roles d) (hlock : LockOk pc d.lock) : Inv (⟨d, pc⟩ : State τ β) := by
  have hroles : State.roles (⟨d, pc⟩ : State τ β) = s.roles := funext hrole
  refine ⟨?_, hlock⟩
  rw [hroles]
  exact hown

theorem Inv.lock_none (h : Inv s) (hlock : s.lock = none) : LockOk s.pc none := hlock ▸ h.lock

theorem Inv.not_stored (h : Inv s) (hu : (s.pc u).locked = true) :
    ∀ v ≠ u, ∀ r x, s.roles v ≠ .stored r x := by
  intro v hvu r x hv
  have hpc : s.pc v = .publish r x := Pc.role_stored.mp hv
  exact hvu (h.lock.eq_of_locked hu (by rw [hpc]; rfl))

/-! ## The interrupt handler and the device -/

/-- The head the interrupt handler finds in the used ring is that of a request whose
buffer the disk owns. -/
theorem Inv.used_head (h : Inv s) (hne : s.usedIdx ≠ s.usedRingIdx) :
    ∃ u r x, s.roles u = .submitted r x ∧ s.usedRing (s.usedIdx.toNat % NUM) = x.i0 ∧
      s.info x.i0 = ⟨some r.b, 0⟩ := by
  have hqueue : s.usedRing (s.usedIdx.toNat % NUM) ∈ s.usedQueue := by
    rw [Core.usedQueue, Ring.contents_pop (by decide) hne]
    exact List.mem_cons_self
  have hmem : s.usedRing (s.usedIdx.toNat % NUM) ∈ s.heads :=
    List.mem_append_right _ (List.mem_append_right _ hqueue)
  obtain ⟨u, r, x, hu, hx, -⟩ := h.heads.owner _ hmem
  have hbuf := ((h.shown u).formatted r x (by rw [hu]; rfl)).buf
  have hstatus := h.status _ hqueue
  rw [← hx] at hstatus
  refine ⟨u, r, x, hu, hx.symm, ?_⟩
  cases hinfo : s.info x.i0
  simp_all

theorem intrAdvance_spec (h : Inv s) (hlock : s.lock = some .intr) :
    Ends (· = .blocked) Inv (intrAdvance s) := by
  unfold intrAdvance
  by_cases hne : s.usedIdx = s.usedRingIdx
  · rw [if_pos hne]
    have hend : LockOk s.pc (some .intr) := hlock ▸ h.lock
    exact Inv.of_roles (s := s) (fun _ => rfl) (h.setDesc none fun _ _ _ => rfl) hend.intrEnd
  · obtain ⟨u, r, x, hu, hx, hinfo⟩ := h.used_head hne
    rw [if_neg hne]
    dsimp only
    rw [hx, hinfo]
    refine Inv.of_roles (s := s) (fun t => by simp [State.roles]) (h.intr hne hu hx rfl) ?_
    exact h.lock.congr fun t => by simp

theorem complete_eq (h : Inv s) (hi : i ∈ s.inflight) :
    ∃ u r x, s.roles u = .submitted r x ∧ x.i0 = i ∧
    complete s i = .ok { s with
      log := s.log ++ [⟨r.b, opOf r⟩]
      info := update s.info i { s.info i with status := 0 }
      inflight := s.inflight.erase i
      usedRing := update s.usedRing (s.usedRingIdx.toNat % NUM) i
      usedRingIdx := s.usedRingIdx + 1 } := by
  have hmem : i ∈ s.heads := List.mem_append_right _ (List.mem_append_left _ hi)
  obtain ⟨u, r, x, hu, rfl, -⟩ := h.heads.owner i hmem
  have hf := (h.shown u).formatted r x (by rw [hu]; rfl)
  have hserve : serve s x.i0 = .ok { s with
      log := s.log ++ [⟨r.b, opOf r⟩]
      info := update s.info x.i0 { s.info x.i0 with status := 0 } } := by
    simp only [serve, hf.first, hf.second, hf.third, hf.op]
  refine ⟨u, r, x, hu, rfl, ?_⟩
  unfold complete
  rw [hserve]
  rfl

theorem complete_spec (h : Inv s) (hi : i ∈ s.inflight) :
    Ends (· = .blocked) Inv (complete s i) := by
  obtain ⟨u, r, x, hu, hx, heq⟩ := complete_eq h hi
  rw [heq]
  exact Inv.of_roles (s := s) (fun _ => rfl) (h.complete hi hu hx) h.lock

/-! ## The steps of a thread -/

variable [DecidableEq τ]

theorem Inv.of_goto {pc : τ → Pc β} {k : Pc β} {d : Core τ β} (hrole : ∀ t, (pc t).role = s.roles t)
    (hown : Owned (update s.roles u k.role) d) (hlock : LockOk (update pc u k) d.lock) :
    Inv (⟨d, update pc u k⟩ : State τ β) := by
  have hroles : State.roles (⟨d, update pc u k⟩ : State τ β) =
      update s.roles u k.role := by
    funext t
    by_cases ht : t = u
    · subst ht
      simp [State.roles]
    · simp only [State.roles, update_of_ne ht]
      exact hrole t
  refine ⟨?_, hlock⟩
  rw [hroles]
  exact hown

theorem Inv.of_stay {pc : τ → Pc β} {k : Pc β} {d : Core τ β} (hrole : ∀ t, (pc t).role = s.roles t)
    (hk : k.role = s.roles u) (hown : Owned s.roles d) (hlock : LockOk (update pc u k) d.lock) :
    Inv (⟨d, update pc u k⟩ : State τ β) := by
  refine Inv.of_goto hrole ?_ hlock
  rwa [hk, update_eq_self]

theorem acquire_spec {k : Pc β} (h : Inv s) (hk : k.locked = true)
    (hrole : k.role = s.roles u) : Ends (· = .blocked) Inv (acquire s u k) := by
  refine Ends.ite (fun hlock => ?_) fun _ => rfl
  exact Inv.of_stay (s := s) (fun _ => rfl) hrole (h.setDesc _ fun _ _ _ => rfl)
    ((h.lock_none hlock).acquire hk)

theorem finish_eq (h : Inv s) (hu : s.pc u = .check r x) :
    finish s u x = .ok ⟨{ s.toCore with
      info := update s.info x.i0 { s.info x.i0 with b := none }
      desc := clearDesc s.desc x
      free := setFree s.free x true
      lock := none },
      update (fun t => (s.pc t).wakeFree.wakeFree.wakeFree) u .idle⟩ := by
  have hrole : s.roles u = .submitted r x := congrArg Pc.role hu
  have hidx : (s.roles u).idx = some x := by rw [hrole]; rfl
  have hlt := h.chains.lt u x hidx
  have hchain := freeChain_eq (s := { s with
      info := update s.info x.i0 { s.info x.i0 with b := none } })
    ((h.shown u).formatted r x (by rw [hrole]; rfl)) (h.chains.nodup u x hidx) hlt
    fun i hi => (h.chains.free i (hlt i hi)).mpr ⟨u, x, hidx, hi⟩
  unfold finish
  rw [hchain]
  rfl

theorem finish_spec (h : Inv s) (hu : s.pc u = .check r x) (hr : s.onDisk r.b = false) :
    Ends (· = .blocked) Inv (finish s u x) := by
  have hlock : LockOk (fun t => (s.pc t).wakeFree.wakeFree.wakeFree) s.lock :=
    h.lock.congr fun t => by simp
  have hlocked : (s.pc u).wakeFree.wakeFree.wakeFree.locked = true := by
    rw [Pc.wakeFree_locked, Pc.wakeFree_locked, Pc.wakeFree_locked, hu]
    rfl
  rw [finish_eq h hu]
  exact Inv.of_goto (s := s) (fun t => by simp [State.roles])
    (h.finish (congrArg Pc.role hu) hr (fun i hi => clearDesc_of_notMem hi) none)
    (hlock.release hlocked rfl)

theorem alloc_spec (h : Inv s) (hu : s.pc u = .alloc r) :
    Ends (· = .blocked) Inv (rw s u) := by
  have hrole : s.roles u = .asking r := congrArg Pc.role hu
  have hlocked : (s.pc u).locked = true := by rw [hu]; rfl
  simp only [rw, hu]
  rcases alloc3Desc_spec s with ⟨desc, pc, halloc, hdesc, hpc⟩ | ⟨x, halloc, hnodup, hx⟩
  · rw [halloc]
    have hlock : LockOk pc s.lock := h.lock.congr fun t => (hpc t).2
    exact Inv.of_stay (s := s) (fun t => (hpc t).1) hrole.symm (h.setDesc none fun i _ => hdesc i)
      (hlock.release ((hpc u).2.trans hlocked) rfl)
  · rw [halloc]
    exact Inv.of_goto (s := s) (fun _ => rfl) (h.take hrole hnodup hx) (h.lock.goto hlocked.symm)

theorem rw_spec (h : Inv s) : Ends (· = .blocked) Inv (rw s u) := by
  cases hu : s.pc u with
  | idle | sleepFree r | sleepBuf r x =>
    simp only [rw, hu]
    rfl
  | acquire r | wokenFree r | wokenBuf r x =>
    simp only [rw, hu]
    exact acquire_spec h rfl (congrArg Pc.role hu).symm
  | alloc r => exact alloc_spec h hu
  | format r x =>
    simp only [rw, hu]
    exact Inv.of_goto (s := s) (fun _ => rfl) (h.format (congrArg Pc.role hu))
      (h.lock.goto (by rw [hu]; rfl))
  | ring r x =>
    simp only [rw, hu]
    exact Inv.of_goto (s := s) (fun _ => rfl)
      (h.store (congrArg Pc.role hu) (h.not_stored (by rw [hu]; rfl)))
      (h.lock.goto (by rw [hu]; rfl))
  | publish r x =>
    simp only [rw, hu]
    exact Inv.of_goto (s := s) (fun _ => rfl)
      (h.publish (congrArg Pc.role hu) (h.not_stored (by rw [hu]; rfl)))
      (h.lock.goto (by rw [hu]; rfl))
  | check r x =>
    simp only [rw, hu]
    cases hr : s.onDisk r.b with
    | false => exact finish_spec h hu hr
    | true =>
      exact Inv.of_stay (s := s) (fun _ => rfl) (congrArg Pc.role hu).symm
        (h.setDesc none fun _ _ _ => rfl) (h.lock.release (by rw [hu]; rfl) rfl)

/-! ## Every event -/

theorem kill_spec (h : Inv s) : Inv (kill s u) := by
  unfold kill
  cases hu : s.pc u with
  | sleepFree r | sleepBuf r x =>
    exact Inv.of_stay (s := s) (fun _ => rfl) (congrArg Pc.role hu).symm h.toOwned
      (h.lock.goto (by rw [hu]; rfl))
  | _ => exact h

theorem exec_spec (h : Inv s) (e : Event τ β) : Ends (· = .blocked) Inv (exec s e) := by
  cases e with
  | acquiresleep t b =>
    refine Ends.ite (fun hok => ?_) fun _ => rfl
    refine Inv.of_roles (s := s) (fun _ => rfl) (h.setHolds fun v r hv => ?_) h.lock
    have hv' := h.owner v r hv
    rw [update_of_ne, hv']
    rintro rfl
    rw [hok.2] at hv'
    cases hv'
  | releasesleep t b =>
    refine Ends.ite (fun hok => ?_) fun _ => rfl
    refine Inv.of_roles (s := s) (fun _ => rfl) (h.setHolds fun v r hv => ?_) h.lock
    have hv' := h.owner v r hv
    rw [update_of_ne, hv']
    rintro rfl
    rw [hok.2] at hv'
    cases hv'
    simp [State.roles, hok.1, Pc.role, Role.req] at hv
  | call t b blockno write =>
    refine Ends.ite (fun hok => ?_) fun _ => rfl
    exact Inv.of_goto (s := s) (fun _ => rfl) (h.ask (congrArg Pc.role hok.1) hok.2)
      (h.lock.goto (by rw [hok.1]; rfl))
  | advance t => exact rw_spec h
  | kill t => exact kill_spec h
  | intr =>
    refine Ends.ite (fun hlock => ?_) fun _ => rfl
    exact Inv.of_roles (s := s) (fun _ => rfl) (h.setDesc _ fun _ _ _ => rfl)
      (h.lock_none hlock).intr
  | intrAdvance => exact Ends.ite (intrAdvance_spec h) fun _ => rfl
  | consume =>
    refine Ends.ite (fun _ => rfl) fun hne => ?_
    exact Inv.of_roles (s := s) (fun _ => rfl) (h.toOwned.consume hne) h.lock
  | complete i => exact Ends.ite (complete_spec h) fun _ => rfl

end steps

end Xv6.Virtio
