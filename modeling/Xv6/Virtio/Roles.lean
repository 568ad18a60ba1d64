import Xv6.Virtio.Invariant

/-!
# How a request changes hands

What the driver and the device do to their memory, together with the role the
thread takes on by it, keeps everything owned.
-/

namespace Xv6.Virtio

open Lib
open Function (update update_self update_of_ne forall_update_iff)

variable {τ β : Type} {ρ : τ → Role β} {free : ℕ → Bool} {new : Role β} {d : Core τ β} {u : τ}
  {r : Req β} {x : Idx}

/-! ## The parts of the invariant -/

/-- The free descriptors after `x` has been taken or given back. -/
def setFree (free : ℕ → Bool) (x : Idx) (b : Bool) : ℕ → Bool :=
  update (update (update free x.i0 b) x.i1 b) x.i2 b

theorem setFree_of_mem {i : ℕ} (hi : i ∈ x.toList) (b : Bool) : setFree free x b i = b := by
  simp only [Idx.toList, List.mem_cons, List.not_mem_nil, or_false] at hi
  unfold setFree
  grind

theorem setFree_of_notMem {i : ℕ} (hi : i ∉ x.toList) (b : Bool) : setFree free x b i = free i := by
  simp only [Idx.toList, List.mem_cons, List.not_mem_nil, or_false, not_or] at hi
  unfold setFree
  grind

theorem Role.idx_of_shown {k : Role β} (h : k.shown = some (r, x)) : k.idx = some x := by
  cases k <;> simp_all [Role.shown, Role.idx]

theorem Formatted.congr {desc desc' : ℕ → Desc β} {ops ops' : ℕ → Op} {info info' : ℕ → Info β}
    (h : Formatted desc ops info r x) (hdesc : ∀ i ∈ x.toList, desc' i = desc i)
    (hops : ops' x.i0 = ops x.i0) (hinfo : (info' x.i0).b = (info x.i0).b) :
    Formatted desc' ops' info' r x where
  first := by rw [hdesc x.i0 (by simp [Idx.toList]), h.first]
  second := by rw [hdesc x.i1 (by simp [Idx.toList]), h.second]
  third := by rw [hdesc x.i2 (by simp [Idx.toList]), h.third]
  op := hops.trans h.op
  buf := hinfo.trans h.buf

theorem Heads.perm {onDisk : β → Bool} {heads heads' : List ℕ} (h : Heads ρ onDisk heads)
    (hperm : heads.Perm heads') : Heads ρ onDisk heads' :=
  ⟨hperm.nodup_iff.mp h.nodup, fun i hi => h.owner i (hperm.mem_iff.mpr hi),
    fun v r x hv hr => hperm.mem_iff.mp (h.mem v r x hv hr)⟩

theorem Heads.of_onDisk {onDisk onDisk' : β → Bool} {heads : List ℕ} (h : Heads ρ onDisk heads)
    (hdisk : ∀ v r x, ρ v = .submitted r x → onDisk' r.b = onDisk r.b) :
    Heads ρ onDisk' heads where
  nodup := h.nodup
  owner i hi := by
    obtain ⟨v, r, x, hv, hx, hr⟩ := h.owner i hi
    exact ⟨v, r, x, hv, hx, (hdisk v r x hv).trans hr⟩
  mem v r x hv hr := h.mem v r x hv ((hdisk v r x hv).symm.trans hr)

theorem Shown.of_shown {k : Role β} (hk : k.shown = none) : Shown d k where
  formatted r x h := by rw [hk] at h; cases h
  busy r x h := by
    rcases h with rfl | rfl <;> cases hk
  stored r x h := by
    subst h
    cases hk

section logged

variable [DecidableEq β] {k : Role β}

theorem Logged.of_role (h : Logged d u k) (new : Role β) (hreq : new.req = k.req)
    (hold : ∀ r x, k ≠ .submitted r x) (hnew : ∀ r x, new ≠ .submitted r x) : Logged d u new where
  since := by
    rw [hreq]
    exact h.since
  before r hr _ := h.before r (hreq ▸ hr) fun x hx => (hold r x hx).elim
  after r x hx := (hnew r x hx).elim

theorem Logged.of_served {d' : Core τ β} (h : Logged d u k)
    (hle : d.since u ≤ d.log.length → d'.since u ≤ d'.log.length)
    (hserved : ∀ r, k.req = some r → d'.servedSince u r.b = d.servedSince u r.b)
    (hmem : ∀ r x, k = .submitted r x →
      (x.i0 ∈ d'.availQueue ++ d'.inflight ↔ x.i0 ∈ d.availQueue ++ d.inflight)) :
    Logged d' u k where
  since r hr := hle (h.since r hr)
  before r hr hx := by
    rw [hserved r hr]
    exact h.before r hr fun x hk => (hmem r x hk).mp (hx x hk)
  after r x hk hx := by
    rw [hserved r (by rw [hk]; rfl)]
    exact h.after r x hk fun hx' => hx ((hmem r x hk).mpr hx')

theorem Logged.congr {d' : Core τ β} (h : Logged d u k) (hlog : d'.log = d.log)
    (hsince : d'.since u = d.since u)
    (hmem : ∀ r x, k = .submitted r x →
      (x.i0 ∈ d'.availQueue ++ d'.inflight ↔ x.i0 ∈ d.availQueue ++ d.inflight)) :
    Logged d' u k := by
  refine h.of_served ?_ (fun r _ => ?_) hmem
  · rw [hlog, hsince]
    exact id
  · unfold Core.servedSince
    rw [hlog, hsince]

theorem servedSince_append {d' : Core τ β} {e : Served β} (b : β) (hle : d.since u ≤ d.log.length)
    (hlog : d'.log = d.log ++ [e]) (hsince : d'.since = d.since) :
    d'.servedSince u b = d.servedSince u b ++ if e.b = b then [e] else [] := by
  unfold Core.servedSince
  rw [hlog, hsince, List.drop_append_of_le_length hle, List.filter_append]
  congr 1
  by_cases hb : e.b = b <;> simp [hb]

end logged

/-! ## What belongs to whom -/

namespace Owned

variable [DecidableEq β] (h : Owned ρ d)

include h

theorem unique {v : τ} {r' : Req β} (hu : (ρ u).req = some r) (hv : (ρ v).req = some r')
    (hb : r'.b = r.b) : v = u := by
  have hv' := h.owner v r' hv
  rw [hb, h.owner u r hu] at hv'
  exact (Option.some.inj hv').symm

theorem head_lt {i : ℕ} (hi : i ∈ d.heads) : i < NUM := by
  obtain ⟨v, r, x, hv, rfl, -⟩ := h.heads.owner i hi
  exact h.chains.lt v x (by rw [hv]; rfl) x.i0 List.mem_cons_self

/-- A head that is on its way is that of the call whose descriptor it is. -/
theorem of_mem_heads {i : ℕ} (hi : i ∈ d.heads) (hu : (ρ u).idx = some x) (hix : i ∈ x.toList) :
    ∃ r, ρ u = .submitted r x ∧ x.i0 = i ∧ d.onDisk r.b = true := by
  obtain ⟨v, r, y, hv, rfl, hr⟩ := h.heads.owner i hi
  have hidx : (ρ v).idx = some y := by rw [hv]; rfl
  obtain rfl := h.chains.disjoint v u y x hidx hu y.i0 List.mem_cons_self hix
  obtain rfl : y = x := Option.some.inj (hidx.symm.trans hu)
  exact ⟨r, hv, rfl, hr⟩

theorem length_lt {l : List ℕ} {i : ℕ} (hsub : List.Sublist l d.heads) (hi : i < NUM)
    (hil : i ∉ l) : l.length < NUM := by
  have hnodup : (i :: l).Nodup := List.nodup_cons.mpr ⟨hil, hsub.nodup h.heads.nodup⟩
  have hrange : i :: l ⊆ List.range NUM := by
    intro j hj
    rcases List.mem_cons.mp hj with rfl | hj
    · exact List.mem_range.mpr hi
    · exact List.mem_range.mpr (h.head_lt (hsub.subset hj))
  have hlen := (List.subperm_of_subset hnodup hrange).length_le
  rwa [List.length_cons, List.length_range] at hlen

theorem setDesc {desc : ℕ → Desc β} (l : Option (Holder τ))
    (hdesc : ∀ i < NUM, d.free i = false → desc i = d.desc i) :
    Owned ρ { d with desc := desc, lock := l } where
  owner := h.owner
  chains := h.chains
  shown v := {
    formatted := by
      intro r x hv
      have hidx := Role.idx_of_shown hv
      refine ((h.shown v).formatted r x hv).congr (fun i hi => ?_) rfl rfl
      have hlt := h.chains.lt v x hidx i hi
      exact hdesc i hlt ((h.chains.free i hlt).mpr ⟨v, x, hidx, hi⟩)
    busy := (h.shown v).busy
    stored := (h.shown v).stored }
  heads := h.heads
  status := h.status
  logged v := (h.logged v).congr rfl rfl fun _ _ _ => Iff.rfl

theorem setHolds {holds : β → Option τ} (hholds : ∀ v r, (ρ v).req = some r → holds r.b = some v) :
    Owned ρ { d with holds := holds } where
  owner := hholds
  chains := h.chains
  shown v := ⟨(h.shown v).formatted, (h.shown v).busy, (h.shown v).stored⟩
  heads := h.heads
  status := h.status
  logged v := (h.logged v).congr rfl rfl fun _ _ _ => Iff.rfl

end Owned

/-! ## Chains -/

section steps

variable [DecidableEq τ]

theorem Chains.of_idx (h : Chains ρ free) (hnew : new.idx = (ρ u).idx) :
    Chains (update ρ u new) free := by
  have hidx : ∀ v, (update ρ u new v).idx = (ρ v).idx := by
    intro v
    by_cases hv : v = u
    · subst hv
      rw [update_self, hnew]
    · rw [update_of_ne hv]
  refine ⟨fun v x => ?_, fun v x => ?_, fun v w x y => ?_, fun i hi => ?_⟩
  · rw [hidx]
    exact h.nodup v x
  · rw [hidx]
    exact h.lt v x
  · rw [hidx, hidx]
    exact h.disjoint v w x y
  · simp only [hidx]
    exact h.free i hi

theorem Chains.take (h : Chains ρ free) (hu : (ρ u).idx = none) (hnew : new.idx = some x)
    (hnodup : x.toList.Nodup) (hx : ∀ i ∈ x.toList, i < NUM ∧ free i = true) :
    Chains (update ρ u new) (setFree free x false) := by
  have hidx : ∀ v y, (update ρ u new v).idx = some y →
      v = u ∧ y = x ∨ v ≠ u ∧ (ρ v).idx = some y := by
    intro v y hv
    by_cases hvu : v = u
    · subst hvu
      rw [update_self, hnew] at hv
      exact .inl ⟨rfl, (Option.some.inj hv).symm⟩
    · rw [update_of_ne hvu] at hv
      exact .inr ⟨hvu, hv⟩
  have hfree : ∀ v y, (ρ v).idx = some y → ∀ i ∈ y.toList, i ∉ x.toList := by
    intro v y hv i hi hi'
    have := (h.free i (hx i hi').1).mpr ⟨v, y, hv, hi⟩
    rw [(hx i hi').2] at this
    cases this
  refine ⟨fun v y hv => ?_, fun v y hv => ?_, fun v w y z hv hw i hi hi' => ?_, fun i hi => ?_⟩
  · rcases hidx v y hv with ⟨-, rfl⟩ | ⟨-, hv⟩
    · exact hnodup
    · exact h.nodup v y hv
  · rcases hidx v y hv with ⟨-, rfl⟩ | ⟨-, hv⟩
    · exact fun i hi => (hx i hi).1
    · exact h.lt v y hv
  · rcases hidx v y hv with ⟨rfl, rfl⟩ | ⟨-, hv'⟩ <;> rcases hidx w z hw with ⟨rfl, rfl⟩ | ⟨-, hw'⟩
    · rfl
    · exact (hfree w z hw' i hi' hi).elim
    · exact (hfree v y hv' i hi hi').elim
    · exact h.disjoint v w y z hv' hw' i hi hi'
  · by_cases hix : i ∈ x.toList
    · rw [setFree_of_mem hix]
      exact iff_of_true rfl ⟨u, x, by rw [update_self, hnew], hix⟩
    · rw [setFree_of_notMem hix, h.free i hi]
      constructor
      · rintro ⟨v, y, hv, hiy⟩
        have hvu : v ≠ u := by
          rintro rfl
          rw [hu] at hv
          cases hv
        exact ⟨v, y, by rwa [update_of_ne hvu], hiy⟩
      · rintro ⟨v, y, hv, hiy⟩
        rcases hidx v y hv with ⟨rfl, rfl⟩ | ⟨-, hv'⟩
        · exact (hix hiy).elim
        · exact ⟨v, y, hv', hiy⟩

theorem Chains.drop (h : Chains ρ free) (hu : (ρ u).idx = some x) (hnew : new.idx = none) :
    Chains (update ρ u new) (setFree free x true) := by
  have hidx : ∀ v y, (update ρ u new v).idx = some y → v ≠ u ∧ (ρ v).idx = some y := by
    intro v y hv
    by_cases hvu : v = u
    · subst hvu
      rw [update_self, hnew] at hv
      cases hv
    · rw [update_of_ne hvu] at hv
      exact ⟨hvu, hv⟩
  refine ⟨fun v y hv => h.nodup v y (hidx v y hv).2, fun v y hv => h.lt v y (hidx v y hv).2,
    fun v w y z hv hw => h.disjoint v w y z (hidx v y hv).2 (hidx w z hw).2, fun i hi => ?_⟩
  by_cases hix : i ∈ x.toList
  · rw [setFree_of_mem hix]
    refine iff_of_false (by simp) ?_
    rintro ⟨v, y, hv, hiy⟩
    obtain ⟨hvu, hv⟩ := hidx v y hv
    exact hvu (h.disjoint v u y x hv hu i hiy hix)
  · rw [setFree_of_notMem hix, h.free i hi]
    constructor
    · rintro ⟨v, y, hv, hiy⟩
      have hvu : v ≠ u := by
        rintro rfl
        rw [hu] at hv
        exact hix (Option.some.inj hv ▸ hiy)
      exact ⟨v, y, by rwa [update_of_ne hvu], hiy⟩
    · rintro ⟨v, y, hv, hiy⟩
      exact ⟨v, y, (hidx v y hv).2, hiy⟩

theorem Heads.of_role {onDisk : β → Bool} {heads : List ℕ} (h : Heads ρ onDisk heads)
    (hold : ∀ r x, ρ u ≠ .submitted r x) (hnew : ∀ r x, new ≠ .submitted r x) :
    Heads (update ρ u new) onDisk heads := by
  refine ⟨h.nodup, fun i hi => ?_, fun v r x hv => ?_⟩
  · obtain ⟨v, r, x, hv, hx⟩ := h.owner i hi
    have hvu : v ≠ u := by
      rintro rfl
      exact hold r x hv
    exact ⟨v, r, x, by rwa [update_of_ne hvu], hx⟩
  · have hvu : v ≠ u := by
      rintro rfl
      rw [update_self] at hv
      exact hnew r x hv
    rw [update_of_ne hvu] at hv
    exact h.mem v r x hv

/-! ## The steps of a call -/

namespace Owned

variable [DecidableEq β] (h : Owned ρ d)

include h

theorem owner_update (hreq : new.req = (ρ u).req) :
    ∀ v r, (update ρ u new v).req = some r → d.holds r.b = some v := by
  refine (forall_update_iff ρ fun v k => ∀ r, k.req = some r → d.holds r.b = some v).mpr
    ⟨?_, fun v _ => h.owner v⟩
  rw [hreq]
  exact h.owner u

theorem ask (hu : ρ u = .out) (hr : d.holds r.b = some u) :
    Owned (update ρ u (.asking r))
      { d with since := update d.since u d.log.length } where
  owner := by
    refine (forall_update_iff ρ fun v k => ∀ r, k.req = some r → d.holds r.b = some v).mpr
      ⟨?_, fun v _ => h.owner v⟩
    rintro r' ⟨⟩
    exact hr
  chains := h.chains.of_idx (by rw [hu]; rfl)
  shown := (forall_update_iff ρ fun _ k => Shown _ k).mpr ⟨.of_shown rfl,
    fun v _ => ⟨(h.shown v).formatted, (h.shown v).busy, (h.shown v).stored⟩⟩
  heads := h.heads.of_role (by simp [hu]) (by simp)
  status := h.status
  logged := by
    refine (forall_update_iff ρ fun v k => Logged _ v k).mpr ⟨⟨?_, ?_, ?_⟩, fun v hv => ?_⟩
    · simp
    · simp [Core.servedSince]
    · simp
    · exact (h.logged v).congr rfl (update_of_ne hv _ _) fun _ _ _ => Iff.rfl

theorem take (hu : ρ u = .asking r) (hnodup : x.toList.Nodup)
    (hx : ∀ i ∈ x.toList, i < NUM ∧ d.free i = true) :
    Owned (update ρ u (.taken r x)) { d with free := setFree d.free x false } where
  owner := h.owner_update (by rw [hu]; rfl)
  chains := h.chains.take (by rw [hu]; rfl) rfl hnodup hx
  shown := (forall_update_iff ρ fun _ k => Shown _ k).mpr ⟨.of_shown rfl,
    fun v _ => ⟨(h.shown v).formatted, (h.shown v).busy, (h.shown v).stored⟩⟩
  heads := h.heads.of_role (by simp [hu]) (by simp)
  status := h.status
  logged := by
    refine (forall_update_iff ρ fun v k => Logged _ v k).mpr ⟨?_, fun v _ => ?_⟩
    · have hlog := (h.logged u).of_role (.taken r x) (by rw [hu]; rfl) (by simp [hu]) (by simp)
      exact hlog.congr rfl rfl fun _ _ _ => Iff.rfl
    · exact (h.logged v).congr rfl rfl fun _ _ _ => Iff.rfl

theorem format (hu : ρ u = .taken r x) :
    Owned (update ρ u (.formatted r x)) { d with
      ops := update d.ops x.i0 (opOf r)
      desc := update (update (update d.desc
        x.i0 ⟨.op x.i0, 16, VRING_DESC_F_NEXT, x.i1⟩)
        x.i1 ⟨.data r.b, BSIZE, dataFlags r, x.i2⟩)
        x.i2 ⟨.status x.i0, 1, VRING_DESC_F_WRITE, 0⟩
      info := update d.info x.i0 ⟨some r.b, 0xff⟩
      onDisk := update d.onDisk r.b true } where
  owner := h.owner_update (by rw [hu]; rfl)
  chains := h.chains.of_idx (by rw [hu]; rfl)
  shown := by
    have hidx : (ρ u).idx = some x := by rw [hu]; rfl
    refine (forall_update_iff ρ fun _ k => Shown _ k).mpr ⟨⟨?_, ?_, ?_⟩, fun v hvu => ⟨?_, ?_, ?_⟩⟩
    · rintro r' x' ⟨⟩
      have hnodup := h.chains.nodup u x hidx
      simp only [Idx.toList, List.nodup_cons, List.mem_cons, List.not_mem_nil, or_false,
        not_or] at hnodup
      obtain ⟨⟨h01, h02⟩, h12, -⟩ := hnodup
      exact ⟨by simp [h01, h02], by simp [h12], by simp, by simp, by simp⟩
    · rintro r' x' (⟨⟨⟩⟩ | ⟨⟨⟩⟩)
      exact update_self _ _ _
    · rintro r' x' ⟨⟩
    · intro r' x' hv
      have hne : ∀ i ∈ x'.toList, i ∉ x.toList := fun i hi hi' =>
        hvu (h.chains.disjoint v u x' x (Role.idx_of_shown hv) hidx i hi hi')
      simp only [Idx.toList, List.mem_cons, List.not_mem_nil, or_false, not_or] at hne
      refine ((h.shown v).formatted r' x' hv).congr (fun i hi => ?_) ?_ ?_
      · simp only [Idx.toList, List.mem_cons, List.not_mem_nil, or_false] at hi
        obtain ⟨h0, h1, h2⟩ := hne i hi
        simp [h0, h1, h2]
      · simp [(hne x'.i0 (.inl rfl)).1]
      · simp [(hne x'.i0 (.inl rfl)).1]
    · intro r' x' hv
      have hbusy := (h.shown v).busy r' x' hv
      by_cases hb : r'.b = r.b
      · simp [hb]
      · simpa [hb] using hbusy
    · exact (h.shown v).stored
  heads := by
    refine (h.heads.of_onDisk fun v r' x' hv => ?_).of_role (by simp [hu]) (by simp)
    refine update_of_ne (fun hb => ?_) _ _
    have hvu : v = u := h.unique (r := r) (by rw [hu]; rfl) (by rw [hv]; rfl) hb
    rw [hvu, hu] at hv
    cases hv
  status := by
    intro i hi
    have hmem : i ∈ d.heads := List.mem_append_right _ (List.mem_append_right _ hi)
    have hix : i ≠ x.i0 := by
      rintro rfl
      obtain ⟨r', hr', -⟩ := h.of_mem_heads hmem (u := u) (x := x)
        (by rw [hu]; rfl) List.mem_cons_self
      rw [hu] at hr'
      cases hr'
    simpa [hix] using h.status i hi
  logged := by
    refine (forall_update_iff ρ fun v k => Logged _ v k).mpr ⟨?_, fun v _ => ?_⟩
    · have hlog := (h.logged u).of_role (.formatted r x) (by rw [hu]; rfl) (by simp [hu]) (by simp)
      exact hlog.congr rfl rfl fun _ _ _ => Iff.rfl
    · exact (h.logged v).congr rfl rfl fun _ _ _ => Iff.rfl

omit [DecidableEq τ] in
theorem notMem_heads (hu : (ρ u).idx = some x) (hns : ∀ r, ρ u ≠ .submitted r x) :
    x.i0 ∉ d.heads := by
  intro hmem
  obtain ⟨r, hr, -⟩ := h.of_mem_heads hmem hu List.mem_cons_self
  exact hns r hr

omit [DecidableEq τ] in
theorem avail_room (hu : (ρ u).idx = some x) (hns : ∀ r, ρ u ≠ .submitted r x) :
    (d.availIdx - d.next).toNat < NUM := by
  have hlt := h.length_lt (List.sublist_append_left d.availQueue _)
    (h.chains.lt u x hu x.i0 List.mem_cons_self)
    fun hmem => h.notMem_heads hu hns (List.mem_append_left _ hmem)
  rwa [Core.availQueue, Ring.length_contents] at hlt

theorem store (hu : ρ u = .formatted r x) (hone : ∀ v ≠ u, ∀ r x, ρ v ≠ .stored r x) :
    Owned (update ρ u (.stored r x)) { d with
      availRing := update d.availRing (d.availIdx.toNat % NUM) x.i0 } := by
  have hidx : (ρ u).idx = some x := by rw [hu]; rfl
  have hroom := h.avail_room hidx (by simp [hu])
  have hqueue : Ring.contents NUM (update d.availRing (d.availIdx.toNat % NUM) x.i0)
      d.next d.availIdx = d.availQueue := Ring.contents_store (by decide) hroom _
  refine ⟨h.owner_update (by rw [hu]; rfl), h.chains.of_idx (by rw [hu]; rfl), ?_, ?_, h.status, ?_⟩
  · refine (forall_update_iff ρ fun _ k => Shown _ k).mpr
      ⟨⟨?_, ?_, ?_⟩, fun v hvu => ⟨(h.shown v).formatted, (h.shown v).busy, ?_⟩⟩
    · rintro r' x' ⟨⟩
      exact (h.shown u).formatted r x (by rw [hu]; rfl)
    · rintro r' x' (⟨⟨⟩⟩ | ⟨⟨⟩⟩)
      exact (h.shown u).busy r x (.inl hu)
    · rintro r' x' ⟨⟩
      exact update_self _ _ _
    · intro r' x' hv
      exact (hone v hvu r' x' hv).elim
  · unfold Core.heads Core.availQueue
    rw [hqueue]
    exact h.heads.of_role (by simp [hu]) (by simp)
  · refine (forall_update_iff ρ fun v k => Logged _ v k).mpr ⟨?_, fun v _ => ?_⟩
    · have hlog := (h.logged u).of_role (.stored r x) (by rw [hu]; rfl) (by simp [hu]) (by simp)
      exact hlog.congr rfl rfl (by simp)
    · refine (h.logged v).congr rfl rfl fun _ _ _ => ?_
      rw [Core.availQueue, hqueue]

theorem publish (hu : ρ u = .stored r x) (hone : ∀ v ≠ u, ∀ r x, ρ v ≠ .stored r x) :
    Owned (update ρ u (.submitted r x)) { d with availIdx := d.availIdx + 1 } := by
  have hidx : (ρ u).idx = some x := by rw [hu]; rfl
  have hroom := h.avail_room hidx (by simp [hu])
  have hnew := h.notMem_heads hidx (by simp [hu])
  have hbusy := (h.shown u).busy r x (.inr hu)
  have hqueue : Ring.contents NUM d.availRing d.next (d.availIdx + 1) = d.availQueue ++ [x.i0] := by
    rw [Ring.contents_succ (by decide) (by unfold NUM at hroom; omega), (h.shown u).stored r x hu]
    rfl
  refine ⟨h.owner_update (by rw [hu]; rfl), h.chains.of_idx (by rw [hu]; rfl), ?_, ?_, h.status, ?_⟩
  · refine (forall_update_iff ρ fun _ k => Shown _ k).mpr
      ⟨⟨?_, by simp, by simp⟩, fun v hvu => ⟨(h.shown v).formatted, (h.shown v).busy, ?_⟩⟩
    · rintro r' x' ⟨⟩
      exact (h.shown u).formatted r x (by rw [hu]; rfl)
    · intro r' x' hv
      exact (hone v hvu r' x' hv).elim
  · unfold Core.heads Core.availQueue
    rw [hqueue]
    have hperm : (x.i0 :: d.heads).Perm
      (d.availQueue ++ [x.i0] ++ (d.inflight ++ d.usedQueue)) := by
      rw [List.append_assoc]
      exact List.perm_middle.symm
    refine Heads.perm ⟨List.nodup_cons.mpr ⟨hnew, h.heads.nodup⟩, ?_, ?_⟩ hperm
    · intro i hi
      rcases List.mem_cons.mp hi with rfl | hi
      · exact ⟨u, r, x, update_self _ _ _, rfl, hbusy⟩
      · obtain ⟨v, r', x', hv, hx'⟩ := h.heads.owner i hi
        have hvu : v ≠ u := by
          rintro rfl
          rw [hu] at hv
          cases hv
        exact ⟨v, r', x', by rwa [update_of_ne hvu], hx'⟩
    · refine (forall_update_iff ρ fun _ k => ∀ r' x', k = .submitted r' x' →
        d.onDisk r'.b = true → x'.i0 ∈ x.i0 :: d.heads).mpr ⟨?_, fun v _ r' x' hv hr' => ?_⟩
      · rintro r' x' ⟨⟩ -
        exact List.mem_cons_self
      · exact List.mem_cons_of_mem _ (h.heads.mem v r' x' hv hr')
  · refine (forall_update_iff ρ fun v k => Logged _ v k).mpr
      ⟨⟨?_, ?_, ?_⟩, fun v hvu => (h.logged v).congr rfl rfl fun r' x' hv => ?_⟩
    · rintro r' ⟨⟩
      exact (h.logged u).since r (by rw [hu]; rfl)
    · rintro r' ⟨⟩ -
      exact (h.logged u).before r (by rw [hu]; rfl) (by simp [hu])
    · rintro r' x' ⟨⟩ hx
      refine (hx (List.mem_append_left _ ?_)).elim
      unfold Core.availQueue
      rw [hqueue]
      exact List.mem_append_right _ List.mem_cons_self
    · have hne : x'.i0 ≠ x.i0 :=
        fun heq => hvu (h.chains.disjoint v u x' x (by rw [hv]; rfl) hidx x'.i0
        List.mem_cons_self (heq ▸ List.mem_cons_self))
      rw [Core.availQueue, hqueue]
      simp [hne]

theorem finish (hu : ρ u = .submitted r x) (hr : d.onDisk r.b = false) {desc : ℕ → Desc β}
    (hdesc : ∀ i ∉ x.toList, desc i = d.desc i) (l : Option (Holder τ)) :
    Owned (update ρ u .out) { d with
      info := update d.info x.i0 { d.info x.i0 with b := none }
      desc := desc
      free := setFree d.free x true
      lock := l } := by
  have hidx : (ρ u).idx = some x := by rw [hu]; rfl
  have hother : ∀ v ≠ u, ∀ y, (ρ v).idx = some y → ∀ i ∈ y.toList, i ∉ x.toList :=
    fun v hvu y hv i hi hi' => hvu (h.chains.disjoint v u y x hv hidx i hi hi')
  have hhead : x.i0 ∉ d.heads := by
    intro hmem
    obtain ⟨r', hr', -, hdisk⟩ := h.of_mem_heads hmem hidx List.mem_cons_self
    obtain ⟨rfl, -⟩ := Role.submitted.inj (hu.symm.trans hr')
    rw [hr] at hdisk
    cases hdisk
  refine ⟨?_, h.chains.drop hidx rfl, ?_, ⟨h.heads.nodup, ?_, ?_⟩, ?_, ?_⟩
  · exact (forall_update_iff ρ fun v k => ∀ r, k.req = some r → d.holds r.b = some v).mpr
      ⟨by simp [Role.req], fun v _ => h.owner v⟩
  · refine (forall_update_iff ρ fun _ k => Shown _ k).mpr
      ⟨.of_shown rfl, fun v hvu => ⟨?_, (h.shown v).busy, (h.shown v).stored⟩⟩
    intro r' x' hv
    have hx' := hother v hvu x' (Role.idx_of_shown hv)
    refine ((h.shown v).formatted r' x' hv).congr (fun i hi => hdesc i (hx' i hi)) rfl ?_
    have hne : x'.i0 ≠ x.i0 := fun heq => hx' x'.i0 List.mem_cons_self (heq ▸ List.mem_cons_self)
    exact congrArg Info.b (update_of_ne hne _ _)
  · intro i hi
    obtain ⟨v, r', x', hv, rfl, hr'⟩ := h.heads.owner i hi
    have hvu : v ≠ u := by
      rintro rfl
      obtain ⟨-, rfl⟩ := Role.submitted.inj (hu.symm.trans hv)
      exact hhead hi
    exact ⟨v, r', x', by rwa [update_of_ne hvu], rfl, hr'⟩
  · exact (forall_update_iff ρ fun _ k => ∀ r x, k = .submitted r x → d.onDisk r.b = true →
      x.i0 ∈ d.heads).mpr ⟨by simp, fun v _ => h.heads.mem v⟩
  · intro i hi
    have hne : i ≠ x.i0 := by
      rintro rfl
      exact hhead (List.mem_append_right _ (List.mem_append_right _ hi))
    simpa [hne] using h.status i hi
  · exact (forall_update_iff ρ fun v k => Logged _ v k).mpr
      ⟨⟨by simp [Role.req], by simp [Role.req], by simp⟩,
        fun v _ => (h.logged v).congr rfl rfl fun _ _ _ => Iff.rfl⟩

end Owned

end steps

/-! ## The steps of the device and of the interrupt handler -/

theorem perm_advance (a : ℕ) (l m n : List ℕ) :
    (a :: l ++ (m ++ n)).Perm (l ++ (m ++ [a] ++ n)) := by
  simpa using (@List.perm_middle _ a (l ++ m) n).symm

theorem perm_handBack {a : ℕ} (l : List ℕ) {m : List ℕ} (n : List ℕ) (ha : a ∈ m) :
    (l ++ (m ++ n)).Perm (l ++ (m.erase a ++ (n ++ [a]))) := by
  refine List.Perm.append_left l ?_
  calc
    (m ++ n).Perm (a :: (m.erase a ++ n)) := (List.perm_cons_erase ha).append_right n
    _ |>.Perm (m.erase a ++ n ++ [a]) := (List.perm_append_singleton a _).symm
    _ |>.Perm (m.erase a ++ (n ++ [a])) := by rw [List.append_assoc]

namespace Owned

variable [DecidableEq β] (h : Owned ρ d)

include h

theorem consume (hne : d.next ≠ d.availIdx) :
    Owned ρ { d with
      inflight := d.inflight ++ [d.availRing (d.next.toNat % NUM)]
      next := d.next + 1 } := by
  have hqueue : d.availQueue = d.availRing (d.next.toNat % NUM) ::
      Ring.contents NUM d.availRing (d.next + 1) d.availIdx := Ring.contents_pop (by decide) hne
  refine ⟨h.owner, h.chains, fun v => ⟨(h.shown v).formatted, (h.shown v).busy, (h.shown v).stored⟩,
    ?_, h.status, fun v => (h.logged v).congr rfl rfl fun r x _ => ?_⟩
  · refine h.heads.perm ?_
    unfold Core.heads
    rw [hqueue]
    exact perm_advance _ _ _ _
  · rw [hqueue, Core.availQueue]
    simp only [List.mem_append, List.mem_cons, List.not_mem_nil, or_false]
    tauto

theorem used_room {i : ℕ} (hi : i ∈ d.inflight) : (d.usedRingIdx - d.usedIdx).toNat < NUM := by
  have hnodup := List.Nodup.of_append_right h.heads.nodup
  have hsub : List.Sublist d.usedQueue d.heads :=
    (List.sublist_append_right d.inflight _).trans (List.sublist_append_right d.availQueue _)
  have hmem : i ∈ d.heads := List.mem_append_right _ (List.mem_append_left _ hi)
  have hlt := h.length_lt hsub (h.head_lt hmem)
    fun hi' => (List.nodup_append.mp hnodup).2.2 i hi i hi' rfl
  rwa [Core.usedQueue, Ring.length_contents] at hlt

theorem complete {i : ℕ} (hi : i ∈ d.inflight) (hu : ρ u = .submitted r x) (hx : x.i0 = i) :
    Owned ρ { d with
      log := d.log ++ [⟨r.b, opOf r⟩]
      info := update d.info i { d.info i with status := 0 }
      inflight := d.inflight.erase i
      usedRing := update d.usedRing (d.usedRingIdx.toNat % NUM) i
      usedRingIdx := d.usedRingIdx + 1 } := by
  have hqueue : Ring.contents NUM (update d.usedRing (d.usedRingIdx.toNat % NUM) i)
      d.usedIdx (d.usedRingIdx + 1) = d.usedQueue ++ [i] :=
    Ring.contents_push (by decide) (h.used_room hi) (by decide) _
  have hnot : i ∉ d.availQueue ++ d.inflight.erase i := by
    have hnodup := (perm_handBack d.availQueue d.usedQueue hi).nodup_iff.mp h.heads.nodup
    rw [← List.append_assoc, ← List.append_assoc] at hnodup
    intro hmem
    exact (List.nodup_append.mp hnodup).2.2 i (List.mem_append_left _ hmem) i List.mem_cons_self rfl
  refine ⟨h.owner, h.chains, fun v => ⟨fun r' x' hv => ?_, (h.shown v).busy, (h.shown v).stored⟩,
    ?_, ?_, ?_⟩
  · refine ((h.shown v).formatted r' x' hv).congr (fun _ _ => rfl) rfl ?_
    by_cases hxi : x'.i0 = i
    · simp [hxi]
    · simp [hxi]
  · unfold Core.heads Core.usedQueue
    rw [hqueue]
    exact h.heads.perm (perm_handBack _ _ hi)
  · intro j hj
    unfold Core.usedQueue at hj
    rw [hqueue] at hj
    by_cases hji : j = i
    · simp [hji]
    · simp only [List.mem_append, List.mem_singleton, hji, or_false] at hj
      simpa [hji] using h.status j hj
  · intro v
    by_cases hvu : v = u
    · subst hvu
      have hreq : (ρ v).req = some r := by rw [hu]; rfl
      have hsince := (h.logged v).since r hreq
      have hbefore := (h.logged v).before r hreq fun x' hx' => by
        obtain ⟨-, rfl⟩ := Role.submitted.inj (hu.symm.trans hx')
        rw [hx]
        exact List.mem_append_right _ hi
      rw [hu]
      refine ⟨?_, ?_, ?_⟩
      · rintro r' ⟨⟩
        exact hsince.trans (by simp)
      · rintro r' ⟨⟩ hmem
        exact (hnot (hx ▸ hmem x rfl)).elim
      · rintro r' x' ⟨⟩ -
        refine Eq.trans (servedSince_append r.b hsince rfl rfl) ?_
        rw [hbefore, if_pos rfl, List.nil_append]
    · refine (h.logged v).of_served (fun hle => hle.trans (by simp)) (fun r' hr' => ?_)
        (fun r' x' hv => ?_)
      · have hb : r.b ≠ r'.b := fun hb => hvu (h.unique (by rw [hu]; rfl) hr' hb.symm)
        refine Eq.trans (servedSince_append r'.b ((h.logged v).since r' hr') rfl rfl) ?_
        rw [if_neg hb, List.append_nil]
      · have hne : x'.i0 ≠ i := by
          rintro rfl
          exact hvu (h.chains.disjoint v u x' x (by rw [hv]; rfl) (by rw [hu]; rfl) x'.i0
            List.mem_cons_self (hx ▸ List.mem_cons_self))
        rw [List.mem_append, List.mem_append]
        exact or_congr Iff.rfl (List.mem_erase_of_ne hne)

/-- The interrupt handler takes the next head off the used ring: it is that of a
request, and its buffer goes back to the caller. -/
theorem intr (hne : d.usedIdx ≠ d.usedRingIdx) (hu : ρ u = .submitted r x)
    (hx : d.usedRing (d.usedIdx.toNat % NUM) = x.i0) {onDisk : β → Bool}
    (hdisk : onDisk = update d.onDisk r.b false) :
    Owned ρ { d with onDisk := onDisk, usedIdx := d.usedIdx + 1 } := by
  have hqueue : d.usedQueue = x.i0 :: Ring.contents NUM d.usedRing (d.usedIdx + 1) d.usedRingIdx :=
    hx ▸ Ring.contents_pop (by decide) hne
  have hkeep : ∀ v ≠ u, ∀ r', (ρ v).req = some r' → onDisk r'.b = d.onDisk r'.b := by
    intro v hvu r' hr'
    rw [hdisk]
    exact update_of_ne (fun hb => hvu (h.unique (by rw [hu]; rfl) hr' hb)) _ _
  have hperm : d.heads.Perm (x.i0 :: (d.availQueue ++ (d.inflight ++
      Ring.contents NUM d.usedRing (d.usedIdx + 1) d.usedRingIdx))) := by
    unfold Core.heads
    rw [hqueue, ← List.append_assoc, ← List.append_assoc]
    exact List.perm_middle
  have hheads := h.heads.perm hperm
  have hnodup := List.nodup_cons.mp hheads.nodup
  refine ⟨h.owner, h.chains,
    fun v => ⟨(h.shown v).formatted, fun r' x' hv => ?_, (h.shown v).stored⟩,
    ⟨hnodup.2, fun i hi => ?_, fun v r' x' hv hr' => ?_⟩, fun i hi => ?_,
    fun v => (h.logged v).congr rfl rfl fun _ _ _ => Iff.rfl⟩
  · have hvu : v ≠ u := by
      rintro rfl
      rw [hu] at hv
      simp at hv
    have hreq : (ρ v).req = some r' := by
      rcases hv with hv | hv <;> rw [hv] <;> rfl
    exact (hkeep v hvu r' hreq).trans ((h.shown v).busy r' x' hv)
  · obtain ⟨v, r', x', hv, rfl, hr'⟩ := hheads.owner i (List.mem_cons_of_mem _ hi)
    have hvu : v ≠ u := by
      rintro rfl
      obtain ⟨-, rfl⟩ := Role.submitted.inj (hu.symm.trans hv)
      exact hnodup.1 hi
    exact ⟨v, r', x', hv, rfl, (hkeep v hvu r' (by rw [hv]; rfl)).trans hr'⟩
  · have hvu : v ≠ u := by
      rintro rfl
      obtain ⟨rfl, -⟩ := Role.submitted.inj (hu.symm.trans hv)
      simp [hdisk] at hr'
    have hmem := hheads.mem v r' x' hv ((hkeep v hvu r' (by rw [hv]; rfl)).symm.trans hr')
    refine (List.mem_cons.mp hmem).resolve_left fun heq => hvu ?_
    exact h.chains.disjoint v u x' x (by rw [hv]; rfl) (by rw [hu]; rfl) x'.i0 List.mem_cons_self
      (heq ▸ List.mem_cons_self)
  · exact h.status i (hqueue ▸ List.mem_cons_of_mem _ hi)

end Owned

end Xv6.Virtio
