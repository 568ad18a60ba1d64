import Xv6.Lib.Ring
import Xv6.Sleep.Invariant

/-!
# A pipe is a stream of bytes

The bytes that calls of `pipewrite` put into the ring come out of it in the
same order, whatever the interleaving of writers and readers, across the wrap
of the two counters.
-/

namespace Xv6.Sleep

open Proc (Slot)
open Lib

variable {s s' : State} {e : Event} {p q : Slot} {k : ℕ} {f : Frame} {P : Pipe}

/-- The bytes of a log that call `id` moved. -/
def bytesOf (log : List (ℕ × UInt8)) (id : ℕ) : List UInt8 :=
  (log.filter (·.1 = id)).map Prod.snd

@[simp] theorem bytesOf_nil (id : ℕ) : bytesOf [] id = [] := rfl

theorem bytesOf_concat (log : List (ℕ × UInt8)) (i id : ℕ) (ch : UInt8) :
    bytesOf (log ++ [(i, ch)]) id = if i = id then bytesOf log id ++ [ch] else bytesOf log id := by
  by_cases h : i = id <;> simp [bytesOf, h]

theorem bytesOf_eq_nil {log : List (ℕ × UInt8)} {id : ℕ} (h : ∀ x ∈ log, x.1 ≠ id) :
    bytesOf log id = [] := by
  rw [bytesOf, List.filter_eq_nil_iff.mpr fun x hx => by simpa using h x hx, List.map_nil]

namespace Pipe

def buffered (P : Pipe) : List UInt8 := Ring.contents PIPESIZE P.data P.nread P.nwrite

def moved (P : Pipe) (id : ℕ) : ℕ := (bytesOf P.sent id).length + (bytesOf P.got id).length

/-- The bytes of the call `c` entered the buffer in order. -/
def InOrder (P : Pipe) (c : WriteCall) : Prop :=
  (bytesOf P.sent c.id).map some = (List.range (bytesOf P.sent c.id).length).map c.src

/-- The pipe has been a bounded queue since `pipealloc`. -/
structure Stream (P : Pipe) : Prop where
  bounded : (P.nwrite - P.nread).toNat ≤ PIPESIZE
  fifo : P.sent.map Prod.snd = P.got.map Prod.snd ++ P.buffered
  order : ∀ c ∈ P.writers, P.InOrder c
  rets : ∀ x ∈ P.rets, 0 < x.2 → (P.moved x.1 : ℤ) = x.2

theorem dvd_pipesize : PIPESIZE ∣ 2 ^ 32 := by decide

theorem full_iff : P.Full ↔ (P.nwrite - P.nread).toNat = PIPESIZE := by
  have hsize : (BitVec.ofNat 32 PIPESIZE).toNat = PIPESIZE := by decide
  rw [Full]
  constructor
  · intro h
    rw [h, add_sub_cancel_left]
    exact hsize
  · intro h
    have hsub : P.nwrite - P.nread = BitVec.ofNat 32 PIPESIZE :=
      BitVec.eq_of_toNat_eq (h.trans hsize.symm)
    rw [← hsub]
    ring

/-- The part of `Stream` that does not look at single calls. -/
structure Fifo (P : Pipe) : Prop where
  bounded : (P.nwrite - P.nread).toNat ≤ PIPESIZE
  fifo : P.sent.map Prod.snd = P.got.map Prod.snd ++ P.buffered

theorem Fifo.put (h : Fifo P) (hroom : ¬P.Full) (id : ℕ) (ch : UInt8) : Fifo (P.put id ch) := by
  have hlt : (P.nwrite - P.nread).toNat < PIPESIZE :=
    lt_of_le_of_ne h.bounded fun heq => hroom (full_iff.mpr heq)
  have hbig : PIPESIZE < 2 ^ 32 := by decide
  constructor
  · change (P.nwrite + 1 - P.nread).toNat ≤ PIPESIZE
    rw [Ring.toNat_add_one_sub (by omega)]
    exact hlt
  · change (P.sent ++ [(id, ch)]).map Prod.snd = P.got.map Prod.snd ++ Ring.contents PIPESIZE
      (Function.update P.data (P.nwrite.toNat % PIPESIZE) ch) P.nread (P.nwrite + 1)
    rw [Ring.contents_push dvd_pipesize hlt hbig, List.map_append, h.fifo, List.append_assoc]
    rfl

theorem Fifo.take (h : Fifo P) (hne : ¬P.Empty) (id : ℕ) : Fifo (P.take.deliver id P.next) := by
  constructor
  · change (P.nwrite - (P.nread + 1)).toNat ≤ PIPESIZE
    have := Ring.toNat_sub_add_one hne
    have := h.bounded
    omega
  · change P.sent.map Prod.snd = (P.got ++ [(id, P.next)]).map Prod.snd ++
      Ring.contents PIPESIZE P.data (P.nread + 1) P.nwrite
    rw [h.fifo, buffered, Ring.contents_pop dvd_pipesize hne, List.map_append, List.append_assoc]
    rfl

theorem Fifo.page (data : ℕ → UInt8) : Fifo (.page data) := by
  constructor
  · change ((0 : BitVec 32) - 0).toNat ≤ PIPESIZE
    decide
  · simp [Pipe.page, buffered]

theorem Fifo.of_eq {Q : Pipe} (h : Fifo P) (hd : Q.data = P.data) (hr : Q.nread = P.nread)
    (hw : Q.nwrite = P.nwrite) (hs : Q.sent = P.sent) (hg : Q.got = P.got) : Fifo Q := by
  constructor
  · rw [hr, hw]
    exact h.bounded
  · rw [hs, hg, buffered, hd, hr, hw]
    exact h.fifo

/-- The logs of a pipe agree with its counters; `n` calls have been made so far. -/
structure Logged (n : ℕ) (P : Pipe) : Prop extends Fifo P where
  order : ∀ c ∈ P.writers, P.InOrder c
  fresh : ∀ c ∈ P.writers, c.id < n
  inj : ∀ c ∈ P.writers, ∀ c' ∈ P.writers, c.id = c'.id → c = c'
  sent : ∀ x ∈ P.sent, x.1 < n
  got : ∀ x ∈ P.got, x.1 < n
  rets : ∀ x ∈ P.rets, x.1 < n ∧ (0 < x.2 → (P.moved x.1 : ℤ) = x.2)

namespace Logged

variable {n m : ℕ}

theorem stream (h : P.Logged n) : P.Stream where
  bounded := h.bounded
  fifo := h.fifo
  order := h.order
  rets := fun x hx => (h.rets x hx).2

theorem mono (h : P.Logged n) (hn : n ≤ m) : P.Logged m where
  toFifo := h.toFifo
  order := h.order
  fresh := fun c hc => (h.fresh c hc).trans_le hn
  inj := h.inj
  sent := fun x hx => (h.sent x hx).trans_le hn
  got := fun x hx => (h.got x hx).trans_le hn
  rets := fun x hx => ⟨(h.rets x hx).1.trans_le hn, (h.rets x hx).2⟩

theorem page (n : ℕ) (data : ℕ → UInt8) : (Pipe.page data).Logged n where
  toFifo := .page data
  order := nofun
  fresh := nofun
  inj := nofun
  sent := nofun
  got := nofun
  rets := nofun

theorem init (n : ℕ) (P : Pipe) : P.init.Logged n :=
  { page n P.data with toFifo := (Fifo.page P.data).of_eq rfl rfl rfl rfl rfl }

theorem close (h : P.Logged n) (w : Bool) : (P.close w).Logged n := by
  cases w <;> exact { h with toFifo := h.toFifo.of_eq rfl rfl rfl rfl rfl }

theorem start (h : P.Logged n) {c : WriteCall} (hc : c.id = n) : (P.start c).Logged (n + 1) := by
  have hmem : ∀ d ∈ (P.start c).writers, d ∈ P.writers ∨ d = c := fun d hd => by
    simpa [Pipe.start] using hd
  refine { h.mono n.le_succ with
    toFifo := h.toFifo.of_eq rfl rfl rfl rfl rfl
    order := fun d hd => ?_
    fresh := fun d hd => ?_
    inj := fun d hd e he hde => ?_ }
  · rcases hmem d hd with hd | rfl
    · exact h.order d hd
    · -- the new call has moved nothing
      rw [InOrder, bytesOf_eq_nil fun x hx => hc ▸ (h.sent x hx).ne]
      rfl
  · rcases hmem d hd with hd | rfl
    · exact Nat.lt_succ_of_lt (h.fresh d hd)
    · exact hc ▸ Nat.lt_succ_self _
  · rcases hmem d hd with hd | hd <;> rcases hmem e he with he | he
    · exact h.inj d hd e he hde
    · exact absurd (hde.trans (he ▸ hc)) (h.fresh d hd).ne
    · exact absurd (hde.symm.trans (hd ▸ hc)) (h.fresh e he).ne
    · rw [hd, he]

theorem finish (h : P.Logged n) {id : ℕ} {v : ℤ} (hid : id < n)
    (hv : 0 < v → (P.moved id : ℤ) = v) : (P.finish id v).Logged n := by
  refine { h with toFifo := h.toFifo.of_eq rfl rfl rfl rfl rfl, rets := fun x hx => ?_ }
  rcases List.mem_append.mp hx with hx | hx
  · exact h.rets x hx
  · rw [List.mem_singleton.mp hx]
    exact ⟨hid, hv⟩

theorem put (h : P.Logged n) {c : WriteCall} {ch : UInt8} (hroom : ¬P.Full) (hc : c ∈ P.writers)
    (hch : c.src (bytesOf P.sent c.id).length = some ch) (hrets : ∀ x ∈ P.rets, x.1 ≠ c.id) :
    (P.put c.id ch).Logged n := by
  refine { h with
    toFifo := h.toFifo.put hroom c.id ch
    order := fun d hd => ?_
    sent := fun x hx => ?_
    rets := fun x hx => ⟨(h.rets x hx).1, ?_⟩ }
  · have hold := h.order d hd
    rw [InOrder] at hold ⊢
    change (bytesOf (P.sent ++ [(c.id, ch)]) d.id).map some =
      (List.range (bytesOf (P.sent ++ [(c.id, ch)]) d.id).length).map d.src
    rw [bytesOf_concat]
    split_ifs with hid
    · obtain rfl := h.inj c hc d hd hid
      rw [List.map_append, hold, List.length_append, List.length_singleton, List.range_succ,
        List.map_append, List.map_singleton, List.map_singleton, hch]
    · exact hold
  · rcases List.mem_append.mp hx with hx | hx
    · exact h.sent x hx
    · rw [List.mem_singleton.mp hx]
      exact h.fresh c hc
  · change 0 < x.2 → ((bytesOf (P.sent ++ [(c.id, ch)]) x.1).length + _ : ℕ) = x.2
    rw [bytesOf_concat, if_neg (hrets x hx).symm]
    exact (h.rets x hx).2

theorem take (h : P.Logged n) {id : ℕ} (hne : ¬P.Empty) (hid : id < n)
    (hrets : ∀ x ∈ P.rets, x.1 ≠ id) : (P.take.deliver id P.next).Logged n := by
  refine { h with
    toFifo := h.toFifo.take hne id
    got := fun x hx => ?_
    rets := fun x hx => ⟨(h.rets x hx).1, ?_⟩ }
  · rcases List.mem_append.mp hx with hx | hx
    · exact h.got x hx
    · rw [List.mem_singleton.mp hx]
      exact hid
  · change 0 < x.2 → (_ + (bytesOf (P.got ++ [(id, P.next)]) x.1).length : ℕ) = x.2
    rw [bytesOf_concat, if_neg (hrets x hx).symm]
    exact (h.rets x hx).2

end Logged

end Pipe

/-! ## Calls in progress -/

/-- A call on a pipe that has moved `i` bytes. -/
inductive Call
  | write (c : WriteCall) (i : ℕ)
  | read (c : ReadCall) (i : ℕ)

namespace Call

def id : Call → ℕ
  | write c _ => c.id
  | read c _ => c.id

def pipe : Call → ℕ
  | write c _ => c.pipe
  | read c _ => c.pipe

/-- What the logs of the pipe say about the call. -/
def Moved (P : Pipe) : Call → Prop
  | write c i => c ∈ P.writers ∧ (bytesOf P.sent c.id).length = i ∧ bytesOf P.got c.id = []
  | read c i => (∀ j, c.dst j) ∧ (bytesOf P.got c.id).length = i ∧ bytesOf P.sent c.id = []

theorem Moved.of_eq {c : Call} {Q : Pipe} (h : c.Moved P) (hw : Q.writers = P.writers)
    (hs : bytesOf Q.sent c.id = bytesOf P.sent c.id)
    (hg : bytesOf Q.got c.id = bytesOf P.got c.id) : c.Moved Q := by
  cases c with
  | write c i =>
    simp only [id, Moved, hw, hs, hg] at h hs hg ⊢
    exact h
  | read c i =>
    simp only [id, Moved, hs, hg] at h hs hg ⊢
    exact h

theorem Moved.start {c : Call} (h : c.Moved P) (d : WriteCall) : c.Moved (P.start d) := by
  cases c with
  | write c i => exact ⟨List.mem_append_left _ h.1, h.2⟩
  | read c i => exact h

end Call

/-- The call on a pipe that the thread is in. -/
def Frame.call : Frame → Option Call
  | acquire (.pipewrite c i) | test (.pipewrite c i) | sleep (.pipewrite c i)
  | asleep (.pipewrite c i) | writeBody c i | writeFull c i _ | writeWake c i _ => some (.write c i)
  | acquire (.piperead c) | test (.piperead c) | sleep (.piperead c) | asleep (.piperead c) =>
    some (.read c 0)
  | readCopy c i | readWake c i _ => some (.read c i)
  | _ => none

/-- The logs of every pipe agree with its counters and with the calls in progress. -/
structure Streams (s : State) : Prop where
  logged : ∀ k, (s.pipe k).Logged s.calls
  call : ∀ p c, (s.frame p).call = some c → c.id < s.calls ∧ c.Moved (s.pipe c.pipe) ∧
    ∀ k, ∀ x ∈ (s.pipe k).rets, x.1 ≠ c.id
  distinct : ∀ p q c c', (s.frame p).call = some c → (s.frame q).call = some c' →
    c.id = c'.id → p = q

namespace Streams

theorem of_eq (h : Streams s) (hf : s'.frame = s.frame) (hp : s'.pipe = s.pipe)
    (hc : s'.calls = s.calls) : Streams s' := by
  constructor <;> simp only [hf, hp, hc]
  · exact h.logged
  · exact h.call
  · exact h.distinct

theorem goto (h : Streams s) (hf : f.call = (s.frame p).call) : Streams (s.goto p f) := by
  have hcall : ∀ q, ((s.goto p f).frame q).call = (s.frame q).call := by
    intro q
    rw [State.goto_frame]
    split_ifs with hqp
    · rw [hqp, hf]
    · rfl
  refine ⟨h.logged, fun q c hq => ?_, fun q r c c' hq hr => ?_⟩
  · exact h.call q c (hcall q ▸ hq)
  · exact h.distinct q r c c' (hcall q ▸ hq) (hcall r ▸ hr)

theorem bump (h : Streams s) : Streams { s with calls := s.calls + 1 } where
  logged := fun k => (h.logged k).mono (Nat.le_succ _)
  call := fun p c hc => ⟨Nat.lt_succ_of_lt (h.call p c hc).1, (h.call p c hc).2⟩
  distinct := h.distinct

/-- Thread `p` goes on to `f` and changes pipe `k`: its call is the one it was in, or a new
one, and a count is returned only at the end of the call. -/
theorem change (h : Streams s) {n : ℕ} (hn : s.calls ≤ n) (hP : P.Logged n)
    (hothers : ∀ q d, q ≠ p → (s.frame q).call = some d → d.pipe = k → d.Moved P)
    (hself : ∀ d, f.call = some d → d.id < n ∧ d.pipe = k ∧ d.Moved P ∧
      (s.calls ≤ d.id ∨ ∃ c, (s.frame p).call = some c ∧ c.id = d.id))
    (hrets : ∀ x ∈ P.rets, x ∈ (s.pipe k).rets ∨
      f.call = none ∧ ∃ c, (s.frame p).call = some c ∧ c.id = x.1) :
    Streams ({ s.setPipe k P with calls := n }.goto p f) := by
  set t : State := { s.setPipe k P with calls := n }.goto p f with ht
  have hcall : ∀ q d, (t.frame q).call = some d →
      q = p ∧ f.call = some d ∨ q ≠ p ∧ (s.frame q).call = some d := by
    intro q d hq
    rw [ht, State.goto_frame] at hq
    split_ifs at hq with hqp
    · exact .inl ⟨hqp, hq⟩
    · exact .inr ⟨hqp, hq⟩
  have hpipe : ∀ l, t.pipe l = if l = k then P else s.pipe l := State.setPipe_pipe s k (P := P)
  have hold : ∀ l, ∀ x ∈ (t.pipe l).rets, x ∈ (s.pipe l).rets ∨
      f.call = none ∧ ∃ c, (s.frame p).call = some c ∧ c.id = x.1 := by
    intro l x hx
    rw [hpipe] at hx
    split_ifs at hx with hl
    · exact hl ▸ hrets x hx
    · exact .inl hx
  -- the id of the thread's own call is new, or was its own before
  have hapart : ∀ d q d', f.call = some d → q ≠ p → (s.frame q).call = some d' → d.id ≠ d'.id := by
    intro d q d' hd hqp hq heq
    obtain ⟨-, -, -, hnew | ⟨c, hc, hid⟩⟩ := hself d hd
    · exact absurd (h.call q d' hq).1 (by omega)
    · exact hqp (h.distinct q p d' c hq hc (by omega))
  refine ⟨fun l => ?_, fun q d hq => ?_, fun q r d d' hq hr hdd => ?_⟩
  · rw [hpipe]
    split_ifs
    · exact hP
    · exact (h.logged l).mono hn
  · rcases hcall q d hq with ⟨-, hd⟩ | ⟨hqp, hd⟩
    · obtain ⟨hlt, hk, hmoved, hid⟩ := hself d hd
      refine ⟨hlt, by rwa [hpipe, if_pos hk], fun l x hx => ?_⟩
      rcases hold l x hx with hx | ⟨hnone, -⟩
      · rcases hid with hnew | ⟨c, hc, hid⟩
        · have := ((h.logged l).rets x hx).1
          omega
        · exact hid ▸ (h.call p c hc).2.2 l x hx
      · simp [hnone] at hd
    · obtain ⟨hlt, hmoved, hne⟩ := h.call q d hd
      refine ⟨hlt.trans_le hn, ?_, fun l x hx => ?_⟩
      · rw [hpipe]
        split_ifs with hk
        · exact hothers q d hqp hd hk
        · exact hmoved
      · rcases hold l x hx with hx | ⟨-, c, hc, hid⟩
        · exact hne l x hx
        · exact fun heq => hqp (h.distinct q p d c hd hc (by omega))
  · rcases hcall q d hq with ⟨rfl, hd⟩ | ⟨hqp, hd⟩ <;>
      rcases hcall r d' hr with ⟨rfl, hd'⟩ | ⟨hrp, hd'⟩
    · rfl
    · exact absurd hdd (hapart d r d' hd hrp hd')
    · exact absurd hdd.symm (hapart d' q d hd' hqp hd)
    · exact h.distinct q r d d' hd hd' hdd

theorem finish (h : Streams s) {c : Call} (hp : (s.frame p).call = some c) {v : ℤ}
    (hv : 0 < v → ((s.pipe c.pipe).moved c.id : ℤ) = v) :
    Streams ((s.setPipe c.pipe ((s.pipe c.pipe).finish c.id v)).goto p .idle) := by
  refine h.change le_rfl ((h.logged _).finish (h.call p c hp).1 hv) (fun q d _ hd hk => ?_) nofun
    fun x hx => ?_
  · exact (hk ▸ (h.call q d hd).2.1).of_eq rfl rfl rfl
  · rcases List.mem_append.mp hx with hx | hx
    · exact .inl hx
    · rw [List.mem_singleton.mp hx]
      exact .inr ⟨rfl, c, hp, rfl⟩

end Streams

/-! ## Every step -/

theorem call_of_isIdle (hf : f.isIdle) : f.call = none := by
  cases f <;> simp_all [Frame.isIdle, Frame.call]

theorem call_resume (f : Frame) : f.resume.call = f.call := by
  cases f with
  | asleep l => cases l <;> rfl
  | _ => rfl

theorem call_nextSlot (f : Frame) : f.nextSlot.call = f.call := by
  cases f <;> rfl

theorem call_locked (l : Loop) (t : BitVec 32) :
    (Frame.test (l.locked t)).call = (Frame.acquire l).call := by
  cases l with
  | sysSleep id n ticks0 => cases ticks0 <;> rfl
  | _ => rfl

theorem call_test_eq_none {l : Loop} (hl : ∀ k, l.lock ≠ .pipe k) : (Frame.test l).call = none := by
  cases l with
  | pipewrite c i | piperead c => exact absurd rfl (hl c.pipe)
  | consoleread c n | sysSleep id n t => rfl

theorem uses_of_call {c : Call} (h : f.call = some c) : ∃ w, f.Uses c.pipe w := by
  have hloop : ∀ l : Loop, (Frame.test l).call = some c → ∃ w, (Frame.test l).Uses c.pipe w := by
    rintro (⟨d, i⟩ | d | ⟨d, n⟩ | ⟨id, n, t⟩) h
    · cases h
      exact ⟨true, rfl⟩
    · cases h
      exact ⟨false, rfl⟩
    · simp [Frame.call] at h
    · simp [Frame.call] at h
  cases f with
  | acquire l | test l | sleep l | asleep l =>
    obtain ⟨w, hw⟩ := hloop l (by cases l <;> exact h)
    exact ⟨w, by cases l <;> cases w <;> exact hw⟩
  | writeBody d i | writeFull d i j | writeWake d i j =>
    cases h
    exact ⟨true, rfl⟩
  | readCopy d i | readWake d i j =>
    cases h
    exact ⟨false, rfl⟩
  | _ => simp [Frame.call] at h

/-- User memory is writable where `piperead` wants to store. -/
def Event.CopiesOut : Event → Prop
  | .piperead _ _ dst _ => ∀ i, dst i
  | _ => True

namespace Streams

theorem giveUp (h : Streams s) {l : Loop} (hf : s.frame p = .test l) :
    Streams (s.ret p l.lock l.id (-1)) := by
  have hout : (∀ c, (Frame.test l).call ≠ some c) → Streams (s.goto p .idle) := by
    intro hno
    refine h.goto ?_
    rw [hf]
    exact (Option.eq_none_iff_forall_ne_some.mpr hno).symm
  cases l with
  | pipewrite c i =>
    exact (h.finish (c := .write c i) (v := -1) (by rw [hf]; rfl) (by simp)).of_eq rfl rfl rfl
  | piperead c =>
    exact (h.finish (c := .read c 0) (v := -1) (by rw [hf]; rfl) (by simp)).of_eq rfl rfl rfl
  | consoleread c n | sysSleep id n t => exact (hout (by simp [Frame.call])).of_eq rfl rfl rfl

theorem put (h : Streams s) {c : WriteCall} {i : ℕ} {ch : UInt8}
    (hf : s.frame p = .writeBody c i) (hroom : ¬(s.pipe c.pipe).Full) (hch : c.src i = some ch) :
    Streams ((s.setPipe c.pipe ((s.pipe c.pipe).put c.id ch)).goto p
      (.test (.pipewrite c (i + 1)))) := by
  have hcall : (s.frame p).call = some (.write c i) := by rw [hf]; rfl
  obtain ⟨hlt, hmoved, hrets⟩ := h.call p _ hcall
  obtain ⟨hmem, hlen, hgot⟩ : Call.Moved (s.pipe c.pipe) (.write c i) := hmoved
  refine h.change le_rfl ((h.logged _).put hroom hmem (by rwa [hlen]) (hrets _))
    (fun q d hqp hd hk => ?_) (fun d hd => ?_) fun x hx => .inl hx
  · have hne : c.id ≠ d.id := fun heq => hqp (h.distinct q p d _ hd hcall heq.symm)
    refine (hk ▸ (h.call q d hd).2.1).of_eq rfl ?_ rfl
    exact (bytesOf_concat ..).trans (if_neg hne)
  · obtain rfl := Option.some_inj.mp hd
    refine ⟨hlt, rfl, ⟨hmem, ?_, hgot⟩, .inr ⟨_, hcall, rfl⟩⟩
    change (bytesOf ((s.pipe c.pipe).sent ++ [(c.id, ch)]) c.id).length = i + 1
    rw [bytesOf_concat, if_pos rfl, List.length_append, hlen]
    rfl

theorem take (h : Streams s) {c : ReadCall} {i : ℕ} (hf : s.frame p = .readCopy c i)
    (hne : ¬(s.pipe c.pipe).Empty) :
    Streams ((s.setPipe c.pipe ((s.pipe c.pipe).take.deliver c.id (s.pipe c.pipe).next)).goto p
      (.readCopy c (i + 1))) := by
  have hcall : (s.frame p).call = some (.read c i) := by rw [hf]; rfl
  obtain ⟨hlt, hmoved, hrets⟩ := h.call p _ hcall
  obtain ⟨hdst, hlen, hsent⟩ : Call.Moved (s.pipe c.pipe) (.read c i) := hmoved
  refine h.change le_rfl ((h.logged _).take hne hlt (hrets _)) (fun q d hqp hd hk => ?_)
    (fun d hd => ?_) fun x hx => .inl hx
  · have hne : c.id ≠ d.id := fun heq => hqp (h.distinct q p d _ hd hcall heq.symm)
    refine (hk ▸ (h.call q d hd).2.1).of_eq rfl rfl ?_
    exact (bytesOf_concat ..).trans (if_neg hne)
  · obtain rfl := Option.some_inj.mp hd
    refine ⟨hlt, rfl, ⟨hdst, ?_, hsent⟩, .inr ⟨_, hcall, rfl⟩⟩
    change (bytesOf ((s.pipe c.pipe).got ++ [(c.id, (s.pipe c.pipe).next)]) c.id).length = i + 1
    rw [bytesOf_concat, if_pos rfl, List.length_append, hlen]
    rfl

theorem effect (h : Streams s) (hi : Inv s) (he : Effect s e s') (hok : e.CopiesOut) :
    Streams s' := by
  have hmove : ∀ {p : Slot} {f g : Frame}, s.frame p = g → f.call = g.call →
      Streams (s.goto p f) := fun hg hf => h.goto (by rw [hg, hf])
  have hidle : ∀ {p : Slot} {f : Frame}, Free s p → f.call = none → Streams (s.goto p f) :=
    fun hp hf => h.goto (by rw [hf, call_of_isIdle hp.2.2])
  have hnil : ∀ {log : List (ℕ × UInt8)}, (∀ x ∈ log, x.1 < s.calls) → bytesOf log s.calls = [] :=
    fun hlog => bytesOf_eq_nil fun x hx => (hlog x hx).ne
  cases he with
  | life | yield | consoleintr | clockintr | consoleWake | clockWake | uartWake | clockDone
  | uartDone => exact h.of_eq rfl rfl rfl
  | schedule hrun => exact (h.goto (call_resume _)).of_eq rfl rfl rfl
  | wake hf => exact (h.goto (call_nextSlot _)).of_eq rfl rfl rfl
  | @pipealloc p k hread hwrite hfree hp =>
    have hidle := call_of_isIdle hp.2.2
    refine (h.change (p := p) (k := k) (f := s.frame p) le_rfl (.init _ _) (fun q c _ hq hc => ?_)
      (by simp [hidle]) nofun).of_eq (Function.update_eq_self p s.frame).symm rfl rfl
    -- a thread in a call would have an end open
    obtain ⟨w, hw⟩ := uses_of_call hq
    have hopen := hi.ends.isOpen _ w (hi.ends.uses q _ w hw)
    rw [hc] at hopen
    cases w
    · exact absurd hopen (by simp [Pipe.isOpen, hread])
    · exact absurd hopen (by simp [Pipe.isOpen, hwrite])
  | @pipewrite p k src n hp hend =>
    refine h.change (Nat.le_succ _) ((h.logged k).start rfl) (fun q d _ hd hk => ?_)
      (fun d hd => ?_)
      fun x hx => .inl hx
    · exact (hk ▸ (h.call q d hd).2.1).start _
    · obtain rfl := Option.some_inj.mp hd
      exact ⟨Nat.lt_succ_self _, rfl, ⟨List.mem_append_right _ (List.mem_singleton_self _),
        congrArg List.length (hnil (h.logged k).sent), hnil (h.logged k).got⟩, .inl le_rfl⟩
  | @piperead p k dst n hp hend =>
    refine (h.change (p := p) (k := k) (f := .acquire (.piperead ⟨s.calls, k, dst, n⟩))
      (Nat.le_succ _) ((h.logged k).mono (Nat.le_succ _)) (fun q d _ hd hk => ?_) (fun d hd => ?_)
      fun x hx => .inl hx).of_eq rfl (Function.update_eq_self k s.pipe).symm rfl
    · exact hk ▸ (h.call q d hd).2.1
    · obtain rfl := Option.some_inj.mp hd
      exact ⟨Nat.lt_succ_self _, rfl, ⟨hok, congrArg List.length (hnil (h.logged k).got),
        hnil (h.logged k).sent⟩, .inl le_rfl⟩
  | pipeclose hp => exact (hidle hp rfl).of_eq rfl rfl rfl
  | consoleread hp | sysSleep hp => exact (hidle hp rfl).bump.of_eq rfl rfl rfl
  | acquire hf hfree => exact (hmove hf (call_locked _ _)).of_eq rfl rfl rfl
  | giveUp hf hk => exact h.giveUp hf
  | @brokenPipe p c i hf hread => exact h.giveUp hf
  | writeGo hf | writeEnd hf | writeFull hf | writeFault hf | readGo hf | readEnd hf
  | fullDone hf => exact hmove hf rfl
  | put hf hroom hch => exact h.put hf hroom hch
  | @doze p l l' hf hk hlock hwrite hread =>
    refine hmove hf ?_
    cases l' with
    | piperead c =>
      obtain ⟨rfl, -⟩ := hread c rfl
      rfl
    | pipewrite c i => exact absurd rfl (hwrite c i)
    | consoleread c n => exact (call_test_eq_none fun k => by rw [← hlock]; exact nofun).symm
    | sysSleep id n t => exact (call_test_eq_none fun k => by rw [← hlock]; exact nofun).symm
  | take hf hne hdst => exact h.take hf hne
  | @takeFault p c i hf hne hdst =>
    have hcall : (s.frame p).call = some (.read c i) := by rw [hf]; rfl
    simpa [hdst] using (h.call p _ hcall).2.1.1 i
  | @consNext p c n m cons hf =>
    exact (hmove hf (f := .test (.consoleread c m)) rfl).of_eq rfl rfl rfl
  | consRet hf => exact (h.goto (p := _) (f := .idle) (by rw [hf]; rfl)).of_eq rfl rfl rfl
  | tickRet hf => exact (h.goto (f := .idle) (by rw [hf]; rfl)).of_eq rfl rfl rfl
  | @sleep p l hf => exact (hmove hf (f := .asleep l) (by cases l <;> rfl)).of_eq rfl rfl rfl
  | @writeDone p c i j hf hj =>
    have hcall : (s.frame p).call = some (.write c i) := by rw [hf]; rfl
    obtain ⟨-, hlen, hgot⟩ : Call.Moved (s.pipe c.pipe) (.write c i) := (h.call p _ hcall).2.1
    refine (h.finish hcall (v := i) fun _ => ?_).of_eq rfl rfl rfl
    change ((bytesOf (s.pipe c.pipe).sent c.id).length +
      (bytesOf (s.pipe c.pipe).got c.id).length : ℕ) = (i : ℤ)
    rw [hlen, hgot]
    rfl
  | @readDone p c i j hf hj =>
    have hcall : (s.frame p).call = some (.read c i) := by rw [hf]; rfl
    obtain ⟨-, hlen, hsent⟩ : Call.Moved (s.pipe c.pipe) (.read c i) := (h.call p _ hcall).2.1
    refine (h.finish hcall (v := i) fun _ => ?_).of_eq rfl rfl rfl
    change ((bytesOf (s.pipe c.pipe).sent c.id).length +
      (bytesOf (s.pipe c.pipe).got c.id).length : ℕ) = (i : ℤ)
    rw [hlen, hsent, List.length_nil, zero_add]
  | @closeAcquire p k w hf hfree =>
    refine (h.change (p := p) (f := .closeWake k w 0) le_rfl ((h.logged k).close w)
      (fun q d _ hd hk => ?_) nofun fun x hx => .inl ?_).of_eq rfl rfl rfl
    · cases w <;> exact (hk ▸ (h.call q d hd).2.1).of_eq rfl rfl rfl
    · cases w <;> exact hx
  | closeDone hf hj => exact (hmove hf (f := .idle) rfl).of_eq rfl rfl rfl

theorem boot (data : ℕ → ℕ → UInt8) (buf : ℕ → UInt8) : Streams (boot data buf) :=
  ⟨fun k => .page _ (data k), nofun, nofun⟩

end Streams

theorem streams_of_run {data : ℕ → ℕ → UInt8} {buf : ℕ → UInt8} {tr : List Event}
    (hrun : Run step (boot data buf) tr s) (hcopy : ∀ e ∈ tr, e.CopiesOut) : Streams s := by
  have h : (∀ e ∈ tr, e.CopiesOut) → Inv s ∧ Streams s := by
    refine hrun.invariant (I := fun tr s => (∀ e ∈ tr, Event.CopiesOut e) → Inv s ∧ Streams s)
      (fun _ => ⟨inv_boot data buf, .boot data buf⟩) fun tr t e u ih he hall => ?_
    obtain ⟨hi, hs⟩ := ih fun e' he' => hall e' (List.mem_append_left _ he')
    have heff := effect_of_step he
    exact ⟨hi.effect heff, hs.effect hi heff
      (hall e (List.mem_append_right _ (List.mem_singleton_self _)))⟩
  exact (h hcopy).2

/-- In every run whose reads can store what they take, every pipe is a bounded
queue of bytes, the bytes of a write are in order, and a call that returns a
positive count has moved that many bytes. -/
theorem pipe_stream {data : ℕ → ℕ → UInt8} {buf : ℕ → UInt8} {tr : List Event}
    (hrun : Run step (boot data buf) tr s) (hcopy : ∀ e ∈ tr, e.CopiesOut) (k : ℕ) :
    (s.pipe k).Stream :=
  ((streams_of_run hrun hcopy).logged k).stream

/-- `init` writes a byte to a pipe and reads it back. -/
def echoByte : List Event :=
  [.life (.schedule Proc.initproc), .pipealloc Proc.initproc 0,
    .pipewrite Proc.initproc 0 (fun _ => some 7) 1] ++ List.replicate 69 (.advance Proc.initproc) ++
    .piperead Proc.initproc 0 (fun _ => true) 1 :: List.replicate 69 (.advance Proc.initproc)

theorem pipe_stream_echoByte :
    ∃ s, Run step (boot (fun _ _ => 0) fun _ => 0) echoByte s ∧ (s.pipe 0).got = [(1, 7)] ∧
      (s.pipe 0).rets = [(0, 1), (1, 1)] ∧ (s.pipe 0).Stream := by
  obtain ⟨s, hrun, hs⟩ := Run.exists_of_any
    (P := fun s => (s.pipe 0).got = [(1, 7)] ∧ (s.pipe 0).rets = [(0, 1), (1, 1)])
    (by decide +kernel : (echoByte.foldlM step (boot (fun _ _ => 0) fun _ => 0)).any _)
  obtain ⟨hgot, hrets⟩ := of_decide_eq_true hs
  refine ⟨s, hrun, hgot, hrets, pipe_stream hrun (fun e he => ?_) 0⟩
  simp only [echoByte, List.mem_append, List.mem_cons, List.mem_replicate, List.not_mem_nil,
    or_false] at he
  rcases he with ((rfl | rfl | rfl) | ⟨-, rfl⟩) | rfl | ⟨-, rfl⟩
  all_goals simp [Event.CopiesOut]

end Xv6.Sleep
