import Xv6.Params

/-!
# Disk and buffer cache

The part of `bio.c` the log relies on.  A buffer may be recycled whenever its
reference count is zero; which one `bget` picks is left open, so every
replacement policy is covered.  Reading one block and releasing it again
inside a single step of the system only leaves its buffer in the cache.
-/

namespace Xv6.Log

open Function (update update_of_ne)

structure Buf where
  data : Block
  refcnt : ℕ

/-- The disk, the cached blocks, and which process holds which buffer's
sleep-lock. -/
structure Dev where
  disk : ℕ → Block
  cache : ℕ → Option Buf
  held : Finset (ℕ × ℕ)

namespace Dev

/-- Some process holds the sleep-lock of the buffer of `b`. -/
def locked (d : Dev) (b : ℕ) : Prop := b ∈ d.held.image Prod.snd

instance (d : Dev) (b : ℕ) : Decidable (d.locked b) :=
  inferInstanceAs (Decidable (b ∈ d.held.image Prod.snd))

def buf (d : Dev) (b : ℕ) : Buf := (d.cache b).getD ⟨d.disk b, 0⟩

/-- Leave `data` with reference count `refcnt` in the buffer of `b`. -/
def setBuf (d : Dev) (b : ℕ) (data : Block) (refcnt : ℕ) : Dev :=
  ⟨d.disk, update d.cache b (some ⟨data, refcnt⟩), d.held⟩

def bread (d : Dev) (p b : ℕ) : Option Dev :=
  if d.locked b then none
  else
    let d' := d.setBuf b (d.buf b).data ((d.buf b).refcnt + 1)
    some ⟨d'.disk, d'.cache, insert (p, b) d.held⟩

def brelse (d : Dev) (p b : ℕ) : Option Dev :=
  if (p, b) ∈ d.held then
    let d' := d.setBuf b (d.buf b).data ((d.buf b).refcnt - 1)
    some ⟨d'.disk, d'.cache, d.held.erase (p, b)⟩
  else none

def modify (d : Dev) (b : ℕ) (x : Block) : Dev := d.setBuf b x (d.buf b).refcnt

def bpin (d : Dev) (b : ℕ) : Dev := d.setBuf b (d.buf b).data ((d.buf b).refcnt + 1)

def bunpin (d : Dev) (b : ℕ) : Dev := d.setBuf b (d.buf b).data ((d.buf b).refcnt - 1)

def touch (d : Dev) (b : ℕ) : Dev := d.setBuf b (d.buf b).data (d.buf b).refcnt

/-- Replace the data of a buffer and `bwrite` it. -/
def bwrite (d : Dev) (b : ℕ) (x : Block) : Dev :=
  let d' := d.modify b x
  ⟨update d.disk b x, d'.cache, d'.held⟩

/-- `bget` recycles the buffer of `b` for another block. -/
def evict (d : Dev) (b : ℕ) : Option Dev :=
  if ((d.cache b).map Buf.refcnt) = some 0 then
    some { d with cache := update d.cache b none }
  else none

def reset (d : Dev) : Dev := { disk := d.disk, cache := fun _ => none, held := ∅ }

/-! ## Coherence -/

/-- The cache shows `view`: buffers hold it, the blocks in `pins` stay cached
on account of the log, and the disk agrees with it everywhere else. -/
structure Coherent (d : Dev) (view : ℕ → Block) (pins : ℕ → Prop) [DecidablePred pins] : Prop where
  data : ∀ b x, d.cache b = some x → x.data = view b
  refs : ∀ b x, d.cache b = some x →
    x.refcnt = (if pins b then 1 else 0) + (if d.locked b then 1 else 0)
  cached : ∀ b, pins b ∨ d.locked b → (d.cache b).isSome
  clean : ∀ b, ¬ pins b → d.disk b = view b

variable {d d' : Dev} {view : ℕ → Block} {pins : ℕ → Prop} [DecidablePred pins] {p b : ℕ}

theorem Coherent.not_pinned_of_miss (h : Coherent d view pins) (hb : d.cache b = none) :
    ¬ pins b ∧ ¬ d.locked b := by
  constructor <;> intro hp
  · simpa [hb] using h.cached b (Or.inl hp)
  · simpa [hb] using h.cached b (Or.inr hp)

theorem Coherent.buf_data (h : Coherent d view pins) (b : ℕ) : (d.buf b).data = view b := by
  unfold buf
  cases hb : d.cache b with
  | none => exact h.clean b (h.not_pinned_of_miss hb).1
  | some x => exact h.data b x hb

theorem Coherent.buf_refcnt (h : Coherent d view pins) (b : ℕ) :
    (d.buf b).refcnt = (if pins b then 1 else 0) + (if d.locked b then 1 else 0) := by
  unfold buf
  cases hb : d.cache b with
  | none => simp [h.not_pinned_of_miss hb]
  | some x => exact h.refs b x hb

theorem Coherent.of_update {x : Buf} {view' : ℕ → Block} {pins' : ℕ → Prop} [DecidablePred pins']
    (h : Coherent d view pins) (hcache : d'.cache = update d.cache b (some x))
    (hview : ∀ c ≠ b, view' c = view c) (hpins : ∀ c ≠ b, pins' c ↔ pins c)
    (hdisk : ∀ c ≠ b, d'.disk c = d.disk c) (hheld : ∀ c ≠ b, d'.locked c ↔ d.locked c)
    (hdata : x.data = view' b)
    (hrefs : x.refcnt = (if pins' b then 1 else 0) + (if d'.locked b then 1 else 0))
    (hclean : ¬ pins' b → d'.disk b = view' b) : Coherent d' view' pins' where
  data := by
    intro c y hc
    rw [hcache] at hc
    by_cases hcb : c = b
    · subst hcb
      obtain rfl : x = y := by simpa using hc
      exact hdata
    · rw [hview c hcb]
      exact h.data c y (by simpa [update_of_ne hcb] using hc)
  refs := by
    intro c y hc
    rw [hcache] at hc
    by_cases hcb : c = b
    · subst hcb
      obtain rfl : x = y := by simpa using hc
      exact hrefs
    · have hold := h.refs c y (by simpa [update_of_ne hcb] using hc)
      rw [hold]
      simp only [hpins c hcb, hheld c hcb]
  cached := by
    intro c hc
    rw [hcache]
    by_cases hcb : c = b
    · subst hcb
      simp
    · simp only [update_of_ne hcb]
      apply h.cached c
      rcases hc with hc | hc
      · exact Or.inl ((hpins c hcb).mp hc)
      · exact Or.inr ((hheld c hcb).mp hc)
  clean := by
    intro c hc
    by_cases hcb : c = b
    · subst hcb
      exact hclean hc
    · rw [hview c hcb]
      exact (hdisk c hcb).trans (h.clean c (fun hp => hc ((hpins c hcb).mpr hp)))

theorem Coherent.touch (h : Coherent d view pins) (b : ℕ) : Coherent (d.touch b) view pins :=
  h.of_update rfl (fun _ _ => rfl) (fun _ _ => Iff.rfl) (fun _ _ => rfl) (fun _ _ => Iff.rfl)
    (h.buf_data b) (h.buf_refcnt b) (h.clean b)

theorem Coherent.evict (h : Coherent d view pins) (hd : d.evict b = some d') :
    Coherent d' view pins := by
  unfold Dev.evict at hd
  split_ifs at hd with hzero
  obtain rfl := Option.some.inj hd
  obtain ⟨x, hx, hx0⟩ := Option.map_eq_some_iff.mp hzero
  have hfree : ¬ pins b ∧ ¬ d.locked b := by
    have hrefs := h.refs b x hx
    rw [hx0] at hrefs
    constructor <;> intro hp <;> rw [if_pos hp] at hrefs <;> omega
  refine ⟨?_, ?_, ?_, h.clean⟩
  · intro c y hc
    by_cases hcb : c = b
    · simp [hcb] at hc
    · exact h.data c y (by simpa [update_of_ne hcb] using hc)
  · intro c y hc
    by_cases hcb : c = b
    · simp [hcb] at hc
    · exact h.refs c y (by simpa [update_of_ne hcb] using hc)
  · intro c hc
    have hcb : c ≠ b := by
      rintro rfl
      rcases hc with hc | hc
      · exact hfree.1 hc
      · exact hfree.2 hc
    simpa [update_of_ne hcb] using h.cached c hc

theorem Coherent.bread (h : Coherent d view pins) (hd : d.bread p b = some d') :
    Coherent d' view pins := by
  unfold Dev.bread at hd
  split_ifs at hd with hlocked
  obtain rfl := Option.some.inj hd
  refine h.of_update rfl (fun _ _ => rfl) (fun _ _ => Iff.rfl) (fun _ _ => rfl)
    (fun c hc => ?_) (h.buf_data b) ?_ (h.clean b)
  · simp only [locked, Finset.image_insert, Finset.mem_insert]
    exact or_iff_right hc
  · have hlocked' : b ∈ (insert (p, b) d.held).image Prod.snd := by simp
    change (d.buf b).refcnt + 1 = _ + ite (b ∈ (insert (p, b) d.held).image Prod.snd) 1 0
    rw [if_pos hlocked', h.buf_refcnt b, if_neg hlocked]

theorem Coherent.brelse (h : Coherent d view pins)
    (huniq : ∀ q, (q, b) ∈ d.held → q = p) (hd : d.brelse p b = some d') :
    Coherent d' view pins := by
  unfold Dev.brelse at hd
  split_ifs at hd with hheld
  obtain rfl := Option.some.inj hd
  have hlocked : d.locked b := Finset.mem_image.mpr ⟨(p, b), hheld, rfl⟩
  refine h.of_update rfl (fun _ _ => rfl) (fun _ _ => Iff.rfl) (fun _ _ => rfl)
    (fun c hc => ?_) (h.buf_data b) ?_ (h.clean b)
  · simp only [locked, Finset.mem_image, Finset.mem_erase]
    constructor
    · rintro ⟨x, ⟨-, hx⟩, rfl⟩
      exact ⟨x, hx, rfl⟩
    · rintro ⟨x, hx, rfl⟩
      exact ⟨x, ⟨fun hxb => hc (by rw [hxb]), hx⟩, rfl⟩
  · have hfree : b ∉ (d.held.erase (p, b)).image Prod.snd := by
      intro hmem
      obtain ⟨⟨q, c⟩, hq, rfl⟩ := Finset.mem_image.mp hmem
      obtain ⟨hne, hq⟩ := Finset.mem_erase.mp hq
      exact hne (by rw [huniq q hq])
    change (d.buf b).refcnt - 1 = _ + ite (b ∈ (d.held.erase (p, b)).image Prod.snd) 1 0
    rw [if_neg hfree, h.buf_refcnt b, if_pos hlocked, Nat.add_sub_cancel, Nat.add_zero]

theorem Coherent.bwrite (h : Coherent d view pins) (b : ℕ) (x : Block) :
    Coherent (d.bwrite b x) (update view b x) pins := by
  refine h.of_update rfl (fun c hc => update_of_ne hc _ _) (fun _ _ => Iff.rfl)
    (fun c hc => update_of_ne hc _ _) (fun _ _ => Iff.rfl) ?_ (h.buf_refcnt b) ?_
  · simp
  · intro _
    simp [Dev.bwrite]

theorem Coherent.bunpin (pins' : ℕ → Prop) [DecidablePred pins'] (h : Coherent d view pins)
    (hb : pins b) (hdisk : d.disk b = view b) (hpins : ∀ c, pins' c ↔ pins c ∧ c ≠ b) :
    Coherent (d.bunpin b) view pins' := by
  have hb' : ¬ pins' b := fun hp => ((hpins b).mp hp).2 rfl
  refine h.of_update rfl (fun _ _ => rfl) (fun c hc => ?_) (fun _ _ => rfl) (fun _ _ => Iff.rfl)
    (h.buf_data b) ?_ (fun _ => hdisk)
  · simp [hpins, hc]
  · simp only [h.buf_refcnt b, if_pos hb, if_neg hb', Nat.add_sub_cancel_left, Nat.zero_add]
    rfl

/-- Modifying a buffer that is, or by this call becomes, pinned. -/
theorem Coherent.modify_pin (pins' : ℕ → Prop) [DecidablePred pins'] (h : Coherent d view pins)
    (x : Block) (hpins : ∀ c, pins' c ↔ pins c ∨ c = b) :
    Coherent (if pins b then d.modify b x else (d.modify b x).bpin b)
      (update view b x) pins' := by
  have hb' : pins' b := (hpins b).mpr (Or.inr rfl)
  have hbuf : (d.modify b x).buf b = ⟨x, (d.buf b).refcnt⟩ := by
    simp [Dev.modify, Dev.buf, setBuf]
  split_ifs with hb
  · refine h.of_update rfl (fun c hc => update_of_ne hc _ _) (fun c hc => ?_)
      (fun _ _ => rfl) (fun _ _ => Iff.rfl) (by simp) ?_ (fun hn => absurd hb' hn)
    · simp [hpins, hc]
    · simp only [h.buf_refcnt b, if_pos hb, if_pos hb']
      rfl
  · have hcache : ((d.modify b x).bpin b).cache =
        update d.cache b (some ⟨x, (d.buf b).refcnt + 1⟩) := by
      simp only [Dev.bpin, hbuf]
      simp [setBuf, Dev.modify]
    refine h.of_update hcache (fun c hc => update_of_ne hc _ _) (fun c hc => ?_)
      (fun _ _ => rfl) (fun _ _ => Iff.rfl) (by simp) ?_ (fun hn => absurd hb' hn)
    · simp [hpins, hc]
    · simp only [h.buf_refcnt b, if_neg hb, if_pos hb', Nat.zero_add, Nat.add_comm]
      rfl

theorem coherent_reset (d : Dev) : Coherent d.reset d.disk (fun _ => False) where
  data := by simp [reset]
  refs := by simp [reset]
  cached := by simp [reset, locked]
  clean := fun _ _ => rfl

end Dev

end Xv6.Log
