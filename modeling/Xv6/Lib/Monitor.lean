import Xv6.Lib.Run

/-!
# Objects behind a spin lock that processes sleep on

An object is used under one spin lock only.  A process that cannot go on calls `sleep`,
which gives up the lock and takes it again after a `wakeup`; interrupt handlers may use
the object as well, but do not sleep.  `sleep` and `wakeup` are cut at the sections of
`p->lock`.  The rule: if each program calls `sleep` only while the object is blocked, and
does not give up the lock after unblocking it without a `wakeup`, then a process that is
asleep while the lock is free has a reason to be.
-/

namespace Xv6.Lib.Monitor

open Function (update update_self update_of_ne)

/-- Who takes steps: the process in one of the `n` slots, or a handler on some CPU. -/
inductive Agent (n : ℕ) (H : Type)
  | proc (p : Fin n)
  | handler (h : H)
deriving DecidableEq

/-- What a program does at a label; `ε` is what a step sees of the outside. -/
inductive Act (σ ε L : Type)
  /-- Not in one of the functions that use the object. -/
  | outside
  | acquire (l : L)
  | step (f : ε → σ → σ × L)
  | sleep (l : L)
  | wakeup (l : L)
  | release (l : L)

/-- `calls l m`: code outside at `l` may call the function that starts at `m`.  A handler
starts at `entry`, with the lock. -/
structure Program (σ ε L H : Type) (n : ℕ) where
  act : Agent n H → L → Act σ ε L
  calls : L → L → Bool
  entry : H → L

/-- Where an agent is; the label is the next one of the program. -/
inductive Phase (L : Type)
  | run (l : L)
  /-- In `sleep`, with both locks. -/
  | falling (l : L)
  /-- In `sleep`, with `p->lock` only. -/
  | dropped (l : L)
  | asleep (l : L)
  /-- `RUNNABLE`, in `sched`. -/
  | woken (l : L)
  /-- In `sleep`, before it takes the lock again. -/
  | back (l : L)
  /-- In `wakeup` at slot `j`. -/
  | scan (j : ℕ) (l : L)
deriving DecidableEq

/-- `lk` is the holder of the lock, `me h` the process that handler `h` interrupts. -/
structure State (σ L H : Type) (n : ℕ) where
  obj : σ
  lk : Option (Agent n H)
  phase : Agent n H → Phase L
  me : H → Option (Fin n)

inductive Event (ε L H : Type) (n : ℕ)
  | call (p : Fin n) (l : L)
  | interrupt (h : H) (me : Option (Fin n))
  | advance (a : Agent n H) (x : ε)
  /-- `kill` makes a sleeping process `RUNNABLE`. -/
  | kill (p : Fin n)

variable {σ ε L H : Type} {n : ℕ} [DecidableEq H]

namespace State

def move (s : State σ L H n) (a : Agent n H) (ph : Phase L) (lk : Option (Agent n H)) (o : σ) :
    State σ L H n :=
  { s with phase := update s.phase a ph, lk := lk, obj := o }

def goto (s : State σ L H n) (a : Agent n H) (ph : Phase L) : State σ L H n :=
  s.move a ph s.lk s.obj

def take (s : State σ L H n) (a : Agent n H) (l : L) : Option (State σ L H n) :=
  if s.lk = none then some (s.move a (.run l) (some a) s.obj) else none

/-- The value of `myproc()` in the code of the agent. -/
def myproc (s : State σ L H n) : Agent n H → Option (Fin n)
  | .proc p => some p
  | .handler h => s.me h

/-- The CPU of the process runs a handler. -/
def interrupted (s : State σ L H n) (p : Fin n) : Bool :=
  match s.lk with
  | some (.handler h) => s.me h = some p
  | _ => false

/-- The section of `wakeup` for slot `p`. -/
def wakeupAt (s : State σ L H n) (a : Agent n H) (p : Fin n) : Option (State σ L H n) :=
  if s.myproc a = some p then some s
  else
    match s.phase (.proc p) with
    -- `p->lock` is held
    | .falling _ | .dropped _ => none
    | .asleep l => some (s.goto (.proc p) (.woken l))
    | _ => some s

end State

/-- Interrupts are on, and the process runs. -/
def Program.interruptible (P : Program σ ε L H n) (p : Fin n) : Phase L → Bool
  | .run l =>
    match P.act (.proc p) l with
    | .outside | .acquire _ => true
    | _ => false
  | .back _ => true
  | _ => false

/-- The next step of an agent. -/
def Program.next (P : Program σ ε L H n) (s : State σ L H n) (a : Agent n H) (x : ε) :
    Option (State σ L H n) :=
  match s.phase a with
  | .run l =>
    match P.act a l with
    | .outside => none
    | .acquire m =>
      match a with
      | .proc _ => s.take a m
      | .handler _ => none
    | .step f => some (s.move a (.run (f x s.obj).2) s.lk (f x s.obj).1)
    | .sleep m =>
      match a with
      | .proc _ => some (s.goto a (.falling m))
      | .handler _ => none
    | .wakeup m => some (s.goto a (.scan 0 m))
    | .release m => some (s.move a (.run m) none s.obj)
  | .falling m => some (s.move a (.dropped m) none s.obj)
  | .dropped m => some (s.goto a (.asleep m))
  | .asleep _ => none
  | .woken m => some (s.goto a (.back m))
  | .back m => s.take a m
  | .scan j m =>
    if h : j < n then (s.wakeupAt a ⟨j, h⟩).map fun t => t.goto a (.scan (j + 1) m)
    else some (s.goto a (.run m))

def Program.step (P : Program σ ε L H n) (s : State σ L H n) :
    Event ε L H n → Option (State σ L H n)
  | .call p m =>
    match s.phase (.proc p) with
    | .run l =>
      match P.act (.proc p) l with
      | .outside =>
        if P.calls l m ∧ s.interrupted p = false then some (s.goto (.proc p) (.run m)) else none
      | _ => none
    | _ => none
  | .interrupt h me =>
    if s.lk = none ∧ ∀ p ∈ me, P.interruptible p (s.phase (.proc p)) then
      some
        { obj := s.obj
          lk := some (.handler h)
          phase := update s.phase (.handler h) (.run (P.entry h))
          me := update s.me h me }
    else none
  | .advance a x =>
    match a with
    | .proc p => if s.interrupted p then none else P.next s a x
    | .handler _ => P.next s a x
  | .kill p =>
    match s.phase (.proc p) with
    | .asleep l => some (s.goto (.proc p) (.woken l))
    | _ => some s

/-! ## Proof outlines -/

/-- `Own` is what an agent knows at a label whatever the others do, `Here` what it knows
while it holds the lock, `Good` what holds of the object while the lock is free.  At an
`owes` label the object may be unblocked with processes still asleep. -/
structure Outline (P : Program σ ε L H n) (Blocked : σ → Prop) where
  Inner : L → Prop
  Own : Agent n H → L → σ → Prop
  Here : Agent n H → L → σ → Prop
  Good : σ → Prop
  Owes : L → Prop
  outside : ∀ a l, P.act a l = .outside → ¬ Inner l ∧
    ∀ m, P.calls l m → ¬ Inner m ∧ ∀ o, Own a l o → Own a m o
  acquire : ∀ a l m, P.act a l = .acquire m → ¬ Inner l ∧ Inner m ∧
    ∀ o, Own a l o → Good o → Own a m o ∧ Here a m o
  step : ∀ a l f, P.act a l = .step f → Inner l ∧ ∀ x o, Own a l o → Here a l o →
    Inner (f x o).2 ∧ Own a (f x o).2 (f x o).1 ∧ Here a (f x o).2 (f x o).1 ∧
    (∀ b m, b ≠ a → Own b m o → Own b m (f x o).1) ∧
    (Owes l ∨ Blocked o ∧ ¬ Blocked (f x o).1 → Owes (f x o).2)
  sleep : ∀ a l m, P.act a l = .sleep m → Inner l ∧ Inner m ∧ ¬ Owes l ∧
    (∀ o, Here a l o → Blocked o ∧ Good o) ∧ (∀ o, Own a l o → Own a m o) ∧
    ∀ o, Own a m o → Good o → Here a m o
  wakeup : ∀ a l m, P.act a l = .wakeup m → Inner l ∧ Inner m ∧
    ∀ o, Own a l o → Here a l o → Own a m o ∧ Here a m o
  release : ∀ a l m, P.act a l = .release m → Inner l ∧ ¬ Inner m ∧ ¬ Owes l ∧
    ∀ o, Own a l o → Here a l o → Good o ∧ Own a m o
  entry : ∀ h, Inner (P.entry h) ∧
    ∀ o, Good o → Own (.handler h) (P.entry h) o ∧ Here (.handler h) (P.entry h) o

namespace Phase

/-- The label at which the program goes on. -/
def label : Phase L → L
  | run l | falling l | dropped l | asleep l | woken l | back l | scan _ l => l

/-- The process has decided to sleep, or sleeps. -/
def Waits : Phase L → Prop
  | dropped _ | asleep _ => True
  | run _ | falling _ | woken _ | back _ | scan _ _ => False

end Phase

namespace Outline

variable {P : Program σ ε L H n} {Blocked : σ → Prop}

section

variable (O : Outline P Blocked)

def Holds : Phase L → Prop
  | .run l => O.Inner l
  | .falling _ | .scan _ _ => True
  | .dropped _ | .asleep _ | .woken _ | .back _ => False

/-- What the holder of the lock knows. -/
def Knows (a : Agent n H) (o : σ) : Phase L → Prop
  | .run l | .scan _ l => O.Here a l o
  | .falling _ => Blocked o ∧ O.Good o
  | .dropped _ | .asleep _ | .woken _ | .back _ => True

/-- The holder of the lock is going to wake the process in slot `p`. -/
def Wakes (p : Fin n) : Phase L → Prop
  | .run l => O.Owes l
  | .scan j _ => j ≤ p
  | .falling _ | .dropped _ | .asleep _ | .woken _ | .back _ => False

/-- A call of `sleep` or `wakeup` can go on when it is through. -/
def Returns (a : Agent n H) : Phase L → Prop
  | .falling l | .dropped l | .asleep l | .woken l | .back l =>
    (∃ p, a = .proc p) ∧ O.Inner l ∧ ∀ o, O.Own a l o → O.Good o → O.Here a l o
  | .scan _ l => O.Inner l
  | .run _ => True

structure Inv (s : State σ L H n) : Prop where
  lock : ∀ a, s.lk = some a ↔ O.Holds (s.phase a)
  own : ∀ a, O.Own a (s.phase a).label s.obj
  returns : ∀ a, O.Returns a (s.phase a)
  good : s.lk = none → O.Good s.obj
  knows : ∀ a, s.lk = some a → O.Knows a s.obj (s.phase a)
  wakes : ∀ p, (s.phase (.proc p)).Waits →
    Blocked s.obj ∨ ∃ a, s.lk = some a ∧ O.Wakes p (s.phase a)
  /-- A process does not go on while its CPU runs a handler. -/
  me : ∀ h p, s.lk = some (.handler h) → s.me h = some p →
    P.interruptible p (s.phase (.proc p)) = true

end

variable {O : Outline P Blocked} {s t : State σ L H n} {a : Agent n H} {ph : Phase L}

namespace Inv

variable (h : O.Inv s)
include h

/-- A step of an agent that does not have the lock, neither before nor after. -/
theorem aside (hout : ¬ O.Holds (s.phase a)) (hout' : ¬ O.Holds ph)
    (hown : O.Own a ph.label s.obj) (hret : O.Returns a ph)
    (hwaits : ph.Waits → (s.phase a).Waits) (hme : ∀ p, a = .proc p → s.interrupted p = false) :
    O.Inv (s.goto a ph) := by
  have hfree : s.lk ≠ some a := fun hlk => hout ((h.lock a).mp hlk)
  have hself : (s.goto a ph).phase a = ph := update_self ..
  have hother (b : Agent n H) (hb : b ≠ a) : (s.goto a ph).phase b = s.phase b :=
    update_of_ne hb _ _
  refine ⟨fun b => ?_, fun b => ?_, fun b => ?_, h.good, fun b hb => ?_, fun p hp => ?_,
    fun k p hk hp => ?_⟩
  · by_cases hb : b = a
    · subst hb
      rw [hself]
      exact iff_of_false hfree hout'
    · rw [hother b hb]
      exact h.lock b
  · by_cases hb : b = a
    · subst hb
      rw [hself]
      exact hown
    · rw [hother b hb]
      exact h.own b
  · by_cases hb : b = a
    · subst hb
      rw [hself]
      exact hret
    · rw [hother b hb]
      exact h.returns b
  · have hne : b ≠ a := fun heq => hfree (heq ▸ hb)
    rw [hother b hne]
    exact h.knows b hb
  · have hp' : (s.phase (.proc p)).Waits := by
      by_cases hb : .proc p = a
      · rw [hb, hself] at hp
        exact hb ▸ hwaits hp
      · rwa [hother _ hb] at hp
    rcases h.wakes p hp' with hblocked | ⟨b, hb, hwakes⟩
    · exact .inl hblocked
    · have hne : b ≠ a := fun heq => hfree (heq ▸ hb)
      exact .inr ⟨b, hb, by rwa [hother b hne]⟩
  · have hne : Agent.proc p ≠ a := by
      rintro rfl
      have hint := hme p rfl
      have hlk : s.lk = some (.handler k) := hk
      have hmek : s.me k = some p := hp
      simp [State.interrupted, hlk, hmek] at hint
    rw [hother _ hne]
    exact h.me k p hk hp

theorem inside {lk : Option (Agent n H)} {o : σ} (hlk : s.lk = none ∨ s.lk = some a)
    (hlk' : lk = none ∨ lk = some a) (hholds : lk = some a ↔ O.Holds ph)
    (hown : O.Own a ph.label o) (hkeep : ∀ b m, b ≠ a → O.Own b m s.obj → O.Own b m o)
    (hret : O.Returns a ph) (hgood : lk = none → O.Good o) (hknows : lk = some a → O.Knows a o ph)
    (hwaits : ph.Waits → Blocked o)
    (hwakes : ∀ p, (s.phase (.proc p)).Waits →
      Blocked s.obj ∨ s.lk = some a ∧ O.Wakes p (s.phase a) →
      Blocked o ∨ lk = some a ∧ O.Wakes p ph)
    (hme : ∀ k p, a = .handler k → s.me k = some p →
      P.interruptible p (s.phase (.proc p)) = true) : O.Inv (s.move a ph lk o) := by
  have hself : (s.move a ph lk o).phase a = ph := update_self ..
  have hother (b : Agent n H) (hb : b ≠ a) : (s.move a ph lk o).phase b = s.phase b :=
    update_of_ne hb _ _
  have hothers (b : Agent n H) (hb : b ≠ a) {l : Option (Agent n H)} (hl : l = none ∨ l = some a) :
      l ≠ some b := by
    rintro rfl
    rcases hl with hl | hl
    · cases hl
    · exact hb (Option.some.inj hl)
  refine ⟨fun b => ?_, fun b => ?_, fun b => ?_, hgood, fun b hb => ?_, fun p hp => ?_,
    fun k p hk hp => ?_⟩
  · by_cases hb : b = a
    · subst hb
      rw [hself]
      exact hholds
    · rw [hother b hb, ← h.lock b]
      exact iff_of_false (hothers b hb hlk') (hothers b hb hlk)
  · by_cases hb : b = a
    · subst hb
      rw [hself]
      exact hown
    · rw [hother b hb]
      exact hkeep b _ hb (h.own b)
  · by_cases hb : b = a
    · subst hb
      rw [hself]
      exact hret
    · rw [hother b hb]
      exact h.returns b
  · have hba : b = a := by
      by_contra hb'
      exact hothers b hb' hlk' hb
    subst hba
    rw [hself]
    exact hknows hb
  · by_cases hb : .proc p = a
    · rw [hb, hself] at hp
      exact .inl (hwaits hp)
    · rw [hother _ hb] at hp
      have hold : Blocked s.obj ∨ s.lk = some a ∧ O.Wakes p (s.phase a) := by
        rcases h.wakes p hp with hblocked | ⟨b, hb, hw⟩
        · exact .inl hblocked
        · have hba : b = a := by
            by_contra hb'
            exact hothers b hb' hlk hb
          exact .inr ⟨hba ▸ hb, hba ▸ hw⟩
      rcases hwakes p hp hold with hblocked | ⟨hl, hw⟩
      · exact .inl hblocked
      · exact .inr ⟨a, hl, by rwa [hself]⟩
  · have hka : a = .handler k := by
      by_contra hne
      exact hothers _ (Ne.symm hne) hlk' hk
    rw [hother _ (by simp [hka])]
    exact hme k p hka hp

omit [DecidableEq H] in
theorem me_of_lock (hlk : s.lk = some a) (k : H) (p : Fin n) (ha : a = .handler k)
    (hp : s.me k = some p) : P.interruptible p (s.phase (.proc p)) = true :=
  h.me k p (hlk.trans (congrArg some ha)) hp

theorem take {p : Fin n} {m : L} (hfree : s.lk = none) (hm : O.Inner m)
    (hown : O.Own (.proc p) m s.obj) (hhere : O.Here (.proc p) m s.obj) :
    O.Inv (s.move (.proc p) (.run m) (some (.proc p)) s.obj) := by
  refine h.inside (.inl hfree) (.inr rfl) (iff_of_true rfl hm) hown (fun _ _ _ hb => hb) trivial
    (fun hl => by cases hl) (fun _ => hhere) False.elim (fun q _ hq => ?_)
    (fun k _ hk => by cases hk)
  rcases hq with hblocked | ⟨hl, -⟩
  · exact .inl hblocked
  · rw [hfree] at hl
    cases hl

theorem within (hlk : s.lk = some a) (hholds : O.Holds ph) (hown : O.Own a ph.label s.obj)
    (hret : O.Returns a ph) (hknows : O.Knows a s.obj ph) (hwaits : ¬ ph.Waits)
    (hwakes : ∀ p, (s.phase (.proc p)).Waits → Blocked s.obj ∨ O.Wakes p (s.phase a) →
      Blocked s.obj ∨ O.Wakes p ph) : O.Inv (s.goto a ph) := by
  refine h.inside (.inr hlk) (.inr hlk) (iff_of_true hlk hholds) hown
    (fun _ _ _ hb => hb) hret h.good
    (fun _ => hknows) (fun hw => (hwaits hw).elim) (fun p hp hq => ?_) (h.me_of_lock hlk)
  rcases hwakes p hp (hq.imp id And.right) with hblocked | hw
  · exact .inl hblocked
  · exact .inr ⟨hlk, hw⟩

theorem wake {p : Fin n} {l : L} (hp : s.phase (.proc p) = .asleep l) :
    O.Inv (s.goto (.proc p) (.woken l)) := by
  have hown := h.own (.proc p)
  have hret := h.returns (.proc p)
  rw [hp] at hown hret
  refine h.aside (by rw [hp]; exact id) id hown hret False.elim ?_
  rintro q hq
  obtain rfl : p = q := by simpa using hq
  by_contra hint
  rw [Bool.not_eq_false] at hint
  unfold State.interrupted at hint
  split at hint
  · rename_i k hk
    have hme := h.me k p hk (of_decide_eq_true hint)
    rw [hp] at hme
    cases hme
  · cases hint

theorem wakeupAt {p : Fin n} (ha : O.Holds (s.phase a)) (hok : s.wakeupAt a p = some t) :
    O.Inv t ∧ t.lk = s.lk ∧ t.obj = s.obj ∧ t.phase a = s.phase a ∧
      ¬ (t.phase (.proc p)).Waits := by
  unfold State.wakeupAt at hok
  by_cases hme : s.myproc a = some p
  · rw [if_pos hme] at hok
    obtain rfl := Option.some.inj hok
    refine ⟨h, rfl, rfl, rfl, fun hw => ?_⟩
    cases a with
    | proc q =>
      obtain rfl : q = p := by simpa [State.myproc] using hme
      cases hph : s.phase (.proc q) <;> simp_all [Phase.Waits, Holds]
    | handler k =>
      have := h.me k p ((h.lock _).mpr ha) hme
      cases hph : s.phase (.proc p) <;> simp_all [Phase.Waits, Program.interruptible]
  · rw [if_neg hme] at hok
    cases hph : s.phase (.proc p) with
    | falling l | dropped l => simp [hph] at hok
    | asleep l =>
      simp only [hph, Option.some.injEq] at hok
      subst hok
      have hne : a ≠ .proc p := by
        rintro rfl
        exact hme rfl
      have hself : (s.goto (.proc p) (.woken l)).phase (.proc p) = .woken l := update_self ..
      exact ⟨h.wake hph, rfl, rfl, update_of_ne hne _ _, by rw [hself]; exact id⟩
    | run l | woken l | back l | scan j l =>
      simp only [hph, Option.some.injEq] at hok
      subst hok
      exact ⟨h, rfl, rfl, rfl, by rw [hph]; exact id⟩

theorem scan {j : ℕ} {m : L} (hph : s.phase a = .scan j m) (hj : j < n)
    (hok : s.wakeupAt a ⟨j, hj⟩ = some t) : O.Inv (t.goto a (.scan (j + 1) m)) := by
  have hholds : O.Holds (s.phase a) := by
    rw [hph]
    trivial
  obtain ⟨ht, hlk, hobj, hpha, hnot⟩ := h.wakeupAt hholds hok
  have hlk' : t.lk = some a := hlk.trans ((h.lock a).mpr hholds)
  have hown := ht.own a
  have hret := ht.returns a
  have hknows := ht.knows a hlk'
  rw [hpha, hph] at hown hret hknows
  refine ht.within hlk' trivial hown hret hknows id fun p hp hq => hq.imp id fun hw => ?_
  rw [hpha, hph] at hw
  -- slot `j` itself does not wait any more
  have hne : p ≠ ⟨j, hj⟩ := by
    rintro rfl
    exact hnot hp
  exact lt_of_le_of_ne hw fun heq => hne (Fin.ext heq.symm)

theorem next {x : ε} (hint : ∀ p, a = .proc p → s.interrupted p = false)
    (hok : P.next s a x = some t) : O.Inv t := by
  have hown := h.own a
  have hret := h.returns a
  have hlock := h.lock a
  have hknows := h.knows a
  unfold Program.next at hok
  cases hph : s.phase a with
  | run l =>
    rw [hph] at hown hlock hknows
    simp only [hph] at hok
    cases hact : P.act a l with
    | outside => simp [hact] at hok
    | acquire m =>
      obtain ⟨-, hm, hgo⟩ := O.acquire a l m hact
      simp only [hact] at hok
      cases a with
      | handler k => cases hok
      | proc p =>
        obtain ⟨hfree, rfl⟩ := Option.ite_some_none_eq_some.mp hok
        obtain ⟨hown', hhere⟩ := hgo _ hown (h.good hfree)
        exact h.take hfree hm hown' hhere
    | step f =>
      obtain ⟨hl, hgo⟩ := O.step a l f hact
      simp only [hact, Option.some.injEq] at hok
      subst hok
      have hlk := hlock.mpr hl
      obtain ⟨hl', hown', hhere', hkeep, howes⟩ := hgo x s.obj hown (hknows hlk)
      refine h.inside (.inr hlk) (.inr hlk) (iff_of_true hlk hl') hown' hkeep trivial
        (fun hn => ?_) (fun _ => hhere') False.elim (fun p _ hq => ?_) (h.me_of_lock hlk)
      · rw [hlk] at hn
        cases hn
      · by_cases hb : Blocked (f x s.obj).1
        · exact .inl hb
        · refine .inr ⟨hlk, howes ?_⟩
          rw [hph] at hq
          rcases hq with hq | ⟨-, hq⟩
          · exact .inr ⟨hq, hb⟩
          · exact .inl hq
    | sleep m =>
      obtain ⟨hl, hm, howes, hblocked, hown', hhere⟩ := O.sleep a l m hact
      simp only [hact] at hok
      cases a with
      | handler k => cases hok
      | proc p =>
        obtain rfl := Option.some.inj hok
        have hlk := hlock.mpr hl
        have hb := hblocked _ (hknows hlk)
        exact h.within hlk trivial (hown' _ hown) ⟨⟨p, rfl⟩, hm, hhere⟩ hb id
          fun _ _ _ => .inl hb.1
    | wakeup m =>
      obtain ⟨hl, hm, hgo⟩ := O.wakeup a l m hact
      simp only [hact, Option.some.injEq] at hok
      subst hok
      have hlk := hlock.mpr hl
      obtain ⟨hown', hhere⟩ := hgo _ hown (hknows hlk)
      exact h.within hlk trivial hown' hm hhere id fun p _ _ => .inr (Nat.zero_le p)
    | release m =>
      obtain ⟨hl, hm, howes, hgo⟩ := O.release a l m hact
      simp only [hact, Option.some.injEq] at hok
      subst hok
      have hlk := hlock.mpr hl
      obtain ⟨hgood, hown'⟩ := hgo _ hown (hknows hlk)
      refine h.inside (.inr hlk) (.inl rfl) (iff_of_false (by simp) hm) hown'
        (fun _ _ _ hb => hb) trivial (fun _ => hgood) (fun hn => by cases hn) False.elim
        (fun p _ hq => ?_) (h.me_of_lock hlk)
      rw [hph] at hq
      rcases hq with hq | ⟨-, hq⟩
      · exact .inl hq
      · exact (howes hq).elim
  | falling m =>
    rw [hph] at hown hret hlock hknows
    simp only [hph, Option.some.injEq] at hok
    subst hok
    have hlk := hlock.mpr trivial
    obtain ⟨hb, hgood⟩ := hknows hlk
    refine h.inside (.inr hlk) (.inl rfl) (iff_of_false (by simp) id) hown (fun _ _ _ hb => hb) hret
      (fun _ => hgood) (fun hn => by cases hn) (fun _ => hb) (fun _ _ _ => .inl hb)
      (h.me_of_lock hlk)
  | dropped m =>
    rw [hph] at hown hret
    simp only [hph, Option.some.injEq] at hok
    subst hok
    exact h.aside (by rw [hph]; exact id) id hown hret (fun _ => by rw [hph]; trivial) hint
  | asleep m => simp [hph] at hok
  | woken m =>
    rw [hph] at hown hret
    simp only [hph, Option.some.injEq] at hok
    subst hok
    exact h.aside (by rw [hph]; exact id) id hown hret False.elim hint
  | back m =>
    rw [hph] at hown hret
    obtain ⟨⟨p, rfl⟩, hm, hhere⟩ := hret
    simp only [hph, State.take, Option.ite_none_right_eq_some, Option.some.injEq] at hok
    obtain ⟨hfree, rfl⟩ := hok
    exact h.take hfree hm hown (hhere _ hown (h.good hfree))
  | scan j m =>
    simp only [hph] at hok
    by_cases hj : j < n
    · rw [dif_pos hj] at hok
      obtain ⟨u, hu, rfl⟩ := Option.map_eq_some_iff.mp hok
      exact h.scan hph hj hu
    · rw [dif_neg hj] at hok
      obtain rfl := Option.some.inj hok
      rw [hph] at hown hret hlock hknows
      have hlk := hlock.mpr trivial
      refine h.within hlk hret hown trivial (hknows hlk) id fun p _ hq => ?_
      rw [hph] at hq
      rcases hq with hq | hq
      · exact .inl hq
      · exact absurd (lt_of_le_of_lt hq p.isLt) hj

theorem step {e : Event ε L H n} (hok : P.step s e = some t) : O.Inv t := by
  cases e with
  | call p m =>
    unfold Program.step at hok
    cases hph : s.phase (.proc p) with
    | run l =>
      simp only [hph] at hok
      cases hact : P.act (.proc p) l with
      | outside =>
        simp only [hact, Option.ite_none_right_eq_some, Option.some.injEq] at hok
        obtain ⟨⟨hcall, hint⟩, rfl⟩ := hok
        obtain ⟨hl, hgo⟩ := O.outside _ l hact
        obtain ⟨hm, hown'⟩ := hgo m hcall
        have hown := h.own (.proc p)
        rw [hph] at hown
        refine h.aside (by rw [hph]; exact hl) hm (hown' _ hown) trivial False.elim ?_
        rintro q hq
        obtain rfl : p = q := by simpa using hq
        exact hint
      | _ => simp [hact] at hok
    | _ => simp [hph] at hok
  | interrupt k me =>
    obtain ⟨⟨hfree, hint⟩, rfl⟩ := Option.ite_some_none_eq_some.mp hok
    obtain ⟨hentry, hgo⟩ := O.entry k
    obtain ⟨hown, hhere⟩ := hgo _ (h.good hfree)
    have hset : O.Inv { s with me := update s.me k me } :=
      { h with
        me := fun j p hj => by
          rw [hfree] at hj
          cases hj }
    refine hset.inside (.inl hfree) (.inr rfl) (iff_of_true rfl hentry) hown (fun _ _ _ hb => hb)
      trivial (fun hn => by cases hn) (fun _ => hhere) False.elim (fun p _ hq => ?_) ?_
    · rcases hq with hq | ⟨hl, -⟩
      · exact .inl hq
      · rw [hfree] at hl
        cases hl
    · rintro j p hj hp
      obtain rfl : k = j := by simpa using hj
      change update s.me k me k = some p at hp
      rw [update_self] at hp
      exact hint p hp
  | advance a x =>
    cases a with
    | proc p =>
      simp only [Program.step] at hok
      by_cases hint : s.interrupted p = true
      · rw [if_pos hint] at hok
        cases hok
      · rw [if_neg hint] at hok
        refine h.next ?_ hok
        rintro q hq
        obtain rfl : p = q := by simpa using hq
        exact Bool.not_eq_true _ ▸ hint
    | handler k => exact h.next (fun p hp => by cases hp) hok
  | kill p =>
    unfold Program.step at hok
    cases hph : s.phase (.proc p) with
    | asleep l =>
      simp only [hph, Option.some.injEq] at hok
      subst hok
      exact h.wake hph
    | _ =>
      simp only [hph, Option.some.injEq] at hok
      exact hok ▸ h

end Inv

theorem inv_of_run {s₀ : State σ L H n} {tr : List (Event ε L H n)} (hinit : O.Inv s₀)
    (hrun : Run P.step s₀ tr s) : O.Inv s :=
  hrun.state_invariant hinit fun _ _ _ h hok => h.step hok

omit [DecidableEq H] in
theorem Inv.not_asleep (h : O.Inv s) (hfree : s.lk = none) (hb : ¬ Blocked s.obj) (p : Fin n)
    (l : L) :
    s.phase (.proc p) ≠ .asleep l := by
  intro hp
  rcases h.wakes p (by rw [hp]; trivial) with hblocked | ⟨a, ha, -⟩
  · exact hb hblocked
  · rw [hfree] at ha
    cases ha

end Outline

end Xv6.Lib.Monitor
