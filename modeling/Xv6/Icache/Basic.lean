import Xv6.Fs.Layout
import Xv6.Lib.Count
import Xv6.Lib.Run

/-!
# The inode table under concurrency

`iget`, `idup`, `ilock`, `iunlock`, `iupdate`, `iput` and `ialloc`, run by any
processes, in steps that end where a lock is released or waited for.  On-disk
inodes are read and written while the buffer of their block is locked, so each
access to one is a single step; what the buffer cache holds of them is the
function `dinode`.

References are numbered, so that the model can say who relies on which: a
process locks an inode through a reference, and nobody gives a reference up by
`iput` while a process relies on it.
-/

namespace Xv6.Icache

abbrev Key := ℕ × ℕ

abbrev FileType := { type : Short // type ≠ 0 }

/-- What `iput` does next to an inode it frees. -/
inductive Stage
  /-- `itrunc` frees the blocks -/
  | trunc
  /-- the `iupdate` of `itrunc` -/
  | flush
  /-- `ip->type = 0` -/
  | untype
  /-- `iupdate(ip)` -/
  | flushFree
  /-- `ip->valid = 0` -/
  | clear
  /-- `releasesleep(&ip->lock)` -/
  | unlock
  deriving DecidableEq

/-- Where process is inside a call; `R` numbers the references. -/
inductive Pc (R : Type)
  | idle
  /-- in `ilock`, about to acquire the sleep-lock -/
  | acquiring (i : Fin NINODE) (r : R)
  /-- in `ilock`, with the sleep-lock -/
  | loading (i : Fin NINODE) (r : R)
  /-- in `iput`, about to acquire `itable.lock` -/
  | putting (i : Fin NINODE)
  /-- in `iput`, with the sleep-lock of an inode without names -/
  | freeing (g : Stage) (i : Fin NINODE)
  /-- in `iput`, about to drop the reference -/
  | dropping (i : Fin NINODE)
  /-- in the loop of `ialloc`, about to look at inode `inum` -/
  | scanning (dev inum : ℕ) (type : FileType)
  /-- in `ialloc`, with an inode that is marked allocated on disk -/
  | claimed (k : Key)
  deriving DecidableEq

/-- `struct inode`.  The lock also records the reference its holder relies on,
which `iput` does not need; `dirty` is set between a change and `iupdate`. -/
structure Entry (P R : Type) where
  key : Key
  ref : ℕ
  valid : Bool
  lock : Option (P × Option R)
  copy : Dinode
  dirty : Bool

structure State (P R : Type) where
  entry : Fin NINODE → Entry P R
  /-- on-disk inodes, as seen through the buffer cache -/
  dinode : Key → Dinode
  /-- the entry a reference leads to -/
  tok : R → Option (Fin NINODE)
  pc : P → Pc R

variable {P R : Type} [DecidableEq P] [DecidableEq R]

def boot (dinode : Key → Dinode) : State P R where
  entry _ := ⟨(0, 0), 0, false, none, .zero, false⟩
  dinode := dinode
  tok _ := none
  pc _ := .idle

def fresh (type : FileType) : Dinode := { Dinode.zero with type := type }

namespace State

variable (s : State P R)

omit [DecidableEq P] [DecidableEq R] in
def setEntry (i : Fin NINODE) (e : Entry P R) : State P R :=
  { s with entry := Function.update s.entry i e }

def setPc (p : P) (c : Pc R) : State P R := { s with pc := Function.update s.pc p c }

def setTok (r : R) (i : Option (Fin NINODE)) : State P R :=
  { s with tok := Function.update s.tok r i }

def setDinode (k : Key) (d : Dinode) : State P R :=
  { s with dinode := Function.update s.dinode k d }

def holdingsleep (p : P) (i : Fin NINODE) : Prop := (s.entry i).lock.map Prod.fst = some p

instance (p : P) (i : Fin NINODE) : Decidable (s.holdingsleep p i) :=
  inferInstanceAs (Decidable (_ = _))

/-- `iget`: the entry of an inode, with one more reference. -/
def iget (k : Key) : Except Panic (State P R × Fin NINODE) :=
  match (List.finRange NINODE).find? fun i => 0 < (s.entry i).ref ∧ (s.entry i).key = k with
  | some i => .ok (s.setEntry i { s.entry i with ref := (s.entry i).ref + 1 }, i)
  | none =>
    match (List.finRange NINODE).find? fun i => (s.entry i).ref = 0 with
    | some i => .ok (s.setEntry i { s.entry i with key := k, ref := 1, valid := false }, i)
    | none => .error "iget: no inodes"

def iupdate (i : Fin NINODE) : State P R :=
  (s.setDinode (s.entry i).key (s.entry i).copy).setEntry i { s.entry i with dirty := false }

/-- `ilock` behind `acquiresleep`: read the inode unless the entry has it. -/
def load (i : Fin NINODE) : Except Panic (State P R) :=
  if (s.entry i).valid then .ok s
  else if (s.dinode (s.entry i).key).type = 0 then .error "ilock: no type"
  else .ok (s.setEntry i { s.entry i with copy := s.dinode (s.entry i).key, valid := true })

/-- One step of the freeing path of `iput`. -/
def free (p : P) (i : Fin NINODE) : Stage → State P R
  | .trunc =>
    (s.setEntry i
      { s.entry i with
        copy := { (s.entry i).copy with size := 0, addrs := fun _ => 0 }
        dirty := true }).setPc p (.freeing .flush i)
  | .flush => (s.iupdate i).setPc p (.freeing .untype i)
  | .untype =>
    (s.setEntry i
      { s.entry i with copy := { (s.entry i).copy with type := 0 }, dirty := true }).setPc p
      (.freeing .flushFree i)
  | .flushFree => (s.iupdate i).setPc p (.freeing .clear i)
  | .clear => (s.setEntry i { s.entry i with valid := false }).setPc p (.freeing .unlock i)
  | .unlock => (s.setEntry i { s.entry i with lock := none }).setPc p (.dropping i)

/-- Some process locks, or is about to lock, an inode through reference `r`. -/
def Relied (r : R) : Prop :=
  (∃ p i, s.pc p = .acquiring i r) ∨ ∃ i p, (s.entry i).lock = some (p, some r)

instance [Fintype P] (r : R) : Decidable (s.Relied r) :=
  inferInstanceAs (Decidable (_ ∨ _))

end State

inductive Event (P R : Type)
  /-- `iget`, as `dirlookup` and `namex` call it; the reference is numbered `r` -/
  | iget (p : P) (k : Key) (r : R)
  | idup (p : P) (r r' : R)
  | ilock (p : P) (r : R)
  | acquiresleep (p : P)
  | load (p : P)
  /-- the holder changes fields of the inode; no caller changes its type -/
  | modify (p : P) (i : Fin NINODE) (major minor nlink : Short) (size : ℕ)
      (addrs : Fin (NDIRECT + 1) → ℕ)
  | iupdate (p : P) (i : Fin NINODE)
  | iunlock (p : P) (i : Fin NINODE)
  | iput (p : P) (r : R)
  /-- the test of `iput`, under `itable.lock` -/
  | test (p : P)
  | free (p : P)
  | drop (p : P)
  | ialloc (p : P) (dev : ℕ) (type : FileType)
  | scan (p : P)
  /-- the `iget` of `ialloc` -/
  | igetNew (p : P) (r : R)

/-- `iget`, storing the reference under the unused number `r`. -/
def State.refer (s : State P R) (k : Key) (r : R) : Option (State P R) :=
  if s.tok r = none then
    match s.iget k with
    | .ok (t, i) => some (t.setTok r (some i))
    | .error _ => none
  else none

/-- One step of a process.  `ninodes` is the number of inodes in the superblock.
An inode is unlocked by its holder, once its changes have been written by
`iupdate`.  A panic stops the machine. -/
def step [Fintype P] (ninodes : ℕ) (s : State P R) : Event P R → Option (State P R)
  | .iget p k r => if s.pc p = .idle then s.refer k r else none
  | .idup p r r' =>
    match s.tok r with
    | some i =>
      if s.pc p = .idle ∧ s.tok r' = none then
        some ((s.setEntry i { s.entry i with ref := (s.entry i).ref + 1 }).setTok r' (some i))
      else none
    | none => none
  | .ilock p r =>
    match s.tok r with
    | some i =>
      -- a reference count of zero is a panic
      if s.pc p = .idle ∧ 0 < (s.entry i).ref then some (s.setPc p (.acquiring i r)) else none
    | none => none
  | .acquiresleep p =>
    match s.pc p with
    | .acquiring i r =>
      if (s.entry i).lock = none then
        some ((s.setEntry i { s.entry i with lock := some (p, some r) }).setPc p (.loading i r))
      else none
    | _ => none
  | .load p =>
    match s.pc p with
    | .loading i _ => (s.load i).toOption.map (·.setPc p .idle)
    | _ => none
  | .modify p i major minor nlink size addrs =>
    if s.pc p = .idle ∧ s.holdingsleep p i then
      some (s.setEntry i
        { s.entry i with
          copy := ⟨(s.entry i).copy.type, major, minor, nlink, size, addrs⟩
          dirty := true })
    else none
  | .iupdate p i =>
    if s.pc p = .idle ∧ s.holdingsleep p i then some (s.iupdate i) else none
  | .iunlock p i =>
    if s.pc p = .idle ∧ s.holdingsleep p i ∧ 0 < (s.entry i).ref ∧ (s.entry i).dirty = false then
      some (s.setEntry i { s.entry i with lock := none })
    else none
  | .iput p r =>
    match s.tok r with
    | some i =>
      if s.pc p = .idle ∧ ¬ s.Relied r then some ((s.setTok r none).setPc p (.putting i))
      else none
    | none => none
  | .test p =>
    match s.pc p with
    | .putting i =>
      if (s.entry i).ref = 1 ∧ (s.entry i).valid ∧ (s.entry i).copy.nlink = 0 then
        if (s.entry i).lock = none then
          some ((s.setEntry i { s.entry i with lock := some (p, none) }).setPc p
            (.freeing .trunc i))
        else none
      else
        some ((s.setEntry i { s.entry i with ref := (s.entry i).ref - 1 }).setPc p .idle)
    | _ => none
  | .free p =>
    match s.pc p with
    | .freeing g i => some (s.free p i g)
    | _ => none
  | .drop p =>
    match s.pc p with
    | .dropping i =>
      some ((s.setEntry i { s.entry i with ref := (s.entry i).ref - 1 }).setPc p .idle)
    | _ => none
  | .ialloc p dev type =>
    if s.pc p = .idle then some (s.setPc p (.scanning dev 1 type)) else none
  | .scan p =>
    match s.pc p with
    | .scanning dev inum type =>
      if inum < ninodes then
        if (s.dinode (dev, inum)).type = 0 then
          some ((s.setDinode (dev, inum) (fresh type)).setPc p (.claimed (dev, inum)))
        else some (s.setPc p (.scanning dev (inum + 1) type))
      else some (s.setPc p .idle)
    | _ => none
  | .igetNew p r =>
    match s.pc p with
    | .claimed k => (s.refer k r).map (·.setPc p .idle)
    | _ => none

/-- What a successful `iget` does. -/
inductive Refers (s : State P R) (k : Key) (r : R) : State P R → Prop
  | hit {i : Fin NINODE} (hr : s.tok r = none) (hi : 0 < (s.entry i).ref)
      (hk : (s.entry i).key = k) : Refers s k r
        ((s.setEntry i { s.entry i with ref := (s.entry i).ref + 1 }).setTok r (some i))
  | miss {i : Fin NINODE} (hr : s.tok r = none)
      (hk : ∀ j, 0 < (s.entry j).ref → (s.entry j).key ≠ k) (hi : (s.entry i).ref = 0) :
      Refers s k r
        ((s.setEntry i { s.entry i with key := k, ref := 1, valid := false }).setTok r (some i))

omit [DecidableEq P] in
theorem refers_of_refer {s t : State P R} {k : Key} {r : R} (h : s.refer k r = some t) :
    Refers s k r t := by
  simp only [State.refer, State.iget] at h
  split_ifs at h with hr
  split at h
  next hget =>
    split at hget
    next i hi =>
      have hik := List.find?_some hi
      simp only [decide_eq_true_eq] at hik
      cases hget
      exact Option.some_inj.mp h ▸ .hit hr hik.1 hik.2
    next hnone =>
      split at hget
      next i hi =>
        have hi0 := List.find?_some hi
        simp only [decide_eq_true_eq] at hi0
        cases hget
        refine Option.some_inj.mp h ▸ .miss hr (fun j hj hjk => ?_) hi0
        have hnj := List.find?_eq_none.mp hnone j (List.mem_finRange j)
        exact hnj (decide_eq_true ⟨hj, hjk⟩)
      next => cases hget
  next => cases h

/-- What each step does, once its test has succeeded. -/
inductive Effect (ninodes : ℕ) (s : State P R) : Event P R → State P R → Prop
  | iget {p : P} {k : Key} {r : R} {t : State P R} (hp : s.pc p = .idle) (ht : Refers s k r t) :
      Effect ninodes s (.iget p k r) t
  | idup {p : P} {r r' : R} {i : Fin NINODE} (hp : s.pc p = .idle) (hr : s.tok r = some i)
      (hr' : s.tok r' = none) :
      Effect ninodes s (.idup p r r')
        ((s.setEntry i { s.entry i with ref := (s.entry i).ref + 1 }).setTok r' (some i))
  | ilock {p : P} {r : R} {i : Fin NINODE} (hp : s.pc p = .idle) (hr : s.tok r = some i) :
      Effect ninodes s (.ilock p r) (s.setPc p (.acquiring i r))
  | acquiresleep {p : P} {r : R} {i : Fin NINODE} (hp : s.pc p = .acquiring i r)
      (hi : (s.entry i).lock = none) :
      Effect ninodes s (.acquiresleep p)
        ((s.setEntry i { s.entry i with lock := some (p, some r) }).setPc p (.loading i r))
  | cached {p : P} {r : R} {i : Fin NINODE} (hp : s.pc p = .loading i r)
      (hi : (s.entry i).valid = true) : Effect ninodes s (.load p) (s.setPc p .idle)
  | load {p : P} {r : R} {i : Fin NINODE} (hp : s.pc p = .loading i r)
      (hi : (s.entry i).valid = false) (hty : (s.dinode (s.entry i).key).type ≠ 0) :
      Effect ninodes s (.load p)
        ((s.setEntry i { s.entry i with copy := s.dinode (s.entry i).key, valid := true }).setPc p
          .idle)
  | modify {p : P} {i : Fin NINODE} {major minor nlink : Short} {size : ℕ}
      {addrs : Fin (NDIRECT + 1) → ℕ} (hp : s.pc p = .idle) (hi : s.holdingsleep p i) :
      Effect ninodes s (.modify p i major minor nlink size addrs)
        (s.setEntry i
          { s.entry i with
            copy := ⟨(s.entry i).copy.type, major, minor, nlink, size, addrs⟩
            dirty := true })
  | iupdate {p : P} {i : Fin NINODE} (hp : s.pc p = .idle) (hi : s.holdingsleep p i) :
      Effect ninodes s (.iupdate p i) (s.iupdate i)
  | iunlock {p : P} {i : Fin NINODE} (hp : s.pc p = .idle) (hi : s.holdingsleep p i)
      (hd : (s.entry i).dirty = false) :
      Effect ninodes s (.iunlock p i) (s.setEntry i { s.entry i with lock := none })
  | iput {p : P} {r : R} {i : Fin NINODE} (hp : s.pc p = .idle) (hr : s.tok r = some i)
      (hrel : ¬ s.Relied r) :
      Effect ninodes s (.iput p r) ((s.setTok r none).setPc p (.putting i))
  | last {p : P} {i : Fin NINODE} (hp : s.pc p = .putting i) (hi : (s.entry i).ref = 1)
      (hv : (s.entry i).valid = true) (hl : (s.entry i).lock = none) :
      Effect ninodes s (.test p)
        ((s.setEntry i { s.entry i with lock := some (p, none) }).setPc p (.freeing .trunc i))
  | put {p : P} {i : Fin NINODE} (hp : s.pc p = .putting i) :
      Effect ninodes s (.test p)
        ((s.setEntry i { s.entry i with ref := (s.entry i).ref - 1 }).setPc p .idle)
  | free {p : P} {i : Fin NINODE} {g : Stage} (hp : s.pc p = .freeing g i) :
      Effect ninodes s (.free p) (s.free p i g)
  | drop {p : P} {i : Fin NINODE} (hp : s.pc p = .dropping i) :
      Effect ninodes s (.drop p)
        ((s.setEntry i { s.entry i with ref := (s.entry i).ref - 1 }).setPc p .idle)
  | ialloc {p : P} {dev : ℕ} {type : FileType} (hp : s.pc p = .idle) :
      Effect ninodes s (.ialloc p dev type) (s.setPc p (.scanning dev 1 type))
  | claim {p : P} {dev inum : ℕ} {type : FileType} (hp : s.pc p = .scanning dev inum type)
      (hty : (s.dinode (dev, inum)).type = 0) :
      Effect ninodes s (.scan p)
        ((s.setDinode (dev, inum) (fresh type)).setPc p (.claimed (dev, inum)))
  | next {p : P} {dev inum : ℕ} {type : FileType} (hp : s.pc p = .scanning dev inum type) :
      Effect ninodes s (.scan p) (s.setPc p (.scanning dev (inum + 1) type))
  | full {p : P} {dev inum : ℕ} {type : FileType} (hp : s.pc p = .scanning dev inum type) :
      Effect ninodes s (.scan p) (s.setPc p .idle)
  | igetNew {p : P} {k : Key} {r : R} {t : State P R} (hp : s.pc p = .claimed k)
      (ht : Refers s k r t) : Effect ninodes s (.igetNew p r) (t.setPc p .idle)

theorem effect_of_step [Fintype P] {ninodes : ℕ} {s t : State P R} {e : Event P R}
    (h : step ninodes s e = some t) : Effect ninodes s e t := by
  cases e with
  | iget p k r =>
    simp only [step] at h
    split_ifs at h with hp
    exact .iget hp (refers_of_refer h)
  | idup p r r' =>
    cases hr : s.tok r with
    | none => simp [step, hr] at h
    | some i =>
      simp only [step, hr] at h
      split_ifs at h with hp
      exact Option.some_inj.mp h ▸ .idup hp.1 hr hp.2
  | ilock p r =>
    cases hr : s.tok r with
    | none => simp [step, hr] at h
    | some i =>
      simp only [step, hr] at h
      split_ifs at h with hp
      exact Option.some_inj.mp h ▸ .ilock hp.1 hr
  | acquiresleep p =>
    cases hp : s.pc p with
    | acquiring i r =>
      simp only [step, hp] at h
      split_ifs at h with hi
      exact Option.some_inj.mp h ▸ .acquiresleep hp hi
    | _ => simp [step, hp] at h
  | load p =>
    cases hp : s.pc p with
    | loading i r =>
      simp only [step, hp, State.load] at h
      split_ifs at h with hi hty
      · exact Option.some_inj.mp h ▸ .cached hp hi
      · simp [Except.toOption] at h
      · exact Option.some_inj.mp h ▸ .load hp (by simpa using hi) hty
    | _ => simp [step, hp] at h
  | modify p i major minor nlink size addrs =>
    simp only [step] at h
    split_ifs at h with hp
    exact Option.some_inj.mp h ▸ .modify hp.1 hp.2
  | iupdate p i =>
    simp only [step] at h
    split_ifs at h with hp
    exact Option.some_inj.mp h ▸ .iupdate hp.1 hp.2
  | iunlock p i =>
    simp only [step] at h
    split_ifs at h with hp
    exact Option.some_inj.mp h ▸ .iunlock hp.1 hp.2.1 hp.2.2.2
  | iput p r =>
    cases hr : s.tok r with
    | none => simp [step, hr] at h
    | some i =>
      simp only [step, hr] at h
      split_ifs at h with hp
      exact Option.some_inj.mp h ▸ .iput hp.1 hr hp.2
  | test p =>
    cases hp : s.pc p with
    | putting i =>
      simp only [step, hp] at h
      split_ifs at h with hi hl
      · exact Option.some_inj.mp h ▸ .last hp hi.1 hi.2.1 hl
      · exact Option.some_inj.mp h ▸ .put hp
    | _ => simp [step, hp] at h
  | free p =>
    cases hp : s.pc p with
    | freeing g i =>
      simp only [step, hp] at h
      exact Option.some_inj.mp h ▸ .free hp
    | _ => simp [step, hp] at h
  | drop p =>
    cases hp : s.pc p with
    | dropping i =>
      simp only [step, hp] at h
      exact Option.some_inj.mp h ▸ .drop hp
    | _ => simp [step, hp] at h
  | ialloc p dev type =>
    simp only [step] at h
    split_ifs at h with hp
    exact Option.some_inj.mp h ▸ .ialloc hp
  | scan p =>
    cases hp : s.pc p with
    | scanning dev inum type =>
      simp only [step, hp] at h
      split_ifs at h with hlt hty
      · exact Option.some_inj.mp h ▸ .claim hp hty
      · exact Option.some_inj.mp h ▸ .next hp
      · exact Option.some_inj.mp h ▸ .full hp
    | _ => simp [step, hp] at h
  | igetNew p r =>
    cases hp : s.pc p with
    | claimed k =>
      simp only [step, hp, Option.map_eq_some_iff] at h
      obtain ⟨u, hu, rfl⟩ := h
      exact .igetNew hp (refers_of_refer hu)
    | _ => simp [step, hp] at h

end Xv6.Icache
