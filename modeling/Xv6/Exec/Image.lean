import Xv6.Exec.Load

/-!
# The new image

The part of `exec` that can fail on the file: it ends with an image that holds the program,
a guard page and a stack, or with everything as it was.
-/

namespace Xv6.Exec

open Lib Vm

variable {k k' k₀ : Kernel} {data : List UInt8} {s : State} {r n m sz : ℕ}

def segments (data : List UInt8) : List Proghdr :=
  let elf := Elfhdr.ofBytes (data.take elfhdrSize)
  (loadable data (elf.phoff % 2 ^ 32) elf.phnum).map .cut

/-- An image with `m` pages of program, the guard page and the stack. -/
structure Loaded (data : List UInt8) (r m : ℕ) (k₀ k : Kernel) : Prop where
  builds : Builds r (m + 2) k₀ k
  topped : Topped k.mem r
  magic : (Elfhdr.ofBytes (data.take elfhdrSize)).magic = ELF_MAGIC
  program : ∀ v < PGSIZE * m, userByte k r v = imageByte data (segments data) v
  user : ∀ u < m, leaf k.mem r (PGSIZE * u) &&& PTE_U ≠ 0
  below : ∀ ph ∈ segments data, ph.vaddr + ph.filesz ≤ PGSIZE * m
  inFile : ∀ ph ∈ segments data, ph.filesz = 0 ∨ ph.off + ph.filesz ≤ data.length
  guard : leaf k.mem r (PGSIZE * m) &&& PTE_U = 0
  stack : PTE_FLAGS (leaf k.mem r (PGSIZE * (m + 1))) = userPerm PTE_W ||| PTE_V

theorem and_flags {e b : ℕ} (hb : b < 2 ^ 10) : e &&& b = PTE_FLAGS e &&& b := and_eq_mod_and hb

theorem Loads.stack (h : Loads data (segments data) r sz k₀ k)
    (hmagic : (Elfhdr.ofBytes (data.take elfhdrSize)).magic = ELF_MAGIC)
    (hext : Extends r (pages sz) (pages sz + 2) (fun _ => userPerm PTE_W ||| PTE_V) (fun _ _ => 0)
      k k') :
    ∃ k₂, k'.uvmclear (PGSIZE * r) (PGSIZE * pages sz) = .ok k₂ ∧
      Loaded data r (pages sz) k₀ k₂ := by
  have hpages : pages (PGSIZE * (pages sz + 2)) = pages sz + 2 := pages_mul _
  have hle : sz ≤ PGSIZE * (pages sz + 2) := by
    have := le_pages sz
    unfold PGSIZE at *
    omega
  have hloads : Loads data (segments data) r (PGSIZE * (pages sz + 2)) k₀ k' :=
    h.grow hle (by rw [hpages]; exact hext)
  have hbuild : Builds r (pages sz + 2) k₀ k' := by
    have := hloads.builds
    rwa [hpages] at this
  have hs := hbuild.space
  have hnew : ∀ u, pages sz ≤ u → u < pages sz + 2 →
      PTE_FLAGS (leaf k'.mem r (PGSIZE * u)) = userPerm PTE_W ||| PTE_V := hext.new_flags
  have hpage : ∀ u, PGSIZE * u / PGSIZE = u := fun u => Nat.mul_div_cancel_left u (by decide)
  obtain ⟨k₂, hclear, hbuild₂, hleaf, hsame⟩ := hbuild.clear (u := pages sz) (by omega) (by
    rw [hnew _ le_rfl (by omega)]
    decide)
  have hkeep : ∀ u < pages sz + 2, u ≠ pages sz →
      leaf k₂.mem r (PGSIZE * u) = leaf k'.mem r (PGSIZE * u) := fun u hu hne => by
    rw [hleaf _ (hs.lt_maxva hu.le), hpage, if_neg hne]
  refine ⟨k₂, hclear, hbuild₂, hloads.topped.congr fun v hge hv => ?_, hmagic, fun v hv => ?_,
    fun u hu => ?_, h.below, h.inFile, ?_, ?_⟩
  · refine (hleaf v hv).trans (if_neg ?_)
    have := hs.lt_trapframe
    unfold PGSIZE at *
    omega
  · have hu : v / PGSIZE < pages sz := Nat.div_lt_of_lt_mul hv
    rw [← hloads.bytes v (by rw [hpages]; unfold PGSIZE at *; omega)]
    refine userByte_eq_of_samePage ?_ (hsame _ (hs.apart _ (by omega)))
    rw [leaf_eq_page, hkeep _ (by omega) hu.ne, ← leaf_eq_page]
  · rw [hkeep u (by omega) hu.ne]
    exact hloads.user u (by rw [hpages]; omega)
  · rw [hleaf _ (hs.lt_maxva (by omega)), if_pos (hpage _), Nat.and_assoc,
      show 2 ^ 64 - 1 - PTE_U &&& PTE_U = 0 by decide, Nat.and_zero]
  · rw [hkeep _ (by omega) (by omega)]
    exact hnew _ (by omega) (by omega)

namespace State

theorem put_held (hlocked : s.locked = false) :
    ({ s.beginOp.namei.ilock with k := k } : State).iunlockput.endOp = { s with k := k } := by
  rw [hlocked]
  rfl

theorem fail_zero (hlocked : s.locked = false) :
    fail { s.beginOp.namei.ilock with k := k } 0 0 true = .ok (none, { s with k := k }) := by
  rw [hlocked]
  rfl

theorem fail_held (hlocked : s.locked = false) (hb : Builds r (pages sz) s.k k)
    (htop : Topped k.mem r) (hr : PGSIZE * r ≠ 0) :
    ∃ k', fail { s.beginOp.namei.ilock with k := k } (PGSIZE * r) sz true =
        .ok (none, { s with k := k' }) ∧ Restores s.k k' := by
  obtain ⟨k', hok, hret⟩ := procFreepagetable_spec hb.space htop
  refine ⟨k', ?_, hb.free hret⟩
  simp only [fail, bad, if_neg hr, hok, bind, Except.bind]
  rw [hlocked]
  rfl

theorem bad_put (hb : Builds r (pages sz) k₀ s.k) (htop : Topped s.k.mem r) (hr : PGSIZE * r ≠ 0) :
    ∃ k', s.bad (PGSIZE * r) sz false = .ok { s with k := k' } ∧ Restores k₀ k' := by
  obtain ⟨k', hok, hret⟩ := procFreepagetable_spec hb.space htop
  refine ⟨k', ?_, hb.free hret⟩
  simp only [bad, if_neg hr, hok, bind, Except.bind]
  rfl

/-- What the first part of `exec` can end with. -/
def LoadEnds (k₀ : Kernel) (file : Option (List UInt8)) (image : Option (ℕ × ℕ × ℕ)) (k' : Kernel) :
    Prop :=
  image = none ∧ Restores k₀ k' ∨
    ∃ data r m, file = some data ∧ PGSIZE * r ≠ 0 ∧ Loaded data r m k₀ k' ∧
      image = some (PGSIZE * r, PGSIZE * (m + 2), (Elfhdr.ofBytes (data.take elfhdrSize)).entry)

theorem stack_eq {pagetable entry z z' sz1 : ℕ} (hup : PGROUNDUP sz = z)
    (hnew : (z + 2 * PGSIZE) % 2 ^ 64 = z')
    (hok : s.k.uvmalloc pagetable z z' PTE_W = .ok (sz1, k)) :
    s.stack pagetable sz entry =
      if sz1 = 0 then fail { s with k := k } pagetable z false
      else k.uvmclear pagetable (sz1 - 2 * PGSIZE) >>= fun k =>
        .ok (some (pagetable, sz1, entry), { s with k := k }) := by
  rw [stack, hup, hnew, hok]
  rfl

theorem stack_spec (h : Loads data (segments data) r sz k₀ s.k) (hr : PGSIZE * r ≠ 0)
    (hmagic : (Elfhdr.ofBytes (data.take elfhdrSize)).magic = ELF_MAGIC) :
    ∃ image k', s.stack (PGSIZE * r) sz (Elfhdr.ofBytes (data.take elfhdrSize)).entry =
      .ok (image, { s with k := k' }) ∧ LoadEnds k₀ (some data) image k' := by
  have hs := h.builds.space
  have hnew : (PGSIZE * pages sz + 2 * PGSIZE) % 2 ^ 64 = PGSIZE * (pages sz + 2) := by
    have := hs.count
    unfold PHYSTOP PGSIZE at *
    omega
  have hbuild : Builds r (pages (PGSIZE * pages sz)) k₀ s.k := by
    rw [pages_mul]
    exact h.builds
  obtain ⟨sz1, k₁, halloc, hor⟩ := hbuild.uvmalloc (PGSIZE * (pages sz + 2))
    (by decide : PTE_W < 1024)
  rw [stack_eq (pgroundup_eq hs.size_lt) hnew halloc]
  rcases hor with ⟨rfl, hbuild₁, hleaf⟩ | ⟨h0, -, -, heq, hext⟩
  · obtain ⟨k', hbad, hres⟩ := bad_put (s := { s with k := k₁ }) hbuild₁ (h.topped.congr hleaf) hr
    refine ⟨none, k', ?_, .inl ⟨rfl, hres⟩⟩
    rw [if_pos rfl, fail, hbad]
    rfl
  · obtain rfl := heq (Nat.mul_le_mul_left PGSIZE (Nat.le_add_right _ 2))
    rw [pages_mul, pages_mul] at hext
    obtain ⟨k', hclear, hloaded⟩ := h.stack hmagic hext
    have hsub : PGSIZE * (pages sz + 2) - 2 * PGSIZE = PGSIZE * pages sz := by
      unfold PGSIZE
      omega
    refine ⟨_, k', ?_, .inr ⟨data, r, pages sz, rfl, hr, hloaded, rfl⟩⟩
    rw [if_neg h0, hsub, hclear]
    rfl

/-- The first part of `exec`: everything is as before, or there is a new image.  The
process holds the inode in neither case. -/
theorem load_spec {trampoline t tf : ℕ} {file : Option (List UInt8)} (hpool : Pool s.k)
    (hlocked : s.locked = false) (ht : trampoline = PGSIZE * t) (ht44 : t < 2 ^ 44)
    (htf : s.p.trapframe = PGSIZE * tf) (htf44 : tf < 2 ^ 44)
    (hfile : ∀ data ∈ file, data.length < 2 ^ 31) :
    ∃ image k', s.load trampoline file = .ok (image, { s with k := k' }) ∧
      LoadEnds s.k file image k' := by
  have hsame : Restores s.k s.k := restores_busy hpool s.k.busy
  cases file with
  | none => exact ⟨none, s.k, rfl, .inl ⟨rfl, hsame⟩⟩
  | some data =>
    have hlen := hfile data rfl
    rw [load]
    by_cases hfull : (readi data 0 elfhdrSize).length = elfhdrSize
    swap
    · exact ⟨none, s.k, (if_pos hfull).trans (fail_zero hlocked), .inl ⟨rfl, hsame⟩⟩
    obtain ⟨-, hread⟩ := readi_full (by decide) (by decide) (by decide) hfull
    rw [List.drop_zero] at hread
    rw [if_neg (not_not.mpr hfull), hread]
    by_cases hmagic : (Elfhdr.ofBytes (data.take elfhdrSize)).magic = ELF_MAGIC
    swap
    · exact ⟨none, s.k, (if_pos hmagic).trans (fail_zero hlocked), .inl ⟨rfl, hsame⟩⟩
    rw [if_neg (not_not.mpr hmagic)]
    obtain ⟨pagetable, k₁, hproc, hor⟩ := procPagetable_spec hpool ht ht44 htf htf44
    have hproc' : s.beginOp.namei.ilock.k.procPagetable trampoline s.beginOp.namei.ilock.p =
      .ok (pagetable, k₁) := hproc
    simp only [hproc', bind, Except.bind]
    rcases hor with ⟨rfl, hres⟩ | ⟨r, rfl, hr, hbuild, htop⟩
    · exact ⟨none, k₁, (if_pos rfl).trans (fail_zero hlocked), .inl ⟨rfl, hres⟩⟩
    rw [if_neg hr]
    have hstart : Loads data [] r 0 s.k k₁ :=
      ⟨hbuild, htop, fun u hu => absurd hu (Nat.not_lt_zero u),
        fun v hv => absurd hv (Nat.not_lt_zero v), fun _ hph => absurd hph List.not_mem_nil,
        fun _ hph => absurd hph List.not_mem_nil⟩
    obtain ⟨ok, sz, k₂, hloop, hbuild₂, htop₂, hok⟩ := segLoop_spec hstart hlen
      (Nat.mod_lt (Elfhdr.ofBytes (data.take elfhdrSize)).phoff (Nat.two_pow_pos 32))
      (i := (Elfhdr.ofBytes (data.take elfhdrSize)).phnum)
    simp only [hloop]
    cases ok with
    | false =>
      obtain ⟨k', hfail, hres⟩ := fail_held hlocked hbuild₂ htop₂ hr
      exact ⟨none, k', hfail, .inl ⟨rfl, hres⟩⟩
    | true =>
      have hloads : Loads data (segments data) r sz s.k k₂ := hok rfl
      obtain ⟨image, k', hstack, hends⟩ := stack_spec (s := { s with k := k₂ }) hloads hr hmagic
      refine ⟨image, k', ?_, hends⟩
      rw [if_neg (by decide), put_held hlocked]
      exact hstack

end State

end Xv6.Exec
