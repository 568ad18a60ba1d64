import Xv6.Exec.Basic
import Xv6.Fs.File
import Xv6.Vm.Build

/-!
# Loading a program

The program headers say which bytes of the file go where.  While `exec` goes through them,
the new image holds what the headers so far say, and zeros elsewhere.
-/

namespace Xv6.Exec

open Lib Vm

variable {k k' k₀ k₁ : Kernel} {data bs : List UInt8} {r f g n u v sz off offset fuel i j : ℕ}

/-! ## Reading -/

theorem readi_of_lt (h32 : off + n < 2 ^ 32) : readi data off n = (data.drop off).take n := by
  rw [readi, Nat.mod_eq_of_lt h32]
  split_ifs with hout hshort
  · rw [List.drop_eq_nil_of_le (by omega), List.take_nil]
  · have hlen : (data.drop off).length = data.length - off := List.length_drop
    rw [List.take_of_length_le hlen.le, List.take_of_length_le (by omega)]
  · rfl

/-- `readi` of the file system copies these bytes out of a locked inode, when they all go to the
kernel's own memory. -/
theorem readi_eq {sb : Superblock} {s : Fs} (h : s.Locked sb i) (hoff : off < 2 ^ 32)
    (hn : n < 2 ^ 32) :
    s.readi sb i off n n = .ok (↑(readi ((s.itable i).contents s.buf) off n).length,
      readi ((s.itable i).contents s.buf) off n, s) := by
  have hlen : ((s.itable i).contents s.buf).length = (s.itable i).size := by
    simp [Dinode.contents]
  obtain ⟨r, out, hread, hspec, hwrap⟩ := Fs.readi_spec n h hoff hn
  rw [hread]
  rcases Nat.lt_or_ge (off + n) (2 ^ 32) with h32 | h32
  · obtain ⟨rfl, rfl⟩ | ⟨-, hshort⟩ := hspec h32
    · rw [readi_of_lt h32, List.length_take, List.length_drop, hlen]
    · omega
  · obtain ⟨rfl, rfl⟩ := hwrap h32
    rw [readi, if_pos (.inr (by omega))]
    rfl

theorem length_readi_le (data : List UInt8) (off n : ℕ) : (readi data off n).length ≤ n := by
  unfold readi
  split_ifs with hout hshort
  · exact Nat.zero_le n
  · rw [List.length_take, List.length_drop]
    have := Nat.mod_le (off + n) (2 ^ 32)
    omega
  · exact List.length_take_le _ _

theorem readi_full (hoff : off < 2 ^ 32) (hn : n < 2 ^ 32) (hpos : 0 < n)
    (h : (readi data off n).length = n) :
    off + n ≤ data.length ∧ readi data off n = (data.drop off).take n := by
  unfold readi at *
  split_ifs at h ⊢ with hout hshort
  · exact absurd h (by simp; omega)
  · rw [List.length_take, List.length_drop] at h
    omega
  · obtain ⟨hle, hwrap⟩ := not_or.mp hout
    exact ⟨by omega, rfl⟩

theorem getD_take_drop (hi : i < n) :
    ((data.drop off).take n).getD i 0 = data.getD (off + i) 0 := by
  rw [List.getD_eq_getElem?_getD, List.getD_eq_getElem?_getD, List.getElem?_take_of_lt hi,
    List.getElem?_drop]

theorem samePage_put (h : g ≠ f) (hbs : bs.length ≤ PGSIZE) :
    SamePage k (put k (PGSIZE * f) bs) g := by
  intro o ho
  refine if_neg ?_
  unfold PGSIZE at *
  omega

theorem put_page {o : ℕ} : (put k (PGSIZE * f) bs).mem (PGSIZE * f + o) =
    if o < bs.length then bs.getD o 0 else k.mem (PGSIZE * f + o) := by
  change (if _ then _ else _) = _
  by_cases ho : o < bs.length
  · rw [if_pos ho, if_pos (by omega), Nat.add_sub_cancel_left]
  · rw [if_neg ho, if_neg (by omega)]

/-! ## `loadseg` -/

/-- `loadseg` from page `j` of a segment on: it meets the end of the file, or the bytes of
the segment are in the image. -/
theorem loadLoop_spec (u sz offset j fuel : ℕ) (h : Space k r n)
    (huser : ∀ w < n, leaf k.mem r (PGSIZE * w) &&& PTE_U ≠ 0)
    (hend : PGSIZE * u + sz ≤ PGSIZE * n) (hlen : data.length < 2 ^ 31)
    (hoff : offset + PGSIZE * j < 2 ^ 32) (hfuel : sz ≤ PGSIZE * (j + fuel)) :
    ∃ (ret : ℤ) (k' : Kernel),
      loadLoop (PGSIZE * r) (PGSIZE * u) data offset sz fuel k (PGSIZE * j) = .ok (ret, k') ∧
      Touches (UserPage k r n) k k' ∧
      (ret = -1 ∨ ret = 0 ∧ (PGSIZE * j < sz → offset + sz ≤ data.length) ∧
        ∀ v < PGSIZE * n, userByte k' r v =
          if PGSIZE * u + PGSIZE * j ≤ v ∧ v < PGSIZE * u + sz then
            data.getD (offset + (v - PGSIZE * u)) 0
          else userByte k r v) := by
  have hdone : ∀ {k : Kernel} {j : ℕ}, sz ≤ PGSIZE * j →
      (PGSIZE * j < sz → offset + sz ≤ data.length) ∧ ∀ v < PGSIZE * n, userByte k r v =
        if PGSIZE * u + PGSIZE * j ≤ v ∧ v < PGSIZE * u + sz then
          data.getD (offset + (v - PGSIZE * u)) 0
        else userByte k r v := fun hle => ⟨fun hlt => absurd hlt (Nat.not_lt.mpr hle), fun v _ => by
      rw [if_neg (by omega)]⟩
  induction fuel generalizing k j with
  | zero => exact ⟨0, k, rfl, .refl _ k, .inr ⟨rfl, hdone hfuel⟩⟩
  | succ fuel ih =>
    by_cases hlt : PGSIZE * j < sz
    swap
    · refine ⟨0, k, ?_, .refl _ k, .inr ⟨rfl, hdone (Nat.not_lt.mp hlt)⟩⟩
      rw [loadLoop, if_neg hlt]
    have hsmall : PGSIZE * n < 2 ^ 32 - PGSIZE := by
      have := h.count
      unfold PHYSTOP PGSIZE at *
      omega
    have hw : u + j < n := by
      unfold PGSIZE at *
      omega
    -- the page that is filled in this round
    have hva : (PGSIZE * u + PGSIZE * j) % 2 ^ 64 = PGSIZE * (u + j) := by
      unfold PGSIZE at *
      omega
    have hreach : Reach false k.mem r (PGSIZE * (u + j)) :=
      ⟨h.lt_maxva hw.le, (h.user _ hw).1, huser _ hw, fun h => by cases h⟩
    have hpa : k.walkaddr (PGSIZE * r) ((PGSIZE * u + PGSIZE * j) % 2 ^ 64) =
        .ok (PGSIZE * userFrame k.mem r (u + j)) := by
      classical
      rw [hva, walkaddr_eq h.tree, if_pos hreach, userFrame]
    have hpa0 : PGSIZE * userFrame k.mem r (u + j) ≠ 0 :=
      Nat.mul_ne_zero (by decide) (h.managed _ (.inr ⟨u + j, hw, rfl⟩)).ne_zero
    set m := if sz - PGSIZE * j < PGSIZE then sz - PGSIZE * j else PGSIZE with hm
    have hm0 : 0 < m ∧ m ≤ PGSIZE ∧ m ≤ sz - PGSIZE * j := by
      rw [hm]
      unfold PGSIZE at *
      split_ifs <;> omega
    have hmod : (offset + PGSIZE * j) % 2 ^ 32 = offset + PGSIZE * j := Nat.mod_eq_of_lt hoff
    set bs := readi data (offset + PGSIZE * j) m with hbs
    have hbslen : bs.length ≤ PGSIZE := (length_readi_le _ _ _).trans hm0.2.1
    set k₁ := put k (PGSIZE * userFrame k.mem r (u + j)) bs with hk₁
    have htouch : Touches (UserPage k r n) k k₁ := by
      refine ⟨fun g hg => samePage_put ?_ hbslen, rfl, rfl⟩
      rintro rfl
      exact hg ⟨u + j, hw, rfl⟩
    have htab : ∀ g ∈ Tables k.mem r, ¬UserPage k r n g := fun g hg => h.not_userPage hg
    have hleaf : ∀ v, leaf k₁.mem r v = leaf k.mem r v := fun v => htouch.leaf_eq htab
    rw [loadLoop, if_pos hlt]
    simp only [hpa, hmod, if_neg hpa0, ← hm, ← hbs, ← hk₁, bind, Except.bind]
    by_cases hfull : bs.length = m
    swap
    · exact ⟨-1, k₁, if_pos hfull, htouch, .inl rfl⟩
    rw [if_neg (not_not.mpr hfull)]
    obtain ⟨hin, hread⟩ := readi_full hoff (by unfold PGSIZE at *; omega) hm0.1 hfull
    have hbyte : ∀ v < PGSIZE * n, userByte k₁ r v =
        if PGSIZE * u + PGSIZE * j ≤ v ∧ v < PGSIZE * u + PGSIZE * j + m then
          data.getD (offset + (v - PGSIZE * u)) 0
        else userByte k r v := by
      intro v hv
      by_cases hpage : v / PGSIZE = u + j
      · rw [userByte, place, hleaf, ← place, place_eq, hpage, hk₁, put_page, hfull]
        by_cases hvm : v % PGSIZE < m
        · have hidx : offset + PGSIZE * j + v % PGSIZE = offset + (v - PGSIZE * u) := by
            unfold PGSIZE at *
            omega
          rw [if_pos hvm, if_pos (by unfold PGSIZE at *; omega), hbs, hread,
            getD_take_drop hvm, hidx]
        · rw [if_neg hvm, if_neg (by unfold PGSIZE at *; omega), userByte, place_eq, hpage]
      · rw [if_neg (by unfold PGSIZE at *; omega)]
        refine userByte_eq_of_samePage (hleaf v) (samePage_put ?_ hbslen)
        intro heq
        exact hpage (h.inj _ (by unfold PGSIZE at *; omega) _ hw heq)
    have hnext : (PGSIZE * j + PGSIZE) % 2 ^ 32 = PGSIZE * (j + 1) := by
      unfold PGSIZE at *
      omega
    rw [hnext]
    obtain ⟨ret, k', hok, htouch', hor⟩ := ih (j + 1) (htouch.space h htab)
      (fun w hw => by rw [hleaf]; exact huser w hw)
      (by unfold PGSIZE at *; omega) (by rw [Nat.add_assoc, Nat.add_comm 1 fuel]; exact hfuel)
    have hpages : ∀ g, UserPage k₁ r n g → UserPage k r n g := by
      rintro g ⟨w, hw, rfl⟩
      exact ⟨w, hw, by rw [userFrame, userFrame, hleaf]⟩
    refine ⟨ret, k', hok, htouch.trans (htouch'.mono hpages), hor.imp_right ?_⟩
    rintro ⟨rfl, hfile, hbytes⟩
    have hlast : m = PGSIZE ∨ PGSIZE * j + m = sz := by
      rw [hm]
      split_ifs <;> omega
    refine ⟨rfl, fun _ => ?_, fun v hv => ?_⟩
    · by_cases hmore : PGSIZE * (j + 1) < sz
      · exact hfile hmore
      · unfold PGSIZE at *
        omega
    · rw [hbytes v hv, hbyte v hv]
      by_cases hrange : PGSIZE * u + PGSIZE * j ≤ v ∧ v < PGSIZE * u + sz
      · rw [if_pos hrange]
        by_cases hlater : PGSIZE * u + PGSIZE * (j + 1) ≤ v ∧ v < PGSIZE * u + sz
        · rw [if_pos hlater]
        · rw [if_neg hlater, if_pos (by unfold PGSIZE at *; omega)]
      · rw [if_neg hrange, if_neg (by unfold PGSIZE at *; omega),
          if_neg (by unfold PGSIZE at *; omega)]

/-! ## The image of a program -/

def headers (data : List UInt8) (off : ℕ) : ℕ → List Proghdr
  | 0 => []
  | n + 1 => .ofBytes ((data.drop off).take proghdrSize) :: headers data (off + proghdrSize) n

def loadable (data : List UInt8) (off n : ℕ) : List Proghdr :=
  (headers data off n).filter fun ph => ph.type = ELF_PROG_LOAD

/-- The byte that the segments put at an address, the last one counting. -/
def imageByte (data : List UInt8) (segs : List Proghdr) (v : ℕ) : UInt8 :=
  segs.foldl (fun b ph => if ph.vaddr ≤ v ∧ v < ph.vaddr + ph.filesz then
    data.getD (ph.off + (v - ph.vaddr)) 0 else b) 0

/-- The header as `loadseg` gets it: `off` is passed on as a `uint`. -/
def Proghdr.cut (ph : Proghdr) : Proghdr := { ph with off := ph.off % 2 ^ 32 }

variable {segs : List Proghdr} {ph : Proghdr}

theorem imageByte_concat : imageByte data (segs ++ [ph]) v =
    if ph.vaddr ≤ v ∧ v < ph.vaddr + ph.filesz then data.getD (ph.off + (v - ph.vaddr)) 0
    else imageByte data segs v := by
  rw [imageByte, List.foldl_append]
  rfl

theorem imageByte_above (h : ∀ ph ∈ segs, ph.vaddr + ph.filesz ≤ v) :
    imageByte data segs v = 0 := by
  induction segs using List.reverseRecOn with
  | nil => rfl
  | append_singleton segs ph ih =>
    have hph := h ph (by simp)
    rw [imageByte_concat, if_neg (by omega)]
    exact ih fun p hp => h p (List.mem_append_left _ hp)

/-- The image under construction holds the segments `segs`, and nothing else. -/
structure Loads (data : List UInt8) (segs : List Proghdr) (r sz : ℕ) (k₀ k : Kernel) : Prop where
  builds : Builds r (pages sz) k₀ k
  topped : Topped k.mem r
  user : ∀ u < pages sz, leaf k.mem r (PGSIZE * u) &&& PTE_U ≠ 0
  bytes : ∀ v < PGSIZE * pages sz, userByte k r v = imageByte data segs v
  below : ∀ ph ∈ segs, ph.vaddr + ph.filesz ≤ PGSIZE * pages sz
  inFile : ∀ ph ∈ segs, ph.filesz = 0 ∨ ph.off + ph.filesz ≤ data.length

theorem flags2perm_lt (flags : ℕ) : flags2perm flags < 1024 := by
  unfold flags2perm
  split_ifs <;> decide

theorem user_of_flags {e perm : ℕ} (h : PTE_FLAGS e = userPerm perm ||| PTE_V) :
    e &&& PTE_U ≠ 0 := by
  rw [and_eq_mod_and (n := 10) (by decide : PTE_U < 2 ^ 10)]
  change PTE_FLAGS e &&& PTE_U ≠ 0
  rw [h]
  intro h0
  have hbit := congrArg (Nat.testBit · 4) h0
  simp only [userPerm, Nat.testBit_and, Nat.testBit_or] at hbit
  have hU : PTE_U.testBit 4 = true := by decide
  rw [hU] at hbit
  simp at hbit

theorem Loads.grow {newsz perm : ℕ} (h : Loads data segs r sz k₀ k) (hle : sz ≤ newsz)
    (hext : Extends r (pages sz) (pages newsz) (fun _ => userPerm perm ||| PTE_V)
      (fun _ _ => 0) k k') :
    Loads data segs r newsz k₀ k' := by
  have hs := h.builds.space
  have hold : ∀ u < pages sz, leaf k'.mem r (PGSIZE * u) = leaf k.mem r (PGSIZE * u) := fun u hu =>
    hext.leaf_eq _ (hs.lt_maxva hu.le) (.inl (by rwa [Nat.mul_div_cancel_left u (by decide)]))
  have hbelow : ∀ ph ∈ segs, ph.vaddr + ph.filesz ≤ PGSIZE * pages newsz := fun ph hph =>
    (h.below ph hph).trans (Nat.mul_le_mul_left PGSIZE (pages_mono hle))
  refine ⟨h.builds.extend hext, h.topped.congr fun v hge hv => hext.leaf_eq v hv (.inr hge),
    fun u hu => ?_, fun v hv => ?_, hbelow, h.inFile⟩
  · rcases Nat.lt_or_ge u (pages sz) with hlt | hge
    · rw [hold u hlt]
      exact h.user u hlt
    · exact user_of_flags (hext.new_flags u hge hu)
  · have hvn : v / PGSIZE < pages newsz := Nat.div_lt_of_lt_mul hv
    rcases Nat.lt_or_ge (v / PGSIZE) (pages sz) with hlt | hge
    · have hvsz : v < PGSIZE * pages sz := by
        unfold PGSIZE at *
        omega
      rw [← h.bytes v hvsz]
      refine userByte_eq_of_samePage ?_ (hext.same _ (hs.apart _ hlt) (hs.not_free hlt))
      rw [leaf_eq_page, hold _ hlt, ← leaf_eq_page]
    · rw [userByte, place_eq, hext.new_bytes _ hge hvn _ (Nat.mod_lt v (by decide))]
      refine (imageByte_above fun ph hph => (h.below ph hph).trans ?_).symm
      unfold PGSIZE at *
      omega

theorem Loads.load (h : Loads data segs r sz k₀ k) (htouch : Touches (UserPage k r (pages sz)) k k')
    (hbelow : ph.vaddr + ph.filesz ≤ PGSIZE * pages sz)
    (hfile : ph.filesz = 0 ∨ ph.off + ph.filesz ≤ data.length)
    (hbytes : ∀ v < PGSIZE * pages sz, userByte k' r v =
      if ph.vaddr ≤ v ∧ v < ph.vaddr + ph.filesz then data.getD (ph.off + (v - ph.vaddr)) 0
      else userByte k r v) : Loads data (segs ++ [ph]) r sz k₀ k' := by
  have htab : ∀ g ∈ Tables k.mem r, ¬UserPage k r (pages sz) g := fun g hg =>
    h.builds.space.not_userPage hg
  have hleaf : ∀ v, leaf k'.mem r v = leaf k.mem r v := fun v => htouch.leaf_eq htab
  refine ⟨h.builds.touch htouch, h.topped.congr fun v _ _ => hleaf v, fun u hu => ?_,
    fun v hv => ?_, fun p hp => ?_, fun p hp => ?_⟩
  · rw [hleaf]
    exact h.user u hu
  · rw [hbytes v hv, imageByte_concat, h.bytes v hv]
  · rcases List.mem_append.mp hp with hp | hp
    · exact h.below p hp
    · rw [List.mem_singleton.mp hp]
      exact hbelow
  · rcases List.mem_append.mp hp with hp | hp
    · exact h.inFile p hp
    · rw [List.mem_singleton.mp hp]
      exact hfile

theorem number_lt (bs : List UInt8) (o : ℕ) : number 8 bs o < 2 ^ 64 :=
  (getWord_lt 8 _ o).trans_eq (by norm_num)

/-- One segment that has passed the checks: there is no memory, or the file ends too
early, or the segment is added. -/
theorem Loads.segment (h : Loads data segs r sz k₀ k) (hlen : data.length < 2 ^ 31)
    (hvaddr : ph.vaddr < 2 ^ 64) (hmemsz : ph.memsz < 2 ^ 64) (hfilesz : ph.filesz ≤ ph.memsz)
    (hwrap : ph.vaddr ≤ (ph.vaddr + ph.memsz) % 2 ^ 64) (halign : ph.vaddr % PGSIZE = 0) :
    ∃ sz1 k₁, k.uvmalloc (PGSIZE * r) sz ((ph.vaddr + ph.memsz) % 2 ^ 64) (flags2perm ph.flags) =
        .ok (sz1, k₁) ∧
      (sz1 = 0 ∧ Builds r (pages sz) k₀ k₁ ∧ Topped k₁.mem r ∨
        sz1 ≠ 0 ∧ ∃ (ret : ℤ) (k' : Kernel),
          loadseg k₁ (PGSIZE * r) ph.vaddr data (ph.off % 2 ^ 32) (ph.filesz % 2 ^ 32) =
            .ok (ret, k') ∧
          (ret = -1 ∧ Builds r (pages sz1) k₀ k' ∧ Topped k'.mem r ∨
            ret = 0 ∧ Loads data (segs ++ [ph.cut]) r sz1 k₀ k')) := by
  obtain ⟨sz1, k₁, hok, hor⟩ := h.builds.uvmalloc ((ph.vaddr + ph.memsz) % 2 ^ 64)
    (flags2perm_lt ph.flags)
  refine ⟨sz1, k₁, hok, ?_⟩
  rcases hor with ⟨h0, hbuild, hleaf⟩ | ⟨h0, hnew, hold, -, hext⟩
  · exact .inl ⟨h0, hbuild, h.topped.congr hleaf⟩
  refine .inr ⟨h0, ?_⟩
  have hloads := h.grow hold hext
  have hs := hloads.builds.space
  obtain ⟨u, hu⟩ : ∃ u, ph.vaddr = PGSIZE * u := ⟨ph.vaddr / PGSIZE, by
    unfold PGSIZE at *
    omega⟩
  have hend : ph.vaddr + ph.filesz ≤ PGSIZE * pages sz1 := by
    have := le_pages sz1
    omega
  have hcut : ph.filesz % 2 ^ 32 = ph.filesz := by
    have := hs.count
    unfold PHYSTOP PGSIZE at *
    omega
  obtain ⟨ret, k', hload, htouch, hret⟩ := loadLoop_spec u ph.filesz (ph.off % 2 ^ 32) 0
    (ph.filesz / PGSIZE + 1) hs hloads.user (by rwa [← hu]) hlen
    (Nat.mod_lt _ (Nat.two_pow_pos 32)) (by unfold PGSIZE; omega)
  refine ⟨ret, k', by rw [hcut, hu]; exact hload, hret.imp ?_ ?_⟩
  · rintro rfl
    have htab : ∀ g ∈ Tables k₁.mem r, ¬UserPage k₁ r (pages sz1) g := fun g hg =>
      hs.not_userPage hg
    exact ⟨rfl, hloads.builds.touch htouch, hloads.topped.congr fun v _ _ => htouch.leaf_eq htab⟩
  · rintro ⟨rfl, hfile, hbytes⟩
    refine ⟨rfl, hloads.load htouch hend ?_ fun v hv => ?_⟩
    · exact (Nat.eq_zero_or_pos ph.filesz).imp_right hfile
    · rw [hbytes v hv, ← hu]
      rfl

theorem segLoop_spec (h : Loads data segs r sz k₀ k) (hlen : data.length < 2 ^ 31)
    (hoff : off < 2 ^ 32) :
    ∃ ok sz' k', segLoop (PGSIZE * r) data i k sz off = .ok (ok, sz', k') ∧
      Builds r (pages sz') k₀ k' ∧ Topped k'.mem r ∧
      (ok = true → Loads data (segs ++ (loadable data off i).map .cut) r sz' k₀ k') := by
  induction i generalizing k sz off segs with
  | zero =>
    refine ⟨true, sz, k, rfl, h.builds, h.topped, fun _ => ?_⟩
    rw [show loadable data off 0 = [] from rfl, List.map_nil, List.append_nil]
    exact h
  | succ i ih =>
    have hfail : ∀ {P : Prop}, Builds r (pages sz) k₀ k ∧ Topped k.mem r ∧ (false = true → P) :=
      ⟨h.builds, h.topped, fun h => by cases h⟩
    rw [segLoop]
    by_cases hfull : (readi data off proghdrSize).length = proghdrSize
    swap
    · exact ⟨false, sz, k, if_pos hfull, hfail⟩
    obtain ⟨hin, hread⟩ := readi_full hoff (by decide) (by decide) hfull
    rw [if_neg (not_not.mpr hfull), hread]
    have hnext : (off + proghdrSize) % 2 ^ 32 = off + proghdrSize := by omega
    rw [hnext]
    have hhead : loadable data off (i + 1) =
        if (Proghdr.ofBytes ((data.drop off).take proghdrSize)).type = ELF_PROG_LOAD then
          .ofBytes ((data.drop off).take proghdrSize) :: loadable data (off + proghdrSize) i
        else loadable data (off + proghdrSize) i := by
      rw [loadable, headers, List.filter_cons]
      simp only [decide_eq_true_eq]
      rfl
    have hv : (Proghdr.ofBytes ((data.drop off).take proghdrSize)).vaddr < 2 ^ 64 :=
      number_lt _ 16
    have hm : (Proghdr.ofBytes ((data.drop off).take proghdrSize)).memsz < 2 ^ 64 :=
      number_lt _ 40
    generalize Proghdr.ofBytes ((data.drop off).take proghdrSize) = ph at *
    by_cases htype : ph.type = ELF_PROG_LOAD
    swap
    · rw [if_pos htype, hhead, if_neg htype]
      exact ih h (by omega)
    rw [if_neg (not_not.mpr htype), hhead, if_pos htype]
    by_cases hfilesz : ph.memsz < ph.filesz
    · exact ⟨false, sz, k, if_pos hfilesz, hfail⟩
    rw [if_neg hfilesz]
    by_cases hwrap : (ph.vaddr + ph.memsz) % 2 ^ 64 < ph.vaddr
    · exact ⟨false, sz, k, if_pos hwrap, hfail⟩
    rw [if_neg hwrap]
    by_cases halign : ph.vaddr % PGSIZE = 0
    swap
    · exact ⟨false, sz, k, if_pos halign, hfail⟩
    rw [if_neg (not_not.mpr halign)]
    obtain ⟨sz1, k₁, hok, hor⟩ := h.segment hlen hv hm (Nat.not_lt.mp hfilesz)
      (Nat.not_lt.mp hwrap) halign
    simp only [hok, bind, Except.bind]
    rcases hor with ⟨h0, hbuild, htop⟩ | ⟨h0, ret, k', hload, hor⟩
    · exact ⟨false, sz, k₁, if_pos h0, hbuild, htop, fun h => by cases h⟩
    rw [if_neg h0]
    simp only [hload]
    rcases hor with ⟨rfl, hbuild, htop⟩ | ⟨rfl, hloads⟩
    · exact ⟨false, sz1, k', if_pos (by decide), hbuild, htop, fun h => by cases h⟩
    rw [if_neg (by decide), List.map_cons, List.append_cons]
    exact ih hloads (by omega)

end Xv6.Exec
