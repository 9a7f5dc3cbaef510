/-
# Loading a program

`elf_load` maps the pages of each loadable segment of a program and fills them from the file, page
by page: whole pages of the file, the page in which the file ends, and pages of zeros.
-/

import MCertikos.UserMem.PageWalk

namespace MCertikos.UserMem

variable {σ : Type*}

/-! ## `elf_load` -/

def rounddown (a n : BitVec 32) : BitVec 32 := a - a % n

def roundup (a n : BitVec 32) : BitVec 32 := rounddown (a + n - 1) n

def readWord (kmem : BitVec 32 → BitVec 8) (a : BitVec 32) : BitVec 32 :=
  kmem (a + 3) ++ kmem (a + 2) ++ kmem (a + 1) ++ kmem a

def readHalf (kmem : BitVec 32 → BitVec 8) (a : BitVec 32) : BitVec 32 :=
  (kmem (a + 1) ++ kmem a).setWidth 32

structure ProgHdr where
  type : BitVec 32
  offset : BitVec 32
  va : BitVec 32
  filesz : BitVec 32
  memsz : BitVec 32
  flags : BitVec 32
  deriving DecidableEq

namespace ProgHdr

def read (kmem : BitVec 32 → BitVec 8) (ph : BitVec 32) : ProgHdr where
  type := readWord kmem ph
  offset := readWord kmem (ph + 4)
  va := readWord kmem (ph + 8)
  filesz := readWord kmem (ph + 16)
  memsz := readWord kmem (ph + 20)
  flags := readWord kmem (ph + 24)

variable (h : ProgHdr)

def zva : BitVec 32 := h.va + h.filesz

def eva : BitVec 32 := roundup (h.va + h.memsz) 4096

def perm : BitVec 32 := if h.flags &&& 2 ≠ 0 then 0x004 ||| 0x001 ||| 0x002 else 0x004 ||| 0x001

def IsLoad : Prop := h.type = 1

instance : Decidable h.IsLoad := inferInstanceAs (Decidable (_ = _))

end ProgHdr

structure Space (σ : Type*) where
  layer : σ
  mem : BitVec 32 → BitVec 8

namespace VmLayer

section Load

variable (L : VmLayer σ) (kmem : BitVec 32 → BitVec 8) (pid : ℕ)

def copyoutFrom (sp : Space σ) (kva uva len : BitVec 32) : Space σ :=
  let r := L.ptCopyout sp.layer sp.mem (fun j => kmem (kva + BitVec.ofNat 32 j)) pid uva kva len
  ⟨r.2.2, r.2.1⟩

def ptMemset (sp : Space σ) (va : BitVec 32) (c : BitVec 8) (len : BitVec 32) : Space σ :=
  let r := L.copyoutLoop (fun _ => c) pid sp.layer sp.mem va len
  ⟨r.2.2, r.2.1⟩

def fillPage (h : ProgHdr) (sp : Space σ) (va fa : BitVec 32) : Space σ :=
  if va < rounddown h.zva 4096 then L.copyoutFrom kmem pid sp fa va 4096
  else if va < h.zva ∧ h.filesz ≠ 0 then
    L.copyoutFrom kmem pid (L.ptMemset pid sp va 0 4096) fa va (h.zva - va)
  else L.ptMemset pid sp va 0 4096

def loadPage (h : ProgHdr) (sp : Space σ) (va fa : BitVec 32) : Space σ :=
  L.fillPage kmem pid h { sp with layer := L.allocPage sp.layer pid va h.perm } va fa

def loadPages (h : ProgHdr) : ℕ → Space σ → BitVec 32 → BitVec 32 → Option (Space σ)
  | 0, sp, va, _ => if va < h.eva then none else some sp
  | n + 1, sp, va, fa =>
    if va < h.eva then
      loadPages h n (L.loadPage kmem pid h sp va fa) (va + 4096) (fa + 4096)
    else some sp

def loadSegment (exe : BitVec 32) (sp : Space σ) (h : ProgHdr) : Option (Space σ) :=
  L.loadPages kmem pid h (2 ^ 20) sp (rounddown h.va 4096) (exe + rounddown h.offset 4096)

def loadSegments (exe eph : BitVec 32) : ℕ → Space σ → BitVec 32 → Option (Space σ)
  | 0, sp, ph => if ph < eph then none else some sp
  | n + 1, sp, ph =>
    if ph < eph then
      let h := ProgHdr.read kmem ph
      if ¬ h.IsLoad then loadSegments exe eph n sp (ph + 32)
      else (L.loadSegment kmem pid exe sp h).bind fun sp => loadSegments exe eph n sp (ph + 32)
    else some sp

end Load

end VmLayer

structure ElfHdr where
  magic : BitVec 32
  phoff : BitVec 32
  shoff : BitVec 32
  phnum : BitVec 32
  shstrndx : BitVec 32

def ElfHdr.read (kmem : BitVec 32 → BitVec 8) (exe : BitVec 32) : ElfHdr where
  magic := readWord kmem exe
  phoff := readWord kmem (exe + 28)
  shoff := readWord kmem (exe + 32)
  phnum := readHalf kmem (exe + 44)
  shstrndx := readHalf kmem (exe + 50)

def progHdrs (kmem : BitVec 32 → BitVec 8) : ℕ → BitVec 32 → List ProgHdr
  | 0, _ => []
  | n + 1, ph => ProgHdr.read kmem ph :: progHdrs kmem n (ph + 32)

def VmLayer.elfLoad (L : VmLayer σ) (kmem : BitVec 32 → BitVec 8) (pid : ℕ) (exe : BitVec 32)
    (sp : Space σ) : Option (Space σ) :=
  let eh := ElfHdr.read kmem exe
  if eh.magic ≠ 0x464C457F then none
  else if eh.shstrndx = 0 then none
  else if readWord kmem (exe + eh.shoff + 40 * eh.shstrndx + 4) ≠ 3 then none
  else
    L.loadSegments kmem pid exe (exe + eh.phoff + 32 * eh.phnum) eh.phnum.toNat sp
      (exe + eh.phoff)

/-! ## What is assumed of `alloc_page` -/

/-- As `Sound`, but `alloc_page` may be called for a page that is present. -/
structure VmLayer.Allocates (L : VmLayer σ) (inv : σ → Prop) : Prop where
  entry_page : ∀ {s pid va va'}, inv s → pageOf va = pageOf va' →
    L.entry s pid va = L.entry s pid va'
  distinct : ∀ {s pid va va'}, inv s → InWindow va.toNat → InWindow va'.toNat →
    L.Present s pid va → L.Present s pid va' →
    L.entry s pid va &&& frameMask = L.entry s pid va' &&& frameMask → pageOf va = pageOf va'
  alloc_inv : ∀ {s pid va perm}, inv s → InWindow va.toNat → perm &&& pteP ≠ 0 →
    inv (L.allocPage s pid va perm)
  alloc_present : ∀ {s pid va perm}, inv s → InWindow va.toNat → perm &&& pteP ≠ 0 →
    L.Present (L.allocPage s pid va perm) pid va
  alloc_entry : ∀ {s pid va perm pid' va'}, inv s → InWindow va.toNat → perm &&& pteP ≠ 0 →
    L.Present s pid' va' → ¬ (pid' = pid ∧ pageOf va' = pageOf va) →
    L.entry (L.allocPage s pid va perm) pid' va' = L.entry s pid' va'

theorem VmLayer.Allocates.sound {L : VmLayer σ} {inv : σ → Prop} (hL : L.Allocates inv) :
    L.Sound inv where
  entry_page := hL.entry_page
  distinct := hL.distinct
  alloc_inv hs hva _ := hL.alloc_inv hs hva (by decide)
  alloc_present hs hva _ := hL.alloc_present hs hva (by decide)
  alloc_entry {s pid va pid' va'} hs hva hnot hpresent := by
    refine hL.alloc_entry hs hva (by decide) hpresent ?_
    rintro ⟨rfl, hpage⟩
    refine hnot ?_
    unfold VmLayer.Present
    rw [hL.entry_page hs hpage.symm]
    exact hpresent

/-! ## Writing ranges of user memory -/

namespace VmLayer

variable {L : VmLayer σ} {inv : σ → Prop} {pid : ℕ} {sp sp' sp'' : Space σ}
  {lo mid hi : ℕ} {content content' : BitVec 32 → BitVec 8}

def Shows (L : VmLayer σ) (sp : Space σ) (pid : ℕ) (a : BitVec 32) (b : BitVec 8) : Prop :=
  L.Present sp.layer pid a ∧ sp.mem (L.physAddr sp.layer pid a) = b

/-- The addresses from `lo` up to `hi` got their content, and no others. -/
structure Writes (L : VmLayer σ) (inv : σ → Prop) (pid : ℕ) (sp : Space σ) (lo hi : ℕ)
    (content : BitVec 32 → BitVec 8) (sp' : Space σ) : Prop where
  inv : inv sp'.layer
  written : ∀ a : BitVec 32, lo ≤ a.toNat → a.toNat < hi → L.Shows sp' pid a (content a)
  kept : ∀ (a : BitVec 32) (b : BitVec 8), InWindow a.toNat → ¬ (lo ≤ a.toNat ∧ a.toNat < hi) →
    L.Shows sp pid a b → L.Shows sp' pid a b

namespace Writes

theorem nothing (hs : inv sp.layer) : L.Writes inv pid sp lo lo content sp :=
  ⟨hs, fun _ hlo hhi => absurd hhi (Nat.not_lt.mpr hlo), fun _ _ _ _ hshows => hshows⟩

theorem trans (h : L.Writes inv pid sp lo mid content sp')
    (h' : L.Writes inv pid sp' mid hi content sp'') (hlo : lo ≤ mid) (hhi : mid ≤ hi)
    (hwindow : vmUserlo.toNat ≤ lo ∧ hi ≤ vmUserhi.toNat) :
    L.Writes inv pid sp lo hi content sp'' := by
  refine ⟨h'.inv, fun a ha ha' => ?_, fun a b hwin hnot hshows => ?_⟩
  · by_cases hmid : mid ≤ a.toNat
    · exact h'.written a hmid ha'
    · have hwin : InWindow a.toNat := ⟨hwindow.1.trans ha, ha'.trans_le hwindow.2⟩
      exact h'.kept a _ hwin (fun hin => hmid hin.1) (h.written a ha (Nat.lt_of_not_le hmid))
  · exact h'.kept a b hwin (fun hin => hnot ⟨hlo.trans hin.1, hin.2⟩)
      (h.kept a b hwin (fun hin => hnot ⟨hin.1, hin.2.trans_le hhi⟩) hshows)

theorem overwrite (h : L.Writes inv pid sp lo hi content sp')
    (h' : L.Writes inv pid sp' lo mid content' sp'') (hhi : mid ≤ hi)
    (hwindow : vmUserlo.toNat ≤ lo ∧ hi ≤ vmUserhi.toNat) :
    L.Writes inv pid sp lo hi (fun a => if a.toNat < mid then content' a else content a) sp'' := by
  refine ⟨h'.inv, fun a ha ha' => ?_, fun a b hwin hnot hshows => ?_⟩
  · by_cases hmid : a.toNat < mid
    · rw [if_pos hmid]
      exact h'.written a ha hmid
    · have hwin : InWindow a.toNat := ⟨hwindow.1.trans ha, ha'.trans_le hwindow.2⟩
      rw [if_neg hmid]
      exact h'.kept a _ hwin (fun hin => hmid hin.2) (h.written a ha ha')
  · exact h'.kept a b hwin (fun hin => hnot ⟨hin.1, hin.2.trans_le hhi⟩)
      (h.kept a b hwin hnot hshows)

theorem congr (h : L.Writes inv pid sp lo hi content sp')
    (heq : ∀ a : BitVec 32, lo ≤ a.toNat → a.toNat < hi → content a = content' a) :
    L.Writes inv pid sp lo hi content' sp' := by
  refine ⟨h.inv, fun a ha ha' => ?_, h.kept⟩
  rw [← heq a ha ha']
  exact h.written a ha ha'

end Writes

theorem Sound.writes_copyoutLoop (hL : L.Sound inv) (pid : ℕ) (hs : inv sp.layer)
    {uva len : BitVec 32} (huser : InUser uva len.toNat) (src : BitVec 32 → BitVec 8) :
    ∃ sp', L.copyoutLoop (fun j => src (uva + BitVec.ofNat 32 j)) pid sp.layer sp.mem uva len =
        (len, sp'.mem, sp'.layer) ∧
      L.Writes inv pid sp uva.toNat (uva.toNat + len.toNat) src sp' := by
  obtain ⟨s', mem', hloop, hwalked, hwritten, hother⟩ :=
    hL.copyoutLoop (fun j => src (uva + BitVec.ofNat 32 j)) sp.mem pid hs huser
  have hmem : ∀ a : BitVec 32, uva.toNat ≤ a.toNat → a.toNat < uva.toNat + len.toNat →
      ∃ k < len.toNat, a = uva + BitVec.ofNat 32 k := by
    intro a ha ha'
    refine ⟨a.toNat - uva.toNat, by omega, ?_⟩
    apply BitVec.eq_of_toNat_eq
    have hlt := a.isLt
    rw [BitVec.toNat_add, BitVec.toNat_ofNat]
    omega
  refine ⟨⟨s', mem'⟩, hloop, hwalked.inv, fun a ha ha' => ?_, fun a b hwin hnot hshows => ?_⟩
  · obtain ⟨k, hk, rfl⟩ := hmem a ha ha'
    exact ⟨hwalked.present _ (List.mem_map.mpr ⟨k, List.mem_range.mpr hk, rfl⟩), hwritten k hk⟩
  · obtain ⟨hpresent, hbyte⟩ := hshows
    have hphys : L.physAddr s' pid a = L.physAddr sp.layer pid a := by
      unfold physAddr
      rw [hwalked.entry_eq hpresent]
    refine ⟨hwalked.present_of_present hpresent, ?_⟩
    rw [← hbyte, ← hphys]
    refine hother _ fun va hva heq => hnot ?_
    obtain ⟨hvaWin, hlow, hhigh⟩ := huser.mem hva
    obtain rfl : a = va := hL.physAddr_inj hwalked.inv hwin hvaWin
      (hwalked.present_of_present hpresent) (hwalked.present va hva) heq
    exact ⟨hlow, hhigh⟩

theorem Sound.writes_copyoutFrom (hL : L.Sound inv) (kmem : BitVec 32 → BitVec 8) (pid : ℕ)
    (hs : inv sp.layer) {uva kva len delta : BitVec 32} (huser : InUser uva len.toNat)
    (hkva : kva + len ≤ vmUserhi) (hdelta : kva = uva + delta) :
    L.Writes inv pid sp uva.toNat (uva.toNat + len.toNat) (fun a => kmem (a + delta))
      (L.copyoutFrom kmem pid sp kva uva len) := by
  obtain ⟨sp', hloop, hwrites⟩ := hL.writes_copyoutLoop pid hs huser
    fun a => kmem (a + delta)
  have hsrc : (fun j => kmem (kva + BitVec.ofNat 32 j)) =
      fun j => kmem (uva + BitVec.ofNat 32 j + delta) := by
    funext j
    congr 1
    rw [hdelta]
    ac_rfl
  have hcopy : L.copyoutFrom kmem pid sp kva uva len = sp' := by
    unfold copyoutFrom ptCopyout
    rw [if_pos (accepts_of_inUser huser hkva), hsrc, hloop]
  rw [hcopy]
  exact hwrites

theorem Sound.writes_ptMemset (hL : L.Sound inv) (pid : ℕ) (hs : inv sp.layer) {va len : BitVec 32}
    (huser : InUser va len.toNat) (c : BitVec 8) :
    L.Writes inv pid sp va.toNat (va.toNat + len.toNat) (fun _ => c)
      (L.ptMemset pid sp va c len) := by
  obtain ⟨sp', hloop, hwrites⟩ := hL.writes_copyoutLoop pid hs huser fun _ => c
  have hset : L.ptMemset pid sp va c len = sp' := by
    unfold ptMemset
    rw [hloop]
  rw [hset]
  exact hwrites

theorem Allocates.writes_alloc (hL : L.Allocates inv) (hs : inv sp.layer) {va perm : BitVec 32}
    (halign : va.toNat % 4096 = 0) (hva : InWindow va.toNat) (hperm : perm &&& pteP ≠ 0)
    (h : inv (L.allocPage sp.layer pid va perm) →
      L.Writes inv pid { sp with layer := L.allocPage sp.layer pid va perm } va.toNat
        (va.toNat + 4096) content sp') :
    L.Writes inv pid sp va.toNat (va.toNat + 4096) content sp' := by
  obtain ⟨hinv, hwritten, hkept⟩ := h (hL.alloc_inv hs hva hperm)
  refine ⟨hinv, hwritten, fun a b hwin hnot hshows => hkept a b hwin hnot ?_⟩
  have hpage : ¬ (pid = pid ∧ pageOf a = pageOf va) := by
    rintro ⟨-, hsame⟩
    unfold pageOf Pmm.pagesize at hsame
    omega
  have hentry := hL.alloc_entry hs hva hperm hshows.1 hpage
  unfold Shows Present physAddr
  dsimp only
  rw [hentry]
  exact hshows

end VmLayer

/-! ## Segments -/

theorem toNat_rounddown (a : BitVec 32) : (rounddown a 4096).toNat = a.toNat / 4096 * 4096 := by
  have hlt := a.isLt
  have hfour : (4096 : BitVec 32).toNat = 4096 := rfl
  have hmod : (a % 4096).toNat = a.toNat % 4096 := by rw [BitVec.toNat_umod, hfour]
  unfold rounddown
  rw [BitVec.toNat_sub, hmod]
  omega

theorem toNat_roundup {a : BitVec 32} (ha : a.toNat + 4095 < 2 ^ 32) :
    (roundup a 4096).toNat = (a.toNat + 4095) / 4096 * 4096 := by
  have hfour : (4096 : BitVec 32).toNat = 4096 := rfl
  have hone : (1 : BitVec 32).toNat = 1 := rfl
  have hsum : (a + 4096 - 1).toNat = a.toNat + 4095 := by
    rw [BitVec.toNat_sub, BitVec.toNat_add, hfour, hone]
    omega
  rw [roundup, toNat_rounddown, hsum]

namespace ProgHdr

variable (h : ProgHdr) (exe : BitVec 32)

def first : ℕ := h.va.toNat / 4096 * 4096

def last : ℕ := (h.va.toNat + h.memsz.toNat + 4095) / 4096 * 4096

structure Loadable : Prop where
  congruent : h.va.toNat % 4096 = h.offset.toNat % 4096
  filesz_le : h.filesz.toNat ≤ h.memsz.toNat
  lo : vmUserlo.toNat ≤ h.va.toNat
  hi : h.va.toNat + h.memsz.toNat ≤ vmUserhi.toNat
  file : exe.toNat + h.offset.toNat + h.filesz.toNat ≤ vmUserhi.toNat

def delta : BitVec 32 := exe + rounddown h.offset 4096 - rounddown h.va 4096

def imageByte (kmem : BitVec 32 → BitVec 8) (a : BitVec 32) : BitVec 8 :=
  if a.toNat < h.va.toNat + h.filesz.toNat ∧ h.filesz ≠ 0 then kmem (a + h.delta exe) else 0

theorem perm_present : h.perm &&& pteP ≠ 0 := by
  unfold perm
  split <;> decide

namespace Loadable

variable {h exe} (hload : h.Loadable exe)
include hload

theorem toNat_zva : h.zva.toNat = h.va.toNat + h.filesz.toNat := by
  obtain ⟨-, hle, -, hhi, -⟩ := hload
  have hmax : vmUserhi.toNat < 2 ^ 32 := by decide
  rw [zva, BitVec.toNat_add]
  omega

theorem toNat_eva : h.eva.toNat = h.last := by
  obtain ⟨-, -, -, hhi, -⟩ := hload
  have hmax : vmUserhi.toNat = 0xf0000000 := rfl
  have hsum : (h.va + h.memsz).toNat = h.va.toNat + h.memsz.toNat := by
    rw [BitVec.toNat_add]
    omega
  rw [eva, toNat_roundup (by omega), hsum, last]

theorem window : vmUserlo.toNat ≤ h.first ∧ h.last ≤ vmUserhi.toNat := by
  obtain ⟨-, -, hlo, hhi, -⟩ := hload
  have hmin : vmUserlo.toNat = 0x40000000 := rfl
  have hmax : vmUserhi.toNat = 0xf0000000 := rfl
  unfold first last
  omega

theorem toNat_add_delta {a : BitVec 32} (hfirst : h.first ≤ a.toNat)
    (hlt : a.toNat ≤ h.va.toNat + h.filesz.toNat) :
    (a + h.delta exe).toNat = exe.toNat + h.offset.toNat / 4096 * 4096 + (a.toNat - h.first) := by
  obtain ⟨hmod, hle, hlo, hhi, hfile⟩ := hload
  have hmax : vmUserhi.toNat = 0xf0000000 := rfl
  have hva := h.va.isLt
  unfold first at hfirst ⊢
  rw [delta, BitVec.toNat_add, BitVec.toNat_sub, BitVec.toNat_add, toNat_rounddown,
    toNat_rounddown]
  omega

theorem file_end {va fa : BitVec 32} (len : BitVec 32) (hfirst : h.first ≤ va.toNat)
    (hfa : fa = va + h.delta exe) (hend : va.toNat + len.toNat ≤ h.va.toNat + h.filesz.toNat) :
    fa + len ≤ vmUserhi := by
  have hnat := hload.toNat_add_delta hfirst (Nat.le_of_add_right_le hend)
  obtain ⟨hmod, -, -, -, hfile⟩ := hload
  have hmax : vmUserhi.toNat < 2 ^ 32 := by decide
  rw [BitVec.le_def, BitVec.toNat_add, hfa, hnat]
  unfold first at hfirst ⊢
  have hle : exe.toNat + h.offset.toNat / 4096 * 4096 +
      (va.toNat - h.va.toNat / 4096 * 4096) + len.toNat ≤ vmUserhi.toNat := by omega
  rw [Nat.mod_eq_of_lt (hle.trans_lt hmax)]
  exact hle

end Loadable

end ProgHdr

namespace VmLayer

variable {L : VmLayer σ} {inv : σ → Prop} {sp : Space σ} {exe : BitVec 32} {h : ProgHdr}

section Pages

variable (hL : L.Allocates inv) (hload : h.Loadable exe) (kmem : BitVec 32 → BitVec 8) (pid : ℕ)
include hL hload

theorem fillPage_writes (hs : inv sp.layer) {va fa : BitVec 32}
    (halign : va.toNat % 4096 = 0) (huser : InUser va (4096 : BitVec 32).toNat)
    (hfirst : h.first ≤ va.toNat) (hfa : fa = va + h.delta exe) :
    L.Writes inv pid sp va.toNat (va.toNat + 4096) (h.imageByte exe kmem)
      (L.fillPage kmem pid h sp va fa) := by
  have hzva := hload.toNat_zva
  have hfour : (4096 : BitVec 32).toNat = 4096 := rfl
  obtain ⟨hlo, hhi⟩ := id huser
  unfold fillPage
  split
  · -- A whole page of the file.
    next hwhole =>
    rw [BitVec.lt_def, toNat_rounddown, hzva] at hwhole
    have hne : h.filesz ≠ 0 := by
      intro hzero
      rw [hzero] at hwhole
      have hnull : (0 : BitVec 32).toNat = 0 := rfl
      unfold ProgHdr.first at hfirst
      omega
    have hkva := hload.file_end 4096 hfirst hfa (by omega)
    refine (hL.sound.writes_copyoutFrom kmem pid hs huser hkva hfa).congr fun a _ ha' => ?_
    rw [ProgHdr.imageByte, if_pos ⟨by omega, hne⟩]
  · next hnot =>
    rw [BitVec.lt_def, toNat_rounddown, hzva] at hnot
    have hzeros := hL.sound.writes_ptMemset pid hs huser 0
    split
    · -- The page in which the file ends.
      next hpart =>
      obtain ⟨hlt, hne⟩ := hpart
      rw [BitVec.lt_def, hzva] at hlt
      have hlen : (h.zva - va).toNat = h.va.toNat + h.filesz.toNat - va.toNat := by
        rw [BitVec.toNat_sub_of_le (BitVec.le_def.mpr (by omega)), hzva]
      have hkva := hload.file_end (h.zva - va) hfirst hfa (by omega)
      have huser' : InUser va (h.zva - va).toNat := ⟨by omega, by omega⟩
      have hpart := hL.sound.writes_copyoutFrom kmem pid hzeros.inv huser' hkva hfa
      refine (hzeros.overwrite hpart (by omega) ⟨hlo, hhi⟩).congr fun a ha ha' => ?_
      by_cases hin : a.toNat < va.toNat + (h.zva - va).toNat
      · rw [if_pos hin, ProgHdr.imageByte, if_pos ⟨by omega, hne⟩]
      · rw [if_neg hin, ProgHdr.imageByte, if_neg fun hboth => hin (by omega)]
    · -- Behind the end of the file.
      next hbehind =>
      rw [BitVec.lt_def, hzva, not_and_or, not_not] at hbehind
      refine hzeros.congr fun a ha _ => ?_
      rw [ProgHdr.imageByte, if_neg]
      rintro ⟨hlt, hne⟩
      exact hbehind.elim (fun hle => hle (by omega)) hne

theorem loadPage_writes (hs : inv sp.layer) {va fa : BitVec 32} (halign : va.toNat % 4096 = 0)
    (hfirst : h.first ≤ va.toNat) (hend : va.toNat + 4096 ≤ h.last) (hfa : fa = va + h.delta exe) :
    L.Writes inv pid sp va.toNat (va.toNat + 4096) (h.imageByte exe kmem)
      (L.loadPage kmem pid h sp va fa) := by
  obtain ⟨hlo, hhi⟩ := hload.window
  have hfour : (4096 : BitVec 32).toNat = 4096 := rfl
  have hva : InWindow va.toNat := ⟨by omega, by omega⟩
  have huser : InUser va (4096 : BitVec 32).toNat := ⟨by omega, by omega⟩
  refine hL.writes_alloc hs halign hva h.perm_present fun hinv => ?_
  exact fillPage_writes hL hload kmem pid hinv halign huser hfirst hfa

theorem loadPages_writes (n : ℕ) (hs : inv sp.layer) {va fa : BitVec 32}
    (halign : va.toNat % 4096 = 0) (hfirst : h.first ≤ va.toNat) (hlast : va.toNat ≤ h.last)
    (hfa : fa = va + h.delta exe) (hfuel : h.last - va.toNat ≤ n * 4096) :
    ∃ sp', L.loadPages kmem pid h n sp va fa = some sp' ∧
      L.Writes inv pid sp va.toNat h.last (h.imageByte exe kmem) sp' := by
  have heva := hload.toNat_eva
  have hiff : va < h.eva ↔ va.toNat < h.last := by rw [BitVec.lt_def, heva]
  induction n generalizing sp va fa with
  | zero =>
    have heq : h.last = va.toNat := by omega
    rw [loadPages, if_neg (by rw [hiff]; omega), heq]
    exact ⟨sp, rfl, .nothing hs⟩
  | succ n ih =>
    rw [loadPages]
    by_cases hlt : va.toNat < h.last
    · obtain ⟨hlo, hhi⟩ := hload.window
      have hend : va.toNat + 4096 ≤ h.last := by
        unfold ProgHdr.last at hlt ⊢
        omega
      have hpage := loadPage_writes hL hload kmem pid hs halign hfirst hend hfa
      have hnext : (va + 4096).toNat = va.toNat + 4096 := by
        have hmax : vmUserhi.toNat = 0xf0000000 := rfl
        have hfour : (4096 : BitVec 32).toNat = 4096 := rfl
        rw [BitVec.toNat_add, hfour]
        omega
      have hfa' : fa + 4096 = va + 4096 + h.delta exe := by
        rw [hfa]
        ac_rfl
      have hiff' : va + 4096 < h.eva ↔ (va + 4096).toNat < h.last := by rw [BitVec.lt_def, heva]
      obtain ⟨sp', hpages, hwrites⟩ := ih hpage.inv (by omega) (by omega) (by omega) hfa'
        (by omega) hiff'
      rw [hnext] at hwrites
      rw [if_pos (hiff.mpr hlt)]
      exact ⟨sp', hpages, hpage.trans hwrites (by omega) hend ⟨by omega, hhi⟩⟩
    · have heq : h.last = va.toNat := by omega
      rw [if_neg (by rw [hiff]; exact hlt), heq]
      exact ⟨sp, rfl, .nothing hs⟩

theorem loadSegment_writes (hs : inv sp.layer) : ∃ sp', L.loadSegment kmem pid exe sp h = some sp' ∧
      L.Writes inv pid sp h.first h.last (h.imageByte exe kmem) sp' := by
  have hfirst : (rounddown h.va 4096).toNat = h.first := toNat_rounddown h.va
  obtain ⟨hlo, hhi⟩ := hload.window
  have hmax : vmUserhi.toNat = 0xf0000000 := rfl
  have hle : h.first ≤ h.last := by
    unfold ProgHdr.first ProgHdr.last
    omega
  have halign : h.first % 4096 = 0 := by
    unfold ProgHdr.first
    omega
  have hfa : exe + rounddown h.offset 4096 = rounddown h.va 4096 + h.delta exe := by
    rw [ProgHdr.delta, BitVec.add_comm (rounddown h.va 4096), BitVec.sub_add_cancel]
  have hpages := loadPages_writes hL hload kmem pid (2 ^ 20) hs (by omega) (by omega) (by omega)
    hfa (by omega)
  rwa [hfirst] at hpages

end Pages

/-- After the segments were loaded their pages have their bytes, and the bytes of other pages are
what they were. -/
structure Loads (L : VmLayer σ) (inv : σ → Prop) (kmem : BitVec 32 → BitVec 8) (pid : ℕ)
    (exe : BitVec 32) (hdrs : List ProgHdr) (sp sp' : Space σ) : Prop where
  inv : inv sp'.layer
  image : ∀ h ∈ hdrs, h.IsLoad → ∀ a : BitVec 32, h.first ≤ a.toNat → a.toNat < h.last →
    L.Shows sp' pid a (h.imageByte exe kmem a)
  kept : ∀ (a : BitVec 32) (b : BitVec 8), InWindow a.toNat →
    (∀ h ∈ hdrs, h.IsLoad → ¬ (h.first ≤ a.toNat ∧ a.toNat < h.last)) →
    L.Shows sp pid a b → L.Shows sp' pid a b

end VmLayer

def ProgHdr.Apart (h h' : ProgHdr) : Prop :=
  h.IsLoad → h'.IsLoad → h.last ≤ h'.first ∨ h'.last ≤ h.first

namespace VmLayer

variable {L : VmLayer σ} {inv : σ → Prop} {kmem : BitVec 32 → BitVec 8} {pid : ℕ}
  {exe : BitVec 32} {h : ProgHdr} {hdrs : List ProgHdr} {sp sp₁ sp' : Space σ}

theorem Loads.cons (hload : h.Loadable exe)
    (hwrites : L.Writes inv pid sp h.first h.last (h.imageByte exe kmem) sp₁)
    (hrest : L.Loads inv kmem pid exe hdrs sp₁ sp') (hseg : h.IsLoad)
    (hapart : ∀ h' ∈ hdrs, h.Apart h') : L.Loads inv kmem pid exe (h :: hdrs) sp sp' := by
  obtain ⟨hlo, hhi⟩ := hload.window
  refine ⟨hrest.inv, fun h' hmem hseg' a ha ha' => ?_, fun a b hwin hnot hshows => ?_⟩
  · obtain rfl | hmem := List.mem_cons.mp hmem
    · refine hrest.kept a _ ⟨hlo.trans ha, ha'.trans_le hhi⟩ (fun x hx hxseg hin => ?_)
        (hwrites.written a ha ha')
      have hsep := hapart x hx hseg hxseg
      omega
    · exact hrest.image h' hmem hseg' a ha ha'
  · exact hrest.kept a b hwin (fun x hx => hnot x (List.mem_cons_of_mem h hx))
      (hwrites.kept a b hwin (hnot h List.mem_cons_self hseg) hshows)

theorem Loads.skip (hrest : L.Loads inv kmem pid exe hdrs sp sp') (hseg : ¬ h.IsLoad) :
    L.Loads inv kmem pid exe (h :: hdrs) sp sp' := by
  refine ⟨hrest.inv, fun h' hmem hseg' => ?_, fun a b hwin hnot =>
    hrest.kept a b hwin fun x hx => hnot x (List.mem_cons_of_mem h hx)⟩
  obtain rfl | hmem := List.mem_cons.mp hmem
  · exact absurd hseg' hseg
  · exact hrest.image h' hmem hseg'

theorem loadSegments_loads (hL : L.Allocates inv) (pid : ℕ) (hs : inv sp.layer)
    {eph ph : BitVec 32} {n : ℕ} (htable : ph.toNat + 32 * n = eph.toNat)
    (hload : ∀ h ∈ progHdrs kmem n ph, h.IsLoad → h.Loadable exe)
    (hapart : (progHdrs kmem n ph).Pairwise ProgHdr.Apart) :
    ∃ sp', L.loadSegments kmem pid exe eph n sp ph = some sp' ∧
      L.Loads inv kmem pid exe (progHdrs kmem n ph) sp sp' := by
  induction n generalizing sp ph with
  | zero =>
    refine ⟨sp, ?_, hs, fun h hmem => absurd hmem List.not_mem_nil, fun _ _ _ _ hshows => hshows⟩
    rw [loadSegments, if_neg]
    rw [BitVec.lt_def]
    omega
  | succ n ih =>
    have hlt : ph < eph := by
      rw [BitVec.lt_def]
      omega
    have hnext : (ph + 32).toNat + 32 * n = eph.toNat := by
      have hbound := eph.isLt
      have hsize : (32 : BitVec 32).toNat = 32 := rfl
      rw [BitVec.toNat_add, hsize]
      omega
    obtain ⟨hfirst, hpairs⟩ := List.pairwise_cons.mp hapart
    have hload' := fun h hmem => hload h (List.mem_cons_of_mem (ProgHdr.read kmem ph) hmem)
    rw [loadSegments, if_pos hlt]
    dsimp only
    by_cases hseg : (ProgHdr.read kmem ph).IsLoad
    · have hone := hload _ List.mem_cons_self hseg
      obtain ⟨sp₁, hsegment, hwrites⟩ := loadSegment_writes hL hone kmem pid hs
      obtain ⟨sp', hrest, hloads⟩ := ih hwrites.inv hnext hload' hpairs
      rw [if_neg (not_not_intro hseg), hsegment]
      exact ⟨sp', hrest, hloads.cons hone hwrites hseg hfirst⟩
    · obtain ⟨sp', hrest, hloads⟩ := ih hs hnext hload' hpairs
      rw [if_pos hseg]
      exact ⟨sp', hrest, hloads.skip hseg⟩

end VmLayer

/-- The program at an address passes the assertions of `elf_load`, and its table of program
headers does not wrap around. -/
structure IsElf (kmem : BitVec 32 → BitVec 8) (exe : BitVec 32) : Prop where
  magic : (ElfHdr.read kmem exe).magic = 0x464C457F
  shstrndx : (ElfHdr.read kmem exe).shstrndx ≠ 0
  strtab : readWord kmem
    (exe + (ElfHdr.read kmem exe).shoff + 40 * (ElfHdr.read kmem exe).shstrndx + 4) = 3
  table : exe.toNat + (ElfHdr.read kmem exe).phoff.toNat +
    32 * (ElfHdr.read kmem exe).phnum.toNat < 2 ^ 32

theorem ProgHdr.inside (h : ProgHdr) :
    h.first ≤ h.va.toNat ∧ h.va.toNat + h.memsz.toNat ≤ h.last := by
  unfold first last
  omega

theorem ProgHdr.imageByte_zero (h : ProgHdr) (exe : BitVec 32) (kmem : BitVec 32 → BitVec 8)
    {a : BitVec 32} (ha : h.va.toNat + h.filesz.toNat ≤ a.toNat) : h.imageByte exe kmem a = 0 := by
  rw [imageByte, if_neg]
  rintro ⟨hlt, -⟩
  omega

namespace ProgHdr.Loadable

variable {h : ProgHdr} {exe : BitVec 32} (hload : h.Loadable exe)
include hload

theorem toNat_va_add {k : ℕ} (hk : k < h.memsz.toNat) :
    (h.va + BitVec.ofNat 32 k).toNat = h.va.toNat + k := by
  have hhi := hload.hi
  have hmax : vmUserhi.toNat < 2 ^ 32 := by decide
  rw [BitVec.toNat_add, BitVec.toNat_ofNat]
  omega

theorem imageByte_file (kmem : BitVec 32 → BitVec 8) {k : ℕ} (hk : k < h.filesz.toNat) :
    h.imageByte exe kmem (h.va + BitVec.ofNat 32 k) =
      kmem (exe + (h.offset + BitVec.ofNat 32 k)) := by
  have hadd := hload.toNat_va_add (hk.trans_le hload.filesz_le)
  have hne : h.filesz ≠ 0 := by
    intro hzero
    rw [hzero] at hk
    exact absurd hk (Nat.not_lt_zero k)
  have hdelta := hload.toNat_add_delta (a := h.va + BitVec.ofNat 32 k) (by
    rw [hadd]
    exact h.inside.1.trans (Nat.le_add_right _ _)) (by omega)
  rw [imageByte, if_pos ⟨by omega, hne⟩]
  congr 1
  apply BitVec.eq_of_toNat_eq
  obtain ⟨hmod, -, -, -, hfile⟩ := hload
  have hmax : vmUserhi.toNat < 2 ^ 32 := by decide
  rw [hdelta, hadd, BitVec.toNat_add, BitVec.toNat_add, BitVec.toNat_ofNat]
  unfold first
  omega

end ProgHdr.Loadable

def elfSegments (kmem : BitVec 32 → BitVec 8) (exe : BitVec 32) : List ProgHdr :=
  progHdrs kmem (ElfHdr.read kmem exe).phnum.toNat (exe + (ElfHdr.read kmem exe).phoff)

namespace IsElf

variable {kmem : BitVec 32 → BitVec 8} {exe : BitVec 32} (helf : IsElf kmem exe)
include helf

theorem elfLoad_eq (L : VmLayer σ) (pid : ℕ) (sp : Space σ) : L.elfLoad kmem pid exe sp =
      L.loadSegments kmem pid exe
        (exe + (ElfHdr.read kmem exe).phoff + 32 * (ElfHdr.read kmem exe).phnum)
        (ElfHdr.read kmem exe).phnum.toNat sp (exe + (ElfHdr.read kmem exe).phoff) := by
  unfold VmLayer.elfLoad
  dsimp only
  rw [if_neg (not_not_intro helf.magic), if_neg helf.shstrndx, if_neg (not_not_intro helf.strtab)]

theorem toNat_table :
    (exe + (ElfHdr.read kmem exe).phoff).toNat + 32 * (ElfHdr.read kmem exe).phnum.toNat =
      (exe + (ElfHdr.read kmem exe).phoff + 32 * (ElfHdr.read kmem exe).phnum).toNat := by
  have htable := helf.table
  have hsize : (32 : BitVec 32).toNat = 32 := rfl
  have hmul : (32 * (ElfHdr.read kmem exe).phnum).toNat =
      32 * (ElfHdr.read kmem exe).phnum.toNat := by
    rw [BitVec.toNat_mul, hsize]
    omega
  have hadd : (exe + (ElfHdr.read kmem exe).phoff).toNat =
      exe.toNat + (ElfHdr.read kmem exe).phoff.toNat := by
    rw [BitVec.toNat_add]
    omega
  rw [hadd, BitVec.toNat_add, hmul, hadd]
  omega

end IsElf

/-- **`elf_load` builds the segment image.** For loadable segments that agree with the file
modulo the page size, are not smaller than their part of the file, lie in the user window and
share no page: byte `k` of each segment is byte `p_offset + k` of the file if the file has it
and 0 otherwise; and what lies behind the bytes of the file in the last page is 0, whatever the
physical page held. -/
theorem elf_load_builds_image {L : VmLayer σ} {inv : σ → Prop} (hL : L.Allocates inv)
    (sp : Space σ) (hs : inv sp.layer) {kmem : BitVec 32 → BitVec 8} {exe : BitVec 32} (pid : ℕ)
    (helf : IsElf kmem exe) (hload : ∀ h ∈ elfSegments kmem exe, h.IsLoad → h.Loadable exe)
    (hapart : (elfSegments kmem exe).Pairwise ProgHdr.Apart) :
    ∃ sp', L.elfLoad kmem pid exe sp = some sp' ∧
      ∀ h ∈ elfSegments kmem exe, h.IsLoad →
        (∀ k < h.filesz.toNat, L.Shows sp' pid (h.va + BitVec.ofNat 32 k)
          (kmem (exe + (h.offset + BitVec.ofNat 32 k)))) ∧
        (∀ k, h.filesz.toNat ≤ k → k < h.memsz.toNat →
          L.Shows sp' pid (h.va + BitVec.ofNat 32 k) 0) ∧
        ∀ a : BitVec 32, h.va.toNat + h.filesz.toNat ≤ a.toNat → a.toNat < h.eva.toNat →
          L.Shows sp' pid a 0 := by
  obtain ⟨sp', hrun, hloads⟩ := VmLayer.loadSegments_loads hL pid hs helf.toNat_table hload
    hapart
  refine ⟨sp', (helf.elfLoad_eq L pid sp).trans hrun, fun h hmem hseg => ?_⟩
  have hone := hload h hmem hseg
  have himage := hloads.image h hmem hseg
  have hfile := hone.filesz_le
  obtain ⟨hle, hend⟩ := h.inside
  refine ⟨fun k hk => ?_, fun k hk hk' => ?_, fun a ha ha' => ?_⟩
  · rw [← hone.imageByte_file kmem hk]
    have hadd := hone.toNat_va_add (hk.trans_le hone.filesz_le)
    exact himage _ (by omega) (by omega)
  · have hadd := hone.toNat_va_add hk'
    rw [← h.imageByte_zero exe kmem (a := h.va + BitVec.ofNat 32 k) (by omega)]
    exact himage _ (by omega) (by omega)
  · rw [hone.toNat_eva] at ha'
    rw [← h.imageByte_zero exe kmem ha]
    exact himage a (by omega) ha'

/-! ## A small program -/

theorem VmLayer.identityLayer_allocates : identityLayer.Allocates fun _ => True where
  entry_page := identityLayer_sound.entry_page
  distinct := identityLayer_sound.distinct
  alloc_inv _ _ _ := trivial
  alloc_present _ _ _ := by
    rw [identityLayer_present_iff]
    simp [identityLayer]
  alloc_entry _ _ _ hva _ := identityLayer_alloc_entry _ _ _ hva

def smallElf (a : BitVec 32) : BitVec 8 :=
  (List.lookup (a - 0x100000).toNat
    [(0, 0x7F), (1, 0x45), (2, 0x4C), (3, 0x46), (28, 52), (33, 1), (44, 1), (50, 1), (300, 3),
      (52, 1), (57, 2), (61, 2), (63, 0x40), (68, 4), (72, 8), (76, 6),
      (512, 1), (513, 2), (514, 3), (515, 4)]).getD 0

theorem elf_load_builds_image_of_small :
    ∃ sp', VmLayer.identityLayer.elfLoad smallElf 1 0x100000 ⟨fun _ _ => false, fun _ => 0xAA⟩ =
        some sp' ∧
      VmLayer.identityLayer.Shows sp' 1 0x40000203 4 ∧
      VmLayer.identityLayer.Shows sp' 1 0x40000204 0 ∧
      VmLayer.identityLayer.Shows sp' 1 0x40000FFF 0 := by
  have hsegments : elfSegments smallElf 0x100000 = [⟨1, 0x200, 0x40000200, 4, 8, 6⟩] := by
    decide
  have helf : IsElf smallElf 0x100000 := ⟨by decide, by decide, by decide, by decide⟩
  obtain ⟨sp', hrun, himage⟩ := elf_load_builds_image VmLayer.identityLayer_allocates
    ⟨fun _ _ => false, fun _ => 0xAA⟩ trivial 1 helf
    (by
      intro h hmem _
      rw [hsegments, List.mem_singleton] at hmem
      subst hmem
      exact ⟨by decide, by decide, by decide, by decide, by decide⟩)
    (by rw [hsegments]; exact List.pairwise_singleton _ _)
  obtain ⟨hfile, hzero, hrest⟩ := himage ⟨1, 0x200, 0x40000200, 4, 8, 6⟩
    (by rw [hsegments]; exact List.mem_singleton_self _) rfl
  exact ⟨sp', hrun, hfile 3 (by decide), hzero 4 (by decide) (by decide),
    hrest 0x40000FFF (by decide) (by decide)⟩

end MCertikos.UserMem
