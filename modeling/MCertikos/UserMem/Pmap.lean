/-
# Copying between the kernel and user memory

`pt_copyin` and `pt_copyout` check the user range they are given and then walk it page by page,
mapping a page that is not there yet.
-/

import MCertikos.Pmm.PageAlloc
import Mathlib.Algebra.Ring.Nat
import Mathlib.Data.List.Range

namespace MCertikos.UserMem

open Pmm

def vmUserlo : BitVec 32 := 0x40000000

def vmUserhi : BitVec 32 := 0xf0000000

def InWindow (a : ℕ) : Prop := vmUserlo.toNat ≤ a ∧ a < vmUserhi.toNat

structure Vm (φ : Type*) where
  frame : ℕ → ℕ → φ

/-- Which pages are mapped, the physical memory, and the user addresses the kernel has
accessed, oldest first. -/
structure Memory (φ : Type*) where
  present : ℕ → ℕ → Bool
  phys : φ → ℕ → BitVec 8
  touched : List (ℕ × BitVec 32)

def pageOf (va : BitVec 32) : ℕ := va.toNat / pagesize

def pageOffset (va : BitVec 32) : ℕ := va.toNat % pagesize

variable {φ : Type*}

/-- The pages of all processes at addresses in `P` have physical pages of their own. -/
def Vm.Owns (vm : Vm φ) (P : ℕ → Prop) : Prop :=
  ∀ pid pid' va va', P va.toNat → P va'.toNat →
    vm.frame pid (pageOf va) = vm.frame pid' (pageOf va') → pid = pid' ∧ pageOf va = pageOf va'

def Vm.OwnPages (vm : Vm φ) : Prop := vm.Owns InWindow

def span (uva : BitVec 32) (len : ℕ) : List (BitVec 32) :=
  (List.range len).map fun k => uva + BitVec.ofNat 32 k

def NoWrap (uva len : BitVec 32) : Prop := uva.toNat + len.toNat < 2 ^ 32

def pieceSize (uva : BitVec 32) (len : ℕ) : ℕ := min len (pagesize - pageOffset uva)

theorem pieceSize_pos (hlen : len ≠ 0) : 0 < pieceSize uva len := by
  have hlt : pageOffset uva < pagesize := Nat.mod_lt _ (by decide)
  unfold pieceSize
  omega

theorem pieceSize_le (uva : BitVec 32) (len : ℕ) : pieceSize uva len ≤ len := Nat.min_le_left _ _

def Accepts (uva kva len : BitVec 32) : Prop :=
  vmUserlo ≤ uva ∧ uva + len ≤ vmUserhi ∧ kva + len ≤ vmUserhi

instance (uva kva len : BitVec 32) : Decidable (Accepts uva kva len) :=
  inferInstanceAs (Decidable (_ ∧ _ ∧ _))

namespace Memory

def byteAt (m : Memory φ) (vm : Vm φ) (pid : ℕ) (va : BitVec 32) : BitVec 8 :=
  m.phys (vm.frame pid (pageOf va)) (pageOffset va)

def mapPage (m : Memory φ) (pid : ℕ) (uva : BitVec 32) : Memory φ :=
  if m.present pid (pageOf uva) then m
  else { m with
    present := Function.update m.present pid
      (Function.update (m.present pid) (pageOf uva) true) }

def touch (m : Memory φ) (pid : ℕ) (uva : BitVec 32) (len : ℕ) : Memory φ :=
  { m with touched := m.touched ++ (span uva len).map fun va => (pid, va) }

def writePage [DecidableEq φ] (m : Memory φ) (page : φ) (offset size : ℕ)
    (src : ℕ → BitVec 8) : Memory φ :=
  { m with phys := fun f o =>
      if f = page ∧ offset ≤ o ∧ o < offset + size then src (o - offset) else m.phys f o }

def copyinLoop (m : Memory φ) (vm : Vm φ) (pid : ℕ) (uva : BitVec 32) (len : ℕ) :
    Memory φ × List (BitVec 8) :=
  if len = 0 then (m, [])
  else
    let m := m.mapPage pid uva
    let size := pieceSize uva len
    let page := vm.frame pid (pageOf uva)
    let piece := (List.range size).map fun j => m.phys page (pageOffset uva + j)
    let rest := (m.touch pid uva size).copyinLoop vm pid (uva + BitVec.ofNat 32 size) (len - size)
    (rest.1, piece ++ rest.2)
termination_by len
decreasing_by
  have hpos : 0 < pieceSize uva len := pieceSize_pos ‹_›
  omega

def copyoutLoop [DecidableEq φ] (m : Memory φ) (vm : Vm φ) (src : ℕ → BitVec 8) (pid : ℕ)
    (uva : BitVec 32) (len : ℕ) : Memory φ :=
  if len = 0 then m
  else
    let size := pieceSize uva len
    let page := vm.frame pid (pageOf uva)
    let m := ((m.mapPage pid uva).touch pid uva size).writePage page (pageOffset uva) size src
    m.copyoutLoop vm (fun j => src (size + j)) pid (uva + BitVec.ofNat 32 size) (len - size)
termination_by len
decreasing_by
  have hpos : 0 < pieceSize uva len := pieceSize_pos ‹_›
  omega

def ptCopyin (m : Memory φ) (vm : Vm φ) (pid : ℕ) (uva kva len : BitVec 32) :
    Memory φ × List (BitVec 8) :=
  if Accepts uva kva len then m.copyinLoop vm pid uva len.toNat else (m, [])

def ptCopyout [DecidableEq φ] (m : Memory φ) (vm : Vm φ) (src : ℕ → BitVec 8) (pid : ℕ)
    (uva kva len : BitVec 32) : Memory φ :=
  if Accepts uva kva len then m.copyoutLoop vm src pid uva len.toNat else m

end Memory

/-! ## Ranges -/

variable {uva : BitVec 32} {len : ℕ}

@[simp] theorem length_span (uva : BitVec 32) (len : ℕ) : (span uva len).length = len := by
  simp [span]

theorem self_mem_span (hlen : 0 < len) : uva ∈ span uva len :=
  List.mem_map.mpr ⟨0, List.mem_range.mpr hlen, by simp⟩

theorem span_add (uva : BitVec 32) (first rest : ℕ) :
    span uva (first + rest) = span uva first ++ span (uva + BitVec.ofNat 32 first) rest := by
  unfold span
  rw [List.range_add, List.map_append, List.map_map]
  refine congrArg _ (List.map_congr_left fun k _ => ?_)
  rw [Function.comp_apply, BitVec.ofNat_add, BitVec.add_assoc]

theorem span_piece (uva : BitVec 32) (len : ℕ) : span uva len = span uva (pieceSize uva len) ++
      span (uva + BitVec.ofNat 32 (pieceSize uva len)) (len - pieceSize uva len) := by
  rw [← span_add, Nat.add_sub_cancel' (pieceSize_le uva len)]

theorem page_of_piece {k : ℕ} (hk : k < pieceSize uva len) :
    pageOf (uva + BitVec.ofNat 32 k) = pageOf uva ∧
      pageOffset (uva + BitVec.ofNat 32 k) = pageOffset uva + k := by
  have hlt := uva.isLt
  have hoffset : uva.toNat % 4096 + k < 4096 := by
    unfold pieceSize pageOffset pagesize at hk
    omega
  unfold pageOf pageOffset pagesize
  rw [BitVec.toNat_add, BitVec.toNat_ofNat, Nat.mod_eq_of_lt (by omega : k < 2 ^ 32),
    Nat.mod_eq_of_lt (by omega)]
  omega

theorem toNat_sub_advance (va uva : BitVec 32) {size : ℕ} (hsize : size < 2 ^ 32) :
    (va - (uva + BitVec.ofNat 32 size)).toNat =
      if (va - uva).toNat < size then 2 ^ 32 + (va - uva).toNat - size
      else (va - uva).toNat - size := by
  have hva := va.isLt
  have huva := uva.isLt
  rw [BitVec.toNat_sub, BitVec.toNat_add, BitVec.toNat_ofNat, Nat.mod_eq_of_lt hsize,
    BitVec.toNat_sub]
  split <;> omega

variable {va : BitVec 32}

theorem mem_piece_iff (hpage : pageOf va = pageOf uva) :
    (pageOffset uva ≤ pageOffset va ∧ pageOffset va < pageOffset uva + pieceSize uva len) ↔
      (va - uva).toNat < pieceSize uva len := by
  have hva := va.isLt
  have huva := uva.isLt
  unfold pageOf pagesize at hpage
  unfold pieceSize pageOffset pagesize
  rw [BitVec.toNat_sub]
  omega

theorem pageOf_eq_of_sub_lt (hlt : (va - uva).toNat < pieceSize uva len) :
    pageOf va = pageOf uva := by
  have hpage := (page_of_piece hlt).1
  rwa [BitVec.ofNat_toNat, BitVec.setWidth_eq, BitVec.add_comm, BitVec.sub_add_cancel] at hpage

theorem toNat_sub_of_page (hpage : pageOf va = pageOf uva) (hle : pageOffset uva ≤ pageOffset va) :
    (va - uva).toNat = pageOffset va - pageOffset uva := by
  have hva := va.isLt
  have huva := uva.isLt
  unfold pageOf pagesize at hpage
  unfold pageOffset pagesize at hle ⊢
  rw [BitVec.toNat_sub]
  omega

namespace Memory

variable {m : Memory φ} {vm : Vm φ} {pid : ℕ}

@[simp] theorem mapPage_phys : (m.mapPage pid uva).phys = m.phys := by
  unfold mapPage
  split <;> rfl

@[simp] theorem mapPage_touched : (m.mapPage pid uva).touched = m.touched := by
  unfold mapPage
  split <;> rfl

/-! ## What the loops do -/

theorem copyinLoop_spec (m : Memory φ) (vm : Vm φ) (pid : ℕ) (uva : BitVec 32) (len : ℕ) :
    (m.copyinLoop vm pid uva len).1.phys = m.phys ∧
    (m.copyinLoop vm pid uva len).1.touched =
      m.touched ++ (span uva len).map (fun va => (pid, va)) ∧
    (m.copyinLoop vm pid uva len).2 = (span uva len).map (m.byteAt vm pid) := by
  induction m, uva, len using copyinLoop.induct vm pid with
  | case1 m uva =>
    rw [copyinLoop, if_pos rfl]
    exact ⟨rfl, (List.append_nil _).symm, rfl⟩
  | case2 m uva len hlen m' size ih =>
    obtain ⟨hphys, htouched, hbytes⟩ := ih
    rw [copyinLoop, if_neg hlen]
    refine ⟨?_, ?_, ?_⟩
    · exact hphys.trans mapPage_phys
    · refine htouched.trans ?_
      rw [span_piece uva len, List.map_append, ← List.append_assoc]
      exact congrArg (· ++ _ ++ _) mapPage_touched
    · rw [span_piece uva len, List.map_append]
      refine congrArg₂ (· ++ ·) ?_ (hbytes.trans ?_)
      · refine Eq.trans ?_ (List.map_map ..).symm
        refine List.map_congr_left fun k hk => ?_
        obtain ⟨hpage, hoffset⟩ := page_of_piece (List.mem_range.mp hk)
        rw [Function.comp_apply, byteAt, hpage, hoffset]
        exact congrFun (congrFun mapPage_phys _) _
      · refine List.map_congr_left fun va _ => ?_
        exact congrFun (congrFun mapPage_phys _) _

variable [DecidableEq φ] {src : ℕ → BitVec 8}

theorem copyoutLoop_touched (m : Memory φ) (vm : Vm φ) (src : ℕ → BitVec 8) (pid : ℕ)
    (uva : BitVec 32) (len : ℕ) : (m.copyoutLoop vm src pid uva len).touched =
      m.touched ++ (span uva len).map (fun va => (pid, va)) := by
  induction m, src, uva, len using copyoutLoop.induct vm pid with
  | case1 m src uva =>
    rw [copyoutLoop, if_pos rfl]
    exact (List.append_nil _).symm
  | case2 m src uva len hlen size page m' ih =>
    rw [copyoutLoop, if_neg hlen]
    refine ih.trans ?_
    rw [span_piece uva len, List.map_append, ← List.append_assoc]
    exact congrArg (· ++ _ ++ _) mapPage_touched

variable {va : BitVec 32} {P : ℕ → Prop}

omit [DecidableEq φ] in
theorem frame_eq_iff (pid pid' len : ℕ) (hvm : vm.Owns P) (huva : P uva.toNat)
    (hva : P va.toNat) :
    (vm.frame pid' (pageOf va) = vm.frame pid (pageOf uva) ∧ pageOffset uva ≤ pageOffset va ∧
        pageOffset va < pageOffset uva + pieceSize uva len) ↔
      pid' = pid ∧ (va - uva).toNat < pieceSize uva len := by
  constructor
  · rintro ⟨hframe, hrange⟩
    obtain ⟨hpid, hpage⟩ := hvm pid' pid va uva hva huva hframe
    exact ⟨hpid, (mem_piece_iff hpage).mp hrange⟩
  · rintro ⟨rfl, hlt⟩
    have hpage := pageOf_eq_of_sub_lt hlt
    exact ⟨by rw [hpage], (mem_piece_iff hpage).mpr hlt⟩

theorem byteAt_writePage {pid' : ℕ} (hvm : vm.Owns P) (huva : P uva.toNat)
    (hva : P va.toNat) :
    (m.writePage (vm.frame pid (pageOf uva)) (pageOffset uva) (pieceSize uva len) src).byteAt
        vm pid' va = if pid' = pid ∧ (va - uva).toNat < pieceSize uva len then src (va - uva).toNat
      else m.byteAt vm pid' va := by
  have hiff := frame_eq_iff pid pid' len hvm huva hva
  unfold byteAt writePage
  dsimp only
  by_cases hin : pid' = pid ∧ (va - uva).toNat < pieceSize uva len
  · rw [if_pos hin, if_pos (hiff.mpr hin),
      toNat_sub_of_page (pageOf_eq_of_sub_lt hin.2) (hiff.mpr hin).2.1]
  · rw [if_neg hin, if_neg (mt hiff.mp hin)]

theorem copyoutLoop_byteAt {pid' : ℕ} (hvm : vm.Owns P) (hlen : len < 2 ^ 32)
    (hspan : ∀ x ∈ span uva len, P x.toNat) (hva : P va.toNat) :
    (m.copyoutLoop vm src pid uva len).byteAt vm pid' va =
      if pid' = pid ∧ (va - uva).toNat < len then src (va - uva).toNat
      else m.byteAt vm pid' va := by
  induction m, src, uva, len using copyoutLoop.induct vm pid with
  | case1 m src uva =>
    rw [copyoutLoop, if_pos rfl, if_neg (by omega)]
  | case2 m src uva len hne size page m' ih =>
    have hsize : size ≤ len := pieceSize_le uva len
    have hpos : 0 < size := pieceSize_pos hne
    have huva : P uva.toNat := hspan uva (self_mem_span (Nat.pos_of_ne_zero hne))
    rw [copyoutLoop, if_neg hne]
    refine (ih (by omega) fun x hx => hspan x ?_).trans ?_
    · rw [span_piece uva len]
      exact List.mem_append_right _ hx
    rw [show m'.byteAt vm pid' va = _ from byteAt_writePage hvm huva hva,
      toNat_sub_advance va uva (by omega)]
    have hold : ((m.mapPage pid uva).touch pid uva size).byteAt vm pid' va =
        m.byteAt vm pid' va := congrFun (congrFun mapPage_phys _) _
    rw [hold]
    -- the byte is written in this round, in a later one, or not at all
    by_cases hround : (va - uva).toNat < size
    · rw [if_pos hround, if_neg (by omega)]
      exact if_congr (and_congr_right fun _ => ⟨fun _ => by omega, fun _ => hround⟩) rfl rfl
    · rw [if_neg hround, if_neg fun hin : _ ∧ _ < pieceSize uva len => hround hin.2]
      have hsrc : size + ((va - uva).toNat - size) = (va - uva).toNat := by omega
      exact if_congr (and_congr_right fun _ => by omega) (congrArg src hsrc) rfl

end Memory

/-! ## The entry checks -/

variable {kva n : BitVec 32}

/-- **An accepted range lies in the user window exactly if it does not wrap around.** -/
theorem Accepts.inWindow_iff (hacc : Accepts uva kva n) (hpos : 0 < n) :
    (∀ k < n.toNat, InWindow (uva.toNat + k)) ↔ NoWrap uva n := by
  obtain ⟨hlo, hhi, -⟩ := hacc
  rw [BitVec.le_def] at hlo hhi
  rw [BitVec.toNat_add] at hhi
  have hpos : 0 < n.toNat := BitVec.lt_def.mp hpos
  have hlt : vmUserhi.toNat < 2 ^ 32 := by decide
  unfold NoWrap InWindow
  constructor
  · intro hin
    have hlast := (hin (n.toNat - 1) (by omega)).2
    omega
  · intro hwrap k hk
    rw [Nat.mod_eq_of_lt hwrap] at hhi
    omega

theorem Accepts.span_inWindow (hacc : Accepts uva kva n) (hwrap : NoWrap uva n) :
    ∀ x ∈ span uva n.toNat, InWindow x.toNat := by
  intro x hx
  obtain ⟨k, hk, rfl⟩ := List.mem_map.mp hx
  have hk := List.mem_range.mp hk
  have hpos : 0 < n := BitVec.lt_def.mpr (by simpa using by omega)
  have hin := (hacc.inWindow_iff hpos).mpr hwrap k hk
  unfold NoWrap at hwrap
  rwa [BitVec.toNat_add, BitVec.toNat_ofNat, Nat.mod_eq_of_lt (by omega : k < 2 ^ 32),
    Nat.mod_eq_of_lt (by omega)]

theorem accepts_of_inWindow (hlo : vmUserlo.toNat ≤ uva.toNat)
    (hhi : uva.toNat + n.toNat ≤ vmUserhi.toNat) (hkva : kva.toNat + n.toNat ≤ vmUserhi.toNat) :
    Accepts uva kva n := by
  have hlt : vmUserhi.toNat < 2 ^ 32 := by decide
  refine ⟨BitVec.le_def.mpr hlo, BitVec.le_def.mpr ?_, BitVec.le_def.mpr ?_⟩
  · rwa [BitVec.toNat_add, Nat.mod_eq_of_lt (by omega)]
  · rwa [BitVec.toNat_add, Nat.mod_eq_of_lt (by omega)]

namespace Memory

variable {m : Memory φ} {vm : Vm φ} {pid : ℕ}

def Confined (m : Memory φ) : Prop := ∀ x ∈ m.touched, InWindow x.2.toNat

theorem Confined.append {m' : Memory φ} (hm : m.Confined)
    (hspan : ∀ x ∈ span uva n.toNat, InWindow x.toNat)
    (htouched : m'.touched = m.touched ++ (span uva n.toNat).map (fun va => (pid, va))) :
    m'.Confined := by
  intro x hx
  rw [htouched, List.mem_append, List.mem_map] at hx
  obtain hx | ⟨va, hva, rfl⟩ := hx
  · exact hm x hx
  · exact hspan va hva

theorem ptCopyin_of_accepts (hacc : Accepts uva kva n) :
    m.ptCopyin vm pid uva kva n = m.copyinLoop vm pid uva n.toNat := if_pos hacc

theorem ptCopyin_confined (hm : m.Confined) (hwrap : Accepts uva kva n → NoWrap uva n) :
    (m.ptCopyin vm pid uva kva n).1.Confined := by
  by_cases hacc : Accepts uva kva n
  · rw [ptCopyin_of_accepts hacc]
    exact hm.append (hacc.span_inWindow (hwrap hacc)) (copyinLoop_spec m vm pid uva _).2.1
  · rwa [ptCopyin, if_neg hacc]

variable [DecidableEq φ] {src : ℕ → BitVec 8}

theorem ptCopyout_of_accepts (hacc : Accepts uva kva n) :
    m.ptCopyout vm src pid uva kva n = m.copyoutLoop vm src pid uva n.toNat := if_pos hacc

theorem ptCopyout_byteAt (hvm : vm.OwnPages) (hlo : vmUserlo.toNat ≤ uva.toNat)
    (hhi : uva.toNat + n.toNat ≤ vmUserhi.toNat) (hkva : kva.toNat + n.toNat ≤ vmUserhi.toNat)
    {j : ℕ} (hj : j < n.toNat) :
    (m.ptCopyout vm src pid uva kva n).byteAt vm pid (uva + BitVec.ofNat 32 j) = src j := by
  have hacc := accepts_of_inWindow hlo hhi hkva
  have hmax : vmUserhi.toNat < 2 ^ 32 := by decide
  have hspan := hacc.span_inWindow (Nat.lt_of_le_of_lt hhi hmax)
  have hva := hspan _ (List.mem_map_of_mem (List.mem_range.mpr hj))
  have hsub : (uva + BitVec.ofNat 32 j - uva).toNat = j := by
    rw [BitVec.add_comm, BitVec.add_sub_cancel, BitVec.toNat_ofNat, Nat.mod_eq_of_lt (by omega)]
  rw [ptCopyout_of_accepts hacc, copyoutLoop_byteAt hvm n.isLt hspan hva, hsub]
  exact if_pos ⟨rfl, hj⟩

theorem ptCopyout_confined (hm : m.Confined) (hwrap : Accepts uva kva n → NoWrap uva n) :
    (m.ptCopyout vm src pid uva kva n).Confined := by
  by_cases hacc : Accepts uva kva n
  · rw [ptCopyout_of_accepts hacc]
    exact hm.append (hacc.span_inWindow (hwrap hacc)) (copyoutLoop_touched m vm src pid uva _)
  · rwa [ptCopyout, if_neg hacc]

end Memory

end MCertikos.UserMem
