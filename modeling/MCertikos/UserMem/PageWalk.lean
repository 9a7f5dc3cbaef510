/-
# User copies at the level of page table entries

`pt_copyin` and `pt_copyout` once more, as the machine runs them: the walk reads a page table
entry, masks it to the address of a physical page, adds the offset of the user address and copies
up to the end of that page.
-/

import MCertikos.UserMem.Pmap

namespace MCertikos.UserMem

open Pmm

variable {σ : Type*}

def pteP : BitVec 32 := 0x001

def pteUser : BitVec 32 := 0x001 ||| 0x004 ||| 0x002

structure VmLayer (σ : Type*) where
  /-- `get_ptbl_entry_by_va`. -/
  entry : σ → ℕ → BitVec 32 → BitVec 32
  allocPage : σ → ℕ → BitVec 32 → BitVec 32 → σ

def frameMask : BitVec 32 := 0xfffff000

def entryAddr (entry uva : BitVec 32) : BitVec 32 := (entry &&& frameMask) + uva % 4096

def chunkSize (pa len : BitVec 32) : BitVec 32 :=
  if len < 4096 - pa % 4096 then len else 4096 - pa % 4096

def copyBytes (mem : BitVec 32 → BitVec 8) (pa : BitVec 32) (src : ℕ → BitVec 8)
    (size : BitVec 32) : BitVec 32 → BitVec 8 :=
  fun a => if a - pa < size then src (a - pa).toNat else mem a

theorem copyBytes_of_lt {mem : BitVec 32 → BitVec 8} {pa size : BitVec 32}
    {src : ℕ → BitVec 8} {k : ℕ} (hk : k < size.toNat) :
    copyBytes mem pa src size (pa + BitVec.ofNat 32 k) = src k := by
  have hword : (BitVec.ofNat 32 k).toNat = k := by
    rw [BitVec.toNat_ofNat]
    exact Nat.mod_eq_of_lt (hk.trans size.isLt)
  have hsub : pa + BitVec.ofNat 32 k - pa = BitVec.ofNat 32 k := by
    rw [BitVec.add_comm, BitVec.add_sub_cancel]
  unfold copyBytes
  rw [hsub, if_pos (BitVec.lt_def.mpr (by rw [hword]; exact hk)), hword]

theorem copyBytes_of_ne {mem : BitVec 32 → BitVec 8} {pa size a : BitVec 32}
    {src : ℕ → BitVec 8} (ha : ∀ k < size.toNat, a ≠ pa + BitVec.ofNat 32 k) :
    copyBytes mem pa src size a = mem a := by
  refine if_neg fun hlt => ha (a - pa).toNat (BitVec.lt_def.mp hlt) ?_
  rw [BitVec.ofNat_toNat, BitVec.setWidth_eq, BitVec.add_comm, BitVec.sub_add_cancel]

/-! ## Entries and addresses -/

theorem toNat_mask (entry : BitVec 32) :
    (entry &&& frameMask).toNat = entry.toNat / 4096 * 4096 := by
  have hmask : entry &&& frameMask = entry >>> 12 <<< 12 := by
    have hbit : ∀ i < 32, frameMask.getLsbD i = decide (12 ≤ i) := by decide
    apply BitVec.eq_of_getLsbD_eq
    intro i hi
    rw [BitVec.getLsbD_and, hbit i hi, BitVec.getLsbD_shiftLeft, BitVec.getLsbD_ushiftRight]
    by_cases hle : 12 ≤ i
    · simp [hle, hi, Nat.add_sub_cancel' hle]
    · simp [hle]
  have hlt := entry.isLt
  rw [hmask, BitVec.toNat_shiftLeft, BitVec.toNat_ushiftRight, Nat.shiftRight_eq_div_pow,
    Nat.shiftLeft_eq, Nat.mod_eq_of_lt]
  omega

theorem toNat_entryAddr (entry uva : BitVec 32) :
    (entryAddr entry uva).toNat = entry.toNat / 4096 * 4096 + pageOffset uva := by
  have hlt := entry.isLt
  have hfour : (4096 : BitVec 32).toNat = 4096 := rfl
  unfold entryAddr pageOffset pagesize
  rw [BitVec.toNat_add, toNat_mask, BitVec.toNat_umod, hfour, Nat.mod_eq_of_lt]
  omega

theorem page_split {page page' offset offset' : ℕ} (hlt : offset < 4096)
    (hlt' : offset' < 4096) (heq : page * 4096 + offset = page' * 4096 + offset') :
    page = page' ∧ offset = offset' := by
  omega

theorem chunkSize_entryAddr (entry uva len : BitVec 32) :
    (chunkSize (entryAddr entry uva) len).toNat = pieceSize uva len.toNat := by
  have hfour : (4096 : BitVec 32).toNat = 4096 := rfl
  have hoffset : (entryAddr entry uva % 4096).toNat = uva.toNat % 4096 := by
    rw [BitVec.toNat_umod, toNat_entryAddr, hfour]
    unfold pageOffset pagesize
    omega
  have hrest : (4096 - entryAddr entry uva % 4096).toNat = 4096 - uva.toNat % 4096 := by
    rw [BitVec.toNat_sub, hoffset, hfour]
    omega
  unfold chunkSize pieceSize pageOffset pagesize
  by_cases hlt : len < 4096 - entryAddr entry uva % 4096
  · rw [if_pos hlt]
    rw [BitVec.lt_def, hrest] at hlt
    omega
  · rw [if_neg hlt, hrest]
    rw [BitVec.lt_def, hrest] at hlt
    omega

theorem chunkSize_eq (entry uva len : BitVec 32) :
    chunkSize (entryAddr entry uva) len = BitVec.ofNat 32 (pieceSize uva len.toNat) := by
  rw [← chunkSize_entryAddr entry, BitVec.ofNat_toNat, BitVec.setWidth_eq]

theorem toNat_sub_chunkSize (entry uva len : BitVec 32) :
    (len - chunkSize (entryAddr entry uva) len).toNat = len.toNat - pieceSize uva len.toNat := by
  have hle := pieceSize_le uva len.toNat
  rw [BitVec.toNat_sub_of_le, chunkSize_entryAddr]
  rw [BitVec.le_def, chunkSize_entryAddr]
  exact hle

theorem toNat_sub_chunkSize_lt (entry uva : BitVec 32) {len : BitVec 32} (hlen : ¬ len = 0) :
    (len - chunkSize (entryAddr entry uva) len).toNat < len.toNat := by
  have hne : len.toNat ≠ 0 := fun hzero => hlen (BitVec.eq_of_toNat_eq hzero)
  have hpos : 0 < pieceSize uva len.toNat := pieceSize_pos hne
  rw [toNat_sub_chunkSize]
  omega

theorem entryAddr_add (entry : BitVec 32) {uva : BitVec 32} {len k : ℕ}
    (hk : k < pieceSize uva len) :
    entryAddr entry (uva + BitVec.ofNat 32 k) = entryAddr entry uva + BitVec.ofNat 32 k := by
  have hoffset := (page_of_piece hk).2
  have hlt := (entryAddr entry (uva + BitVec.ofNat 32 k)).isLt
  rw [toNat_entryAddr, hoffset, ← Nat.add_assoc] at hlt
  have hword : k < 2 ^ 32 := Nat.lt_of_le_of_lt (Nat.le_add_left _ _) hlt
  apply BitVec.eq_of_toNat_eq
  rw [toNat_entryAddr, hoffset, BitVec.toNat_add, toNat_entryAddr, BitVec.toNat_ofNat,
    Nat.mod_eq_of_lt hword, Nat.mod_eq_of_lt hlt, Nat.add_assoc]

namespace VmLayer

variable (L : VmLayer σ)

def Present (s : σ) (pid : ℕ) (va : BitVec 32) : Prop := L.entry s pid va &&& pteP ≠ 0

instance (s : σ) (pid : ℕ) (va : BitVec 32) : Decidable (L.Present s pid va) :=
  inferInstanceAs (Decidable (_ ≠ _))

def physAddr (s : σ) (pid : ℕ) (va : BitVec 32) : BitVec 32 := entryAddr (L.entry s pid va) va

def mapPage (s : σ) (pid : ℕ) (uva : BitVec 32) : σ :=
  if L.entry s pid uva &&& pteP = 0 then L.allocPage s pid uva pteUser else s

/-! ## `pt_copyin` and `pt_copyout` -/

def copyinLoop (mem : BitVec 32 → BitVec 8) (pid : ℕ) (s : σ) (uva len : BitVec 32) :
    BitVec 32 × List (BitVec 8) × σ :=
  if len = 0 then (0, [], s)
  else
    let s := L.mapPage s pid uva
    let uvaPa := L.physAddr s pid uva
    let size := chunkSize uvaPa len
    let piece := (List.range size.toNat).map fun j => mem (uvaPa + BitVec.ofNat 32 j)
    let rest := copyinLoop mem pid s (uva + size) (len - size)
    (size + rest.1, piece ++ rest.2.1, rest.2.2)
termination_by len.toNat
decreasing_by
  exact toNat_sub_chunkSize_lt _ _ ‹_›

def copyoutLoop (src : ℕ → BitVec 8) (pid : ℕ) (s : σ) (mem : BitVec 32 → BitVec 8)
    (uva len : BitVec 32) : BitVec 32 × (BitVec 32 → BitVec 8) × σ :=
  if len = 0 then (0, mem, s)
  else
    let s := L.mapPage s pid uva
    let uvaPa := L.physAddr s pid uva
    let size := chunkSize uvaPa len
    let rest := copyoutLoop (fun j => src (size.toNat + j)) pid s
      (copyBytes mem uvaPa src size) (uva + size) (len - size)
    (size + rest.1, rest.2)
termination_by len.toNat
decreasing_by
  exact toNat_sub_chunkSize_lt _ _ ‹_›

def ptCopyin (s : σ) (mem : BitVec 32 → BitVec 8) (pid : ℕ) (uva kva len : BitVec 32) :
    BitVec 32 × List (BitVec 8) × σ :=
  if Accepts uva kva len then L.copyinLoop mem pid s uva len else (0, [], s)

/-- `pt_copyout` of the bytes `src` at `kva`: its return value, the physical memory, and the
layer. -/
def ptCopyout (s : σ) (mem : BitVec 32 → BitVec 8) (src : ℕ → BitVec 8) (pid : ℕ)
    (uva kva len : BitVec 32) : BitVec 32 × (BitVec 32 → BitVec 8) × σ :=
  if Accepts uva kva len then L.copyoutLoop src pid s mem uva len else (0, mem, s)

/-! ## What is assumed of the layer -/

/-- The states `inv` map distinct user pages of a process to distinct physical pages.
`alloc_page` maps the page it is called for, and leaves the entries that are present. -/
structure Sound (inv : σ → Prop) : Prop where
  entry_page : ∀ {s pid va va'}, inv s → pageOf va = pageOf va' →
    L.entry s pid va = L.entry s pid va'
  distinct : ∀ {s pid va va'}, inv s → InWindow va.toNat → InWindow va'.toNat →
    L.Present s pid va → L.Present s pid va' →
    L.entry s pid va &&& frameMask = L.entry s pid va' &&& frameMask → pageOf va = pageOf va'
  alloc_inv : ∀ {s pid va}, inv s → InWindow va.toNat → ¬ L.Present s pid va →
    inv (L.allocPage s pid va pteUser)
  alloc_present : ∀ {s pid va}, inv s → InWindow va.toNat → ¬ L.Present s pid va →
    L.Present (L.allocPage s pid va pteUser) pid va
  alloc_entry : ∀ {s pid va pid' va'}, inv s → InWindow va.toNat → ¬ L.Present s pid va →
    L.Present s pid' va' →
    L.entry (L.allocPage s pid va pteUser) pid' va' = L.entry s pid' va'

/-- The layer after a walk over the addresses `range` of a process: these are mapped, and
what was mapped before is mapped as it was. -/
structure Walked (inv : σ → Prop) (s : σ) (pid : ℕ) (range : List (BitVec 32)) (s' : σ) :
    Prop where
  inv : inv s'
  entry_eq : ∀ {pid' va}, L.Present s pid' va → L.entry s' pid' va = L.entry s pid' va
  present : ∀ va ∈ range, L.Present s' pid va

end VmLayer

def InUser (uva : BitVec 32) (len : ℕ) : Prop :=
  vmUserlo.toNat ≤ uva.toNat ∧ uva.toNat + len ≤ vmUserhi.toNat

theorem InUser.mem {uva : BitVec 32} {len : ℕ} (h : InUser uva len) {va : BitVec 32}
    (hva : va ∈ span uva len) :
    InWindow va.toNat ∧ uva.toNat ≤ va.toNat ∧ va.toNat < uva.toNat + len := by
  obtain ⟨k, hk, rfl⟩ := List.mem_map.mp hva
  have hk := List.mem_range.mp hk
  obtain ⟨hlo, hhi⟩ := h
  have hmax : vmUserhi.toNat < 2 ^ 32 := by decide
  have hsum : (uva + BitVec.ofNat 32 k).toNat = uva.toNat + k := by
    rw [BitVec.toNat_add, BitVec.toNat_ofNat, Nat.mod_eq_of_lt (by omega : k < 2 ^ 32),
      Nat.mod_eq_of_lt (by omega)]
  rw [hsum]
  exact ⟨⟨by omega, by omega⟩, by omega, by omega⟩

section Pieces

variable {uva : BitVec 32} {len : ℕ} (h : InUser uva len)

include h

theorem InUser.toNat_advance :
    (uva + BitVec.ofNat 32 (pieceSize uva len)).toNat = uva.toNat + pieceSize uva len := by
  obtain ⟨hlo, hhi⟩ := h
  have hle := pieceSize_le uva len
  have hmax : vmUserhi.toNat < 2 ^ 32 := by decide
  rw [BitVec.toNat_add, BitVec.toNat_ofNat,
    Nat.mod_eq_of_lt (by omega : pieceSize uva len < 2 ^ 32), Nat.mod_eq_of_lt (by omega)]

theorem InUser.piece : InUser uva (pieceSize uva len) :=
  ⟨h.1, (Nat.add_le_add_left (pieceSize_le uva len) _).trans h.2⟩

theorem InUser.advance :
    InUser (uva + BitVec.ofNat 32 (pieceSize uva len)) (len - pieceSize uva len) := by
  have hle := pieceSize_le uva len
  obtain ⟨hlo, hhi⟩ := id h
  unfold InUser
  rw [h.toNat_advance]
  omega

end Pieces

namespace VmLayer

variable {L : VmLayer σ} {inv : σ → Prop} {s s' : σ} {pid : ℕ} {uva len : BitVec 32}

theorem Sound.mapPage (hL : L.Sound inv) (hs : inv s) (huva : InWindow uva.toNat) :
    L.Walked inv s pid [uva] (L.mapPage s pid uva) := by
  unfold VmLayer.mapPage
  by_cases habsent : L.entry s pid uva &&& pteP = 0
  · have hnot : ¬ L.Present s pid uva := fun hpresent => hpresent habsent
    rw [if_pos habsent]
    refine ⟨hL.alloc_inv hs huva hnot, hL.alloc_entry hs huva hnot, fun va hva => ?_⟩
    rw [List.mem_singleton.mp hva]
    exact hL.alloc_present hs huva hnot
  · rw [if_neg habsent]
    refine ⟨hs, fun _ => rfl, fun va hva => ?_⟩
    rw [List.mem_singleton.mp hva]
    exact habsent

theorem Walked.present_of_present {range : List (BitVec 32)} (h : L.Walked inv s pid range s')
    {pid' : ℕ} {va : BitVec 32} (hva : L.Present s pid' va) : L.Present s' pid' va := by
  unfold Present
  rw [h.entry_eq hva]
  exact hva

theorem Sound.present_of_page (hL : L.Sound inv) (hs : inv s) {va va' : BitVec 32}
    (hpage : pageOf va = pageOf va') (hva : L.Present s pid va') : L.Present s pid va := by
  unfold Present
  rw [hL.entry_page hs hpage]
  exact hva

theorem Sound.walked (hL : L.Sound inv) {n : ℕ}
    (hfirst : L.Walked inv s pid [uva] (L.mapPage s pid uva))
    (hrest : L.Walked inv (L.mapPage s pid uva) pid
      (span (uva + BitVec.ofNat 32 (pieceSize uva n)) (n - pieceSize uva n)) s') :
    L.Walked inv s pid (span uva n) s' := by
  refine ⟨hrest.inv, fun hva => ?_, fun va hva => ?_⟩
  · rw [hrest.entry_eq (hfirst.present_of_present hva), hfirst.entry_eq hva]
  · rw [span_piece, List.mem_append] at hva
    obtain hva | hva := hva
    · obtain ⟨k, hk, rfl⟩ := List.mem_map.mp hva
      have hpage := (page_of_piece (List.mem_range.mp hk)).1
      have huva := hfirst.present uva (List.mem_singleton_self _)
      exact hL.present_of_page hrest.inv hpage (hrest.present_of_present huva)
    · exact hrest.present va hva

theorem Sound.physAddr_piece (hL : L.Sound inv)
    (hfirst : L.Walked inv s pid [uva] (L.mapPage s pid uva)) {range : List (BitVec 32)}
    (hrest : L.Walked inv (L.mapPage s pid uva) pid range s') {n k : ℕ} (hk : k < pieceSize uva n) :
    L.physAddr s' pid (uva + BitVec.ofNat 32 k) =
      L.physAddr (L.mapPage s pid uva) pid uva + BitVec.ofNat 32 k := by
  have hpage := (page_of_piece hk).1
  have huva := hfirst.present uva (List.mem_singleton_self _)
  unfold physAddr
  rw [hL.entry_page hrest.inv hpage, hrest.entry_eq huva, entryAddr_add _ hk]

theorem Sound.physAddr_inj (hL : L.Sound inv) (hs : inv s) {va va' : BitVec 32}
    (hva : InWindow va.toNat) (hva' : InWindow va'.toNat) (hp : L.Present s pid va)
    (hp' : L.Present s pid va') (heq : L.physAddr s pid va = L.physAddr s pid va') : va = va' := by
  have hnat := congrArg BitVec.toNat heq
  unfold physAddr at hnat
  rw [toNat_entryAddr, toNat_entryAddr] at hnat
  obtain ⟨hentry, hoffset⟩ := page_split (Nat.mod_lt _ (by decide)) (Nat.mod_lt _ (by decide)) hnat
  have hframe : L.entry s pid va &&& frameMask = L.entry s pid va' &&& frameMask := by
    apply BitVec.eq_of_toNat_eq
    rw [toNat_mask, toNat_mask, hentry]
  have hpage := hL.distinct hs hva hva' hp hp' hframe
  apply BitVec.eq_of_toNat_eq
  unfold pageOf pagesize at hpage
  omega

theorem Sound.physAddr_piece_ne (hL : L.Sound inv) {n k : ℕ}
    (hwalked : L.Walked inv s pid (span uva n) s') (huser : InUser uva n)
    (hk : k < pieceSize uva n) :
    ∀ va ∈ span (uva + BitVec.ofNat 32 (pieceSize uva n)) (n - pieceSize uva n),
      L.physAddr s' pid (uva + BitVec.ofNat 32 k) ≠ L.physAddr s' pid va := by
  intro va hva heq
  have hpiece : uva + BitVec.ofNat 32 k ∈ span uva (pieceSize uva n) :=
    List.mem_map.mpr ⟨k, List.mem_range.mpr hk, rfl⟩
  have hmem : uva + BitVec.ofNat 32 k ∈ span uva n := by
    rw [span_piece]
    exact List.mem_append_left _ hpiece
  have hmem' : va ∈ span uva n := by
    rw [span_piece]
    exact List.mem_append_right _ hva
  have hsame := hL.physAddr_inj hwalked.inv (huser.mem hmem).1 (huser.mem hmem').1
    (hwalked.present _ hmem) (hwalked.present va hmem') heq
  have hbefore := (huser.piece.mem hpiece).2.2
  have hbehind := (huser.advance.mem hva).2.1
  rw [huser.toNat_advance, ← hsame] at hbehind
  omega

/-! ## The loops -/

theorem chunkSize_add (entry uva len : BitVec 32) :
    chunkSize (entryAddr entry uva) len + (len - chunkSize (entryAddr entry uva) len) = len := by
  rw [BitVec.add_comm, BitVec.sub_add_cancel]

/-- **What the loop of `pt_copyin` does.** -/
theorem Sound.copyinLoop (hL : L.Sound inv) (mem : BitVec 32 → BitVec 8) (pid : ℕ) (hs : inv s)
    (huser : InUser uva len.toNat) : ∃ s', L.copyinLoop mem pid s uva len =
        (len, (span uva len.toNat).map fun va => mem (L.physAddr s' pid va), s') ∧
      L.Walked inv s pid (span uva len.toNat) s' := by
  induction s, uva, len using VmLayer.copyinLoop.induct L mem pid with
  | case1 s uva =>
    rw [VmLayer.copyinLoop, if_pos rfl]
    exact ⟨s, rfl, hs, fun _ => rfl, fun va hva => absurd hva List.not_mem_nil⟩
  | case2 s uva len hlen s₁ uvaPa size ih =>
    have huva : InWindow uva.toNat :=
      (huser.mem (self_mem_span (Nat.pos_of_ne_zero fun hzero =>
        hlen (BitVec.eq_of_toNat_eq hzero)))).1
    have hfirst : L.Walked inv s pid [uva] (L.mapPage s pid uva) := hL.mapPage hs huva
    have hsize : size = BitVec.ofNat 32 (pieceSize uva len.toNat) := chunkSize_eq _ _ _
    have hleft : (len - size).toNat = len.toNat - pieceSize uva len.toNat :=
      toNat_sub_chunkSize _ _ _
    obtain ⟨s', hloop, hrest⟩ := ih hfirst.inv (by
      rw [hleft, hsize]
      exact huser.advance)
    rw [hleft, hsize] at hrest
    refine ⟨s', ?_, hL.walked hfirst hrest⟩
    have hcount : size + (len - size) = len := chunkSize_add _ _ _
    have hbytes : (List.range size.toNat).map (fun j => mem (uvaPa + BitVec.ofNat 32 j)) =
        (span uva (pieceSize uva len.toNat)).map fun va => mem (L.physAddr s' pid va) := by
      have hnat : size.toNat = pieceSize uva len.toNat := chunkSize_entryAddr _ _ _
      unfold span
      rw [hnat, List.map_map]
      refine List.map_congr_left fun k hk => ?_
      rw [Function.comp_apply, hL.physAddr_piece hfirst hrest (List.mem_range.mp hk)]
    have hunfold : L.copyinLoop mem pid s uva len =
        (size + (L.copyinLoop mem pid s₁ (uva + size) (len - size)).1,
          (List.range size.toNat).map (fun j => mem (uvaPa + BitVec.ofNat 32 j)) ++
            (L.copyinLoop mem pid s₁ (uva + size) (len - size)).2.1,
          (L.copyinLoop mem pid s₁ (uva + size) (len - size)).2.2) := by
      rw [VmLayer.copyinLoop, if_neg hlen]
    rw [hunfold, hloop, hcount, hbytes, hleft, hsize, span_piece uva len.toNat, List.map_append]

/-- **What the loop of `pt_copyout` does.** -/
theorem Sound.copyoutLoop (hL : L.Sound inv) (src : ℕ → BitVec 8) (mem : BitVec 32 → BitVec 8)
    (pid : ℕ) (hs : inv s) (huser : InUser uva len.toNat) :
    ∃ s' mem', L.copyoutLoop src pid s mem uva len = (len, mem', s') ∧
      L.Walked inv s pid (span uva len.toNat) s' ∧
      (∀ k < len.toNat, mem' (L.physAddr s' pid (uva + BitVec.ofNat 32 k)) = src k) ∧
      ∀ a, (∀ va ∈ span uva len.toNat, a ≠ L.physAddr s' pid va) → mem' a = mem a := by
  induction src, s, mem, uva, len using VmLayer.copyoutLoop.induct L pid with
  | case1 src s mem uva =>
    rw [VmLayer.copyoutLoop, if_pos rfl]
    exact ⟨s, mem, rfl, ⟨hs, fun _ => rfl, fun va hva => absurd hva List.not_mem_nil⟩,
      fun k hk => absurd hk (Nat.not_lt_zero k), fun _ _ => rfl⟩
  | case2 src s mem uva len hlen s₁ uvaPa size ih =>
    have hne : len.toNat ≠ 0 := fun hzero => hlen (BitVec.eq_of_toNat_eq hzero)
    have huva : InWindow uva.toNat := (huser.mem (self_mem_span (Nat.pos_of_ne_zero hne))).1
    have hfirst : L.Walked inv s pid [uva] (L.mapPage s pid uva) := hL.mapPage hs huva
    have hsize : size = BitVec.ofNat 32 (pieceSize uva len.toNat) := chunkSize_eq _ _ _
    have hnat : size.toNat = pieceSize uva len.toNat := chunkSize_entryAddr _ _ _
    have hleft : (len - size).toNat = len.toNat - pieceSize uva len.toNat :=
      toNat_sub_chunkSize _ _ _
    obtain ⟨s', mem', hloop, hrest, hwritten, hother⟩ := ih hfirst.inv (by
      rw [hleft, hsize]
      exact huser.advance)
    rw [hleft, hsize] at hrest hother
    rw [hleft] at hwritten
    have hwalked := hL.walked hfirst hrest
    have hcount : size + (len - size) = len := chunkSize_add _ _ _
    have hunfold : L.copyoutLoop src pid s mem uva len =
        (size + (L.copyoutLoop (fun j => src (size.toNat + j)) pid s₁
            (copyBytes mem uvaPa src size) (uva + size) (len - size)).1,
          (L.copyoutLoop (fun j => src (size.toNat + j)) pid s₁
            (copyBytes mem uvaPa src size) (uva + size) (len - size)).2) := by
      rw [VmLayer.copyoutLoop, if_neg hlen]
    refine ⟨s', mem', ?_, hwalked, ?_, ?_⟩
    · rw [hunfold, hloop, hcount]
    · intro k hk
      by_cases hpiece : k < pieceSize uva len.toNat
      · -- A byte of the first piece; the rest has its bytes elsewhere.
        have haddr := hL.physAddr_piece hfirst hrest hpiece
        have helse := hL.physAddr_piece_ne hwalked huser hpiece
        rw [hother _ helse, haddr, ← hsize]
        exact copyBytes_of_lt (by rwa [hnat])
      · have hlast := hwritten (k - pieceSize uva len.toNat) (by omega)
        have hk' := Nat.add_sub_cancel' (Nat.le_of_not_lt hpiece)
        rw [hsize, BitVec.add_assoc, ← BitVec.ofNat_add, ← hsize, hnat, hk'] at hlast
        rw [hlast]
        exact congrArg src hk'
    · intro a ha
      have helse : ∀ va ∈ span (uva + BitVec.ofNat 32 (pieceSize uva len.toNat))
          (len.toNat - pieceSize uva len.toNat), a ≠ L.physAddr s' pid va := by
        refine fun va hva => ha va ?_
        rw [span_piece]
        exact List.mem_append_right _ hva
      rw [hother a helse, ← hsize]
      refine copyBytes_of_ne fun k hk heq => ?_
      rw [hnat] at hk
      have hmem : uva + BitVec.ofNat 32 k ∈ span uva len.toNat :=
        List.mem_map.mpr ⟨k, List.mem_range.mpr (hk.trans_le (pieceSize_le _ _)), rfl⟩
      exact ha _ hmem (heq.trans (hL.physAddr_piece hfirst hrest hk).symm)

/-! ## The functions -/

def frames (L : VmLayer σ) (s : σ) : Vm (BitVec 32) where
  frame pid page := L.entry s pid (BitVec.ofNat 32 (page * pagesize)) &&& frameMask

def pages (mem : BitVec 32 → BitVec 8) : Memory (BitVec 32) where
  present _ _ := true
  phys frame offset := mem (frame + BitVec.ofNat 32 offset)
  touched := []

theorem Sound.byteAt_pages (hL : L.Sound inv) (hs : inv s) (mem : BitVec 32 → BitVec 8)
    (pid : ℕ) (va : BitVec 32) :
    (pages mem).byteAt (L.frames s) pid va = mem (L.physAddr s pid va) := by
  have hlt := va.isLt
  have hpage : pageOf (BitVec.ofNat 32 (pageOf va * pagesize)) = pageOf va := by
    unfold pageOf pagesize
    rw [BitVec.toNat_ofNat, Nat.mod_eq_of_lt (by omega)]
    omega
  have hoffset : BitVec.ofNat 32 (pageOffset va) = va % 4096 := by
    apply BitVec.eq_of_toNat_eq
    have hfour : (4096 : BitVec 32).toNat = 4096 := rfl
    unfold pageOffset pagesize
    rw [BitVec.toNat_ofNat, BitVec.toNat_umod, hfour, Nat.mod_eq_of_lt (by omega)]
  have hentry : L.entry s pid (BitVec.ofNat 32 (pageOf va * pagesize)) = L.entry s pid va :=
    hL.entry_page hs hpage
  have hframe : (L.frames s).frame pid (pageOf va) = L.entry s pid va &&& frameMask :=
    congrArg (· &&& frameMask) hentry
  have hphys : ∀ frame offset, (pages mem).phys frame offset =
      mem (frame + BitVec.ofNat 32 offset) := fun _ _ => rfl
  rw [Memory.byteAt, hphys, hframe, hoffset, physAddr, entryAddr]

/-- **The walk over the entries refines the walk over the pages.** For every range that does not
wrap around, `pt_copyin` returns its length if it is accepted and 0 otherwise, with the bytes
that the model of pages has for the mapping it leaves. -/
theorem Sound.ptCopyin_refines_pages (hL : L.Sound inv) (mem : BitVec 32 → BitVec 8) (pid : ℕ)
    (hs : inv s) (kva : BitVec 32) (hwrap : NoWrap uva len) :
    ∃ s', inv s' ∧ L.ptCopyin s mem pid uva kva len = (if Accepts uva kva len then len else 0,
      ((pages mem).ptCopyin (L.frames s') pid uva kva len).2, s') := by
  by_cases hacc : Accepts uva kva len
  · have huser : InUser uva len.toNat := by
      refine ⟨hacc.1, ?_⟩
      have hhi := BitVec.le_def.mp hacc.2.1
      rwa [BitVec.toNat_add, Nat.mod_eq_of_lt hwrap] at hhi
    obtain ⟨s', hloop, hwalked⟩ := hL.copyinLoop mem pid hs huser
    refine ⟨s', hwalked.inv, ?_⟩
    rw [VmLayer.ptCopyin, Memory.ptCopyin, if_pos hacc, if_pos hacc, if_pos hacc, hloop,
      ((pages mem).copyinLoop_spec (L.frames s') pid uva len.toNat).2.2]
    simp only [← hL.byteAt_pages hwalked.inv mem pid]
  · refine ⟨s, hs, ?_⟩
    rw [VmLayer.ptCopyin, Memory.ptCopyin, if_neg hacc, if_neg hacc, if_neg hacc]

theorem accepts_of_inUser {kva : BitVec 32} (huser : InUser uva len.toNat)
    (hkva : kva + len ≤ vmUserhi) : Accepts uva kva len := by
  obtain ⟨hlo, hhi⟩ := huser
  have hmax : vmUserhi.toNat < 2 ^ 32 := by decide
  refine ⟨BitVec.le_def.mpr hlo, BitVec.le_def.mpr ?_, hkva⟩
  rw [BitVec.toNat_add, Nat.mod_eq_of_lt (by omega)]
  exact hhi

/-- **User copies are exact.** For every range in the user window, whichever of its pages are
mapped: `pt_copyin` returns the length and the bytes at the physical addresses of the range, in
order; `pt_copyout` returns the length, and writes byte `k` to the physical address of `uva + k`
and no other byte of memory; and `pt_copyin` after `pt_copyout` returns the bytes written. -/
theorem user_copies_exact (hL : L.Sound inv) (hs : inv s) (mem : BitVec 32 → BitVec 8)
    (src : ℕ → BitVec 8) (pid : ℕ) {uva kva len : BitVec 32} (hlo : vmUserlo ≤ uva)
    (hhi : uva.toNat + len.toNat ≤ vmUserhi.toNat) (hkva : kva + len ≤ vmUserhi) :
    (∃ s', L.ptCopyin s mem pid uva kva len =
        (len, (span uva len.toNat).map fun va => mem (L.physAddr s' pid va), s') ∧
      L.Walked inv s pid (span uva len.toNat) s') ∧
    ∃ s' mem', L.ptCopyout s mem src pid uva kva len = (len, mem', s') ∧
      L.Walked inv s pid (span uva len.toNat) s' ∧
      (∀ k < len.toNat, mem' (L.physAddr s' pid (uva + BitVec.ofNat 32 k)) = src k) ∧
      (∀ a, (∀ k < len.toNat, a ≠ L.physAddr s' pid (uva + BitVec.ofNat 32 k)) →
        mem' a = mem a) ∧
      ∃ s'', L.ptCopyin s' mem' pid uva kva len = (len, (List.range len.toNat).map src, s'') := by
  have huser : InUser uva len.toNat := ⟨BitVec.le_def.mp hlo, hhi⟩
  have haccepts := accepts_of_inUser huser hkva
  unfold ptCopyin ptCopyout
  rw [if_pos haccepts, if_pos haccepts]
  refine ⟨hL.copyinLoop mem pid hs huser, ?_⟩
  obtain ⟨s', mem', hout, hwalked, hwritten, hother⟩ :=
    hL.copyoutLoop src mem pid hs huser
  obtain ⟨s'', hin, hagain⟩ := hL.copyinLoop mem' pid hwalked.inv huser
  refine ⟨s', mem', hout, hwalked, hwritten, fun a ha => hother a fun va hva => ?_, s'', ?_⟩
  · obtain ⟨k, hk, rfl⟩ := List.mem_map.mp hva
    exact ha k (List.mem_range.mp hk)
  · have hbytes : (span uva len.toNat).map (fun va => mem' (L.physAddr s'' pid va)) =
        (List.range len.toNat).map src := by
      unfold span
      rw [List.map_map]
      refine List.map_congr_left fun k hk => ?_
      have hpresent := hwalked.present _ (List.mem_map.mpr ⟨k, hk, rfl⟩)
      rw [Function.comp_apply, physAddr, hagain.entry_eq hpresent]
      exact hwritten k (List.mem_range.mp hk)
    rw [if_pos haccepts, hin, hbytes]

/-! ## A layer that maps user pages to themselves -/

/-- The layer whose state is the set of mapped pages; a page is mapped to the physical page
with its number. -/
def identityLayer : VmLayer (ℕ → ℕ → Bool) where
  entry s pid va := if s pid (pageOf va) then (va &&& frameMask) + 7 else 0
  allocPage s pid va _ := Function.update s pid (Function.update (s pid) (pageOf va) true)

theorem toNat_identity_entry (va : BitVec 32) :
    ((va &&& frameMask) + 7).toNat = va.toNat / 4096 * 4096 + 7 := by
  have hlt := va.isLt
  have hseven : (7 : BitVec 32).toNat = 7 := rfl
  rw [BitVec.toNat_add, toNat_mask, hseven, Nat.mod_eq_of_lt]
  omega

theorem identityLayer_entry (s : ℕ → ℕ → Bool) (pid : ℕ) (va : BitVec 32) :
    identityLayer.entry s pid va = if s pid (pageOf va) then (va &&& frameMask) + 7 else 0 := rfl

theorem identityLayer_present_iff (s : ℕ → ℕ → Bool) (pid : ℕ) (va : BitVec 32) :
    identityLayer.Present s pid va ↔ s pid (pageOf va) = true := by
  unfold Present pteP
  rw [identityLayer_entry]
  cases s pid (pageOf va) with
  | false =>
    rw [if_neg Bool.false_ne_true]
    decide
  | true =>
    refine iff_of_true (fun hzero => ?_) rfl
    have hnat := congrArg BitVec.toNat hzero
    rw [if_pos rfl, BitVec.toNat_and, toNat_identity_entry] at hnat
    have hodd : (va.toNat / 4096 * 4096 + 7) &&& 1 = 0 := hnat
    rw [Nat.and_one_is_mod] at hodd
    omega

theorem identityLayer_alloc_entry {s : ℕ → ℕ → Bool} (pid : ℕ) (va perm : BitVec 32) {pid' : ℕ}
    {va' : BitVec 32} (hva : identityLayer.Present s pid' va') :
    identityLayer.entry (identityLayer.allocPage s pid va perm) pid' va' =
      identityLayer.entry s pid' va' := by
  rw [identityLayer_present_iff] at hva
  have hkept : identityLayer.allocPage s pid va perm pid' (pageOf va') = true := by
    unfold identityLayer
    by_cases hpid : pid' = pid
    · subst hpid
      by_cases hpage : pageOf va' = pageOf va <;> simp [hpage, hva]
    · simp [hpid, hva]
  rw [identityLayer_entry, identityLayer_entry, if_pos hkept, if_pos hva]

theorem identityLayer_sound : identityLayer.Sound fun _ => True where
  entry_page {s pid va va'} _ hpage := by
    have hmask : va &&& frameMask = va' &&& frameMask := by
      apply BitVec.eq_of_toNat_eq
      unfold pageOf pagesize at hpage
      rw [toNat_mask, toNat_mask, hpage]
    rw [identityLayer_entry, identityLayer_entry, hpage, hmask]
  distinct {s pid va va'} _ _ _ hp hp' heq := by
    rw [identityLayer_present_iff] at hp hp'
    rw [identityLayer_entry, identityLayer_entry, if_pos hp, if_pos hp'] at heq
    have hnat := congrArg BitVec.toNat heq
    rw [toNat_mask, toNat_mask, toNat_identity_entry, toNat_identity_entry] at hnat
    unfold pageOf pagesize
    omega
  alloc_inv _ _ _ := trivial
  alloc_present _ _ _ := by
    rw [identityLayer_present_iff]
    simp [identityLayer]
  alloc_entry _ _ _ hva := identityLayer_alloc_entry _ _ _ hva

theorem ptCopyin_refines_pages_across_pages :
    ∃ s', identityLayer.ptCopyin (fun _ _ => false) (BitVec.setWidth 8) 1 0x40000ffe 0 4 =
      (4, ((pages (BitVec.setWidth 8)).ptCopyin (identityLayer.frames s') 1 0x40000ffe 0 4).2,
        s') := by
  have hwrap : NoWrap 0x40000ffe 4 := by unfold NoWrap; decide
  obtain ⟨s', -, heq⟩ := identityLayer_sound.ptCopyin_refines_pages (BitVec.setWidth 8) 1
    (s := fun _ _ => false) trivial 0 hwrap
  exact ⟨s', heq⟩

theorem user_copies_exact_across_pages :
    ∃ s' mem' s'', identityLayer.ptCopyout (fun _ _ => false) (fun _ => 0)
        (fun k => BitVec.ofNat 8 (k + 1)) 1 0x40000ffe 0x1000 4 = (4, mem', s') ∧
      identityLayer.ptCopyin s' mem' 1 0x40000ffe 0x1000 4 = (4, [1, 2, 3, 4], s'') := by
  have hlo : vmUserlo ≤ 0x40000ffe := by decide
  have hhi : (0x40000ffe : BitVec 32).toNat + (4 : BitVec 32).toNat ≤ vmUserhi.toNat := by decide
  have hkva : (0x1000 : BitVec 32) + 4 ≤ vmUserhi := by decide
  obtain ⟨-, s', mem', hout, -, -, -, s'', hin⟩ := user_copies_exact identityLayer_sound
    (s := fun _ _ => false) trivial (fun _ => 0) (fun k => BitVec.ofNat 8 (k + 1)) 1 hlo hhi hkva
  exact ⟨s', mem', s'', hout, hin⟩

end VmLayer

end MCertikos.UserMem
