/-
# Appending to a file of the image

`iappend` works on a copy of the inode.
-/

import MCertikos.Mkfs.Blocks
import Mathlib.Data.List.GetD

namespace MCertikos.Mkfs

open FS
open Math
open Sysfile (Byte)

section Blocks

variable {s s' : Image} {d d' : Dinode} {i p count bn : ℕ} {x : Sector}
  {owner : ℕ × ℕ → Option ℕ}

/-! ## Writing bytes -/

namespace Located

variable (h : Located i owner count s d bn x d' s') (hmax : bn < maxfile)

include h hmax

theorem blockAt_self : d'.blockAt s'.view.cache bn = x := by
  rw [h.slots_eq bn hmax, Function.update_self]

theorem exists_block : ∃ b, x = BitVec.ofNat 32 b ∧ geometry.DataUsed s'.view b := by
  have hself := h.blockAt_self hmax
  obtain ⟨b, hb, -, hused⟩ := h.accounted.exists_block (hself.symm ▸ h.ne_zero)
  exact ⟨b, hself.symm.trans hb, hused⟩

theorem plain : Plain geometry x := by
  obtain ⟨b, rfl, hused⟩ := h.exists_block hmax
  exact hused.1.plain

theorem view_write (buf : Block) : (s'.write x buf).view = s'.view.put x buf :=
  Mkfs.view_write (plain_ne_bitmap (h.plain hmax)) buf

theorem ready_write (buf : Block) : Ready (s'.write x buf) := by
  obtain ⟨b, rfl, hused⟩ := h.exists_block hmax
  exact h.ready.write hused.1.plain (h.ready.toNat_lt hused).2 buf

theorem blockAt_write
    (buf : Block) : d'.blockAt (s'.write x buf).view.cache = d'.blockAt s'.view.cache := by
  have hself := h.blockAt_self hmax
  refine Dinode.blockAt_congr (fun _ => rfl) fun hind => ?_
  have hne : d'.addr ndirect ≠ x := by
    rw [← hself, ← Dinode.blockAt_maxfile d' s'.view.cache]
    intro heq
    rw [Dinode.blockAt_maxfile] at heq
    have hinj := h.accounted.blockAt_inj (p := bn) (q := maxfile) (hself.symm ▸ h.ne_zero)
      (by rw [Dinode.blockAt_maxfile, heq])
    omega
  rw [h.view_write hmax, Fs.put_of_ne hne]

theorem kept (buf : Block) : Kept geometry i owner s.view (s'.write x buf).view := by
  intro sec hsec
  have hne := h.accounted.ne_of_foreign hsec bn
  have hne' := h.accounted.ne_of_foreign hsec maxfile
  rw [h.blockAt_self hmax] at hne
  rw [Dinode.blockAt_maxfile] at hne'
  rw [h.view_write hmax, Fs.put_of_ne hne, h.frame sec hsec.plain hne']

theorem fileByte_of_ne (hacc : Accounted geometry (withFile i owner (d.refs s.view.cache)) s.view)
    (hshaped : Shaped d s.view.cache count) (buf : Block) {o : ℕ}
    (ho : o / bsize < count) (hne : o / bsize ≠ bn) :
    (s'.write x buf).view.fileByte d' o = s.view.fileByte d o := by
  have hp : o / bsize < maxfile := Nat.lt_of_lt_of_le ho hshaped.count_le
  have hslot : d'.blockAt s'.view.cache (o / bsize) = d.blockAt s.view.cache (o / bsize) := by
    rw [h.slots_eq _ hp, Function.update_of_ne hne]
  obtain ⟨hplain, hother, hindirect⟩ := hacc.other_block h.accounted hp hne hslot
    ((hshaped.slots _ hp).mpr ho)
  rw [h.blockAt_self hmax] at hother
  rw [Fs.fileByte, h.blockAt_write hmax, hslot, h.view_write hmax, Fs.put_of_ne hother,
    h.frame _ hplain hindirect, Fs.fileByte]

theorem fileByte_of_eq {first m o : ℕ} {src : ℕ → Byte} (ho : o / bsize = bn) :
    (s'.write x ((s'.view.cache x).memmove first m src)).view.fileByte d' o =
      if first ≤ o % bsize ∧ o % bsize < first + m then src (o % bsize - first)
      else if bn < count then s.view.fileByte d o else 0 := by
  have hself := h.blockAt_self hmax
  rw [Fs.fileByte, h.blockAt_write hmax, ho, hself, h.view_write hmax, Fs.put_self,
    byte_memmove (Nat.mod_lt _ (by decide))]
  congr 1
  by_cases hin : bn < count
  · obtain ⟨hd, hs⟩ := h.same hin
    rw [if_pos hin, Fs.fileByte, ho, ← hd, ← hs, hself]
  · rw [if_neg hin, h.zero (Nat.le_of_not_lt hin)]
    simp [Bytes.byte]

end Located

end Blocks

theorem getD_append_eq (data p : List Byte) (o : ℕ) :
    (data ++ p).getD o 0 = if data.length ≤ o ∧ o < data.length + p.length then
      p.getD (o - data.length) 0 else data.getD o 0 := by
  by_cases hlt : o < data.length
  · rw [if_neg (by omega), List.getD_append _ _ _ _ hlt]
  · rw [List.getD_append_right _ _ _ _ (Nat.le_of_not_lt hlt)]
    by_cases hin : o < data.length + p.length
    · rw [if_pos ⟨Nat.le_of_not_lt hlt, hin⟩]
    · rw [if_neg (by omega), List.getD_eq_default _ _ (by omega),
        List.getD_eq_default _ _ (by omega)]

/-- A state of the loop of `iappend` on inode `i`, which was `d₀` in the image `s₀`: the file
has the bytes `data`, and the inode is `d`. -/
structure Appending (s₀ : Image) (d₀ : Dinode) (i : ℕ) (data : List Byte) (d : Dinode)
    (s : Image) : Prop where
  ready : Ready s
  accounted : Accounted geometry
    (withFile i (refs geometry s₀.view) (d.refs s.view.cache)) s.view
  shaped : Shaped d s.view.cache (fileSlots data.length)
  bytes : ∀ o, o / bsize < fileSlots data.length → s.view.fileByte d o = data.getD o 0
  free : s.freeblock + blocksFor (fileSlots d₀.size.toNat) =
    s₀.freeblock + blocksFor (fileSlots data.length)
  fields : d = { d₀ with addrs := d.addrs }
  inode_eq : s.freeinode = s₀.freeinode
  kept : Kept geometry i (refs geometry s₀.view) s₀.view s.view

section Append

variable {s₀ s : Image} {d₀ d : Dinode} {i : ℕ} {data p : List Byte} {room : Prop}
  {fail : Failure → Prop}

theorem max_fileSlots {off n : ℕ} (hn : 0 < n) (hle : n ≤ bsize - off % bsize) :
    max (fileSlots off) (off / bsize + 1) = fileSlots (off + n) := by
  unfold fileSlots bsize at *
  omega

theorem div_le_fileSlots (off : ℕ) : off / bsize ≤ fileSlots off := by
  unfold fileSlots bsize
  omega

theorem Appending.write {s' : Image} {x : Sector} (h : Appending s₀ d₀ i data d s)
    (hp : 0 < p.length) (hle : p.length ≤ bsize - data.length % bsize)
    (hmax : data.length / bsize < maxfile)
    (hlocated : Located i (refs geometry s₀.view) (fileSlots data.length) s d
      (data.length / bsize) x d' s') :
    Appending s₀ d₀ i (data ++ p) d' (s'.write x ((s'.view.cache x).memmove
      (data.length % bsize) p.length fun j => p.getD j 0)) := by
  have hcount := max_fileSlots hp hle
  have hlength : (data ++ p).length = data.length + p.length := List.length_append
  generalize hbuf : (s'.view.cache x).memmove (data.length % bsize) p.length
    (fun j => p.getD j 0) = buf
  have hready := hlocated.ready_write hmax buf
  have hblockAt := hlocated.blockAt_write hmax buf
  have hrefs : d'.refs (s'.write x buf).view.cache = d'.refs s'.view.cache := by
    funext q
    rw [Dinode.refs, hblockAt, Dinode.refs]
  refine ⟨hready, ?_, ?_, fun o ho => ?_, ?_, ?_, hlocated.inode_eq.trans h.inode_eq,
    h.kept.trans (hlocated.kept hmax buf)⟩
  · rw [hrefs]
    exact hlocated.ready.accounted_of hready rfl hlocated.accounted
  · obtain ⟨hcount_le, hslots, hind⟩ := hlocated.shaped
    rw [hlength, ← hcount]
    refine ⟨hcount_le, ?_, hind⟩
    rw [hblockAt]
    exact hslots
  · rw [hlength, ← hcount] at ho
    rw [getD_append_eq]
    by_cases heq : o / bsize = data.length / bsize
    · rw [← hbuf, hlocated.fileByte_of_eq hmax heq]
      have hiff := mem_block_iff (o := o) hle
      by_cases hnew : data.length ≤ o ∧ o < data.length + p.length
      · rw [if_pos hnew, if_pos (hiff.mp hnew).2, mod_sub_mod heq]
      · rw [if_neg hnew, if_neg fun hin => hnew (hiff.mpr ⟨heq, hin⟩)]
        by_cases hin : data.length / bsize < fileSlots data.length
        · rw [if_pos hin, h.bytes o (heq ▸ hin)]
        · have hend : data.length ≤ o := by
            unfold fileSlots bsize at *
            omega
          rw [if_neg hin, List.getD_eq_default _ _ hend]
    · have hlt : o / bsize < fileSlots data.length := by
        have hbn := div_le_fileSlots data.length
        omega
      have hout : ¬ (data.length ≤ o ∧ o < data.length + p.length) := by
        unfold fileSlots bsize at *
        omega
      rw [if_neg hout, hlocated.fileByte_of_ne hmax h.accounted h.shaped buf hlt heq,
        h.bytes o hlt]
  · have hfree := hlocated.free
    have hfree' := h.free
    have hsame : (s'.write x buf).freeblock = s'.freeblock := rfl
    rw [hlength, ← hcount, hsame]
    omega
  · rw [hlocated.fields, h.fields]

theorem appendBlock_meets (h : Appending s₀ d₀ i data d s) (hp : 0 < p.length)
    (hle : p.length ≤ bsize - data.length % bsize) (hmax : data.length / bsize < maxfile)
    (hroom : room → s.freeblock + blocksFor (fileSlots (data ++ p).length) ≤
      geometry.dataEnd + blocksFor (fileSlots data.length)) :
    Guarded room fail (fun r => Appending s₀ d₀ i (data ++ p) r.1 r.2)
      (appendBlock d data.length p) s := by
  have hoff : data.length - data.length / bsize * bsize = data.length % bsize := by
    unfold bsize
    omega
  have hbn := div_le_fileSlots data.length
  rw [List.length_append, ← max_fileSlots hp hle] at hroom
  refine Guarded.bind_of_ok (require_of hmax) ?_
  refine Guarded.bind (n := 0) (blockFor_meets h.ready h.accounted h.shaped hbn hmax hroom)
    (fun _ => (takes_rsect _).seq fun _ => (takes_wsect _ _).seq fun _ => takes_pure _) ?_
  rintro ⟨x, d'⟩ s' (hlocated : Located i (refs geometry s₀.view) (fileSlots data.length) s d
    (data.length / bsize) x d' s')
  have hlt : x.toNat < size := by
    obtain ⟨b, rfl, hused⟩ := hlocated.exists_block hmax
    exact (hlocated.ready.toNat_lt hused).1
  have hcache := view_of_ne (s := s') (plain_ne_bitmap (hlocated.plain hmax))
  refine Guarded.bind_of_ok (rsect_of_lt hlt) (Guarded.bind_of_ok (wsect_of_lt hlt _) ?_)
  have happended := h.write hp hle hmax hlocated
  rw [hcache, ← hoff] at happended
  exact Guarded.of_meets happended

theorem appendBlocks_meets (h : Appending s₀ d₀ i data d s)
    (hroom : room → s.freeblock + blocksFor (fileSlots (data ++ p).length) ≤
      geometry.dataEnd + blocksFor (fileSlots data.length)) :
    Guarded room (fun _ => maxfile * bsize < (data ++ p).length)
      (fun r => r.1.2 = (data ++ p).length ∧ Appending s₀ d₀ i (data ++ p) r.1.1 r.2)
      (appendBlocks d data.length p) s := by
  induction hrest : p.length using Nat.strong_induction_on generalizing data d s p with
  | _ rest ih =>
    rw [appendBlocks]
    by_cases hp : 0 < p.length
    · rw [if_pos hp]
      have hpiece : (data.length / 512 + 1) * 512 - data.length =
          bsize - data.length % bsize := by
        unfold bsize
        omega
      have hmod : data.length % bsize < bsize := Nat.mod_lt _ (by decide)
      rw [hpiece]
      generalize hn : min p.length (bsize - data.length % bsize) = n
      have htake : (p.take n).length = n := by
        rw [List.length_take]
        omega
      have hsplit : data ++ p.take n ++ p.drop n = data ++ p := by
        rw [List.append_assoc, List.take_append_drop]
      have hlength : (data ++ p.take n).length = data.length + n := by
        rw [List.length_append, htake]
      have hle : (data ++ p.take n).length ≤ (data ++ p).length := by
        rw [hlength, List.length_append]
        omega
      have hmono : fileSlots (data ++ p.take n).length ≤ fileSlots (data ++ p).length :=
        fileSlots_le.mpr (hle.trans (fileSlots_le.mp (Nat.le_refl _)))
      by_cases hmax : data.length / bsize < maxfile
      · have hroom' := blocksFor_mono hmono
        refine Guarded.bind (n := 0) (appendBlock_meets (p := p.take n) h (by omega) (by omega)
          hmax fun hr => by have hroom := hroom hr; omega) (fun _ => takes_appendBlocks _ _ _) ?_
        rintro d' s' (happended : Appending s₀ d₀ i (data ++ p.take n) d' s')
        have hfree := h.free
        have hfree' := happended.free
        rw [← hlength, ← hsplit]
        refine ih _ ?_ happended ?_ rfl
        · rw [List.length_drop]
          omega
        · intro hr
          have hroom := hroom hr
          rw [hsplit]
          omega
      · have hfail : appendBlock d data.length (p.take n) s = .error .assertion := by
          unfold appendBlock require
          rw [if_neg hmax]
          rfl
        have hlong : maxfile * bsize < (data ++ p).length := by
          have hdiv := (Nat.le_div_iff_mul_le (by decide : 0 < bsize)).mp (Nat.le_of_not_lt hmax)
          rw [List.length_append]
          exact Nat.lt_of_le_of_lt hdiv (Nat.lt_add_of_pos_right hp)
        simp only [Guarded, bind, StateT.bind, hfail, Except.bind]
        exact fun _ => hlong
    · have hnil : p = [] := List.eq_nil_of_length_eq_zero (by omega)
      subst hnil
      rw [if_neg hp, List.append_nil]
      exact Guarded.of_meets ⟨rfl, h⟩

/-! ## `iappend` -/

theorem iblock_toNat_lt (hi : i < ninodes) : (iblock i).toNat < size := by
  have hlt : i / ipb + 2 < size := by
    unfold ninodes at hi
    unfold ipb size
    omega
  have hsize : size < 2 ^ 31 := size_lt
  rw [iblock, BitVec.toNat_ofNat, Nat.mod_eq_of_lt (by omega)]
  exact hlt

theorem iblock_ne_bitmap (hi : i < ninodes) : iblock i ≠ bitmap :=
  plain_ne_bitmap (plain_iblock (g := geometry) hi)

theorem rinode_of_lt (hi : i < ninodes) : rinode i s = .ok (s.view.dinode i, s) := by
  unfold rinode
  simp only [bind, StateT.bind, rsect_of_lt (iblock_toNat_lt hi), Except.bind]
  rw [Fs.dinode, view_of_ne (iblock_ne_bitmap hi)]
  rfl

def Image.setInode (s : Image) (i : ℕ) (d : Dinode) : Image :=
  s.write (iblock i) (d.encode (s.view.cache (iblock i)) (i % ipb))

theorem winode_of_lt (hi : i < ninodes) : winode i d s = .ok ((), s.setInode i d) := by
  unfold winode
  simp only [bind, StateT.bind, rsect_of_lt (iblock_toNat_lt hi), Except.bind]
  rw [wsect_of_lt (iblock_toNat_lt hi), Image.setInode, view_of_ne (iblock_ne_bitmap hi)]

theorem view_setInode (hi : i < ninodes) : (s.setInode i d).view =
      s.view.put (iblock i) (d.encode (s.view.cache (iblock i)) (i % ipb)) :=
  view_write (iblock_ne_bitmap hi) _

theorem Ready.setInode (h : Ready s) (hi : i < ninodes) : Ready (s.setInode i d) := by
  refine h.write (plain_iblock (g := geometry) hi) (fun b hb hlt => ?_) _
  have hge := h.ge
  have hblock : i / ipb + 2 < metaBlocks := by
    unfold ninodes at hi
    unfold metaBlocks bitblocks ninodes size ipb
    omega
  have hsize : size < 2 ^ 31 := size_lt
  intro heq
  have hnat := Geometry.ofNat_inj (by omega) (by omega) heq
  omega

theorem setInode_of_inData {b : ℕ} (hi : i < ninodes) (hb : geometry.InData b) :
    (s.setInode i d).view.cache (BitVec.ofNat 32 b) = s.view.cache (BitVec.ofNat 32 b) := by
  rw [view_setInode hi, Fs.put_of_ne (iblock_ne_ofNat (g := geometry) hi hb).symm]

variable {j : ℕ} {owner : ℕ × ℕ → Option ℕ} {d' : Dinode}

theorem blockAt_setInode (hi : i < ninodes)
    (hacc : Accounted geometry (withFile j owner (d.refs s.view.cache)) s.view) :
    d.blockAt (s.setInode i d').view.cache = d.blockAt s.view.cache := by
  refine Dinode.blockAt_congr (fun _ => rfl) fun hind => ?_
  obtain ⟨b, hb, hused⟩ := hacc.indirect hind
  rw [hb]
  exact setInode_of_inData hi hused.1

theorem fileByte_setInode {o : ℕ} (hi : i < ninodes)
    (hacc : Accounted geometry (withFile j owner (d.refs s.view.cache)) s.view)
    (hne : d.blockAt s.view.cache (o / bsize) ≠ 0) :
    (s.setInode i d').view.fileByte d o = s.view.fileByte d o := by
  obtain ⟨b, hb, -, hused⟩ := hacc.exists_block hne
  rw [Fs.fileByte, blockAt_setInode hi hacc, hb, setInode_of_inData hi hused.1, ← hb, Fs.fileByte]

/-- Inode `i` is a file or directory with one link that holds the bytes `data`.  The rest of its
last block is zero. -/
structure Holds (s : Fs) (i : ℕ) (type : BitVec 16) (data : List Byte) : Prop where
  type_eq : (s.dinode i).type = type
  nlink_eq : (s.dinode i).nlink = 1
  size_eq : (s.dinode i).size.toNat = data.length
  bytes : ∀ o, o / bsize < fileSlots data.length →
    s.fileByte (s.dinode i) o = data.getD o 0

/-- What `iappend` does. -/
structure Appended (s : Image) (i : ℕ) (type : BitVec 16) (data p : List Byte) (s' : Image) :
    Prop where
  ready : Ready s'
  consistent : Consistent geometry s'.view
  elsewhere : Elsewhere geometry i s.view s'.view
  holds : Holds s'.view i type (data ++ p)
  free : s'.freeblock + blocksFor (fileSlots data.length) =
    s.freeblock + blocksFor (fileSlots (data ++ p).length)
  inode_eq : s'.freeinode = s.freeinode

variable {type : BitVec 16}

theorem Holds.allocated {fs : Fs} (h : Holds fs i type data) (hi : i < ninodes)
    (htype : type ≠ 0) : InodeAllocated geometry fs i := ⟨hi, h.type_eq.symm ▸ htype⟩

theorem withFile_refs (h : InodeAllocated geometry s.view i) :
    withFile i (refs geometry s.view) ((s.view.dinode i).refs s.view.cache) =
      refs geometry s.view := by
  funext ⟨j, q⟩
  by_cases hj : j = i
  · rw [withFile, if_pos hj, hj, refs, if_pos h]
  · rw [withFile, if_neg hj]

theorem Appending.start (hready : Ready s) (hcons : Consistent geometry s.view)
    (halloc : InodeAllocated geometry s.view i) (h : Holds s.view i type data) :
    Appending s (s.view.dinode i) i data (s.view.dinode i) s where
  ready := hready
  accounted := by
    rw [withFile_refs halloc]
    exact hcons.accounted
  shaped := by
    have hshaped := hcons.shaped i halloc
    rwa [h.size_eq] at hshaped
  bytes := h.bytes
  free := by rw [h.size_eq]
  fields := rfl
  inode_eq := rfl
  kept _ _ := rfl

/-- Inode `i` is written back as `d`, and the file holds the bytes `data`. -/
structure WrittenBack (s₀ : Image) (i : ℕ) (d : Dinode) (data : List Byte) (s : Image) : Prop where
  consistent : Consistent geometry s.view
  elsewhere : Elsewhere geometry i s₀.view s.view
  dinode_eq : s.view.dinode i = d
  bytes : ∀ o, o / bsize < fileSlots data.length → s.view.fileByte d o = data.getD o 0

theorem Appending.finish (hcons : Consistent geometry s₀.view) (hi : i < ninodes)
    (htype : d₀.type ≠ 0) (h : Appending s₀ d₀ i data d s) {len : ℕ}
    (hlen : fileSlots len = fileSlots data.length) :
    WrittenBack s₀ i { d with size := BitVec.ofNat 32 len } data
      (s.setInode i { d with size := BitVec.ofNat 32 len }) := by
  generalize hd : ({ d with size := BitVec.ofNat 32 len } : Dinode) = d'
  have hlength : len ≤ maxfile * bsize := fileSlots_le.mp (hlen ▸ h.shaped.count_le)
  have hmax : maxfile * bsize < 2 ^ 32 := by decide
  have hsize : d'.size.toNat = len := by
    rw [← hd, BitVec.toNat_ofNat, Nat.mod_eq_of_lt (by omega)]
  have htype' : d'.type = d₀.type := by rw [← hd, h.fields]
  have hview := view_setInode (s := s) (d := d') hi
  have hdinode : (s.setInode i d').view.dinode i = d' := by rw [hview, dinode_put]
  have helse : Elsewhere geometry i s₀.view (s.setInode i d').view := by
    rw [hview]
    exact h.kept.elsewhere_of_put hcons.accounted hi
  have hblockAt : d'.blockAt (s.setInode i d').view.cache = d.blockAt s.view.cache := by
    rw [← blockAt_setInode hi h.accounted, ← hd]
    rfl
  have halloc : InodeAllocated geometry (s.setInode i d').view i := by
    refine ⟨hi, ?_⟩
    rw [hdinode, htype']
    exact htype
  refine ⟨hcons.of_elsewhere helse (h.ready.accounted_of (h.ready.setInode hi) rfl h.accounted)
    (fun q => ?_) fun _ => ?_, helse, hdinode, fun o ho => ?_⟩
  · rw [refs, if_pos halloc, hdinode, Dinode.refs, hblockAt, Dinode.refs]
  · obtain ⟨hle, hslots, hind⟩ := h.shaped
    rw [hdinode, hsize, hlen]
    refine ⟨hle, ?_, ?_⟩
    · rw [hblockAt]
      exact hslots
    · rw [← hd]
      exact hind
  · have hslot := (h.shaped.slots _ (Nat.lt_of_lt_of_le ho h.shaped.count_le)).mpr ho
    have hbyte : (s.setInode i d').view.fileByte d o = s.view.fileByte d o :=
      fileByte_setInode hi h.accounted hslot
    rw [← h.bytes o ho, ← hbyte, Fs.fileByte, Fs.fileByte, hblockAt,
      blockAt_setInode hi h.accounted]

/-- **`iappend`.** With room in the data area, it appends the bytes to the file, unless the
file gets too long; and it has appended them if it returns inside the data area. -/
theorem iappend_meets (hready : Ready s) (hcons : Consistent geometry s.view) (hi : i < ninodes)
    (htype : type ≠ 0) (h : Holds s.view i type data)
    (hroom : room → s.freeblock + blocksFor (fileSlots (data ++ p).length) ≤
      geometry.dataEnd + blocksFor (fileSlots data.length)) :
    Guarded room (fun _ => maxfile * bsize < (data ++ p).length)
      (fun r => Appended s i type data p r.2) (iappend i p) s := by
  refine Guarded.bind_of_ok (rinode_of_lt hi) ?_
  have hstart := Appending.start hready hcons (h.allocated hi htype) h
  rw [h.size_eq]
  refine Guarded.bind (n := 0) (appendBlocks_meets hstart hroom) (fun _ => takes_winode _ _) ?_
  rintro ⟨d, off⟩ s' ⟨(rfl : off = _), (happending : Appending s _ i (data ++ p) d s')⟩
  simp only [Guarded, winode_of_lt hi]
  have htype' : (s.view.dinode i).type ≠ 0 := h.type_eq.symm ▸ htype
  obtain ⟨hconsistent, helse, hdinode, hbytes⟩ := happending.finish hcons hi htype' rfl
  have hlength : (data ++ p).length ≤ maxfile * bsize :=
    fileSlots_le.mp happending.shaped.count_le
  have hmax : maxfile * bsize < 2 ^ 32 := by decide
  refine fun _ => ⟨happending.ready.setInode hi, hconsistent, helse, ⟨?_, ?_, ?_, ?_⟩, ?_,
    happending.inode_eq⟩
  · rw [hdinode, happending.fields, h.type_eq]
  · rw [hdinode, happending.fields, h.nlink_eq]
  · rw [hdinode, BitVec.toNat_ofNat, Nat.mod_eq_of_lt (by omega)]
  · rw [hdinode]
    exact hbytes
  · have hfree := happending.free
    rw [h.size_eq] at hfree
    exact hfree

end Append

end MCertikos.Mkfs
