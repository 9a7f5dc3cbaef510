/-
# The blocks that `mkfs` takes

A block that `mkfs` takes is the next one, which nothing has been written to, so the blocks in use
are always those below a counter.
-/

import MCertikos.FS.BlockOwnership
import MCertikos.Mkfs.Counters

namespace MCertikos.FS

open Math Function

/-! ## Writing a sector -/

def Fs.put (s : Fs) (sector : Sector) (data : Block) : Fs :=
  { s with cache := update s.cache sector data }

section Put

variable {g : Geometry} {s s₁ : Fs} {sector other : Sector} {data : Block} {d : Dinode} {i : ℕ}

theorem Fs.put_self : (s.put sector data).cache sector = data := update_self ..

theorem Fs.put_of_ne (h : other ≠ sector) : (s.put sector data).cache other = s.cache other :=
  update_of_ne h ..

theorem dinode_put : (s.put (iblock i) (d.encode (s.cache (iblock i)) (i % ipb))).dinode i = d := by
  rw [Fs.dinode, Fs.put_self]
  exact Dinode.decode_encode (Nat.mod_lt _ (by decide))

theorem Kept.elsewhere_of_put (hkept : Kept g i (refs g s) s s₁)
    (hacc : Accounted g (refs g s) s) (hi : i < g.ninodes) :
    Elsewhere g i s (s₁.put (iblock i) (d.encode (s₁.cache (iblock i)) (i % ipb))) :=
  hkept.elsewhere_of_encode hacc hi Fs.put_self fun _ _ hne => Fs.put_of_ne hne

end Put

end MCertikos.FS

namespace MCertikos.Mkfs

open FS Math Function
open Sysfile (Byte)

/-! ## Sectors -/

section Sectors

variable {s : Image} {sec : Sector}

theorem write_self {buf : Block} : (s.write sec buf).disk sec = buf := by
  simp only [Image.write, update_self]

theorem write_of_ne {other : Sector} {buf : Block} (h : other ≠ sec) :
    (s.write sec buf).disk other = s.disk other := update_of_ne h ..

theorem seek_of_lt (h : sec.toNat < size) : seek sec s = .ok (sec, s) := by
  unfold size at h
  have hmod : sec.toNat * 512 % 2 ^ 32 = sec.toNat * 512 := Nat.mod_eq_of_lt (by omega)
  have hlt : sec.toNat * 512 < 1024 * 512 := by omega
  unfold seek size
  rw [hmod, if_pos hlt, Nat.mul_div_cancel _ (by decide), BitVec.ofNat_toNat, BitVec.setWidth_eq]
  rfl

theorem rsect_of_lt (h : sec.toNat < size) : rsect sec s = .ok (s.disk sec, s) := by
  unfold rsect
  simp only [bind, StateT.bind, seek_of_lt h, Except.bind]
  rfl

theorem wsect_of_lt (h : sec.toNat < size) (buf : Block) :
    wsect sec buf s = .ok ((), s.write sec buf) := by
  unfold wsect
  simp only [bind, StateT.bind, seek_of_lt h, Except.bind]
  rfl

theorem require_of {p : Prop} [Decidable p] (h : p) : require p s = .ok ((), s) := by
  rw [require, if_pos h]
  rfl

end Sectors

/-! ## The image as a file system -/

theorem size_lt : size < 2 ^ 31 := by decide

theorem nlog_pos : 0 < nlog := by decide

theorem layout_le : ninodes / ipb + 3 + (size / bpb + 1) + nlog ≤ size := by decide

def geometry : Geometry := ⟨size, ninodes, nlog, size_lt, nlog_pos, layout_le⟩

def bitmap : Sector := BitVec.ofNat 32 (ninodes / ipb + 3)

theorem bitmapSector_eq {b : ℕ} (hb : b < size) : geometry.bitmapSector b = bitmap := by
  have hdiv : b / bpb = 0 := Nat.div_eq_of_lt (Nat.lt_trans hb (by decide))
  rw [Geometry.bitmapSector, hdiv, Nat.zero_add]
  rfl

def Image.view (s : Image) : Fs :=
  ⟨update s.disk bitmap (balloc s.freeblock), Log.boot geometry.region⟩

def Taken (s : Image) (b : ℕ) : Prop := metaBlocks ≤ b ∧ b < s.freeblock

structure Ready (s : Image) : Prop where
  superblock_eq : s.disk 1 = superblock.encode
  ge : metaBlocks ≤ s.freeblock
  le : s.freeblock ≤ geometry.dataEnd
  used_eq : s.usedblocks = s.freeblock
  zero : ∀ b, s.freeblock ≤ b → b < size → s.disk (BitVec.ofNat 32 b) = fun _ => 0

theorem testBit_balloc {used : ℕ} (hused : used ≤ 8 * bsize) (b : ℕ) :
    (balloc used).testBit b = decide (b < used) := by
  induction used with
  | zero =>
    simp [balloc, Bytes.testBit, Bytes.byte]
  | succ used ih =>
    have hfold : balloc (used + 1) = (balloc used).orBit used := by
      rw [balloc, List.range_succ, List.foldl_append]
      rfl
    rw [hfold, Bytes.testBit_orBit (by omega), ih (by omega)]
    rw [← Bool.decide_or, decide_eq_decide]
    omega

section View

variable {s : Image} {sec : Sector} {b : ℕ} {owner : ℕ × ℕ → Option ℕ}

theorem view_bitmap : s.view.cache bitmap = balloc s.freeblock := by
  simp only [Image.view, update_self]

theorem view_of_ne (h : sec ≠ bitmap) : s.view.cache sec = s.disk sec := update_of_ne h ..

theorem view_write (h : sec ≠ bitmap) (buf : Block) :
    (s.write sec buf).view = s.view.put sec buf := by
  unfold Image.view Image.write Fs.put
  rw [update_comm h]

theorem plain_ne_bitmap (h : Plain geometry sec) : sec ≠ bitmap := by
  have hne := h.ne_bitmap 0 (by decide)
  rw [bitmapSector_eq (by decide)] at hne
  exact hne.symm

theorem Ready.used_view (h : Ready s) (hb : b < size) :
    geometry.used s.view b = decide (b < s.freeblock) := by
  have hmod : b % bpb = b := Nat.mod_eq_of_lt (Nat.lt_trans hb (by decide))
  have hle : s.freeblock ≤ 8 * bsize := Nat.le_trans h.le (by decide)
  rw [Geometry.used, bitmapSector_eq hb, view_bitmap, hmod, testBit_balloc hle]

theorem Ready.header_zero (h : Ready s) : s.view.cache geometry.region.start = fun _ => 0 := by
  rw [view_of_ne (by decide)]
  exact h.zero geometry.dataEnd h.le (by decide)

theorem Ready.fsOk (h : Ready s) : FsOk geometry s.view where
  superblock := by
    rw [view_of_ne (by decide), h.superblock_eq, Superblock.decode_encode]
    exact ⟨rfl, rfl, rfl⟩
  region_eq := rfl
  log := by
    have hclean : geometry.region.Clean s.view.cache s.view.cache :=
      ⟨fun _ _ => rfl, by rw [h.header_zero, Bytes.word_zero]⟩
    exact hclean.logged (by decide) rfl

theorem Ready.dataUsed_iff (h : Ready s) : geometry.DataUsed s.view b ↔ Taken s b := by
  have hle := h.le
  constructor
  · rintro ⟨hdata, hused⟩
    rw [h.used_view hdata.lt_size, decide_eq_true_eq] at hused
    exact ⟨hdata.1, hused⟩
  · rintro ⟨hge, hlt⟩
    have hdata : geometry.InData b := ⟨hge, Nat.lt_of_lt_of_le hlt hle⟩
    refine ⟨hdata, ?_⟩
    rw [h.used_view hdata.lt_size, decide_eq_true hlt]

theorem Ready.accounted_iff (h : Ready s) :
    Accounted geometry owner s.view ↔ Owns owner (Taken s) := by
  constructor
  · intro hacc
    exact hacc.owns.congr fun b => h.dataUsed_iff.symm
  · intro howns
    refine ⟨h.fsOk, fun b hb => ?_, howns.congr fun b => h.dataUsed_iff⟩
    have hge : metaBlocks ≤ s.freeblock := h.ge
    have hlt : b < metaBlocks := hb
    have hsize : metaBlocks < size := by decide
    rw [h.used_view (by omega), decide_eq_true (by omega)]

theorem Ready.write (h : Ready s) (hplain : Plain geometry sec)
    (hused : ∀ b, s.freeblock ≤ b → b < size → BitVec.ofNat 32 b ≠ sec) (buf : Block) :
    Ready (s.write sec buf) where
  superblock_eq := (write_of_ne hplain.ne_one.symm).trans h.superblock_eq
  __ := h
  zero b hb hlt := (write_of_ne (hused b hb hlt)).trans (h.zero b hb hlt)

end View

/-! ## Room in the data area -/

/-- With room the computation ends as it should, and so it does wherever it returns with the
blocks taken so far in the data area. -/
def Guarded {α : Type} (room : Prop) (fail : Failure → Prop) (post : α × Image → Prop)
    (m : MkfsM α) (s : Image) : Prop :=
  Meets (fun e => room → fail e) (fun r => room ∨ r.2.freeblock ≤ geometry.dataEnd → post r) (m s)

namespace Guarded

variable {α β : Type} {room : Prop} {fail : Failure → Prop} {m : MkfsM α} {k : α → MkfsM β}
  {post post' : α × Image → Prop} {post₂ : β × Image → Prop} {s s' : Image} {a : α} {n : ℕ}

theorem of_meets (h : Meets fail post (m s)) : Guarded room fail post m s :=
  Meets.mono h (fun _ he _ => he) fun _ hr _ => hr

theorem mono {fail' : Failure → Prop} (h : Guarded room fail post m s)
    (hfail : ∀ e, fail e → fail' e) (hpost : ∀ r, post r → post' r) :
    Guarded room fail' post' m s :=
  Meets.mono h (fun e he hroom => hfail e (he hroom)) fun r hr hguard => hpost r (hr hguard)

theorem bind_of_ok (hm : m s = .ok (a, s')) (hk : Guarded room fail post₂ (k a) s') :
    Guarded room fail post₂ (m >>= k) s :=
  Meets.bind_of_ok hm hk

theorem bind (h : Guarded room fail post m s) (htakes : ∀ a, Takes n (k a))
    (hk : ∀ a s', post (a, s') → Guarded room fail post₂ (k a) s') :
    Guarded room fail post₂ (m >>= k) s := by
  refine Meets.bind_state h fun a s' hpost => ?_
  by_cases hguard : room ∨ s'.freeblock ≤ geometry.dataEnd
  · exact hk a s' (hpost hguard)
  · -- Past the data area, the counter does not come back.
    cases hrest : k a s' with
    | error e => exact fun hroom => absurd (Or.inl hroom) hguard
    | ok r =>
      have hle := (htakes a s' r.1 r.2 hrest).freeblock_le
      exact fun hend => absurd (hend.imp_right hle.trans) hguard

end Guarded

/-! ## Taking blocks -/

section Blocks

variable {s s' : Image} {d d' : Dinode} {i p : ℕ} {x : Sector} {owner : ℕ × ℕ → Option ℕ}
  {room : Prop} {fail : Failure → Prop}

theorem Ready.next (h : Ready s) (hlt : s.freeblock < geometry.dataEnd) : Ready s.next where
  superblock_eq := h.superblock_eq
  ge := Nat.le_succ_of_le h.ge
  le := hlt
  used_eq := congrArg (· + 1) h.used_eq
  zero b hb := h.zero b (Nat.le_of_succ_le hb)

theorem next_of_ne (h : x ≠ bitmap) : s.next.view.cache x = s.view.cache x := by
  rw [view_of_ne h, view_of_ne h]
  rfl

theorem Ready.accounted_of (h : Ready s) (h' : Ready s') (hfree : s'.freeblock = s.freeblock)
    (hacc : Accounted geometry owner s.view) : Accounted geometry owner s'.view := by
  rw [h'.accounted_iff]
  refine (h.accounted_iff.mp hacc).congr fun b => ?_
  rw [Taken, hfree, Taken]

theorem Ready.attach (h : Ready s) (hlt : s.freeblock < geometry.dataEnd) {mine : ℕ → Option ℕ}
    (hacc : Accounted geometry (withFile i owner mine) s.view) (hp : mine p = none) :
    Accounted geometry (withFile i owner (update mine p (some s.freeblock))) s.next.view := by
  rw [(h.next hlt).accounted_iff, withFile_update]
  refine (h.accounted_iff.mp hacc).assign ((if_pos rfl).trans hp) ?_ fun b => ?_
  · rintro ⟨-, hself⟩
    exact Nat.lt_irrefl _ hself
  · have hge := h.ge
    have hnext : s.next.freeblock = s.freeblock + 1 := rfl
    rw [Taken, Taken, hnext]
    omega

/-- Position `p` of the inode holds the sector `x`: the next block if it was empty, and if not,
nothing has changed. -/
structure Placed (i : ℕ) (owner : ℕ × ℕ → Option ℕ) (s : Image) (d : Dinode) (p : ℕ) (x : Sector)
    (d' : Dinode) (s' : Image) : Prop where
  ready : Ready s'
  accounted : Accounted geometry (withFile i owner (d'.refs s'.view.cache)) s'.view
  blockAt_eq : d'.blockAt s'.view.cache = update (d.blockAt s.view.cache) p x
  ne_zero : x ≠ 0
  same : d.blockAt s.view.cache p ≠ 0 → d' = d ∧ s' = s
  zero : d.blockAt s.view.cache p = 0 → s'.view.cache x = fun _ => 0
  free : s'.freeblock = s.freeblock + if d.blockAt s.view.cache p = 0 then 1 else 0
  fields : d' = { d with addrs := d'.addrs }
  inode_eq : s'.freeinode = s.freeinode
  frame : ∀ sec, Plain geometry sec → sec ≠ d'.addr ndirect →
    s'.view.cache sec = s.view.cache sec

theorem Placed.of_ne_zero (h : Ready s)
    (hacc : Accounted geometry (withFile i owner (d.refs s.view.cache)) s.view)
    (hp : d.blockAt s.view.cache p ≠ 0) : Placed i owner s d p (d.blockAt s.view.cache p) d s where
  ready := h
  accounted := hacc
  blockAt_eq := (update_eq_self p _).symm
  ne_zero := hp
  same _ := ⟨rfl, rfl⟩
  zero hzero := absurd hzero hp
  free := by rw [if_neg hp, Nat.add_zero]
  fields := rfl
  inode_eq := rfl
  frame _ _ _ := rfl

theorem Ready.inData (h : Ready s) (hlt : s.freeblock < geometry.dataEnd) :
    geometry.InData s.freeblock := ⟨h.ge, hlt⟩

theorem Ready.next_zero (h : Ready s) (hlt : s.freeblock < geometry.dataEnd) :
    s.next.view.cache (BitVec.ofNat 32 s.freeblock) = fun _ => 0 := by
  have hdata := h.inData hlt
  rw [view_of_ne (plain_ne_bitmap hdata.plain)]
  exact h.zero _ (Nat.le_refl _) hdata.lt_size

theorem Placed.of_next (h : Ready s) (hlt : s.freeblock < geometry.dataEnd)
    (hacc : Accounted geometry (withFile i owner (d.refs s.view.cache)) s.view)
    (hp : d.blockAt s.view.cache p = 0)
    (hblockAt : d'.blockAt s.next.view.cache =
      update (d.blockAt s.view.cache) p (BitVec.ofNat 32 s.freeblock))
    (hfields : d' = { d with addrs := d'.addrs }) :
    Placed i owner s d p (BitVec.ofNat 32 s.freeblock) d' s.next where
  ready := h.next hlt
  accounted := by
    rw [Dinode.refs_update hblockAt, (h.inData hlt).blockNumber_ofNat]
    exact h.attach hlt hacc (blockNumber_eq_none.mpr hp)
  blockAt_eq := hblockAt
  ne_zero := (h.inData hlt).ofNat_ne_zero
  same hne := absurd hp hne
  zero _ := h.next_zero hlt
  free := by
    rw [if_pos hp]
    rfl
  fields := hfields
  inode_eq := rfl
  frame _ hplain _ := next_of_ne (plain_ne_bitmap hplain)

theorem plain_indirect (hacc : Accounted geometry (withFile i owner (d.refs s.view.cache)) s.view)
    (hind : d.addr ndirect ≠ 0) : Plain geometry (d.addr ndirect) := by
  obtain ⟨b, hb, hused⟩ := hacc.indirect hind
  rw [hb]
  exact hused.1.plain

theorem addrFor_direct (h : Ready s)
    (hacc : Accounted geometry (withFile i owner (d.refs s.view.cache)) s.view) (hp : p < ndirect)
    (hroom : room → d.blockAt s.view.cache p = 0 → s.freeblock < geometry.dataEnd) :
    Guarded room fail (fun r => Placed i owner s d p r.1.1 r.1.2 r.2) (addrFor d p) s := by
  have haddr : d.blockAt s.view.cache p = d.addr p := Dinode.blockAt_of_lt hp
  unfold addrFor
  by_cases hzero : d.addr p = 0
  · rw [if_pos hzero]
    intro hguard
    have hlt := hguard.elim (hroom · (haddr.trans hzero)) id
    refine Placed.of_next h hlt hacc (haddr.trans hzero) ?_ rfl
    exact Dinode.blockAt_setAddr hp _ fun hind =>
      next_of_ne (plain_ne_bitmap (plain_indirect hacc hind))
  · rw [if_neg hzero, ← haddr]
    exact Guarded.of_meets (Placed.of_ne_zero h hacc (haddr ▸ hzero))

theorem addrFor_indirect (h : Ready s)
    (hacc : Accounted geometry (withFile i owner (d.refs s.view.cache)) s.view)
    (hroom : room → d.addr ndirect = 0 → s.freeblock < geometry.dataEnd) :
    Guarded room fail (fun r => Placed i owner s d maxfile r.1.1 r.1.2 r.2)
      (addrFor d ndirect) s := by
  have haddr : d.blockAt s.view.cache maxfile = d.addr ndirect := Dinode.blockAt_maxfile _ _
  unfold addrFor
  by_cases hzero : d.addr ndirect = 0
  · rw [if_pos hzero]
    intro hguard
    have hlt := hguard.elim (hroom · hzero) id
    refine Placed.of_next h hlt hacc (haddr.trans hzero) ?_ rfl
    exact Dinode.blockAt_setAddr_indirect hzero (h.next_zero hlt)
  · rw [if_neg hzero, ← haddr]
    exact Guarded.of_meets (Placed.of_ne_zero h hacc (haddr ▸ hzero))

theorem Ready.toNat_lt {b : ℕ} (h : Ready s) (hused : geometry.DataUsed s.view b) :
    (BitVec.ofNat 32 b).toNat < size ∧
      ∀ c, s.freeblock ≤ c → c < size → BitVec.ofNat 32 c ≠ BitVec.ofNat 32 b := by
  have hsize : b < size := hused.1.lt_size
  have hlt := (h.dataUsed_iff.mp hused).2
  have hsize' : size < 2 ^ 31 := size_lt
  constructor
  · rw [BitVec.toNat_ofNat, Nat.mod_eq_of_lt (by omega)]
    exact hsize
  · intro c hc hcsize heq
    have hnat := Geometry.ofNat_inj (by omega) (by omega) heq
    omega

theorem Placed.of_entry (h : Ready s) (hlt : s.freeblock < geometry.dataEnd)
    (hacc : Accounted geometry (withFile i owner (d.refs s.view.cache)) s.view)
    (hp : ndirect ≤ p) (hmax : p < maxfile) (hind : d.addr ndirect ≠ 0)
    (hempty : d.blockAt s.view.cache p = 0) : Placed i owner s d p (BitVec.ofNat 32 s.freeblock) d
      (s.next.write (d.addr ndirect) ((s.view.cache (d.addr ndirect)).setWord (p - ndirect)
        (BitVec.ofNat 32 s.freeblock))) := by
  obtain ⟨b, hb, hused⟩ := hacc.indirect hind
  have hplain := plain_indirect hacc hind
  have hbitmap := plain_ne_bitmap hplain
  have hbelow : ∀ c, s.freeblock ≤ c → c < size → BitVec.ofNat 32 c ≠ d.addr ndirect :=
    hb ▸ (h.toNat_lt hused).2
  have hdata := h.inData hlt
  generalize hbuf : (s.view.cache (d.addr ndirect)).setWord (p - ndirect)
    (BitVec.ofNat 32 s.freeblock) = buf
  have hready := (h.next hlt).write hplain (fun c hc => hbelow c (Nat.le_of_succ_le hc)) buf
  have hview := view_write (s := s.next) hbitmap buf
  have hself : (s.next.write (d.addr ndirect) buf).view.cache (d.addr ndirect) = buf := by
    rw [hview, Fs.put_self]
  have hother : ∀ sec, Plain geometry sec → sec ≠ d.addr ndirect →
      (s.next.write (d.addr ndirect) buf).view.cache sec = s.view.cache sec := by
    intro sec hsec hne
    rw [hview, Fs.put_of_ne hne, next_of_ne (plain_ne_bitmap hsec)]
  have hblockAt : d.blockAt (s.next.write (d.addr ndirect) buf).view.cache =
      update (d.blockAt s.view.cache) p (BitVec.ofNat 32 s.freeblock) :=
    Dinode.blockAt_setWord hp hmax hind (hself.trans hbuf.symm)
  refine ⟨hready, ?_, hblockAt, hdata.ofNat_ne_zero, absurd hempty, ?_, ?_, rfl, rfl, hother⟩
  · rw [Dinode.refs_update hblockAt, hdata.blockNumber_ofNat]
    exact (h.next hlt).accounted_of hready rfl
      (h.attach hlt hacc (blockNumber_eq_none.mpr hempty))
  · intro _
    have hne : BitVec.ofNat 32 s.freeblock ≠ d.addr ndirect :=
      hbelow _ (Nat.le_refl _) hdata.lt_size
    rw [hview, Fs.put_of_ne hne, h.next_zero hlt]
  · rw [if_pos hempty]
    rfl

theorem entryFor_meets (h : Ready s)
    (hacc : Accounted geometry (withFile i owner (d.refs s.view.cache)) s.view)
    (hp : ndirect ≤ p) (hmax : p < maxfile) (hind : d.addr ndirect ≠ 0)
    (hroom : room → d.blockAt s.view.cache p = 0 → s.freeblock < geometry.dataEnd) :
    Guarded room fail (fun r => Placed i owner s d p r.1 d r.2)
      (entryFor (d.addr ndirect) (p - ndirect)) s := by
  obtain ⟨b, hb, hused⟩ := hacc.indirect hind
  have hlt : (d.addr ndirect).toNat < size := hb ▸ (h.toNat_lt hused).1
  have hcache := view_of_ne (s := s) (plain_ne_bitmap (plain_indirect hacc hind))
  have hentry : d.blockAt s.view.cache p = (s.disk (d.addr ndirect)).word (p - ndirect) := by
    rw [Dinode.blockAt_entry hp hmax, Dinode.entry, if_neg hind, hcache]
  refine Guarded.bind_of_ok (rsect_of_lt hlt) ?_
  rw [← hentry]
  by_cases hempty : d.blockAt s.view.cache p = 0
  · rw [if_pos hempty]
    have hnext : nextBlock s = .ok (BitVec.ofNat 32 s.freeblock, s.next) := rfl
    refine Guarded.bind_of_ok hnext (Guarded.bind_of_ok (wsect_of_lt hlt _) ?_)
    intro hguard
    have hplaced := Placed.of_entry h (hguard.elim (hroom · hempty) id) hacc hp hmax hind hempty
    rw [hcache] at hplaced
    exact hplaced
  · rw [if_neg hempty]
    exact Guarded.of_meets (Placed.of_ne_zero h hacc hempty)

/-- What `blockFor` did: block `bn` of the file is in place at `x`, and the file has the blocks
it had and this one. -/
structure Located (i : ℕ) (owner : ℕ × ℕ → Option ℕ) (count : ℕ) (s : Image) (d : Dinode)
    (bn : ℕ) (x : Sector) (d' : Dinode) (s' : Image) : Prop where
  ready : Ready s'
  accounted : Accounted geometry (withFile i owner (d'.refs s'.view.cache)) s'.view
  slots_eq : ∀ p < maxfile,
    d'.blockAt s'.view.cache p = update (d.blockAt s.view.cache) bn x p
  ne_zero : x ≠ 0
  shaped : Shaped d' s'.view.cache (max count (bn + 1))
  same : bn < count → d' = d ∧ s' = s
  zero : count ≤ bn → s'.view.cache x = fun _ => 0
  free : s'.freeblock + blocksFor count = s.freeblock + blocksFor (max count (bn + 1))
  fields : d' = { d with addrs := d'.addrs }
  inode_eq : s'.freeinode = s.freeinode
  frame : ∀ sec, Plain geometry sec → sec ≠ d'.addr ndirect →
    s'.view.cache sec = s.view.cache sec

variable {count bn : ℕ}

theorem Placed.located_direct (h : Placed i owner s d bn x d' s')
    (hshaped : Shaped d s.view.cache count) (hbn : bn ≤ count) (hlt : bn < ndirect) :
    Located i owner count s d bn x d' s' := by
  have hmax : bn < maxfile := Nat.lt_of_lt_of_le hlt (by decide)
  have hind : d'.addr ndirect = d.addr ndirect := by
    rw [← Dinode.blockAt_maxfile d' s'.view.cache, h.blockAt_eq,
      update_of_ne (by omega), Dinode.blockAt_maxfile]
  have hempty := hshaped.blockAt_eq_zero_iff hmax
  refine ⟨h.ready, h.accounted, fun p _ => congrFun h.blockAt_eq p, h.ne_zero, ?_, ?_, ?_, ?_,
    h.fields, h.inode_eq, h.frame⟩
  · refine hshaped.fill hbn hmax h.ne_zero (fun p _ => congrFun h.blockAt_eq p) ?_
    rw [hind, hshaped.indirect]
    omega
  · intro hin
    exact h.same ((hshaped.slots bn hmax).mpr hin)
  · intro hout
    exact h.zero (hempty.mpr (by omega))
  · have hfree := h.free
    simp only [hempty, ite_not] at hfree
    rw [blocksFor_direct hbn hlt]
    omega

theorem Placed.located_indirect {ind : Sector} {s₁ : Image}
    (h : Placed i owner s d maxfile ind d' s₁) (h' : Placed i owner s₁ d' bn x d' s')
    (hshaped : Shaped d s.view.cache count) (hbn : bn ≤ count) (hge : ndirect ≤ bn)
    (hmax : bn < maxfile) : Located i owner count s d bn x d' s' := by
  have hind : d'.addr ndirect = ind := by
    rw [← Dinode.blockAt_maxfile d' s₁.view.cache, h.blockAt_eq, update_self]
  have hbn_eq : d'.blockAt s₁.view.cache bn = d.blockAt s.view.cache bn := by
    rw [h.blockAt_eq, update_of_ne (by omega)]
  have hslots : ∀ p < maxfile,
      d'.blockAt s'.view.cache p = update (d.blockAt s.view.cache) bn x p := by
    intro p hp
    rw [h'.blockAt_eq, h.blockAt_eq, update_comm (by omega),
      update_of_ne (by omega)]
  have hempty := hshaped.blockAt_eq_zero_iff hmax
  refine ⟨h'.ready, h'.accounted, hslots, h'.ne_zero, ?_, ?_, ?_, ?_, h.fields,
    h'.inode_eq.trans h.inode_eq, ?_⟩
  · refine hshaped.fill hbn hmax h'.ne_zero hslots ?_
    rw [hind]
    exact iff_of_true h.ne_zero (by omega)
  · intro hin
    obtain ⟨rfl, rfl⟩ := h.same (by
      rw [Dinode.blockAt_maxfile]
      exact hshaped.indirect.mpr (by omega))
    exact h'.same ((hshaped.slots bn hmax).mpr hin)
  · intro hout
    exact h'.zero (hbn_eq.trans (hempty.mpr (by omega)))
  · have hfree := h.free
    have hfree' := h'.free
    simp only [Dinode.blockAt_maxfile, hshaped.addr_eq_zero_iff, ite_not] at hfree
    simp only [hbn_eq, hempty, ite_not] at hfree'
    rw [blocksFor_indirect hbn hge]
    omega
  · intro sec hplain hne
    rw [h'.frame sec hplain hne, h.frame sec hplain hne]

/-- **The block of the next bytes.** -/
theorem blockFor_meets (h : Ready s)
    (hacc : Accounted geometry (withFile i owner (d.refs s.view.cache)) s.view)
    (hshaped : Shaped d s.view.cache count) (hbn : bn ≤ count) (hmax : bn < maxfile)
    (hroom : room → s.freeblock + blocksFor (max count (bn + 1)) ≤
      geometry.dataEnd + blocksFor count) :
    Guarded room fail (fun r => Located i owner count s d bn r.1.1 r.1.2 r.2)
      (blockFor d bn) s := by
  have hempty := hshaped.blockAt_eq_zero_iff hmax
  unfold blockFor
  by_cases hlt : bn < ndirect
  · rw [if_pos hlt]
    rw [blocksFor_direct hbn hlt] at hroom
    refine (addrFor_direct h hacc hlt fun hr hzero => ?_).mono (fun _ h => h) ?_
    · have hroom := hroom hr
      rw [if_neg (hempty.mp hzero)] at hroom
      omega
    · rintro ⟨⟨x, d'⟩, s'⟩ hplaced
      exact hplaced.located_direct hshaped hbn hlt
  · have hge : ndirect ≤ bn := Nat.le_of_not_lt hlt
    rw [if_neg hlt]
    rw [blocksFor_indirect hbn hge] at hroom
    refine Guarded.bind (n := 0) (addrFor_indirect h hacc fun hr hzero => ?_)
      (fun _ => (takes_entryFor _ _).seq fun _ => takes_pure _) ?_
    · have hroom := hroom hr
      rw [if_neg (hshaped.addr_eq_zero_iff.mp hzero)] at hroom
      omega
    · rintro ⟨ind, d'⟩ s₁ (hplaced : Placed i owner s d maxfile ind d' s₁)
      obtain rfl : d'.addr ndirect = ind := by
        rw [← Dinode.blockAt_maxfile d' s₁.view.cache, hplaced.blockAt_eq, update_self]
      have hroom' : room → d'.blockAt s₁.view.cache bn = 0 →
          s₁.freeblock < geometry.dataEnd := by
        intro hr hzero
        rw [hplaced.blockAt_eq, update_of_ne (by omega)] at hzero
        have hroom := hroom hr
        have hfree := hplaced.free
        simp only [Dinode.blockAt_maxfile, hshaped.addr_eq_zero_iff, ite_not] at hfree
        rw [if_neg (hempty.mp hzero)] at hroom
        omega
      refine Guarded.bind (n := 0)
        (entryFor_meets hplaced.ready hplaced.accounted hge hmax hplaced.ne_zero hroom')
        (fun _ => takes_pure _) ?_
      rintro x s' hplaced'
      exact Guarded.of_meets (hplaced.located_indirect hplaced' hshaped hbn hge hmax)

end Blocks

end MCertikos.Mkfs
