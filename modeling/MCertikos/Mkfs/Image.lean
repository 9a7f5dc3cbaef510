/-
# The image of a list of files

What `mkfs` builds is described by the contents of its inodes: the root directory with an entry
for each file, and the files.
-/

import MCertikos.Mkfs.Append
import Mathlib.Algebra.BigOperators.Group.Finset.Basic
import Mathlib.Algebra.Order.BigOperators.Group.Finset

namespace MCertikos.Mkfs

open FS Function
open Math
open Sysfile (Byte direntSize dot dotdot slash tDir tFile)

/-! ## Contents -/

structure Volume where
  next : ℕ
  content : ℕ → List Byte
  pos : 0 < next

namespace Volume

def empty : Volume := ⟨1, fun _ => [], Nat.one_pos⟩

def create (v : Volume) : Volume :=
  ⟨v.next + 1, update v.content v.next [], Nat.succ_pos _⟩

def append (v : Volume) (i : ℕ) (p : List Byte) : Volume :=
  ⟨v.next, update v.content i (v.content i ++ p), v.pos⟩

def addFile (v : Volume) (f : InputFile) : Volume :=
  (v.create.append rootino (entry v.next f.name)).append v.next f.bytes

def root : Volume :=
  (empty.create.append rootino (entry rootino dot)).append rootino (entry rootino dotdot)

def ofFiles (files : List InputFile) : Volume := files.foldl addFile root

def blocksAt (v : Volume) (i : ℕ) : ℕ := blocksFor (fileSlots (v.content i).length)

def blocks (v : Volume) : ℕ := ∑ i ∈ Finset.range v.next, v.blocksAt i

structure Fits (v : Volume) : Prop where
  inodes : v.next ≤ ninodes
  blocks : metaBlocks + v.blocks ≤ geometry.dataEnd

def TooLong (v : Volume) : Prop := ∃ i < v.next, maxfile * bsize < (v.content i).length

structure Le (v w : Volume) : Prop where
  next : v.next ≤ w.next
  length : ∀ i < v.next, (v.content i).length ≤ (w.content i).length

variable {v w : Volume} {i : ℕ} {p q : List Byte}

theorem Le.refl (v : Volume) : Le v v := ⟨Nat.le_refl _, fun _ _ => Nat.le_refl _⟩

theorem Le.trans {u : Volume} (h : Le u v) (h' : Le v w) : Le u w :=
  ⟨h.next.trans h'.next, fun i hi => (h.length i hi).trans (h'.length i (hi.trans_le h.next))⟩

theorem Le.blocksAt (h : Le v w) (hi : i < v.next) : v.blocksAt i ≤ w.blocksAt i :=
  blocksFor_mono (fileSlots_le.mpr ((h.length i hi).trans (fileSlots_le.mp (Nat.le_refl _))))

theorem Le.blocks (h : Le v w) : v.blocks ≤ w.blocks := by
  calc v.blocks ≤ ∑ i ∈ Finset.range v.next, w.blocksAt i :=
        Finset.sum_le_sum fun i hi => h.blocksAt (Finset.mem_range.mp hi)
    _ ≤ w.blocks := Finset.sum_le_sum_of_subset (Finset.range_subset_range.mpr h.next)

theorem Fits.mono (h : Le v w) (hfits : Fits w) : Fits v :=
  ⟨h.next.trans hfits.inodes, (Nat.add_le_add_left h.blocks _).trans hfits.blocks⟩

theorem TooLong.mono (h : Le v w) (hlong : TooLong v) : TooLong w := by
  obtain ⟨i, hi, hlength⟩ := hlong
  exact ⟨i, hi.trans_le h.next, hlength.trans_le (h.length i hi)⟩

theorem content_append (j : ℕ) :
    (v.append i p).content j = if j = i then v.content i ++ p else v.content j :=
  update_apply ..

theorem content_create (j : ℕ) :
    v.create.content j = if j = v.next then [] else v.content j := update_apply ..

theorem le_create (v : Volume) : Le v v.create := by
  refine ⟨Nat.le_succ _, fun i hi => ?_⟩
  rw [content_create, if_neg (Nat.ne_of_lt hi)]

theorem le_append (v : Volume) (i : ℕ) (p : List Byte) : Le v (v.append i p) := by
  refine ⟨Nat.le_refl _, fun j _ => ?_⟩
  rw [content_append]
  split
  · next heq =>
    rw [heq, List.length_append]
    exact Nat.le_add_right _ _
  · exact Nat.le_refl _

theorem le_addFile (v : Volume) (f : InputFile) : Le v (v.addFile f) :=
  ((le_create v).trans (le_append ..)).trans (le_append ..)

theorem le_foldl (files : List InputFile) (v : Volume) : Le v (files.foldl addFile v) := by
  induction files generalizing v with
  | nil => exact Le.refl v
  | cons f files ih => exact (le_addFile v f).trans (ih (v.addFile f))

theorem append_append : (v.append i p).append i q = v.append i (p ++ q) := by
  simp only [append, update_self, update_idem, List.append_assoc]

theorem append_nil : v.append i [] = v := by
  simp only [append, List.append_nil, update_eq_self]

theorem blocks_append (hi : i < v.next) : (v.append i p).blocks + v.blocksAt i =
      v.blocks + blocksFor (fileSlots (v.content i ++ p).length) := by
  have hmem : i ∈ Finset.range v.next := Finset.mem_range.mpr hi
  have hself : (v.append i p).blocksAt i =
      blocksFor (fileSlots (v.content i ++ p).length) := by
    rw [blocksAt, content_append, if_pos rfl]
  have hother : ∑ j ∈ (Finset.range v.next).erase i, (v.append i p).blocksAt j =
      ∑ j ∈ (Finset.range v.next).erase i, v.blocksAt j := by
    refine Finset.sum_congr rfl fun j hj => ?_
    rw [blocksAt, content_append, if_neg (Finset.ne_of_mem_erase hj), blocksAt]
  have hnew : (v.append i p).blocks =
      ∑ j ∈ Finset.range v.next, (v.append i p).blocksAt j := rfl
  rw [hnew, ← Finset.add_sum_erase _ _ hmem, hself, hother, blocks,
    ← Finset.add_sum_erase _ _ hmem]
  omega

theorem blocks_create : v.create.blocks = v.blocks := by
  have hnew : v.create.blocksAt v.next = 0 := by
    rw [blocksAt, content_create, if_pos rfl]
    rfl
  have hold : ∑ j ∈ Finset.range v.next, v.create.blocksAt j = v.blocks := by
    refine Finset.sum_congr rfl fun j hj => ?_
    rw [blocksAt, content_create, if_neg (Nat.ne_of_lt (Finset.mem_range.mp hj)), blocksAt]
  have hnext : v.create.blocks = ∑ j ∈ Finset.range (v.next + 1), v.create.blocksAt j := rfl
  rw [hnext, Finset.sum_range_succ, hold, hnew, Nat.add_zero]

end Volume

/-! ## Building the image -/

def kind (i : ℕ) : BitVec 16 := if i = rootino then tDir else tFile

theorem kind_ne_zero (i : ℕ) : kind i ≠ 0 := by
  unfold kind
  split <;> decide

structure Builds (s : Image) (v : Volume) : Prop where
  ready : Ready s
  consistent : Consistent geometry s.view
  freeinode_eq : s.freeinode = v.next
  freeblock_eq : s.freeblock = metaBlocks + v.blocks
  holds : ∀ i, 0 < i → i < v.next → Holds s.view i (kind i) (v.content i)
  unused : ∀ i < ninodes, i = 0 ∨ v.next ≤ i → (s.view.dinode i).type = 0

section Build

variable {s : Image} {v : Volume} {i j : ℕ} {type : BitVec 16} {data p : List Byte}
  {room : Prop} {fail : Failure → Prop}

theorem Holds.of_elsewhere {fs fs' : Fs} (h : Holds fs j type data)
    (hcons : Consistent geometry fs) (helse : Elsewhere geometry i fs fs') (hj : j < ninodes)
    (hne : j ≠ i) (htype : type ≠ 0) : Holds fs' j type data := by
  have halloc := h.allocated hj htype
  have hdinode := helse.dinode_eq j hj hne
  refine ⟨hdinode.symm ▸ h.type_eq, hdinode.symm ▸ h.nlink_eq, hdinode.symm ▸ h.size_eq,
    fun o ho => ?_⟩
  rw [← h.bytes o ho, helse.fileByte_eq hcons halloc hne (h.size_eq.symm ▸ ho)]

def newInode (type : BitVec 16) : Dinode := ⟨type, 0, 0, 1, 0, fun _ => 0⟩

theorem newInode_addr (type : BitVec 16) (j : ℕ) : (newInode type).addr j = 0 := by
  unfold Dinode.addr newInode
  split <;> rfl

theorem view_freeinode (s : Image) (n : ℕ) : Image.view { s with freeinode := n } = s.view := rfl

theorem Builds.create (h : Builds s v) (hlt : v.next < ninodes) :
    Builds (Image.setInode { s with freeinode := s.freeinode + 1 } v.next
      (newInode (kind v.next))) v.create := by
  generalize hs : ({ s with freeinode := s.freeinode + 1 } : Image) = s₁
  have hview₁ : s₁.view = s.view := by rw [← hs, view_freeinode]
  have hready₁ : Ready s₁ := by
    rw [← hs]
    exact ⟨h.ready.superblock_eq, h.ready.ge, h.ready.le, h.ready.used_eq, h.ready.zero⟩
  have hview := view_setInode (s := s₁) (d := newInode (kind v.next)) hlt
  have hdinode : (s₁.setInode v.next (newInode (kind v.next))).view.dinode v.next =
      newInode (kind v.next) := by rw [hview, dinode_put]
  have haddr := newInode_addr (kind v.next)
  have hfree : ¬ InodeAllocated geometry s.view v.next := fun halloc =>
    halloc.2 (h.unused v.next hlt (Or.inr (Nat.le_refl _)))
  have hkept : Kept geometry v.next (refs geometry s.view) s.view s₁.view := by
    rw [hview₁]
    exact fun _ _ => rfl
  have helse : Elsewhere geometry v.next s.view
      (s₁.setInode v.next (newInode (kind v.next))).view := by
    rw [hview]
    exact hkept.elsewhere_of_put h.consistent.accounted hlt
  have hacc : Accounted geometry (withFile v.next (refs geometry s.view) fun _ => none)
      (s₁.setInode v.next (newInode (kind v.next))).view := by
    have hsame : withFile v.next (refs geometry s.view) (fun _ => none) =
        refs geometry s.view := by
      funext ⟨j, q⟩
      by_cases hj : j = v.next
      · rw [withFile, if_pos hj, hj, refs, if_neg hfree]
      · rw [withFile, if_neg hj]
    rw [hsame]
    refine hready₁.accounted_of (hready₁.setInode hlt) rfl ?_
    rw [hview₁]
    exact h.consistent.accounted
  refine ⟨hready₁.setInode hlt, ?_, ?_, ?_, ?_, ?_⟩
  · refine h.consistent.of_elsewhere helse hacc (fun q => ?_) fun _ => ?_
    · rw [refs, hdinode, Dinode.refs_of_addr_zero haddr, ite_self]
    · have hsize : (newInode (kind v.next)).size.toNat = 0 := rfl
      rw [hdinode, hsize]
      exact shaped_of_addr_zero haddr
  · rw [← hs]
    exact congrArg (· + 1) h.freeinode_eq
  · rw [Volume.blocks_create, ← h.freeblock_eq, ← hs]
    rfl
  · intro j hpos hj
    rw [Volume.content_create]
    by_cases heq : j = v.next
    · subst heq
      rw [if_pos rfl]
      refine ⟨?_, ?_, ?_, fun o ho => absurd ho (Nat.not_lt_zero _)⟩
      · rw [hdinode]
        rfl
      · rw [hdinode]
        rfl
      · rw [hdinode]
        rfl
    · rw [if_neg heq]
      have hlt' : j < v.next := Nat.lt_of_le_of_ne (Nat.le_of_lt_succ hj) heq
      exact (h.holds j hpos hlt').of_elsewhere h.consistent helse (hlt'.trans hlt) heq
        (kind_ne_zero j)
  · intro j hj hunused
    have hpos := v.pos
    have hnext : v.create.next = v.next + 1 := rfl
    rw [helse.dinode_eq j hj (by omega)]
    exact h.unused j hj (by omega)

theorem ialloc_meets (h : Builds s v) (hlt : v.next < ninodes) (htype : type = kind v.next) :
    Meets fail (fun r => r.1 = v.next ∧ Builds r.2 v.create) (ialloc type s) := by
  have hcreate := h.create hlt
  have hwrite : Meets fail (fun r => Builds r.2 v.create)
      (winode s.freeinode (newInode type) { s with freeinode := s.freeinode + 1 }) := by
    rw [h.freeinode_eq, winode_of_lt hlt, htype]
    rw [h.freeinode_eq] at hcreate
    exact hcreate
  unfold ialloc
  apply Meets.get_bind
  apply Meets.set_bind
  refine Meets.bind_state hwrite ?_
  rintro _ s' hbuilds
  exact ⟨h.freeinode_eq, hbuilds⟩

theorem Builds.iappend (h : Builds s v) (hpos : 0 < i) (hi : i < v.next)
    (hinodes : v.next ≤ ninodes) (hroom : room → (v.append i p).Fits) :
    Guarded room (fun _ => (v.append i p).TooLong) (fun r => Builds r.2 (v.append i p))
      (iappend i p) s := by
  have hlt : i < ninodes := hi.trans_le hinodes
  have hblocks := Volume.blocks_append (p := p) hi
  have hself : (v.append i p).content i = v.content i ++ p := by
    rw [Volume.content_append, if_pos rfl]
  have hroom : room → s.freeblock + blocksFor (fileSlots (v.content i ++ p).length) ≤
      geometry.dataEnd + blocksFor (fileSlots (v.content i).length) := by
    intro hr
    have hle := (hroom hr).blocks
    rw [h.freeblock_eq]
    unfold Volume.blocksAt at hblocks
    omega
  refine (iappend_meets h.ready h.consistent hlt (kind_ne_zero i) (h.holds i hpos hi) hroom).mono
    (fun _ hlong => ⟨i, hi, by rw [hself]; exact hlong⟩) ?_
  rintro ⟨_, s'⟩ happended
  refine ⟨happended.ready, happended.consistent, happended.inode_eq.trans h.freeinode_eq,
    ?_, ?_, ?_⟩
  · have hfree := happended.free
    rw [h.freeblock_eq] at hfree
    unfold Volume.blocksAt at hblocks
    omega
  · intro j hj hjlt
    by_cases heq : j = i
    · subst heq
      rw [hself]
      exact happended.holds
    · rw [Volume.content_append, if_neg heq]
      exact (h.holds j hj hjlt).of_elsewhere h.consistent happended.elsewhere
        (hjlt.trans_le hinodes) heq (kind_ne_zero j)
  · intro j hj hunused
    have hnext : (v.append i p).next = v.next := rfl
    rw [happended.elsewhere.dinode_eq j hj (by omega)]
    exact h.unused j hj hunused

theorem Builds.reads (reads : List (List Byte)) (h : Builds s v) (hpos : 0 < i)
    (hi : i < v.next) (hinodes : v.next ≤ ninodes)
    (hroom : room → (v.append i reads.flatten).Fits) :
    Guarded room (fun _ => (v.append i reads.flatten).TooLong)
      (fun r => Builds r.2 (v.append i reads.flatten)) (reads.forM (Mkfs.iappend i)) s := by
  induction reads generalizing s v with
  | nil =>
    rw [List.flatten_nil, Volume.append_nil]
    exact Guarded.of_meets h
  | cons p reads ih =>
    rw [List.flatten_cons, ← Volume.append_append] at hroom ⊢
    have hle := Volume.le_append (v.append i p) i reads.flatten
    refine Guarded.bind (n := 0) ((h.iappend hpos hi hinodes fun hr => (hroom hr).mono hle).mono
      (fun _ hlong => hlong.mono hle) fun _ h => h) (fun _ => takes_reads i reads) ?_
    rintro _ s' hbuilds
    exact ih hbuilds hi hinodes hroom

theorem Builds.addFile (h : Builds s v) (f : InputFile) (hroot : rootino < v.next)
    (hlt : v.next < ninodes) (hroom : room → (v.addFile f).Fits) :
    Guarded room (fun _ => (v.addFile f).TooLong ∨ slash ∈ f.arg)
      (fun r => Builds r.2 (v.addFile f)) (addFile f) s := by
  have hle := Volume.le_append (v.create.append rootino (entry v.next f.name)) v.next f.bytes
  unfold Mkfs.addFile
  by_cases hslash : slash ∉ f.arg
  · refine Guarded.bind_of_ok (require_of hslash) ?_
    have hkind : tFile = kind v.next := (if_neg (Nat.ne_of_gt hroot)).symm
    refine Guarded.bind (n := 0) (.of_meets (ialloc_meets h hlt hkind))
      (fun _ => (takes_iappend _ _).seq fun _ => takes_reads _ _) ?_
    rintro _ s₁ ⟨rfl, hcreated⟩
    refine Guarded.bind (n := 0) ((hcreated.iappend Nat.one_pos (Nat.lt_succ_of_lt hroot) hlt
      fun hr => (hroom hr).mono hle).mono (fun _ hlong => Or.inl (hlong.mono hle)) fun _ h => h)
      (fun _ => takes_reads _ _) ?_
    rintro _ s₂ hentry
    exact (hentry.reads f.reads v.pos (Nat.lt_succ_self _) hlt hroom).mono (fun _ => Or.inl)
      fun _ h => h
  · have hfail : require (slash ∉ f.arg) s = .error .assertion := by
      rw [require, if_neg hslash]
      rfl
    simp only [Guarded, bind, StateT.bind, hfail, Except.bind]
    exact fun _ => Or.inr (not_not.mp hslash)

theorem Builds.files (files : List InputFile) (h : Builds s v) (hroot : rootino < v.next)
    (hinodes : v.next + files.length ≤ ninodes)
    (hroom : room → (files.foldl Volume.addFile v).Fits) :
    Guarded room (fun _ => (files.foldl Volume.addFile v).TooLong ∨ ∃ f ∈ files, slash ∈ f.arg)
      (fun r => Builds r.2 (files.foldl Volume.addFile v)) (files.forM Mkfs.addFile) s := by
  induction files generalizing s v with
  | nil => exact Guarded.of_meets h
  | cons f files ih =>
    rw [List.length_cons] at hinodes
    have hle := Volume.le_foldl files (v.addFile f)
    refine Guarded.bind ((h.addFile f hroot (by omega) fun hr => (hroom hr).mono hle).mono
      (fun _ hfail => ?_) fun _ h => h) (fun _ => takes_files files) ?_
    · obtain hlong | hslash := hfail
      · exact Or.inl (hlong.mono hle)
      · exact Or.inr ⟨f, List.mem_cons_self, hslash⟩
    · rintro _ s' hbuilds
      have hnext : (v.addFile f).next = v.next + 1 := rfl
      refine (ih hbuilds (Nat.lt_succ_of_lt hroot) (by omega) hroom).mono (fun _ hfail => ?_)
        fun _ h => h
      obtain hlong | ⟨f', hf', hslash⟩ := hfail
      · exact Or.inl hlong
      · exact Or.inr ⟨f', List.mem_cons_of_mem f hf', hslash⟩

theorem builds_empty : Builds (zeroes.write 1 superblock.encode) Volume.empty := by
  have hone : ∀ b, metaBlocks ≤ b → b < size → BitVec.ofNat 32 b ≠ 1 := by
    intro b hb hlt heq
    have hsize : size < 2 ^ 31 := size_lt
    have hmeta : 1 < metaBlocks := by decide
    have hnat := Geometry.ofNat_inj (c := 1) (by omega) (by omega) heq
    omega
  have hready : Ready (zeroes.write 1 superblock.encode) :=
    ⟨write_self, Nat.le_refl _, by decide, rfl, fun b hb hlt => write_of_ne (hone b hb hlt)⟩
  have hdinode : ∀ i < ninodes,
      (zeroes.write 1 superblock.encode).view.dinode i = ⟨0, 0, 0, 0, 0, fun _ => 0⟩ := by
    intro i hi
    have hplain := plain_iblock (g := geometry) hi
    have hcache : (zeroes.write 1 superblock.encode).view.cache (iblock i) = fun _ => 0 := by
      rw [view_of_ne (plain_ne_bitmap hplain)]
      exact write_of_ne hplain.ne_one
    simp only [Fs.dinode, hcache, Dinode.decode, Bytes.word_zero]
    rfl
  refine ⟨hready, consistent_of_empty hready.fsOk (fun b hb => ?_) (fun b hb => ?_)
    (fun i hi j => ?_) (fun i hi => ?_), rfl, rfl, fun i hpos hi => ?_, fun i hi _ => ?_⟩
  · have hsize : b < size := hb.trans (by decide)
    rw [hready.used_view hsize]
    exact decide_eq_true hb
  · rw [hready.used_view hb.lt_size]
    exact decide_eq_false (Nat.not_lt.mpr hb.1)
  · rw [hdinode i hi, Dinode.addr]
    split <;> rfl
  · rw [hdinode i hi]
  · exact absurd hi (Nat.not_lt.mpr hpos)
  · rw [hdinode i hi]

/-! ## The finished image -/

/-- The last steps of `mkfs`: the size of the root directory is rounded up, and the bitmap is
written. -/
def Image.close (s : Image) : Image :=
  let root := s.view.dinode rootino
  (s.setInode rootino { root with size := BitVec.ofNat 32 (roundUp root.size.toNat) }).write bitmap
    (balloc s.usedblocks)

theorem makeRoot_meets (hroom : room → Volume.root.Fits) :
    Guarded room (fun _ => Volume.root.TooLong) (fun r => r.1 = rootino ∧ Builds r.2 Volume.root)
      makeRoot (zeroes.write 1 superblock.encode) := by
  have hle := Volume.le_append (Volume.empty.create.append rootino (entry rootino dot)) rootino
    (entry rootino dotdot)
  refine Guarded.bind (n := 0) (.of_meets (ialloc_meets builds_empty (by decide) rfl))
    (fun root => (takes_require (root = rootino)).seq fun _ => (takes_iappend _ _).seq fun _ =>
      (takes_iappend _ _).seq fun _ => takes_pure _) ?_
  rintro _ s₁ ⟨rfl, hcreated⟩
  refine Guarded.bind_of_ok (require_of rfl) ?_
  refine Guarded.bind (n := 0) ((hcreated.iappend (i := rootino) Nat.one_pos (by decide)
    (by decide) fun hr => (hroom hr).mono hle).mono (fun _ hlong => hlong.mono hle) fun _ h => h)
    (fun _ => (takes_iappend _ _).seq fun _ => takes_pure _) ?_
  rintro _ s₂ hdot
  refine Guarded.bind (n := 0) (hdot.iappend (i := rootino) Nat.one_pos (by decide) (by decide)
    hroom) (fun _ => takes_pure _) ?_
  rintro _ s₃ hdotdot
  exact Guarded.of_meets ⟨rfl, hdotdot⟩

theorem Builds.finish (h : Builds s v) : finish rootino s = .ok ((), s.close) := by
  have hused : s.usedblocks < 512 * 8 := by
    have hle := h.ready.le
    have hlt : geometry.dataEnd < 512 * 8 := by decide
    rw [h.ready.used_eq]
    omega
  have hmeets : Meets (fun _ => False) (fun r => r = ((), s.close)) (Mkfs.finish rootino s) := by
    refine Meets.bind_of_ok (rinode_of_lt (by decide)) ?_
    refine Meets.bind_of_ok (winode_of_lt (by decide)) ?_
    apply Meets.get_bind
    refine Meets.bind_of_ok (require_of hused) ?_
    have hwrite : ∀ s', wsect bitmap (balloc s.usedblocks) s' =
        .ok ((), s'.write bitmap (balloc s.usedblocks)) := fun s' => wsect_of_lt (by decide) _
    exact (hwrite _).symm ▸ rfl
  obtain ⟨r, hr, rfl⟩ := hmeets.exists_ok fun _ h => h
  exact hr

/-- **`mkfs`.** If the contents fit, the image is built, unless a file is too long or its name
has a slash; and it is built if the program ends with the blocks in the data area. -/
theorem mkfs_meets {files : List InputFile} (hinodes : files.length + 2 ≤ ninodes)
    (hroom : room → (Volume.ofFiles files).Fits) :
    Meets (fun _ => room → (Volume.ofFiles files).TooLong ∨ ∃ f ∈ files, slash ∈ f.arg)
      (fun image => room ∨ image.freeblock ≤ geometry.dataEnd →
        ∃ s, Builds s (Volume.ofFiles files) ∧ image = s.close) (mkfs files) := by
  have hle := Volume.le_foldl files Volume.root
  have hmain : Guarded room
      (fun _ => (Volume.ofFiles files).TooLong ∨ ∃ f ∈ files, slash ∈ f.arg)
      (fun r => ∃ s, Builds s (Volume.ofFiles files) ∧ r.2 = s.close) (main files) zeroes := by
    refine Guarded.bind_of_ok (wsect_of_lt (by decide) _) ?_
    refine Guarded.bind ((makeRoot_meets fun hr => (hroom hr).mono hle).mono
      (fun _ hlong => Or.inl (hlong.mono hle)) fun _ h => h)
      (fun root => (takes_files files).first fun _ => takes_finish root) ?_
    rintro _ s₁ ⟨rfl, hroot⟩
    refine Guarded.bind (n := 0) (hroot.files files (by decide) ?_ hroom)
      (fun _ => takes_finish rootino) ?_
    · rw [Nat.add_comm]
      exact hinodes
    rintro _ s hbuilds
    refine Guarded.of_meets ?_
    rw [hbuilds.finish]
    exact ⟨s, hbuilds, rfl⟩
  exact Meets.map hmain

end Build

/-! ## Sizes -/

def blocksOf (files : List InputFile) : ℕ :=
  blocksFor (fileSlots (direntSize * (files.length + 2))) +
    (files.map fun f => blocksFor (fileSlots f.bytes.length)).sum

theorem length_entry (i : ℕ) (name : List Byte) : (entry i name).length = direntSize :=
  Sysfile.Dirent.length_encode _

namespace Volume

variable {v : Volume} (files : List InputFile)

theorem content_addFile (hroot : rootino < v.next) (f : InputFile) (j : ℕ) :
    (v.addFile f).content j = if j = v.next then f.bytes
      else if j = rootino then v.content rootino ++ entry v.next f.name else v.content j := by
  have hne : v.next ≠ rootino := Nat.ne_of_gt hroot
  rw [addFile, content_append, content_append, content_append, content_create, content_create,
    content_create, if_neg hne, if_pos rfl, List.nil_append, if_neg hne.symm]
  by_cases hj : j = v.next
  · rw [if_pos hj, if_pos hj]
  · rw [if_neg hj, if_neg hj, if_neg hj]

theorem next_foldl (v : Volume) : (files.foldl addFile v).next = v.next + files.length := by
  induction files generalizing v with
  | nil => rfl
  | cons f files ih =>
    have hnext : (v.addFile f).next = v.next + 1 := rfl
    rw [List.foldl_cons, ih, hnext, List.length_cons]
    omega

theorem next_ofFiles : (ofFiles files).next = files.length + 2 := by
  have hnext : root.next = 2 := rfl
  rw [ofFiles, next_foldl, hnext, Nat.add_comm]

theorem content_foldl_of_lt (hroot : rootino < v.next) {j : ℕ} (hj : j < v.next)
    (hne : j ≠ rootino) : (files.foldl addFile v).content j = v.content j := by
  induction files generalizing v with
  | nil => rfl
  | cons f files ih =>
    rw [List.foldl_cons, ih (Nat.lt_succ_of_lt hroot) (Nat.lt_succ_of_lt hj),
      content_addFile hroot, if_neg (Nat.ne_of_lt hj), if_neg hne]

theorem content_foldl (hroot : rootino < v.next) (k : ℕ) (hk : k < files.length) :
    (files.foldl addFile v).content (v.next + k) = files[k].bytes := by
  induction files generalizing v k with
  | nil => exact absurd hk (Nat.not_lt_zero k)
  | cons f files ih =>
    have hne : v.next ≠ rootino := Nat.ne_of_gt hroot
    cases k with
    | zero =>
      rw [List.foldl_cons, Nat.add_zero, content_foldl_of_lt files (Nat.lt_succ_of_lt hroot)
        (Nat.lt_succ_self _) hne, content_addFile hroot, if_pos rfl, List.getElem_cons_zero]
    | succ k =>
      have hnext : v.next + (k + 1) = (v.addFile f).next + k := by
        rw [Nat.add_comm k 1, ← Nat.add_assoc]
        rfl
      have hlt : k < files.length := Nat.lt_of_succ_lt_succ hk
      rw [List.foldl_cons, hnext, ih (Nat.lt_succ_of_lt hroot) k hlt, List.getElem_cons_succ]

theorem content_ofFiles (k : ℕ) (hk : k < files.length) :
    (ofFiles files).content (k + 2) = files[k].bytes := by
  have hnext : k + 2 = root.next + k := Nat.add_comm k 2
  rw [hnext]
  exact content_foldl files (by decide) k hk

theorem length_root_foldl (hroot : rootino < v.next) :
    ((files.foldl addFile v).content rootino).length =
      (v.content rootino).length + direntSize * files.length := by
  induction files generalizing v with
  | nil => rfl
  | cons f files ih =>
    rw [List.foldl_cons, ih (Nat.lt_succ_of_lt hroot), content_addFile hroot,
      if_neg (Nat.ne_of_lt hroot), if_pos rfl, List.length_append, length_entry,
      List.length_cons, Nat.mul_succ]
    omega

theorem length_root : ((ofFiles files).content rootino).length =
    direntSize * (files.length + 2) := by
  have hroot : (root.content rootino).length = direntSize * 2 := by
    have hnew : rootino = empty.next := rfl
    rw [root, content_append, if_pos rfl, content_append, if_pos rfl, content_create, if_pos hnew,
      List.nil_append, List.length_append, length_entry, length_entry, Nat.mul_two]
  rw [ofFiles, length_root_foldl files (by decide), hroot, Nat.mul_add]
  omega

theorem blocks_addFile (hroot : rootino < v.next) (f : InputFile) :
    (v.addFile f).blocks + v.blocksAt rootino =
      v.blocks + blocksFor (fileSlots ((v.content rootino).length + direntSize)) +
        blocksFor (fileSlots f.bytes.length) := by
  have hne : v.next ≠ rootino := Nat.ne_of_gt hroot
  have hentry : (v.create.append rootino (entry v.next f.name)).blocks +
      v.create.blocksAt rootino = v.create.blocks +
        blocksFor (fileSlots (v.create.content rootino ++ entry v.next f.name).length) :=
    blocks_append (Nat.lt_succ_of_lt hroot)
  have hbytes : (v.addFile f).blocks +
      (v.create.append rootino (entry v.next f.name)).blocksAt v.next =
        (v.create.append rootino (entry v.next f.name)).blocks + blocksFor (fileSlots
          ((v.create.append rootino (entry v.next f.name)).content v.next ++ f.bytes).length) :=
    blocks_append (Nat.lt_succ_self _)
  have hzero : blocksFor (fileSlots ([] : List Byte).length) = 0 := rfl
  rw [blocksAt, content_append, if_neg hne, content_create, if_pos rfl, List.nil_append,
    hzero] at hbytes
  rw [blocks_create, blocksAt, content_create, if_neg hne.symm, List.length_append,
    length_entry] at hentry
  rw [blocksAt]
  omega

theorem blocks_foldl (hroot : rootino < v.next) :
    (files.foldl addFile v).blocks + v.blocksAt rootino =
      v.blocks + blocksFor (fileSlots ((v.content rootino).length + direntSize * files.length)) +
        (files.map fun f => blocksFor (fileSlots f.bytes.length)).sum := by
  induction files generalizing v with
  | nil => rfl
  | cons f files ih =>
    have hadd := blocks_addFile hroot f
    have hrest := ih (v := v.addFile f) (Nat.lt_succ_of_lt hroot)
    have hlength : ((v.addFile f).content rootino).length =
        (v.content rootino).length + direntSize := by
      rw [content_addFile hroot, if_neg (Nat.ne_of_lt hroot), if_pos rfl, List.length_append,
        length_entry]
    have hmul : (v.content rootino).length + direntSize * (f :: files).length =
        (v.content rootino).length + direntSize + direntSize * files.length := by
      rw [List.length_cons, Nat.mul_succ]
      omega
    rw [blocksAt, hlength] at hrest
    rw [List.foldl_cons, List.map_cons, List.sum_cons, hmul]
    omega

theorem blocks_ofFiles : (ofFiles files).blocks = blocksOf files := by
  have hblocks := blocks_foldl files (v := root) (by decide)
  have hroot : (root.content rootino).length = direntSize * 2 := length_root []
  have hsame : root.blocks = root.blocksAt rootino := by
    have hnone : root.blocksAt 0 = 0 := rfl
    have hsum : root.blocks = ∑ i ∈ Finset.range 2, root.blocksAt i := rfl
    rw [hsum, Finset.sum_range_succ, Finset.sum_range_one, hnone, Nat.zero_add]
    rfl
  have hmul : direntSize * 2 + direntSize * files.length = direntSize * (files.length + 2) := by
    rw [Nat.mul_add, Nat.add_comm]
  rw [hroot, hmul] at hblocks
  rw [blocksOf, ofFiles]
  omega

theorem fits_ofFiles {files : List InputFile} (hinodes : files.length + 2 ≤ ninodes)
    (hblocks : metaBlocks + blocksOf files ≤ size - nlog) : (ofFiles files).Fits := by
  refine ⟨?_, ?_⟩
  · rw [next_ofFiles]
    exact hinodes
  · rw [blocks_ofFiles]
    exact hblocks

theorem TooLong.cases {files : List InputFile} (h : (ofFiles files).TooLong) :
    maxfile * bsize < direntSize * (files.length + 2) ∨
      ∃ f ∈ files, maxfile * bsize < f.bytes.length := by
  obtain ⟨i, hi, hlong⟩ := h
  rw [next_ofFiles] at hi
  match i with
  | 0 =>
    have hnone : (ofFiles files).content 0 = root.content 0 :=
      content_foldl_of_lt files (by decide) (by decide) (by decide)
    rw [hnone] at hlong
    exact absurd hlong (Nat.not_lt_zero _)
  | 1 =>
    have hroot := length_root files
    exact Or.inl (hroot ▸ hlong)
  | k + 2 =>
    have hk : k < files.length := Nat.lt_of_add_lt_add_right hi
    rw [content_ofFiles files k hk] at hlong
    exact Or.inr ⟨files[k], List.getElem_mem hk, hlong⟩

end Volume

/-- **`mkfs` ends well** on files that fit, are not too long and have no slash in their names. -/
theorem mkfs_ok (files : List InputFile) (hinodes : files.length + 2 ≤ ninodes)
    (hblocks : metaBlocks + blocksOf files ≤ size - nlog)
    (hlong : ∀ f ∈ files, f.bytes.length ≤ maxfile * bsize) (hslash : ∀ f ∈ files, slash ∉ f.arg) :
    ∃ s, Builds s (Volume.ofFiles files) ∧ mkfs files = .ok s.close := by
  have hmeets := mkfs_meets hinodes fun _ : True => Volume.fits_ofFiles hinodes hblocks
  obtain ⟨image, hok, hbuilt⟩ := hmeets.exists_ok fun _ hfail => by
    obtain htoo | ⟨f, hf, hin⟩ := hfail trivial
    · obtain hroot | ⟨f, hf, hlt⟩ := htoo.cases
      · have hmax : direntSize * ninodes ≤ maxfile * bsize := by decide
        exact absurd hroot (Nat.not_lt.mpr ((Nat.mul_le_mul_left _ hinodes).trans hmax))
      · exact absurd hlt (Nat.not_lt.mpr (hlong f hf))
    · exact hslash f hf hin
  obtain ⟨s, hbuilds, rfl⟩ := hbuilt (Or.inl trivial)
  exact ⟨s, hbuilds, hok⟩

end MCertikos.Mkfs
