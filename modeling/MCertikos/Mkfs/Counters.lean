/-
# The counters of `mkfs`

Every file takes one inode, blocks are only ever counted up, and the two counters of blocks stay
equal.
-/

import MCertikos.Mkfs.Program

namespace MCertikos.Mkfs

open FS
open Math
open Sysfile (Byte)

/-- From one image to the next, `n` inodes are taken. -/
structure Advances (n : ℕ) (s s' : Image) : Prop where
  freeinode_eq : s'.freeinode = s.freeinode + n
  freeblock_le : s.freeblock ≤ s'.freeblock
  used_eq : s'.usedblocks + s.freeblock = s.usedblocks + s'.freeblock

/-- Wherever the program returns, it has taken `n` inodes. -/
def Takes {α : Type} (n : ℕ) (m : MkfsM α) : Prop := ∀ s, Returns (fun _ s' => Advances n s s') m s

section Takes

variable {α β : Type} {n k : ℕ} {m : MkfsM α} {f : α → MkfsM β} {s s' : Image}

theorem Advances.refl (s : Image) : Advances 0 s s := ⟨rfl, Nat.le_refl _, rfl⟩

theorem Advances.trans {s'' : Image} (h : Advances n s s') (h' : Advances k s' s'') :
    Advances (n + k) s s'' := by
  refine ⟨?_, h.freeblock_le.trans h'.freeblock_le, ?_⟩
  · rw [h'.freeinode_eq, h.freeinode_eq, Nat.add_assoc]
  · have hused := h.used_eq
    have hused' := h'.used_eq
    omega

theorem Takes.bind (h : Takes n m) (hf : ∀ a, Takes k (f a)) : Takes (n + k) (m >>= f) := fun s =>
  (h s).bind fun a s' hadvances => (hf a s').mono fun _ _ hrest => hadvances.trans hrest

theorem Takes.seq (h : Takes 0 m) (hf : ∀ a, Takes n (f a)) : Takes n (m >>= f) := by
  rw [← Nat.zero_add n]
  exact h.bind hf

theorem Takes.first (h : Takes n m) (hf : ∀ a, Takes 0 (f a)) : Takes n (m >>= f) := h.bind hf

theorem takes_pure (a : α) : Takes 0 (pure a : MkfsM α) := fun s => Returns.pure (.refl s)

theorem takes_ite {c : Prop} [Decidable c] {m' : MkfsM α} (h : Takes n m) (h' : Takes n m') :
    Takes n (if c then m else m') := by
  split
  · exact h
  · exact h'

theorem takes_throw (e : Failure) : Takes n (throw e : MkfsM α) := fun _ => Returns.throw

theorem takes_forM {xs : List β} {f : β → MkfsM Unit} (hf : ∀ x, Takes n (f x)) :
    Takes (n * xs.length) (xs.forM f) := by
  induction xs with
  | nil => exact takes_pure ()
  | cons x xs ih =>
    rw [List.length_cons, Nat.mul_succ, Nat.add_comm]
    exact (hf x).bind fun _ => ih

/-! ## The functions -/

theorem takes_require (p : Prop) [Decidable p] : Takes 0 (require p) :=
  takes_ite (takes_pure ()) (takes_throw _)

theorem takes_seek (sec : Sector) : Takes 0 (seek sec) := takes_ite (takes_pure _) (takes_throw _)

theorem takes_rsect (sec : Sector) : Takes 0 (rsect sec) :=
  (takes_seek sec).seq fun _ s => Returns.get_bind (takes_pure _ s)

theorem takes_wsect (sec : Sector) (buf : Block) : Takes 0 (wsect sec buf) :=
  (takes_seek sec).seq fun _ s => Returns.set (s := s) ⟨rfl, Nat.le_refl _, rfl⟩

theorem takes_winode (i : ℕ) (d : Dinode) : Takes 0 (winode i d) :=
  (takes_rsect _).seq fun _ => takes_wsect _ _

theorem takes_rinode (i : ℕ) : Takes 0 (rinode i) := (takes_rsect _).seq fun _ => takes_pure _

theorem takes_nextBlock : Takes 0 nextBlock := fun s =>
  Returns.get_bind (Returns.set_bind (Returns.pure ⟨rfl, Nat.le_succ _, by
    show s.usedblocks + 1 + s.freeblock = s.usedblocks + (s.freeblock + 1)
    omega⟩))

theorem takes_ialloc (type : BitVec 16) : Takes 1 (ialloc type) := by
  intro s
  refine Returns.get_bind (Returns.set_bind ?_)
  refine (((takes_winode _ _).seq fun _ => takes_pure s.freeinode) _).mono fun _ _ h => ?_
  exact ⟨h.freeinode_eq, h.freeblock_le, h.used_eq⟩

theorem takes_addrFor (d : Dinode) (k : ℕ) : Takes 0 (addrFor d k) :=
  takes_ite (takes_nextBlock.seq fun _ => takes_pure _) (takes_pure _)

theorem takes_entryFor (ind : Sector) (j : ℕ) : Takes 0 (entryFor ind j) :=
  (takes_rsect ind).seq fun _ => takes_ite
    (takes_nextBlock.seq fun _ => (takes_wsect _ _).seq fun _ => takes_pure _) (takes_pure _)

theorem takes_blockFor (d : Dinode) (fbn : ℕ) : Takes 0 (blockFor d fbn) :=
  takes_ite (takes_addrFor d fbn)
    ((takes_addrFor d _).seq fun _ => (takes_entryFor _ _).seq fun _ => takes_pure _)

theorem takes_appendBlock (d : Dinode) (off : ℕ) (p : List Byte) : Takes 0 (appendBlock d off p) :=
  (takes_require _).seq fun _ => (takes_blockFor d _).seq fun _ => (takes_rsect _).seq fun _ =>
    (takes_wsect _ _).seq fun _ => takes_pure _

theorem takes_appendBlocks (d : Dinode) (off : ℕ) (p : List Byte) :
    Takes 0 (appendBlocks d off p) := by
  induction d, off, p using appendBlocks.induct with
  | case1 d off p hp n ih =>
    rw [appendBlocks, if_pos hp]
    exact (takes_appendBlock d off _).seq ih
  | case2 d off p hp =>
    rw [appendBlocks, if_neg hp]
    exact takes_pure _

theorem takes_iappend (i : ℕ) (p : List Byte) : Takes 0 (iappend i p) :=
  (takes_rinode i).seq fun _ => (takes_appendBlocks _ _ _).seq fun _ => takes_winode _ _

theorem takes_reads (i : ℕ) (reads : List (List Byte)) : Takes 0 (reads.forM (iappend i)) := by
  rw [← Nat.zero_mul reads.length]
  exact takes_forM fun p => takes_iappend i p

theorem takes_addFile (f : InputFile) : Takes 1 (addFile f) :=
  (takes_require _).seq fun _ => (takes_ialloc _).first fun _ => (takes_iappend _ _).seq fun _ =>
    takes_reads _ _

theorem takes_files (files : List InputFile) : Takes files.length (files.forM addFile) := by
  rw [← Nat.one_mul files.length]
  exact takes_forM takes_addFile

theorem takes_finish (root : ℕ) : Takes 0 (finish root) := by
  refine (takes_rinode root).seq fun _ => (takes_winode _ _).seq fun _ s => Returns.get_bind ?_
  exact ((takes_require (s.usedblocks < 512 * 8)).seq fun _ => takes_wsect _ _) s

theorem takes_makeRoot : Takes 1 makeRoot :=
  (takes_ialloc _).first fun root => (takes_require (root = rootino)).seq fun _ =>
    (takes_iappend _ _).seq fun _ => (takes_iappend _ _).seq fun _ => takes_pure _

end Takes

theorem mkfs_returns {files : List InputFile} {image : Image} {post : Image → Prop}
    (h : Returns (fun _ s => post s) (main files) zeroes) (hok : mkfs files = .ok image) :
    post image := by
  unfold mkfs at hok
  cases hmain : main files zeroes with
  | error e =>
    rw [hmain] at hok
    cases hok
  | ok r =>
    rw [hmain] at hok
    cases hok
    exact h r.1 r.2 hmain

/-- **The counters at the end.** -/
theorem mkfs_counters {files : List InputFile} {image : Image} (hok : mkfs files = .ok image) :
    image.freeinode = files.length + 2 ∧ image.usedblocks = image.freeblock := by
  have htakes : Takes (1 + files.length) (main files) :=
    (takes_wsect _ _).seq fun _ => takes_makeRoot.bind fun root =>
      (takes_files files).first fun _ => takes_finish root
  obtain ⟨hinode, hblock, hused⟩ := mkfs_returns (htakes zeroes) hok
  have hzero : zeroes.freeinode = 1 ∧ zeroes.usedblocks = zeroes.freeblock := ⟨rfl, rfl⟩
  exact ⟨by omega, by omega⟩

end MCertikos.Mkfs
