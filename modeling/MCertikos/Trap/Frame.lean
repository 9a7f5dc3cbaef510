/-
# The frame of a signal

`deliver_signal` writes five pieces below the interrupted stack pointer, with one alignment step
in the middle.
-/

import MCertikos.Trap.Sigreturn

namespace MCertikos.Trap

open Math UserMem

/-! ## Pieces of user memory -/

structure Piece where
  source : Local
  uva : BitVec 32
  len : ℕ
  bytes : ℕ → BitVec 8

namespace Piece

def Has (w : Piece) (a : ℕ) : Prop := w.uva.toNat ≤ a ∧ a < w.uva.toNat + w.len

instance (w : Piece) (a : ℕ) : Decidable (w.Has a) := inferInstanceAs (Decidable (_ ∧ _))

def Apart (w w' : Piece) : Prop :=
  w.uva.toNat + w.len ≤ w'.uva.toNat ∨ w'.uva.toNat + w'.len ≤ w.uva.toNat

/-- The piece lies in the user window, and is not larger than the largest local. -/
structure Fits (w : Piece) : Prop where
  lo : vmUserlo.toNat ≤ w.uva.toNat
  hi : w.uva.toNat + w.len ≤ vmUserhi.toNat
  small : w.len ≤ 12

theorem Apart.not_has {w w' : Piece} {a : ℕ} (h : w.Apart w') (ha : w.Has a) : ¬ w'.Has a := by
  unfold Apart at h
  unfold Has at ha ⊢
  omega

section Write

variable {φ : Type*} [DecidableEq φ] {l : SigLayout φ} {pid pid' : ℕ} {va : BitVec 32}
  {mem : Memory φ} {w : Piece} {ws : List Piece}

def write (l : SigLayout φ) (pid : ℕ) (mem : Memory φ) (w : Piece) : Memory φ :=
  mem.ptCopyout l.vm w.bytes pid w.uva (l.addr w.source) (BitVec.ofNat 32 w.len)

theorem byteAt_write (h : w.Fits) (hva : InWindow va.toNat) :
    (w.write l pid mem).byteAt l.vm pid' va =
      if pid' = pid ∧ w.Has va.toNat then w.bytes (va.toNat - w.uva.toNat)
      else mem.byteAt l.vm pid' va := by
  obtain ⟨hlo, hhi, hsmall⟩ := h
  have hlt : vmUserhi.toNat < 2 ^ 32 := by decide
  have hlen : (BitVec.ofNat 32 w.len).toNat = w.len := by
    rw [BitVec.toNat_ofNat]
    omega
  have hkva := l.fits w.source
  have hacc : Accepts w.uva (l.addr w.source) (BitVec.ofNat 32 w.len) :=
    accepts_of_inWindow hlo (by omega) (by omega)
  have hwrap : NoWrap w.uva (BitVec.ofNat 32 w.len) := by
    unfold NoWrap
    omega
  rw [write, Memory.ptCopyout_of_accepts hacc]
  refine (Memory.copyoutLoop_byteAt l.ownPages (BitVec.isLt _) (hacc.span_inWindow hwrap)
    hva).trans ?_
  -- An address in front of the piece wraps around to one far behind it.
  have hin : (va - w.uva).toNat < (BitVec.ofNat 32 w.len).toNat ↔ w.Has va.toNat := by
    have hbound := va.isLt
    rw [BitVec.toNat_sub, hlen]
    unfold Has
    omega
  by_cases hhas : pid' = pid ∧ w.Has va.toNat
  · have hsub : (va - w.uva).toNat = va.toNat - w.uva.toNat :=
      BitVec.toNat_sub_of_le (BitVec.le_def.mpr hhas.2.1)
    rw [if_pos hhas, if_pos ⟨hhas.1, hin.mpr hhas.2⟩, hsub]
  · rw [if_neg hhas, if_neg fun hboth => hhas ⟨hboth.1, hin.mp hboth.2⟩]

theorem byteAt_writes_of_not_has (hfits : ∀ w ∈ ws, w.Fits) (hva : InWindow va.toNat)
    (hnot : pid' ≠ pid ∨ ∀ w ∈ ws, ¬ w.Has va.toNat) :
    (ws.foldl (write l pid) mem).byteAt l.vm pid' va = mem.byteAt l.vm pid' va := by
  induction ws generalizing mem with
  | nil => rfl
  | cons w ws ih =>
    have hother : ¬ (pid' = pid ∧ w.Has va.toNat) := by
      rintro ⟨hpid, hhas⟩
      exact hnot.elim (fun hne => hne hpid) fun hnone => hnone w List.mem_cons_self hhas
    rw [List.foldl_cons, ih (fun x hx => hfits x (List.mem_cons_of_mem w hx))
      (hnot.imp_right fun hnone x hx => hnone x (List.mem_cons_of_mem w hx)),
      byteAt_write (hfits w List.mem_cons_self) hva, if_neg hother]

theorem byteAt_writes (hfits : ∀ w ∈ ws, w.Fits) (hapart : ws.Pairwise Apart) (hw : w ∈ ws)
    (hhas : w.Has va.toNat) :
    (ws.foldl (write l pid) mem).byteAt l.vm pid va = w.bytes (va.toNat - w.uva.toNat) := by
  have hva : InWindow va.toNat := by
    obtain ⟨hlo, hhi, -⟩ := hfits w hw
    exact ⟨hlo.trans hhas.1, hhas.2.trans_le hhi⟩
  induction ws generalizing mem with
  | nil => cases hw
  | cons x ws ih =>
    obtain ⟨hx, hapart⟩ := List.pairwise_cons.mp hapart
    have hfits' : ∀ w ∈ ws, w.Fits := fun y hy => hfits y (List.mem_cons_of_mem x hy)
    rw [List.foldl_cons]
    obtain rfl | hw := List.mem_cons.mp hw
    · rw [byteAt_writes_of_not_has hfits' hva (.inr fun y hy => (hx y hy).not_has hhas),
        byteAt_write (hfits w List.mem_cons_self) hva, if_pos ⟨rfl, hhas⟩]
    · exact ih hfits' hapart hw

end Write

end Piece

/-! ## The five pieces -/

def framePieces (tf : TrapFrame) (signum : ℕ) : List Piece :=
  [⟨.origEip, tf.esp - 4, 4, Bytes.wordByte tf.eip⟩,
    ⟨.origEsp, tf.esp - 8, 4, Bytes.wordByte tf.esp⟩,
    ⟨.trampoline, tf.esp - 20, 12, (trampoline.getD · 0)⟩,
    ⟨.sigArg, ((tf.esp - 20) &&& ~~~3#32) - 4, 4, Bytes.wordByte (BitVec.ofNat 32 signum)⟩,
    ⟨.trampolineAddr, entryEsp tf.esp, 4, Bytes.wordByte (tf.esp - 20)⟩]

theorem forall_framePieces {tf : TrapFrame} {signum : ℕ} {P : Piece → Prop} :
    (∀ w ∈ framePieces tf signum, P w) ↔ P ⟨.origEip, tf.esp - 4, 4, Bytes.wordByte tf.eip⟩ ∧
        P ⟨.origEsp, tf.esp - 8, 4, Bytes.wordByte tf.esp⟩ ∧
        P ⟨.trampoline, tf.esp - 20, 12, (trampoline.getD · 0)⟩ ∧
        P ⟨.sigArg, ((tf.esp - 20) &&& ~~~3#32) - 4, 4,
          Bytes.wordByte (BitVec.ofNat 32 signum)⟩ ∧
        P ⟨.trampolineAddr, entryEsp tf.esp, 4, Bytes.wordByte (tf.esp - 20)⟩ := by
  simp only [framePieces, List.forall_mem_cons, List.not_mem_nil, false_imp_iff, implies_true,
    and_true]

structure Room (esp : BitVec 32) : Prop where
  lo : vmUserlo.toNat + 40 ≤ esp.toNat
  hi : esp.toNat ≤ vmUserhi.toNat

namespace Room

variable {esp : BitVec 32} (h : Room esp)
include h

theorem onStack : OnStack esp := ⟨by have := h.lo; omega, h.hi⟩

theorem toNat_entryEsp : (((esp - 20) &&& ~~~3#32) - 4).toNat = (esp.toNat - 20) / 4 * 4 - 4 ∧
    (entryEsp esp).toNat = (esp.toNat - 20) / 4 * 4 - 8 := by
  have hlo := h.lo
  have huser : vmUserlo.toNat = 0x40000000 := rfl
  have hsub : (esp - 20).toNat = esp.toNat - 20 := h.onStack.toNat_sub (by decide)
  have halign := toNat_align (esp - 20)
  rw [hsub] at halign
  have hlt := esp.isLt
  have hfour : (4 : BitVec 32).toNat = 4 := rfl
  have harg : (((esp - 20) &&& ~~~3#32) - 4).toNat = (esp.toNat - 20) / 4 * 4 - 4 := by
    rw [BitVec.toNat_sub, halign, hfour]
    omega
  refine ⟨harg, ?_⟩
  rw [entryEsp, BitVec.toNat_sub, harg, hfour]
  omega

end Room

section Frame

variable {tf : TrapFrame} {signum : ℕ}

theorem Room.toNat_pieces (h : Room tf.esp) :
    (framePieces tf signum).map (fun w => (w.uva.toNat, w.len)) =
      [(tf.esp.toNat - 4, 4), (tf.esp.toNat - 8, 4), (tf.esp.toNat - 20, 12),
        ((tf.esp.toNat - 20) / 4 * 4 - 4, 4), ((tf.esp.toNat - 20) / 4 * 4 - 8, 4)] := by
  have heip : (tf.esp - 4).toNat = tf.esp.toNat - 4 := h.onStack.toNat_sub (by decide)
  have hesp : (tf.esp - 8).toNat = tf.esp.toNat - 8 := h.onStack.toNat_sub (by decide)
  have htramp : (tf.esp - 20).toNat = tf.esp.toNat - 20 := h.onStack.toNat_sub (by decide)
  obtain ⟨harg, hret⟩ := h.toNat_entryEsp
  simp only [framePieces, List.map_cons, List.map_nil, heip, hesp, htramp, harg, hret]

theorem Room.apart (h : Room tf.esp) : (framePieces tf signum).Pairwise Piece.Apart := by
  have hlo := h.lo
  have huser : vmUserlo.toNat = 0x40000000 := rfl
  have hpairs : ((framePieces tf signum).map fun w => (w.uva.toNat, w.len)).Pairwise
      fun r r' => r.1 + r.2 ≤ r'.1 ∨ r'.1 + r'.2 ≤ r.1 := by
    rw [h.toNat_pieces]
    simp only [List.pairwise_cons, List.mem_cons, List.not_mem_nil, or_false, forall_eq_or_imp,
      forall_eq, false_imp_iff, forall_const, List.Pairwise.nil, and_true]
    omega
  rw [List.pairwise_map] at hpairs
  exact hpairs

theorem Room.below (h : Room tf.esp) {w : Piece} (hw : w ∈ framePieces tf signum) :
    tf.esp.toNat ≤ w.uva.toNat + 32 ∧ w.uva.toNat + w.len ≤ tf.esp.toNat ∧ w.len ≤ 12 := by
  have hlo := h.lo
  have huser : vmUserlo.toNat = 0x40000000 := rfl
  have hmem : (w.uva.toNat, w.len) ∈
      (framePieces tf signum).map fun w => (w.uva.toNat, w.len) := List.mem_map_of_mem hw
  rw [h.toNat_pieces] at hmem
  simp only [List.mem_cons, Prod.mk.injEq, List.not_mem_nil, or_false] at hmem
  omega

theorem Room.fits (h : Room tf.esp) {w : Piece} (hw : w ∈ framePieces tf signum) : w.Fits := by
  obtain ⟨hnear, hbelow, hsmall⟩ := h.below hw
  have hlo := h.lo
  have hhi := h.hi
  exact ⟨by omega, by omega, hsmall⟩

end Frame

section Layout

variable {φ : Type*} [DecidableEq φ] {l : SigLayout φ} {pid : ℕ} {tf : TrapFrame} {signum : ℕ}
  {mem : Memory φ}

theorem pushFrame_eq (l : SigLayout φ) (pid : ℕ) (mem : Memory φ) (tf : TrapFrame) (signum : ℕ) :
    pushFrame l pid mem tf signum = (framePieces tf signum).foldl (Piece.write l pid) mem := rfl

def Piece.Holds (l : SigLayout φ) (pid : ℕ) (mem : Memory φ) (w : Piece) : Prop :=
  ∀ j < w.len, mem.byteAt l.vm pid (w.uva + BitVec.ofNat 32 j) = w.bytes j

theorem Room.holds_pushFrame (h : Room tf.esp) {w : Piece} (hw : w ∈ framePieces tf signum) :
    w.Holds l pid (pushFrame l pid mem tf signum) := by
  intro j hj
  obtain ⟨-, hhi, hsmall⟩ := h.fits hw
  have hlt : vmUserhi.toNat < 2 ^ 32 := by decide
  have hadd : (w.uva + BitVec.ofNat 32 j).toNat = w.uva.toNat + j := by
    rw [BitVec.toNat_add, BitVec.toNat_ofNat]
    omega
  rw [pushFrame_eq, Piece.byteAt_writes (fun x hx => h.fits hx) h.apart hw
    (by rw [hadd]; exact ⟨by omega, by omega⟩), hadd, Nat.add_sub_cancel_left]

def FrameIntact (l : SigLayout φ) (pid : ℕ) (tf : TrapFrame) (signum : ℕ) (mem : Memory φ) : Prop :=
  ∀ w ∈ framePieces tf signum, w.Holds l pid mem

/-- **The signal frame is laid out correctly.** With 40 bytes of the user window below the stack
pointer, the handler starts at an aligned stack pointer that points to the address of the
trampoline, with the signal number above it; the five pieces do not overlap, lie below the
interrupted stack pointer, and no other byte of any process changes; and as long as the frame is
intact `sys_sigreturn` restores `esp` and `eip`. -/
theorem signal_frame_layout (l : SigLayout φ) (pid : ℕ) (p : Proc φ) (signum : ℕ)
    (hroom : Room p.tf.esp) (hhandler : saHandler (p.sig.sigactions signum) ≠ 0) :
    ∃ next d, deliverSignal l pid p signum = (next, some d) ∧
      next.tf.esp.toNat % 4 = 0 ∧ next.tf.eip = saHandler (p.sig.sigactions signum) ∧
      HoldsWord l pid next.mem next.tf.esp (p.tf.esp - 20) ∧
      (∀ j < 12, next.mem.byteAt l.vm pid (p.tf.esp - 20 + BitVec.ofNat 32 j) =
        trampoline.getD j 0) ∧
      HoldsWord l pid next.mem (next.tf.esp + 4) (BitVec.ofNat 32 signum) ∧
      FrameIntact l pid p.tf signum next.mem ∧
      (framePieces p.tf signum).Pairwise Piece.Apart ∧
      (∀ w ∈ framePieces p.tf signum, w.uva.toNat + w.len ≤ p.tf.esp.toNat) ∧
      (∀ pid' va, InWindow va.toNat →
        pid' ≠ pid ∨ (∀ w ∈ framePieces p.tf signum, ¬ w.Has va.toNat) →
        next.mem.byteAt l.vm pid' va = p.mem.byteAt l.vm pid' va) ∧
      ∀ later : Proc φ, later.sig.savedEspAddr = next.sig.savedEspAddr →
        later.sig.savedEipAddr = next.sig.savedEipAddr → FrameIntact l pid p.tf signum later.mem →
        (sigreturn l pid later).2 = .succ ∧ (sigreturn l pid later).1.tf.esp = p.tf.esp ∧
          (sigreturn l pid later).1.tf.eip = p.tf.eip := by
  have hholds : ∀ w ∈ framePieces p.tf signum,
      w.Holds l pid (pushFrame l pid p.mem p.tf signum) := fun w hw => hroom.holds_pushFrame hw
  obtain ⟨-, -, htrampoline, harg, hret⟩ := forall_framePieces.mp hholds
  have hargAddr : entryEsp p.tf.esp + 4 = ((p.tf.esp - 20) &&& ~~~3#32) - 4 :=
    BitVec.sub_add_cancel _ _
  refine ⟨_, _, if_neg hhandler, ?_, rfl, hret, htrampoline, ?_, hholds, hroom.apart,
    fun w hw => (hroom.below hw).2.1, fun pid' va hva hnot => ?_, fun later hesp heip hintact => ?_⟩
  · dsimp only
    rw [hroom.toNat_entryEsp.2]
    omega
  · dsimp only
    rw [hargAddr]
    exact harg
  · exact Piece.byteAt_writes_of_not_has (fun w hw => hroom.fits hw) hva hnot
  · obtain ⟨heipWord, hespWord, -⟩ := forall_framePieces.mp hintact
    have hcontext : Context l pid later ⟨p.tf.esp, p.tf.eip, entryEsp p.tf.esp⟩ :=
      ⟨hroom.onStack, hesp, heip, hespWord, heipWord⟩
    obtain ⟨hsucc, htf, -⟩ := hcontext.sigreturn
    rw [htf]
    exact ⟨hsucc, rfl, rfl⟩

end Layout

def unalignedProc : Proc (ℕ × ℕ) :=
  { handledProc 2 5 with tf := { (handledProc 2 5).tf with esp := 0xE0000003 } }

theorem signal_frame_layout_of_unaligned :
    ∃ next d, deliverSignal plainLayout 1 unalignedProc 1 = (next, some d) ∧
      next.tf.esp.toNat % 4 = 0 ∧
      HoldsWord plainLayout 1 next.mem next.tf.esp (unalignedProc.tf.esp - 20) := by
  have hroom : Room unalignedProc.tf.esp :=
    ⟨show vmUserlo.toNat + 40 ≤ (0xE0000003#32).toNat by decide,
      show (0xE0000003#32).toNat ≤ vmUserhi.toNat by decide⟩
  obtain ⟨next, d, hdeliver, haligned, -, hret, -⟩ :=
    signal_frame_layout plainLayout 1 unalignedProc 1 hroom (by decide)
  exact ⟨next, d, hdeliver, haligned, hret⟩

end MCertikos.Trap
