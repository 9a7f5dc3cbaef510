/-
# Delivering signals and returning from handlers

`handle_pending_signals` runs on every return to user mode.
-/

import MCertikos.UserMem.Syscalls

namespace MCertikos.Trap

open Math UserMem

@[ext] structure TrapFrame where
  edi : BitVec 32
  esi : BitVec 32
  ebp : BitVec 32
  ebx : BitVec 32
  edx : BitVec 32
  ecx : BitVec 32
  eax : BitVec 32
  eip : BitVec 32
  eflags : BitVec 32
  esp : BitVec 32
  deriving DecidableEq

def sigkill : ℕ := 9

def sigreturnNr : BitVec 8 := 28

def errnoCode : Errno → BitVec 32
  | .succ => 0
  | .mem => 1
  | .invalAddr => 4
  | .badf => 29
  | .invalSignum => 30

/-- The locals of `deliver_signal` and `sys_sigreturn` that are copied to or from user
memory. -/
inductive Local
  | origEip | origEsp | trampoline | sigArg | trampolineAddr | savedEsp | savedEip

/-- The virtual-memory layer, whose user pages have physical pages of their own, and the addresses
of the locals on the kernel stack. -/
structure SigLayout (φ : Type*) where
  vm : Vm φ
  ownPages : vm.OwnPages
  addr : Local → BitVec 32
  fits : ∀ x, (addr x).toNat + 12 ≤ vmUserhi.toNat

/-- A process in the kernel: its user memory, its signal state and its trap frame. -/
structure Proc (φ : Type*) where
  mem : Memory φ
  sig : SigState
  pendingSignals : BitVec 32
  tf : TrapFrame

/-- What a delivery interrupted, and the stack pointer its handler starts with. -/
structure Delivered where
  esp : BitVec 32
  eip : BitVec 32
  entryEsp : BitVec 32
  deriving DecidableEq

def trampoline : List (BitVec 8) :=
  [0xB8, sigreturnNr, 0, 0, 0, 0xCD, 0x30, 0xEB, 0xFE, 0x90, 0x90, 0x90]

section Model

variable {φ : Type*} [DecidableEq φ] (l : SigLayout φ) (pid : ℕ)

def pushWord (mem : Memory φ) (x : Local) (value uva : BitVec 32) : Memory φ :=
  mem.ptCopyout l.vm (Bytes.wordByte value) pid uva (l.addr x) 4

def pushFrame (mem : Memory φ) (tf : TrapFrame) (signum : ℕ) : Memory φ :=
  let argAddr := ((tf.esp - 20) &&& ~~~3#32) - 4
  let mem := pushWord l pid mem .origEip tf.eip (tf.esp - 4)
  let mem := pushWord l pid mem .origEsp tf.esp (tf.esp - 8)
  let mem := mem.ptCopyout l.vm (trampoline.getD · 0) pid (tf.esp - 20) (l.addr .trampoline) 12
  let mem := pushWord l pid mem .sigArg (BitVec.ofNat 32 signum) argAddr
  pushWord l pid mem .trampolineAddr (tf.esp - 20) (argAddr - 4)

def entryEsp (esp : BitVec 32) : BitVec 32 := ((esp - 20) &&& ~~~3#32) - 4 - 4

def saHandler (act : Bytes sigactionSize) : BitVec 32 := act.word 0

def deliverSignal (p : Proc φ) (signum : ℕ) : Proc φ × Option Delivered :=
  let handler := saHandler (p.sig.sigactions signum)
  if handler = 0 then (p, none)
  else
    ({ p with
        mem := pushFrame l pid p.mem p.tf signum
        tf := { p.tf with esp := entryEsp p.tf.esp, eip := handler }
        sig := { p.sig with
          savedEspAddr := p.tf.esp - 8, savedEipAddr := p.tf.esp - 4, inSignalHandler := true } },
      some ⟨p.tf.esp, p.tf.eip, entryEsp p.tf.esp⟩)

def firstPending (pending : BitVec 32) : Option ℕ :=
  (List.range' 1 (nsig - 1)).find? fun signum => pending.getLsbD signum

def handlePendingSignals (p : Proc φ) : Option (Proc φ × Option Delivered) :=
  match firstPending p.pendingSignals with
  | none => some (p, none)
  | some signum =>
    let p := { p with pendingSignals := p.pendingSignals &&& ~~~(1#32 <<< signum) }
    if signum = sigkill then none else some (deliverSignal l pid p signum)

omit [DecidableEq φ] in
def sigreturn (p : Proc φ) : Proc φ × Errno :=
  let r := sysSigreturn p.mem l.vm pid p.sig (l.addr .savedEsp) (l.addr .savedEip)
  let tf :=
    match r.2.2.2 with
    | some restored => { p.tf with esp := restored.esp, eip := restored.eip }
    | none => p.tf
  ({ p with mem := r.1, sig := r.2.2.1, tf := { tf with eax := errnoCode r.2.1 } }, r.2.1)

end Model

/-! ## Words on the user stack -/

section Words

variable {φ : Type*} {l : SigLayout φ} {pid : ℕ} {mem : Memory φ} {uva value : BitVec 32}

structure InStack (uva : BitVec 32) : Prop where
  lo : vmUserlo.toNat ≤ uva.toNat
  hi : uva.toNat + 4 ≤ vmUserhi.toNat

def HoldsWord (l : SigLayout φ) (pid : ℕ) (mem : Memory φ) (uva value : BitVec 32) : Prop :=
  ∀ j < 4, mem.byteAt l.vm pid (uva + BitVec.ofNat 32 j) = Bytes.wordByte value j

theorem InStack.toNat_add (h : InStack uva) {j : ℕ} (hj : j < 4) :
    (uva + BitVec.ofNat 32 j).toNat = uva.toNat + j := by
  have hhi := h.hi
  have hlt : vmUserhi.toNat < 2 ^ 32 := by decide
  rw [BitVec.toNat_add, BitVec.toNat_ofNat, Nat.mod_eq_of_lt (by omega : j < 2 ^ 32),
    Nat.mod_eq_of_lt (by omega)]

theorem InStack.inWindow (h : InStack uva) {j : ℕ} (hj : j < 4) :
    InWindow (uva + BitVec.ofNat 32 j).toNat := by
  have hlo := h.lo
  have hhi := h.hi
  rw [h.toNat_add hj]
  exact ⟨by omega, by omega⟩

theorem InStack.accepts (h : InStack uva) (x : Local) : Accepts uva (l.addr x) 4 := by
  have hfits := l.fits x
  exact accepts_of_inWindow h.lo h.hi ((Nat.add_le_add_left (by decide) _).trans hfits)

theorem HoldsWord.copyin (hword : HoldsWord l pid mem uva value) (h : InStack uva) (x : Local) :
    (mem.ptCopyin l.vm pid uva (l.addr x) 4).1.phys = mem.phys ∧
      (mem.ptCopyin l.vm pid uva (l.addr x) 4).2.length = 4 ∧
      Bytes.word (n := 4) (fill (fun _ => 0) (mem.ptCopyin l.vm pid uva (l.addr x) 4).2) 0 =
        value := by
  have hfour : (4 : BitVec 32).toNat = 4 := rfl
  rw [Memory.ptCopyin_of_accepts (h.accepts x), hfour]
  obtain ⟨hphys, -, hbytes⟩ := Memory.copyinLoop_spec mem l.vm pid uva 4
  have hlength : (mem.copyinLoop l.vm pid uva 4).2.length = 4 := by
    rw [hbytes, List.length_map, length_span]
  refine ⟨hphys, hlength, ?_⟩
  have hbyte : ∀ j < 4, (fill (n := 4) (fun _ => 0)
      (mem.copyinLoop l.vm pid uva 4).2).byte j = Bytes.wordByte value j := by
    intro j hj
    rw [byte_fill (by omega) (by omega), hbytes, ← hword j hj]
    simp [span, List.getD_eq_getElem?_getD, List.getElem?_range hj]
  rw [Bytes.word, hbyte _ (by omega), hbyte _ (by omega), hbyte _ (by omega), hbyte _ (by omega),
    Bytes.append_wordByte]

variable [DecidableEq φ]

theorem holdsWord_pushWord (h : InStack uva) (x : Local) :
    HoldsWord l pid (pushWord l pid mem x value uva) uva value := by
  intro j hj
  rw [pushWord, Memory.ptCopyout_of_accepts (h.accepts x)]
  refine (Memory.copyoutLoop_byteAt l.ownPages (by decide) (fun y hy => ?_)
    (h.inWindow hj)).trans ?_
  · obtain ⟨k, hk, rfl⟩ := List.mem_map.mp hy
    exact h.inWindow (List.mem_range.mp hk)
  · have hsub : (uva + BitVec.ofNat 32 j - uva).toNat = j := by
      rw [BitVec.add_comm, BitVec.add_sub_cancel, BitVec.toNat_ofNat, Nat.mod_eq_of_lt (by omega)]
    rw [hsub]
    exact if_pos ⟨rfl, hj⟩

theorem HoldsWord.copyout_below (hword : HoldsWord l pid mem uva value) (h : InStack uva)
    {src : ℕ → BitVec 8} {below kva n : BitVec 32} (hbelow : below.toNat + n.toNat ≤ uva.toNat) :
    HoldsWord l pid (mem.ptCopyout l.vm src pid below kva n) uva value := by
  intro j hj
  by_cases hacc : Accepts below kva n
  · have hadd := h.toNat_add hj
    have hlt := uva.isLt
    rw [Memory.ptCopyout_of_accepts hacc]
    refine (Memory.copyoutLoop_byteAt l.ownPages n.isLt (hacc.span_inWindow ?_)
      (h.inWindow hj)).trans ?_
    · exact hbelow.trans_lt hlt
    · rw [if_neg, hword j hj]
      rintro ⟨-, hin⟩
      have hbound := (uva + BitVec.ofNat 32 j).isLt
      rw [BitVec.toNat_sub, hadd] at hin
      omega
  · rw [Memory.ptCopyout, if_neg hacc]
    exact hword j hj

end Words

/-! ## The saved context -/

structure OnStack (esp : BitVec 32) : Prop where
  lo : vmUserlo.toNat + 8 ≤ esp.toNat
  hi : esp.toNat ≤ vmUserhi.toNat

namespace OnStack

variable {esp : BitVec 32}

theorem toNat_sub (h : OnStack esp) {n : ℕ} (hn : n ≤ 20) :
    (esp - BitVec.ofNat 32 n).toNat = esp.toNat - n := by
  have hlo := h.lo
  have hlt := esp.isLt
  have huser : vmUserlo.toNat = 0x40000000 := rfl
  rw [BitVec.toNat_sub, BitVec.toNat_ofNat]
  omega

theorem inStack_esp (h : OnStack esp) : InStack (esp - 8) := by
  have hlo := h.lo
  have hhi := h.hi
  have hsub : (esp - 8).toNat = esp.toNat - 8 := h.toNat_sub (by decide)
  exact ⟨by omega, by omega⟩

theorem inStack_eip (h : OnStack esp) : InStack (esp - 4) := by
  have hlo := h.lo
  have hhi := h.hi
  have hsub : (esp - 4).toNat = esp.toNat - 4 := h.toNat_sub (by decide)
  exact ⟨by omega, by omega⟩

theorem esp_ne_zero (h : OnStack esp) : esp - 8 ≠ 0 := by
  have hlo := h.inStack_esp.lo
  rintro heq
  rw [heq] at hlo
  exact absurd hlo (by decide)

theorem eip_ne_zero (h : OnStack esp) : esp - 4 ≠ 0 := by
  have hlo := h.inStack_eip.lo
  rintro heq
  rw [heq] at hlo
  exact absurd hlo (by decide)

end OnStack

theorem toNat_align (x : BitVec 32) : (x &&& ~~~3#32).toNat = x.toNat / 4 * 4 := by
  have hmask : ∀ i < 32, (~~~3#32).getLsbD i = decide (2 ≤ i) := by decide
  have hshift : x &&& ~~~3#32 = (x >>> 2) <<< 2 := by
    apply BitVec.eq_of_getLsbD_eq
    intro i hi
    rw [BitVec.getLsbD_and, hmask i hi, BitVec.getLsbD_shiftLeft, BitVec.getLsbD_ushiftRight]
    by_cases htwo : 2 ≤ i
    · have hnot : ¬ i < 2 := by omega
      simp [hi, htwo, hnot, Nat.add_sub_cancel' htwo]
    · have hlow : i < 2 := by omega
      simp [htwo, hlow]
  have hlt := x.isLt
  rw [hshift, BitVec.toNat_shiftLeft, BitVec.toNat_ushiftRight, Nat.shiftLeft_eq,
    Nat.shiftRight_eq_div_pow]
  omega

theorem OnStack.toNat_arg {esp : BitVec 32} (h : OnStack esp) :
    (((esp - 20) &&& ~~~3#32) - 4).toNat + 4 ≤ esp.toNat - 20 ∧
      (((esp - 20) &&& ~~~3#32) - 4 - 4).toNat + 8 ≤ esp.toNat - 20 := by
  have hlo := h.lo
  have huser : vmUserlo.toNat = 0x40000000 := rfl
  have hsub : (esp - 20).toNat = esp.toNat - 20 := h.toNat_sub (by decide)
  have halign := toNat_align (esp - 20)
  generalize (esp - 20) &&& ~~~3#32 = x at halign
  rw [hsub] at halign
  have hlt := esp.isLt
  have hfour : (4 : BitVec 32).toNat = 4 := rfl
  have harg : (x - 4).toNat = x.toNat - 4 := by
    rw [BitVec.toNat_sub, hfour]
    omega
  have hret : (x - 4 - 4).toNat = x.toNat - 8 := by
    rw [BitVec.toNat_sub, harg, hfour]
    omega
  omega

section Context

variable {φ : Type*} [DecidableEq φ] {l : SigLayout φ} {pid : ℕ} {p : Proc φ} {d : Delivered}

/-- The saved context of a delivery is intact: the fields of the process point to the two
words, and the words are on the stack. -/
structure Context (l : SigLayout φ) (pid : ℕ) (p : Proc φ) (d : Delivered) : Prop where
  onStack : OnStack d.esp
  espAddr : p.sig.savedEspAddr = d.esp - 8
  eipAddr : p.sig.savedEipAddr = d.esp - 4
  esp : HoldsWord l pid p.mem (d.esp - 8) d.esp
  eip : HoldsWord l pid p.mem (d.esp - 4) d.eip

theorem holdsWord_pushFrame (l : SigLayout φ) (pid : ℕ) (mem : Memory φ) {tf : TrapFrame}
    (h : OnStack tf.esp) (signum : ℕ) :
    HoldsWord l pid (pushFrame l pid mem tf signum) (tf.esp - 8) tf.esp ∧
      HoldsWord l pid (pushFrame l pid mem tf signum) (tf.esp - 4) tf.eip := by
  have hlo := h.lo
  have hesp : (tf.esp - 8).toNat = tf.esp.toNat - 8 := h.toNat_sub (by decide)
  have heip : (tf.esp - 4).toNat = tf.esp.toNat - 4 := h.toNat_sub (by decide)
  have htramp : (tf.esp - 20).toNat = tf.esp.toNat - 20 := h.toNat_sub (by decide)
  have hargs := h.toNat_arg
  have hfour : (4 : BitVec 32).toNat = 4 := rfl
  have htwelve : (12 : BitVec 32).toNat = 12 := rfl
  unfold pushFrame
  dsimp only
  constructor
  · refine HoldsWord.copyout_below ?_ h.inStack_esp (by omega)
    refine HoldsWord.copyout_below ?_ h.inStack_esp (by omega)
    refine HoldsWord.copyout_below ?_ h.inStack_esp (by omega)
    exact holdsWord_pushWord h.inStack_esp .origEsp
  · refine HoldsWord.copyout_below ?_ h.inStack_eip (by omega)
    refine HoldsWord.copyout_below ?_ h.inStack_eip (by omega)
    refine HoldsWord.copyout_below ?_ h.inStack_eip (by omega)
    refine HoldsWord.copyout_below ?_ h.inStack_eip (by omega)
    exact holdsWord_pushWord h.inStack_eip .origEip

theorem deliverSignal_eq_some {next : Proc φ} {signum : ℕ}
    (hdeliver : deliverSignal l pid p signum = (next, some d)) :
    d = ⟨p.tf.esp, p.tf.eip, entryEsp p.tf.esp⟩ ∧
      next = { p with
        mem := pushFrame l pid p.mem p.tf signum
        tf := { p.tf with
          esp := entryEsp p.tf.esp, eip := saHandler (p.sig.sigactions signum) }
        sig := { p.sig with
          savedEspAddr := p.tf.esp - 8, savedEipAddr := p.tf.esp - 4,
          inSignalHandler := true } } := by
  unfold deliverSignal at hdeliver
  dsimp only at hdeliver
  split at hdeliver
  · cases hdeliver
  · cases hdeliver
    exact ⟨rfl, rfl⟩

theorem context_of_deliverSignal {next : Proc φ} {signum : ℕ}
    (hdeliver : deliverSignal l pid p signum = (next, some d)) (h : OnStack p.tf.esp) :
    Context l pid next d := by
  obtain ⟨rfl, rfl⟩ := deliverSignal_eq_some hdeliver
  obtain ⟨hesp, heip⟩ := holdsWord_pushFrame l pid p.mem h signum
  exact ⟨h, rfl, rfl, hesp, heip⟩

omit [DecidableEq φ] in
theorem Context.sigreturn (hctx : Context l pid p d) : (Trap.sigreturn l pid p).2 = .succ ∧
      (Trap.sigreturn l pid p).1.tf = { p.tf with esp := d.esp, eip := d.eip, eax := 0 } ∧
      (Trap.sigreturn l pid p).1.pendingSignals = p.pendingSignals ∧
      (Trap.sigreturn l pid p).1.sig.savedEspAddr = 0 := by
  obtain ⟨hphys, hlen, hesp⟩ := hctx.esp.copyin hctx.onStack.inStack_esp .savedEsp
  have heipWord : HoldsWord l pid
      (p.mem.ptCopyin l.vm pid (d.esp - 8) (l.addr .savedEsp) 4).1 (d.esp - 4) d.eip := by
    intro j hj
    rw [← hctx.eip j hj]
    exact congrFun (congrFun hphys _) _
  obtain ⟨-, hlen', heip⟩ := heipWord.copyin hctx.onStack.inStack_eip .savedEip
  have hnot : ¬ (p.sig.savedEspAddr = 0 ∨ p.sig.savedEipAddr = 0) := by
    rw [hctx.espAddr, hctx.eipAddr, not_or]
    exact ⟨hctx.onStack.esp_ne_zero, hctx.onStack.eip_ne_zero⟩
  unfold Trap.sigreturn sysSigreturn
  rw [if_neg hnot, hctx.espAddr, hctx.eipAddr]
  simp only [hlen, hlen', ne_eq, not_true_eq_false, if_false, hesp, heip, errnoCode]
  exact ⟨trivial, trivial, trivial, trivial⟩

end Context

end MCertikos.Trap
