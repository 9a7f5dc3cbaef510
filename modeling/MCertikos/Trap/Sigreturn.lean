/-
# Nested deliveries, and what a handler leaves behind

The machine keeps, beside the process, the deliveries that are not finished yet, the most recent
first, and a `sys_sigreturn` is taken to return from the first of them.
-/

import MCertikos.Math.Run
import MCertikos.Trap.Signal

namespace MCertikos.Trap

open Math UserMem

variable {φ : Type*} [DecidableEq φ] {l : SigLayout φ} {pid : ℕ}

theorem handlePendingSignals_cases {p next : Proc φ} {delivered : Option Delivered}
    (hhandle : handlePendingSignals l pid p = some (next, delivered)) :
    ∃ pending, (delivered = none ∧ next = { p with pendingSignals := pending }) ∨
      ∃ signum d, delivered = some d ∧
        deliverSignal l pid { p with pendingSignals := pending } signum = (next, some d) := by
  unfold handlePendingSignals at hhandle
  split at hhandle
  · cases hhandle
    exact ⟨p.pendingSignals, Or.inl ⟨rfl, rfl⟩⟩
  · next signum _ =>
    dsimp only at hhandle
    obtain ⟨-, heq⟩ := Option.ite_none_left_eq_some.mp hhandle
    have hdeliver := Option.some.inj heq
    refine ⟨p.pendingSignals &&& ~~~(1#32 <<< signum), ?_⟩
    cases delivered with
    | some d => exact Or.inr ⟨signum, d, rfl, hdeliver⟩
    | none =>
      refine Or.inl ⟨rfl, ?_⟩
      unfold deliverSignal at hdeliver
      dsimp only at hdeliver
      split at hdeliver
      · exact (Prod.mk.inj hdeliver).1.symm
      · cases hdeliver

theorem exists_delivery (l : SigLayout φ) (pid : ℕ) (p : Proc φ) (signum : ℕ)
    (hfirst : firstPending p.pendingSignals = some signum) (hkill : signum ≠ sigkill)
    (hhandler : saHandler (p.sig.sigactions signum) ≠ 0) :
    ∃ next d, handlePendingSignals l pid p = some (next, some d) ∧
      next.pendingSignals = p.pendingSignals &&& ~~~(1#32 <<< signum) ∧
      next.sig.sigactions = p.sig.sigactions ∧
      next.tf = { p.tf with
        esp := entryEsp p.tf.esp, eip := saHandler (p.sig.sigactions signum) } := by
  unfold handlePendingSignals deliverSignal
  simp only [hfirst, hkill, if_false, hhandler]
  exact ⟨_, _, rfl, rfl, rfl, rfl⟩

theorem handlePendingSignals_of_zero {p : Proc φ} (hzero : p.pendingSignals = 0) :
    handlePendingSignals l pid p = some (p, none) := by
  have hnone : firstPending 0 = none := by decide
  unfold handlePendingSignals
  rw [hzero, hnone]

omit [DecidableEq φ] in
theorem sigreturn_of_cleared {p : Proc φ} (hclear : p.sig.savedEspAddr = 0) :
    (sigreturn l pid p).2 = .invalAddr := by
  unfold sigreturn sysSigreturn
  rw [if_pos (Or.inl hclear)]

variable {d : Delivered}

theorem context_of_handlePendingSignals {p next : Proc φ}
    (hhandle : handlePendingSignals l pid p = some (next, some d)) (h : OnStack p.tf.esp) :
    Context l pid next d ∧ d = ⟨p.tf.esp, p.tf.eip, entryEsp p.tf.esp⟩ := by
  obtain ⟨pending, ⟨hnone, -⟩ | ⟨signum, d', hsome, hdeliver⟩⟩ :=
    handlePendingSignals_cases hhandle
  · cases hnone
  · obtain rfl := Option.some.inj hsome
    exact ⟨context_of_deliverSignal hdeliver h, (deliverSignal_eq_some hdeliver).1⟩

def SameAbove (l : SigLayout φ) (pid : ℕ) (esp : BitVec 32) (mem mem' : Memory φ) : Prop :=
  ∀ va : BitVec 32, InWindow va.toNat → esp.toNat ≤ va.toNat →
    mem'.byteAt l.vm pid va = mem.byteAt l.vm pid va

omit [DecidableEq φ] in
theorem HoldsWord.sameAbove {mem mem' : Memory φ} {esp uva value : BitVec 32}
    (hword : HoldsWord l pid mem uva value) (h : InStack uva) (hle : esp.toNat ≤ uva.toNat)
    (hmem : SameAbove l pid esp mem mem') : HoldsWord l pid mem' uva value := by
  intro j hj
  have hadd := h.toNat_add hj
  rw [hmem _ (h.inWindow hj) (by omega), hword j hj]

omit [DecidableEq φ] in
theorem Context.sameAbove {p q : Proc φ} (hctx : Context l pid p d)
    (hentry : d.entryEsp = entryEsp d.esp) (hmem : SameAbove l pid d.entryEsp p.mem q.mem)
    (hesp : q.sig.savedEspAddr = p.sig.savedEspAddr)
    (heip : q.sig.savedEipAddr = p.sig.savedEipAddr) : Context l pid q d := by
  have hstack := hctx.onStack
  have hargs := hstack.toNat_arg.2
  have hlow : (d.esp - 8).toNat = d.esp.toNat - 8 := hstack.toNat_sub (by decide)
  have hhigh : (d.esp - 4).toNat = d.esp.toNat - 4 := hstack.toNat_sub (by decide)
  have hle : d.entryEsp.toNat ≤ d.esp.toNat - 20 := by
    rw [hentry, entryEsp]
    omega
  exact ⟨hstack, hesp.trans hctx.espAddr, heip.trans hctx.eipAddr,
    hctx.esp.sameAbove hstack.inStack_esp (by omega) hmem,
    hctx.eip.sameAbove hstack.inStack_eip (by omega) hmem⟩

/-! ## Runs of a process with signals -/

structure Nested (φ : Type*) where
  proc : Proc φ
  unfinished : List Delivered

inductive SigOp (φ : Type*)
  /-- The process runs in user mode and traps for something other than `sys_sigreturn`:
  its memory, its registers, its handlers and its pending signals are then any. -/
  | run (mem : Memory φ) (sigactions : ℕ → Bytes sigactionSize) (pendingSignals : BitVec 32)
      (tf : TrapFrame)
  /-- `handle_pending_signals` on the way back to user mode. -/
  | trapReturn
  /-- `sys_sigreturn`, from the handler of the most recent delivery. -/
  | sigreturn

/-- A `sys_sigreturn`: the delivery it returns from, its error number, and the frame. -/
abbrev Returned := Delivered × Errno × TrapFrame

namespace Nested

def exec (l : SigLayout φ) (pid : ℕ) (k : Nested φ) : SigOp φ → Option (Nested φ × Option Returned)
  | .run mem sigactions pendingSignals tf =>
    let sig := { k.proc.sig with sigactions := sigactions }
    some ({ k with proc := ⟨mem, sig, pendingSignals, tf⟩ }, none)
  | .trapReturn =>
    (handlePendingSignals l pid k.proc).map fun (proc, delivered) =>
      (⟨proc, delivered.toList ++ k.unfinished⟩, none)
  | .sigreturn =>
    match k.unfinished with
    | [] => none
    | d :: rest =>
      let r := Trap.sigreturn l pid k.proc
      some (⟨r.1, rest⟩, some (d, r.2, r.1.tf))

def machine (l : SigLayout φ) (pid : ℕ) : Machine (Nested φ) (SigOp φ) (Option Returned) :=
  ⟨exec l pid⟩

/-- The guard of the runs in which user code leaves the stack at and above the entry of
each unfinished handler alone. -/
def KeepsStack (l : SigLayout φ) (pid : ℕ) (k : Nested φ) : SigOp φ → Prop
  | .run mem _ _ _ => ∀ d ∈ k.unfinished, SameAbove l pid d.entryEsp k.proc.mem mem
  | _ => True

/-- A signal is, besides, delivered only when no handler is unfinished and the stack has room for
the saved words. -/
def DeliversFlat (l : SigLayout φ) (pid : ℕ) (k : Nested φ) : SigOp φ → Prop
  | .trapReturn => ∀ next d, handlePendingSignals l pid k.proc = some (next, some d) →
      k.unfinished = [] ∧ OnStack k.proc.tf.esp
  | op => KeepsStack l pid k op

def Restores : Returned → Prop
  | (d, errno, tf) => errno = .succ ∧ tf.esp = d.esp ∧ tf.eip = d.eip

inductive Flat (l : SigLayout φ) (pid : ℕ) (k : Nested φ) : Prop
  | idle (hnone : k.unfinished = [])
  | handling {d : Delivered} (hone : k.unfinished = [d]) (hentry : d.entryEsp = entryEsp d.esp)
      (hctx : Context l pid k.proc d)

variable {k next : Nested φ} {out : Option Returned}

omit [DecidableEq φ] in
theorem Flat.run (hflat : Flat l pid k) {mem : Memory φ} {sigactions : ℕ → Bytes sigactionSize}
    {pendingSignals : BitVec 32} {tf : TrapFrame}
    (hop : KeepsStack l pid k (.run mem sigactions pendingSignals tf)) :
    Flat l pid { k with
      proc := ⟨mem, { k.proc.sig with sigactions := sigactions }, pendingSignals, tf⟩ } := by
  cases hflat with
  | idle hnone => exact .idle hnone
  | @handling d hone hentry hctx =>
    refine .handling hone hentry (hctx.sameAbove hentry (hop d ?_) rfl rfl)
    rw [hone]
    exact List.mem_singleton_self d

theorem Flat.trapReturn (hflat : Flat l pid k) (hop : DeliversFlat l pid k .trapReturn)
    {proc : Proc φ} {delivered : Option Delivered}
    (hhandle : handlePendingSignals l pid k.proc = some (proc, delivered)) :
    Flat l pid ⟨proc, delivered.toList ++ k.unfinished⟩ := by
  obtain ⟨pending, ⟨rfl, rfl⟩ | ⟨signum, d, rfl, hdeliver⟩⟩ := handlePendingSignals_cases hhandle
  · cases hflat with
    | idle hnone => exact .idle hnone
    | handling hone hentry hctx =>
      exact .handling hone hentry ⟨hctx.onStack, hctx.espAddr, hctx.eipAddr, hctx.esp, hctx.eip⟩
  · obtain ⟨hnone, hstack⟩ := hop proc d hhandle
    have hctx := context_of_deliverSignal hdeliver hstack
    refine .handling (by rw [hnone]; rfl) ?_ hctx
    rw [(deliverSignal_eq_some hdeliver).1]

omit [DecidableEq φ] in
theorem Flat.sigreturn (hflat : Flat l pid k) {d : Delivered} {rest : List Delivered}
    (hunfinished : k.unfinished = d :: rest) :
    rest = [] ∧ Restores (d, (Trap.sigreturn l pid k.proc).2,
      (Trap.sigreturn l pid k.proc).1.tf) := by
  cases hflat with
  | idle hnone => cases hunfinished.symm.trans hnone
  | handling hone hentry hctx =>
    obtain ⟨rfl, rfl⟩ := List.cons.inj (hunfinished.symm.trans hone)
    obtain ⟨hsucc, htf, -⟩ := hctx.sigreturn
    exact ⟨rfl, hsucc, by rw [htf], by rw [htf]⟩

theorem Flat.step (hflat : Flat l pid k) {op : SigOp φ} (hop : DeliversFlat l pid k op)
    (hexec : exec l pid k op = some (next, out)) :
    Flat l pid next ∧ ∀ returned ∈ out, Restores returned := by
  cases op with
  | run mem sigactions pendingSignals tf =>
    cases hexec
    exact ⟨hflat.run hop, by simp⟩
  | trapReturn =>
    obtain ⟨⟨proc, delivered⟩, hhandle, heq⟩ := Option.map_eq_some_iff.mp hexec
    cases heq
    exact ⟨hflat.trapReturn hop hhandle, by simp⟩
  | sigreturn =>
    simp only [exec] at hexec
    split at hexec
    · cases hexec
    · next d rest hunfinished =>
      cases hexec
      obtain ⟨rfl, hrestores⟩ := hflat.sigreturn hunfinished
      refine ⟨.idle rfl, fun returned hreturned => ?_⟩
      obtain rfl := Option.some.inj hreturned
      exact hrestores

/-- **Every `sys_sigreturn` goes back to its delivery, unless deliveries nest.** If signals are
delivered only outside handlers, and user code keeps the stack of its handlers, each
`sys_sigreturn` succeeds and restores `esp` and `eip` of the delivery it returns from. -/
theorem sigreturn_restores (l : SigLayout φ) (pid : ℕ) {first last : Nested φ}
    {trace : List (SigOp φ × Option Returned)} (hfirst : first.unfinished = [])
    (run : (machine l pid).Run (DeliversFlat l pid) first trace last) :
    ∀ event ∈ trace, ∀ returned ∈ event.2, Restores returned := by
  have hboth : Flat l pid last ∧ ∀ event ∈ trace, ∀ returned ∈ event.2, Restores returned := by
    induction run with
    | start => exact ⟨.idle hfirst, by simp⟩
    | extend prior hop hexec ih =>
      obtain ⟨hflat, hpast⟩ := ih
      obtain ⟨hflat', hout⟩ := hflat.step hop hexec
      refine ⟨hflat', fun event hevent => ?_⟩
      rcases List.mem_append.mp hevent with hevent | hevent
      · exact hpast event hevent
      · obtain rfl := List.mem_singleton.mp hevent
        exact hout
  exact hboth.2

end Nested

/-! ## One process -/

def plainLayout : SigLayout (ℕ × ℕ) where
  vm := ⟨fun pid page => (pid, page)⟩
  ownPages _ _ _ _ _ _ heq := ⟨(Prod.mk.inj heq).1, (Prod.mk.inj heq).2⟩
  addr _ := 0x100000
  fits _ := by decide

def handledProc (pendingSignals eax : BitVec 32) : Proc (ℕ × ℕ) where
  mem := ⟨fun _ _ => false, fun _ _ => 0, []⟩
  sig := ⟨fun _ => Bytes.setWord (fun _ => 0) 0 0x40001000, 0, 0, false⟩
  pendingSignals := pendingSignals
  tf := ⟨0, 0, 0, 0, 0, 0, eax, 0x40002000, 0x202, 0xE0000000⟩

theorem onStack_handledProc (pendingSignals eax : BitVec 32) :
    OnStack (handledProc pendingSignals eax).tf.esp :=
  ⟨show vmUserlo.toNat + 8 ≤ (0xE0000000#32).toNat by decide,
    show (0xE0000000#32).toNat ≤ vmUserhi.toNat by decide⟩

namespace Nested

theorem exec_trapReturn {k : Nested φ} {proc : Proc φ} {d : Delivered}
    (hhandle : handlePendingSignals l pid k.proc = some (proc, some d)) :
    (machine l pid).exec k .trapReturn = some (⟨proc, d :: k.unfinished⟩, none) := by
  simp [machine, exec, hhandle]

theorem exec_sigreturn (p : Proc φ) (d : Delivered) (rest : List Delivered) :
    (machine l pid).exec ⟨p, d :: rest⟩ .sigreturn = some (⟨(Trap.sigreturn l pid p).1, rest⟩,
      some (d, (Trap.sigreturn l pid p).2, (Trap.sigreturn l pid p).1.tf)) := rfl

theorem sigreturn_restores_one_signal :
    ∃ (trace : List (SigOp (ℕ × ℕ) × Option Returned)) (last : Nested (ℕ × ℕ))
      (returned : Returned),
      (machine plainLayout 1).Run (DeliversFlat plainLayout 1) ⟨handledProc 2 5, []⟩ trace last ∧
      (.sigreturn, some returned) ∈ trace ∧ Restores returned := by
  obtain ⟨p, d, hhandle, -⟩ := exists_delivery plainLayout 1 (handledProc 2 5) 1 (by decide)
    (by decide) (by decide)
  have hdelivers : DeliversFlat plainLayout 1 ⟨handledProc 2 5, []⟩ .trapReturn :=
    fun _ _ _ => ⟨rfl, onStack_handledProc 2 5⟩
  have hkeeps : DeliversFlat plainLayout 1 ⟨p, [d]⟩ .sigreturn := trivial
  have hrun := (Machine.Run.single hdelivers (exec_trapReturn hhandle)).extend hkeeps
    (exec_sigreturn p d [])
  have hmem := List.mem_append_right [((.trapReturn : SigOp (ℕ × ℕ)), (none : Option Returned))]
    (List.mem_singleton_self ((.sigreturn : SigOp (ℕ × ℕ)),
      some (d, (Trap.sigreturn plainLayout 1 p).2, (Trap.sigreturn plainLayout 1 p).1.tf)))
  exact ⟨_, _, _, hrun, hmem, sigreturn_restores plainLayout 1 rfl hrun _ hmem _ rfl⟩

def unchanged (p : Proc φ) : SigOp φ := .run p.mem p.sig.sigactions p.pendingSignals p.tf

theorem exec_unchanged (p : Proc φ) (unfinished : List Delivered) :
    (machine l pid).exec ⟨p, unfinished⟩ (unchanged p) = some (⟨p, unfinished⟩, none) := rfl

/-- **A nested delivery loses the outer one.** Two signals are delivered one on top of the
other; user code touches nothing.  The second `sys_sigreturn` fails. -/
theorem nested_sigreturn_fails :
    ∃ (trace : List (SigOp (ℕ × ℕ) × Option Returned)) (last : Nested (ℕ × ℕ)) (d : Delivered)
      (tf : TrapFrame),
      (machine plainLayout 1).Run (KeepsStack plainLayout 1) ⟨handledProc 6 5, []⟩ trace last ∧
      (.sigreturn, some (d, .invalAddr, tf)) ∈ trace := by
  obtain ⟨p, d, hhandle, hpending, hactions, htf⟩ :=
    exists_delivery plainLayout 1 (handledProc 6 5) 1 (by decide) (by decide) (by decide)
  obtain ⟨q, e, hhandle', -⟩ := exists_delivery plainLayout 1 p 2 (by rw [hpending]; decide)
    (by decide) (by rw [hactions]; decide)
  have hstack : OnStack p.tf.esp := by
    rw [htf]
    exact ⟨by decide, by decide⟩
  have hcleared := (context_of_handlePendingSignals hhandle' hstack).1.sigreturn.2.2.2
  have hfails : (Trap.sigreturn plainLayout 1 (Trap.sigreturn plainLayout 1 q).1).2 = .invalAddr :=
    sigreturn_of_cleared hcleared
  have hkeeps : KeepsStack plainLayout 1 ⟨p, [d]⟩ (unchanged p) := fun _ _ _ _ _ => rfl
  have htrap : ∀ k, KeepsStack plainLayout 1 k .trapReturn := fun _ => trivial
  have hreturn : ∀ k, KeepsStack plainLayout 1 k .sigreturn := fun _ => trivial
  have hnested : (machine plainLayout 1).Run (KeepsStack plainLayout 1) ⟨handledProc 6 5, []⟩ _
      ⟨q, [e, d]⟩ :=
    ((Machine.Run.start.extend (htrap _) (exec_trapReturn hhandle)).extend hkeeps
      (exec_unchanged p [d])).extend (htrap _) (exec_trapReturn hhandle')
  have hrun := (hnested.extend (hreturn _) (exec_sigreturn q e [d])).extend (hreturn _)
    (exec_sigreturn _ d [])
  rw [hfails] at hrun
  exact ⟨_, _, d, _, hrun, List.mem_append_right _ (List.mem_singleton_self _)⟩

end Nested

/-! ## What the interrupted program finds -/

/-- A run of a handler up to its `sys_sigreturn`, with no other signal delivered meanwhile. -/
structure HandlerRun (l : SigLayout φ) (pid : ℕ) (d : Delivered) (p q : Proc φ) : Prop where
  mem : SameAbove l pid d.entryEsp p.mem q.mem
  espAddr : q.sig.savedEspAddr = p.sig.savedEspAddr
  eipAddr : q.sig.savedEipAddr = p.sig.savedEipAddr
  ebx : q.tf.ebx = p.tf.ebx
  esi : q.tf.esi = p.tf.esi
  edi : q.tf.edi = p.tf.edi
  ebp : q.tf.ebp = p.tf.ebp

theorem frame_of_handlerRun {p q r : Proc φ}
    (hhandle : handlePendingSignals l pid p = some (q, some d)) (hstack : OnStack p.tf.esp)
    (hrun : HandlerRun l pid d q r) (hnone : r.pendingSignals = 0) :
    ∃ next, handlePendingSignals l pid (sigreturn l pid r).1 = some (next, none) ∧
      next.tf = { r.tf with esp := p.tf.esp, eip := p.tf.eip, eax := 0 } ∧
      (r.tf.ebx = p.tf.ebx ∧ r.tf.esi = p.tf.esi ∧ r.tf.edi = p.tf.edi ∧ r.tf.ebp = p.tf.ebp) := by
  obtain ⟨hctx, rfl⟩ := context_of_handlePendingSignals hhandle hstack
  have hctx' : Context l pid r _ := hctx.sameAbove rfl hrun.mem hrun.espAddr hrun.eipAddr
  obtain ⟨-, htf, hpending, -⟩ := hctx'.sigreturn
  have hsaved : q.tf.ebx = p.tf.ebx ∧ q.tf.esi = p.tf.esi ∧ q.tf.edi = p.tf.edi ∧
      q.tf.ebp = p.tf.ebp := by
    obtain ⟨pending, ⟨hnot, -⟩ | ⟨signum, d, -, hdeliver⟩⟩ := handlePendingSignals_cases hhandle
    · cases hnot
    · rw [(deliverSignal_eq_some hdeliver).2]
      exact ⟨rfl, rfl, rfl, rfl⟩
  refine ⟨_, handlePendingSignals_of_zero (hpending.trans hnone), htf, ?_⟩
  rw [hrun.ebx, hrun.esi, hrun.edi, hrun.ebp]
  exact hsaved

/-- **When a delivery is transparent.** After a delivery with room on the stack, a run of
its handler and the `sys_sigreturn`, with no further signal pending, the program continues
with the frame it was interrupted with exactly if `eax` was zero and the handler kept
`ecx`, `edx` and the flags. -/
theorem delivery_transparent_iff (l : SigLayout φ) (pid : ℕ) {p q r : Proc φ} {d : Delivered}
    (hhandle : handlePendingSignals l pid p = some (q, some d)) (hstack : OnStack p.tf.esp)
    (hrun : HandlerRun l pid d q r) (hnone : r.pendingSignals = 0) :
    ∃ next, handlePendingSignals l pid (sigreturn l pid r).1 = some (next, none) ∧
      (next.tf = p.tf ↔ p.tf.eax = 0 ∧ r.tf.ecx = p.tf.ecx ∧ r.tf.edx = p.tf.edx ∧
        r.tf.eflags = p.tf.eflags) := by
  obtain ⟨next, hnext, htf, hebx, hesi, hedi, hebp⟩ :=
    frame_of_handlerRun hhandle hstack hrun hnone
  refine ⟨next, hnext, ?_⟩
  rw [htf, TrapFrame.ext_iff]
  constructor
  · rintro ⟨-, -, -, -, hedx, hecx, heax, -, heflags, -⟩
    exact ⟨heax.symm, hecx, hedx, heflags⟩
  · rintro ⟨heax, hecx, hedx, heflags⟩
    exact ⟨hedi, hesi, hebp, hebx, hedx, hecx, heax.symm, rfl, heflags, rfl⟩

theorem delivery_transparent_iff_of_zero_eax :
    ∃ (p q next : Proc (ℕ × ℕ)) (d : Delivered),
      handlePendingSignals plainLayout 1 p = some (q, some d) ∧
      handlePendingSignals plainLayout 1 (sigreturn plainLayout 1 q).1 = some (next, none) ∧
      next.tf = p.tf := by
  obtain ⟨q, d, hhandle, hpending, -, htf⟩ := exists_delivery plainLayout 1 (handledProc 2 0) 1
    (by decide) (by decide) (by decide)
  have hrun : HandlerRun plainLayout 1 d q q :=
    ⟨fun _ _ _ => rfl, rfl, rfl, rfl, rfl, rfl, rfl⟩
  have hnone : q.pendingSignals = 0 := by
    rw [hpending]
    decide
  obtain ⟨next, hnext, hiff⟩ := delivery_transparent_iff plainLayout 1 hhandle
    (onStack_handledProc 2 0) hrun hnone
  refine ⟨_, q, next, d, hhandle, hnext, hiff.mpr ?_⟩
  rw [htf]
  exact ⟨rfl, rfl, rfl, rfl⟩

/-- **A delivery changes `eax`.** The program is interrupted with five in `eax` and the
handler changes nothing, but the program continues with zero in `eax`. -/
theorem delivery_clobbers_eax :
    ∃ (p q next : Proc (ℕ × ℕ)) (d : Delivered),
      handlePendingSignals plainLayout 1 p = some (q, some d) ∧ OnStack p.tf.esp ∧
      HandlerRun plainLayout 1 d q q ∧
      handlePendingSignals plainLayout 1 (sigreturn plainLayout 1 q).1 = some (next, none) ∧
      p.tf.eax = 5 ∧ next.tf.eax = 0 := by
  obtain ⟨q, d, hhandle, hpending, -⟩ := exists_delivery plainLayout 1 (handledProc 2 5) 1
    (by decide) (by decide) (by decide)
  have hrun : HandlerRun plainLayout 1 d q q :=
    ⟨fun _ _ _ => rfl, rfl, rfl, rfl, rfl, rfl, rfl⟩
  have hnone : q.pendingSignals = 0 := by
    rw [hpending]
    decide
  have hstack := onStack_handledProc 2 5
  obtain ⟨next, hnext, htf, -⟩ := frame_of_handlerRun hhandle hstack hrun hnone
  exact ⟨_, q, next, d, hhandle, hstack, hrun, hnext, rfl, by rw [htf]⟩

end MCertikos.Trap
