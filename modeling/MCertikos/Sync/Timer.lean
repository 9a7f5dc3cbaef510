/-
# When timers fire and timeouts expire

Fire times and deadlines are sums of two 32-bit words, taken modulo `2 ^ 32`, and are compared
with the clock by an unsigned `>=`.
-/

import MCertikos.Sync.Deadline

namespace MCertikos.Sync

open Math Thread

namespace Pools

variable {s t : Pools} {lists : Wobj → List Slot} {op : PoolOp} {effect : PoolEffect} {w : Wobj}
  {i : Slot}

/-! ## The clock and one timer source -/

theorem PoolStep.ticks_timer (hstep : PoolStep lists s (.intr .timer) t effect) :
    t.ticks = s.ticks + 1 := by
  cases hstep with
  | timer => rw [notifyAll_ticks]

theorem PoolStep.ticks_eq (hstep : PoolStep lists s op t effect) (hop : op ≠ .intr .timer) :
    t.ticks = s.ticks := by
  have hiteration : ∀ {list : List Slot} {cont : WaitCont} {stop : Stop Wobj WaitCont WaitRet},
      s.Iteration list cont t stop → t.ticks = s.ticks := by
    intro list cont stop hiter
    cases hiter with
    | delivered hfind => exact deliver_ticks _ _ _
    | timeout hnone hdue | sleep hnone hnot => rfl
  cases hstep with
  | createFull | create | addFailed | add | waitInvalid | signalFailed | signal => rfl
  | wait huse howner hiter => exact hiteration hiter
  | resume hiter => exact hiteration hiter
  | timer => exact absurd rfl hop
  | console => rw [notifyAll_ticks]

def IsTimerOf (s : Pools) (w : Wobj) (i : Slot) : Prop :=
  (s.esrc i).parent = some w ∧ (s.esrc i).type = eventTimer

theorem PoolStep.timer_eq (hstep : PoolStep lists s op t effect) (hrep : s.Represents lists)
    (htimer : s.IsTimerOf w i) (hop : op ≠ .intr .timer) (hnot : ¬ (WaitsOn w op ∧ ¬ s.Idle w)) :
    t.esrc i = s.esrc i := by
  obtain ⟨hparent, htype⟩ := htimer
  cases hstep with
  | createFull | create | addFailed | waitInvalid | signalFailed => rfl
  | @add pid w' type argMs j huse howner hfree =>
    have hne : i ≠ j := by
      rintro rfl
      rw [hfree] at hparent
      cases hparent
    simp [setSource, setWobj, hne]
  | wait huse howner hiter =>
    refine (hiter.esrc_eq_or hrep hparent).resolve_right ?_
    rintro ⟨rfl, hbusy⟩
    exact hnot ⟨rfl, hbusy⟩
  | resume hiter =>
    exact (hiter.esrc_eq_or hrep hparent).resolve_right hnot
  | @signal pid j w' hparent' howner htype' =>
    have hne : i ≠ j := by
      rintro rfl
      exact absurd (htype.symm.trans htype') (by decide)
    simp [setSource, hne]
  | timer => exact absurd rfl hop
  | console =>
    have hfires : ¬ Fires keyboardDue (s.esrc i) := by
      rintro ⟨-, -, hdue⟩
      exact absurd (htype.symm.trans (of_decide_eq_true hdue)) (by decide)
    rw [notifyAll_esrc, if_neg hfires]

theorem PoolStep.timer_interrupt (hstep : PoolStep lists s (.intr .timer) t effect)
    (htimer : s.IsTimerOf w i) :
    t.IsTimerOf w i ∧ (t.esrc i).nextFireTick = (s.esrc i).nextFireTick ∧
      ((t.esrc i).ready = true ↔
        (s.esrc i).ready = true ∨ (s.esrc i).nextFireTick ≤ s.ticks + 1) := by
  obtain ⟨hparent, htype⟩ := htimer
  cases hstep with
  | timer =>
    unfold IsTimerOf
    rw [notifyAll_esrc]
    split
    · next hfires =>
      have hdue := (of_decide_eq_true hfires.2.2).2
      exact ⟨⟨hparent, htype⟩, rfl, fun _ => Or.inr hdue, fun _ => rfl⟩
    · next hfires =>
      refine ⟨⟨hparent, htype⟩, rfl, Or.inl, ?_⟩
      rintro (hready | hdue)
      · exact hready
      · by_contra hready
        exact hfires ⟨Option.ne_none_iff_exists'.mpr ⟨w, hparent⟩, Bool.eq_false_iff.mpr hready,
          decide_eq_true ⟨htype, hdue⟩⟩

/-- The state of a timer source of `w` that was set at clock `start` for `period`
interrupts later, after `count` interrupts. -/
structure Armed (w : Wobj) (i : Slot) (start : BitVec 32) (period count : ℕ) (s : Pools) :
    Prop where
  timer : s.IsTimerOf w i
  ticks : s.ticks = start + BitVec.ofNat 32 count
  nextFireTick : (s.esrc i).nextFireTick = start + BitVec.ofNat 32 period
  ready_iff : (s.esrc i).ready = true ↔ period ≤ count

variable {start : BitVec 32} {period count : ℕ}

theorem Armed.interrupt (harmed : s.Armed w i start period count)
    (hfits : start.toNat + period < 2 ^ 32) (hstep : PoolStep lists s (.intr .timer) t effect) :
    t.Armed w i start period (count + 1) := by
  obtain ⟨htimer, hfire, hready⟩ := hstep.timer_interrupt harmed.timer
  have hclock : s.ticks + 1 = start + BitVec.ofNat 32 (count + 1) := by
    rw [harmed.ticks, BitVec.add_assoc, BitVec.ofNat_add]
    rfl
  refine ⟨htimer, hstep.ticks_timer.trans hclock, hfire.trans harmed.nextFireTick, ?_⟩
  rw [hready, harmed.ready_iff, harmed.nextFireTick, hclock]
  constructor
  · rintro (hpast | hdue)
    · omega
    · by_contra hlate
      rw [BitVec.le_def, BitVec.toNat_add, BitVec.toNat_add, BitVec.toNat_ofNat,
        BitVec.toNat_ofNat] at hdue
      omega
  · intro hlate
    by_cases hpast : period ≤ count
    · exact Or.inl hpast
    · refine Or.inr ?_
      rw [show count + 1 = period by omega]
      exact BitVec.le_refl _

theorem Armed.other (harmed : s.Armed w i start period count) (hrep : s.Represents lists)
    (hstep : PoolStep lists s op t effect) (hop : op ≠ .intr .timer)
    (hnot : ¬ (WaitsOn w op ∧ ¬ s.Idle w)) : t.Armed w i start period count := by
  have hsource := hstep.timer_eq hrep harmed.timer hop hnot
  refine ⟨?_, (hstep.ticks_eq hop).trans harmed.ticks, ?_, ?_⟩
  · unfold IsTimerOf
    rw [hsource]
    exact harmed.timer
  · rw [hsource]
    exact harmed.nextFireTick
  · rw [hsource]
    exact harmed.ready_iff

end Pools

/-! ## Whole runs -/

def isTimerIrq : WaitOp → Bool
  | .intr .timer => true
  | _ => false

def timerIrqs (trace : List (WaitOp × Output WaitRet)) : ℕ :=
  trace.countP fun event => isTimerIrq event.1

/-- The guard of a continuation in which no wait on `w` delivers, so that the
timers of `w` are not rescheduled. -/
def NotRescheduled (w : Wobj) (k : WaitKernel) (op : WaitOp) : Prop :=
  k.ProcessStep op ∧
    ∀ dop, k.dataOp op = some dop → ¬ (Pools.WaitsOn w dop ∧ ¬ k.shared.Idle w)

/-- From this state on, source `i` becomes ready at the `p`-th timer interrupt and
not before, unless it is rescheduled. -/
def FiresAfter (w : Wobj) (i : Slot) (p : ℕ) (k : WaitKernel) : Prop :=
  ∀ trace last, waitMonitor.machine.Run (NotRescheduled w) k trace last →
    ((last.shared.esrc i).ready = true ↔ p ≤ timerIrqs trace)

def timeoutRet : WaitRet := ⟨-1, some (-1)⟩

/-- The wait that thread `pid` is in does not time out before `p` more timer interrupts of
`trace`, the rest of the run up to its return. -/
def TimesOutAfter (pid p : ℕ) (k : WaitKernel) : Prop :=
  ∀ trace middle op last, waitMonitor.machine.Run Kernel.ProcessStep k trace middle →
    (∀ event ∈ trace, ∀ value, event.2 ≠ .ret pid value) →
    waitMonitor.exec middle op = some (last, .ret pid timeoutRet) → p ≤ timerIrqs trace

variable {k : WaitKernel} {op : WaitOp}

theorem dataOp_ne_timer {dop : Pools.PoolOp} (hdop : k.dataOp op = some dop)
    (hop : isTimerIrq op = false) : dop ≠ .intr .timer := by
  rintro rfl
  cases op with
  | intr irq =>
    cases irq with
    | timer => cases hop
    | console => cases hdop
  | resume =>
    simp only [Kernel.dataOp, Option.map_eq_some_iff] at hdop
    obtain ⟨cont, -, hcont⟩ := hdop
    cases hcont
  | spawn | handoff | yield | call | kill | terminate => cases hdop

theorem timerIrqs_append (past : List (WaitOp × Output WaitRet)) (op : WaitOp)
    (out : Output WaitRet) :
    timerIrqs (past ++ [(op, out)]) = timerIrqs past + if isTimerIrq op then 1 else 0 := by
  simp [timerIrqs, List.countP_append, List.countP_cons]

theorem isTimerIrq_eq_true (hirq : isTimerIrq op = true) : op = .intr .timer := by
  unfold isTimerIrq at hirq
  split at hirq
  · rfl
  · cases hirq

variable {next : WaitKernel} {out : Output WaitRet} {lists : Wobj → List Slot}

theorem poolStep_of_kernelStep (hrep : k.shared.Represents lists)
    (hstep : waitMonitor.Step k op next out) : (isTimerIrq op = false ∧ next.shared = k.shared) ∨
      (∃ dop effect, isTimerIrq op = false ∧ k.dataOp op = some dop ∧ dop ≠ .intr .timer ∧
        Pools.PoolStep lists k.shared dop next.shared effect) ∨
      (∃ effect, isTimerIrq op = true ∧
        Pools.PoolStep lists k.shared (.intr .timer) next.shared effect) := by
  obtain ⟨hnone, hsame⟩ | ⟨dop, effect, hdop, hdata⟩ := Monitor.dataExec_of_step hstep
  · refine Or.inl ⟨?_, hsame⟩
    cases op with
    | intr irq => cases hnone
    | spawn | handoff | yield | call | resume | kill | terminate => rfl
  · have hpool := Pools.poolStep_of_exec hrep hdata
    cases hirq : isTimerIrq op with
    | false => exact Or.inr (Or.inl ⟨dop, effect, rfl, hdop, dataOp_ne_timer hdop hirq, hpool⟩)
    | true =>
      obtain rfl := isTimerIrq_eq_true hirq
      obtain rfl : DataOp.intr WaitIrq.timer = dop := Option.some.inj hdop
      exact Or.inr (Or.inr ⟨effect, rfl, hpool⟩)

theorem ticks_step (hrep : k.shared.Represents lists) (hstep : waitMonitor.Step k op next out) :
    next.shared.ticks = k.shared.ticks + BitVec.ofNat 32 (if isTimerIrq op then 1 else 0) := by
  obtain ⟨hirq, hsame⟩ | ⟨dop, effect, hirq, -, hne, hpool⟩ | ⟨effect, hirq, hpool⟩ :=
    poolStep_of_kernelStep hrep hstep
  · simp [hirq, hsame]
  · simp [hirq, hpool.ticks_eq hne]
  · simp [hirq, hpool.ticks_timer]

theorem represents_step (hrep : k.shared.Represents lists)
    (hstep : waitMonitor.Step k op next out) : ∃ lists', next.shared.Represents lists' := by
  obtain ⟨-, hsame⟩ | ⟨dop, effect, -, hdata⟩ := Monitor.dataExec_of_step hstep
  · exact ⟨lists, hsame ▸ hrep⟩
  · obtain ⟨lists', hrep', -⟩ := hrep.step (Pools.poolStep_of_exec hrep hdata)
    exact ⟨lists', hrep'⟩

variable {trace : List (WaitOp × Output WaitRet)}

theorem armed_of_run {k last : WaitKernel} {w : Wobj} {i : Slot} {start : BitVec 32} {period : ℕ}
    (run : waitMonitor.machine.Run (NotRescheduled w) k trace last)
    (hrep : k.shared.Represents lists) (harmed : k.shared.Armed w i start period 0)
    (hfits : start.toNat + period < 2 ^ 32) :
    last.shared.Armed w i start period (timerIrqs trace) := by
  have hboth : (∃ lists, last.shared.Represents lists) ∧
      last.shared.Armed w i start period (timerIrqs trace) := by
    apply run.invariant_trace
    · exact ⟨⟨lists, hrep⟩, harmed⟩
    · rintro past k next op out ⟨⟨lists, hrep⟩, harmed⟩ hop hexec
      have hstep := Monitor.step_of_exec hexec
      refine ⟨represents_step hrep hstep, ?_⟩
      rw [timerIrqs_append]
      obtain ⟨hirq, hsame⟩ | ⟨dop, effect, hirq, hdop, hne, hpool⟩ | ⟨effect, hirq, hpool⟩ :=
        poolStep_of_kernelStep hrep hstep
      · rw [hirq, hsame]
        exact harmed
      · rw [hirq]
        exact harmed.other hrep hpool hne (hop.2 dop hdop)
      · rw [hirq]
        exact harmed.interrupt hfits hpool
  exact hboth.2

theorem firesAfter_of_armed {w : Wobj} {i : Slot} {start : BitVec 32} {p : ℕ}
    (hrep : k.shared.Represents lists) (harmed : k.shared.Armed w i start p 0)
    (hfits : start.toNat + p < 2 ^ 32) : FiresAfter w i p k :=
  fun _ _ run => (armed_of_run run hrep harmed hfits).ready_iff

variable {pid : ℕ} {cont : WaitCont}

theorem Pools.PoolStep.deadline_le {s t : Pools} {wakes : List Wobj}
    (hstep : Pools.PoolStep lists s (.resume pid cont) t ⟨wakes, some (.ret timeoutRet)⟩) :
    cont.deadline ≤ s.ticks := by
  generalize heffect : (⟨wakes, some (.ret timeoutRet)⟩ : Pools.PoolEffect) = effect at hstep
  cases hstep with
  | resume hiter =>
    cases hiter with
    | timeout hnone hdue => exact hdue.2
    | delivered hfind => simp [timeoutRet] at heffect
    | sleep hnone hnot => simp at heffect

variable {past : List (WaitOp × Output WaitRet)}

theorem inProgress_of_run {k last : WaitKernel}
    (hpast : waitMonitor.machine.Run Kernel.ProcessStep (Kernel.boot Pools.waitobjInit) past k)
    (hcont : k.cont pid = some cont) (run : waitMonitor.machine.Run Kernel.ProcessStep k trace last)
    (hsilent : ∀ event ∈ trace, ∀ value, event.2 ≠ .ret pid value) : last.cont pid = some cont ∧
      last.shared.ticks = k.shared.ticks + BitVec.ofNat 32 (timerIrqs trace) := by
  induction run with
  | start => exact ⟨hcont, by simp [timerIrqs]⟩
  | @extend middle last trace op out prior admitted realized ih =>
    obtain ⟨hmiddle, hticks⟩ := ih fun event hevent =>
      hsilent event (List.mem_append_left _ hevent)
    have hsettled := processDiscipline.settled_of_run ⟨waitInv_init, trivial⟩
      (hpast.trans prior)
    obtain ⟨lists, hrep⟩ := hsettled.inv.1.represents
    have hstep := Monitor.step_of_exec realized
    constructor
    · have halive : middle.sched.state pid ≠ .dead := by
        intro hdead
        rw [hsettled.cont_of_dead pid hdead] at hmiddle
        cases hmiddle
      have hout := hsilent (op, out) (by simp)
      obtain hsame | ⟨wakes, chan, cont', hexec, hnext⟩ :=
        Monitor.cont_of_step hstep hmiddle halive hout
      · exact hsame
      · obtain ⟨-, rfl, -⟩ :=
          (Pools.poolStep_of_exec hrep hexec).parks_resume hrep rfl
        exact hnext
    · rw [ticks_step hrep hstep, hticks, timerIrqs_append, BitVec.ofNat_add,
        BitVec.add_assoc]

theorem timesOutAfter_of_fits {p : ℕ}
    (hpast : waitMonitor.machine.Run Kernel.ProcessStep (Kernel.boot Pools.waitobjInit) past k)
    (hcont : k.cont pid = some cont)
    (hdeadline : cont.deadline = k.shared.ticks + BitVec.ofNat 32 p)
    (hfits : k.shared.ticks.toNat + p < 2 ^ 32) : TimesOutAfter pid p k := by
  intro trace middle op last run hsilent hexec
  obtain ⟨hmiddle, hticks⟩ := inProgress_of_run hpast hcont run hsilent
  obtain ⟨lists, hrep⟩ := represents_of_kernelRun (hpast.trans run)
  have hstep := Monitor.step_of_exec hexec
  obtain ⟨rfl, dop, wakes, hdop, hdata⟩ := Monitor.dataExec_of_ret hstep
  have hdop' : dop = .resume middle.sched.curid cont := by
    cases hstep with
    | call user hpath hfinish => exact absurd (hmiddle.symm.trans user) (by simp)
    | resume hcur hpath hfinish =>
      simp only [Kernel.dataOp, hmiddle, Option.map_some, Option.some.injEq] at hdop
      exact hdop.symm
  subst hdop'
  have hdue := (Pools.poolStep_of_exec hrep hdata).deadline_le
  rw [hdeadline, hticks, BitVec.le_def, BitVec.toNat_add, BitVec.toNat_add,
    BitVec.toNat_ofNat, BitVec.toNat_ofNat] at hdue
  by_contra hearly
  omega

/-! ## Exactness -/

namespace Pools

variable {s t : Pools} {lists : Wobj → List Slot} {w : Wobj} {i : Slot} {p : BitVec 32}

theorem PoolStep.armed_add {pid : ℕ} {wakes : List Wobj} (hp : p ≠ 0)
    (hstep : PoolStep lists s (.call pid (.add w eventTimer p)) t
      ⟨wakes, some (.ret ⟨sourceId i, none⟩)⟩) : t.Armed w i s.ticks p.toNat 0 := by
  generalize hop : (.call pid (.add w eventTimer p) : PoolOp) = op at hstep
  generalize heffect : (⟨wakes, some (.ret ⟨sourceId i, none⟩)⟩ : PoolEffect) = effect at hstep
  cases hstep with
  | addFailed =>
    simp only [sourceId, Effect.mk.injEq, Option.some.injEq, Stop.ret.injEq,
      WaitRet.mk.injEq] at heffect
    omega
  | @add pid' w' type argMs i' huse howner hfree =>
    simp only [DataOp.call.injEq, WaitCall.add.injEq] at hop
    obtain ⟨rfl, hw, rfl, rfl⟩ := hop
    obtain rfl : w = w' := Fin.ext (by omega)
    simp only [sourceId, Effect.mk.injEq, Option.some.injEq, Stop.ret.injEq,
      WaitRet.mk.injEq] at heffect
    obtain rfl : i = i' := Fin.ext (by omega)
    have hpos : p.toNat ≠ 0 := by simpa [BitVec.toNat_eq] using hp
    refine ⟨⟨?_, ?_⟩, ?_, ?_, ?_⟩
    · simp [setSource, setWobj, newSource]
    · simp [setSource, setWobj, newSource]
    · simp [setSource, setWobj]
    · have hp' : p ≠ 0#32 := hp
      simp [setSource, setWobj, newSource, hp']
    · simp [setSource, setWobj, newSource, hpos]
  | createFull | create | waitInvalid | wait | resume | signalFailed | signal | timer
    | console => cases hop

theorem PoolStep.armed_deliver {op : PoolOp} {wakes : List Wobj} {sid : ℤ} (hp : p ≠ 0)
    (hstep : PoolStep lists s op t ⟨wakes, some (.ret ⟨0, some sid⟩)⟩) (hrep : s.Represents lists)
    (hwaits : WaitsOn w op) (htimer : s.IsTimerOf w i) (hperiod : (s.esrc i).periodMs = p) :
    t.Armed w i s.ticks p.toNat 0 := by
  have hpos : p.toNat ≠ 0 := by simpa [BitVec.toNat_eq] using hp
  have hiteration : ∀ {cont : WaitCont} {stop : Stop Wobj WaitCont WaitRet},
      stop = .ret ⟨0, some sid⟩ → s.Iteration (lists w) cont t stop →
      t.Armed w i s.ticks p.toNat 0 := by
    intro cont stop hstop hiter
    cases hiter with
    | @delivered j hfind =>
      have hmem := (hrep.mem_iff w i).mpr htimer.1
      have hsource : (s.deliver (lists w) j).esrc i = rearm s.ticks (s.esrc i) := by
        rw [deliver_esrc, if_pos ⟨hmem, htimer.2⟩]
      refine ⟨?_, ?_, ?_, ?_⟩
      · unfold IsTimerOf
        rw [hsource]
        exact htimer
      · simp
      · simp [hsource, rearm, hperiod]
      · simp [hsource, rearm, hpos]
    | timeout hnone hdue => simp at hstop
    | sleep hnone hnot => cases hstop
  generalize heffect : (⟨wakes, some (.ret ⟨0, some sid⟩)⟩ : PoolEffect) = effect at hstep
  cases hstep with
  | @wait pid w' timeoutMs t stop huse howner hiter =>
    obtain rfl : w' = w := Fin.ext (Int.ofNat.inj hwaits)
    exact hiteration (Option.some.inj (Effect.mk.inj heffect).2).symm hiter
  | @resume pid cont t stop hiter =>
    obtain rfl : cont.wo = w := hwaits
    exact hiteration (Option.some.inj (Effect.mk.inj heffect).2).symm hiter
  | waitInvalid => simp at heffect
  | createFull | create | addFailed | add | signalFailed | signal | timer | console =>
    exact False.elim hwaits

end Pools

/-- Nothing set at clock `t` for an interval `p` expires early: no registered timer source, no
rescheduled one, no timed wait on an idle object. -/
structure NeverEarly (t p : BitVec 32) : Prop where
  registered : ∀ {past : List (WaitOp × Output WaitRet)} {k next : WaitKernel} {w : Wobj}
    {i : Slot} {pid : ℕ},
    waitMonitor.machine.Run Kernel.ProcessStep (Kernel.boot Pools.waitobjInit) past k →
    k.shared.ticks = t →
    waitMonitor.exec k (.call (.add w eventTimer p)) =
      some (next, .ret pid ⟨Pools.sourceId i, none⟩) →
    FiresAfter w i p.toNat next
  rescheduled : ∀ {past : List (WaitOp × Output WaitRet)} {k next : WaitKernel} {op : WaitOp}
    {dop : Pools.PoolOp} {w : Wobj} {i : Slot} {pid : ℕ} {sid : ℤ},
    waitMonitor.machine.Run Kernel.ProcessStep (Kernel.boot Pools.waitobjInit) past k →
    k.shared.ticks = t → k.dataOp op = some dop → Pools.WaitsOn w dop →
    waitMonitor.exec k op = some (next, .ret pid ⟨0, some sid⟩) →
    k.shared.IsTimerOf w i → (k.shared.esrc i).periodMs = p → FiresAfter w i p.toNat next
  timeout : ∀ {past : List (WaitOp × Output WaitRet)} {k next : WaitKernel}
    {out : Output WaitRet} {w : Wobj},
    waitMonitor.machine.Run Kernel.ProcessStep (Kernel.boot Pools.waitobjInit) past k →
    k.shared.ticks = t → 1 ≤ k.sched.curid → k.shared.Idle w →
    waitMonitor.exec k (.call (.wait w p)) = some (next, out) →
    out ≠ .ret k.sched.curid timeoutRet ∧
      (out = .silent → TimesOutAfter k.sched.curid p.toNat next)

theorem Pools.PoolStep.wrapped {s t : Pools} {w : Wobj} {p : BitVec 32} {wakes : List Wobj}
    (hstep : Pools.PoolStep lists s (.call pid (.wait w p)) t ⟨wakes, some (.ret timeoutRet)⟩) :
    s.ticks + p ≤ s.ticks := by
  generalize hop : (.call pid (.wait w p) : Pools.PoolOp) = op at hstep
  generalize heffect : (⟨wakes, some (.ret timeoutRet)⟩ : Pools.PoolEffect) = effect at hstep
  cases hstep with
  | @wait pid' w' timeoutMs t stop huse howner hiter =>
    simp only [DataOp.call.injEq, WaitCall.wait.injEq] at hop
    obtain ⟨rfl, -, rfl⟩ := hop
    cases hiter with
    | timeout hnone hdue => exact hdue.2
    | delivered hfind => simp [timeoutRet] at heffect
    | sleep hnone hnot => simp at heffect
  | waitInvalid => simp [timeoutRet] at heffect
  | createFull | create | addFailed | add | resume | signalFailed | signal | timer
    | console => cases hop

theorem neverEarly_of_fits {t p : BitVec 32} (hp : p ≠ 0)
    (hfits : t.toNat + p.toNat < 2 ^ 32) : NeverEarly t p where
  registered := by
    intro past k next w i pid hpast hticks hexec
    obtain ⟨lists, hrep⟩ := represents_of_kernelRun hpast
    have hstep := Monitor.step_of_exec hexec
    obtain ⟨-, dop, wakes, hdop, hdata⟩ := Monitor.dataExec_of_ret hstep
    obtain rfl : DataOp.call k.sched.curid (.add w eventTimer p) = dop := Option.some.inj hdop
    have harmed := (Pools.poolStep_of_exec hrep hdata).armed_add hp
    obtain ⟨lists', hrep'⟩ := represents_step hrep hstep
    exact firesAfter_of_armed hrep' harmed (by rwa [hticks])
  rescheduled := by
    intro past k next op dop w i pid sid hpast hticks hdop hwaits hexec htimer hperiod
    obtain ⟨lists, hrep⟩ := represents_of_kernelRun hpast
    have hstep := Monitor.step_of_exec hexec
    obtain ⟨-, dop', wakes, hdop', hdata⟩ := Monitor.dataExec_of_ret hstep
    obtain rfl : dop = dop' := Option.some.inj (hdop.symm.trans hdop')
    have harmed := (Pools.poolStep_of_exec hrep hdata).armed_deliver hp hrep hwaits htimer hperiod
    obtain ⟨lists', hrep'⟩ := represents_step hrep hstep
    exact firesAfter_of_armed hrep' harmed (by rwa [hticks])
  timeout := by
    intro past k next out w hpast hticks hone hidle hexec
    obtain ⟨lists, hrep⟩ := represents_of_kernelRun hpast
    have hstep := Monitor.step_of_exec hexec
    constructor
    · rintro rfl
      obtain ⟨-, dop, wakes, hdop, hdata⟩ := Monitor.dataExec_of_ret hstep
      obtain rfl : DataOp.call k.sched.curid (.wait w p) = dop := Option.some.inj hdop
      have hwrapped := (Pools.poolStep_of_exec hrep hdata).wrapped
      have hpos : p.toNat ≠ 0 := by simpa [BitVec.toNat_eq] using hp
      rw [hticks, BitVec.le_def, BitVec.toNat_add] at hwrapped
      omega
    · rintro rfl
      obtain ⟨wakes, chan, cont, hdata, hcont⟩ := Monitor.dataExec_of_silent hstep
      obtain ⟨-, hsame, -, -, -, timeoutMs, hargs, -, hdeadline, -⟩ :=
        (Pools.poolStep_of_exec hrep hdata).parks_call hrep rfl
      obtain rfl : p = timeoutMs := (WaitCall.wait.inj hargs).2
      have hadmitted : Kernel.ProcessStep k (.call (.wait w p) : WaitOp) := hone
      have hnext := hpast.extend hadmitted hexec
      have hcur : next.cont k.sched.curid = some cont := by
        rw [hcont]
        exact Function.update_self _ _ _
      refine timesOutAfter_of_fits hnext hcur ?_ ?_
      · rw [hdeadline, hsame]
        simp
      · rwa [hsame, hticks]

theorem exec_timer_of_blank (huser : k.InUser) (hblank : ∀ i, (k.shared.esrc i).parent = none) :
    waitMonitor.exec k (.intr .timer) =
      some (⟨k.sched, k.cont, { k.shared with ticks := k.shared.ticks + 1 }⟩, .silent) := by
  have hnotify : ∀ (due : EventSource → Bool) (slots : List Slot) (s : Pools),
      (∀ i, (s.esrc i).parent = none) → slots.foldl (Pools.notifyOne due) (s, []) = (s, []) := by
    intro due slots s hs
    induction slots with
    | nil => rfl
    | cons i slots ih =>
      rw [List.foldl_cons, Pools.notifyOne_of_not_fires fun h => h.1 (hs i), ih]
  have hirq : waitMonitor.intr .timer k.shared =
      some ({ k.shared with ticks := k.shared.ticks + 1 }, []) := by
    simp only [waitMonitor, Pools.waitobjOnTimerIrq, Pools.waitobjTimerTick, Pools.notifyAll]
    rw [hnotify]
    exact hblank
  simp only [Monitor.exec, if_pos huser, hirq, Option.map_some, Sched.wakeAll, List.foldl_nil]

theorem exists_kernel_at (n : ℕ) :
    ∃ (past : List (WaitOp × Output WaitRet)) (k : WaitKernel),
      waitMonitor.machine.Run Kernel.ProcessStep (Kernel.boot Pools.waitobjInit) past k ∧
      k.shared.ticks = BitVec.ofNat 32 n ∧ k.sched.curid = 1 ∧ k.InUser ∧
      (k.shared.wobjs 0).inUse = true ∧ (k.shared.wobjs 0).ownerPid = 1 ∧
      ∀ i, (k.shared.esrc i).parent = none := by
  induction n with
  | zero =>
    have hrun : waitMonitor.machine.Run Kernel.ProcessStep (Kernel.boot Pools.waitobjInit)
        (([.spawn 1, .handoff 1, .call .create] : List WaitOp).zip _) _ :=
      Machine.run_of_guarded rfl
    exact ⟨_, _, hrun, rfl, rfl, rfl, rfl, rfl, fun _ => rfl⟩
  | succ n ih =>
    obtain ⟨past, k, hrun, hticks, hcur, huser, huse, howner, hblank⟩ := ih
    have hadmitted : Kernel.ProcessStep k (.intr .timer : WaitOp) := trivial
    refine ⟨_, _, hrun.extend hadmitted (exec_timer_of_blank huser hblank), ?_, hcur, huser,
      huse, howner, hblank⟩
    show k.shared.ticks + 1 = _
    rw [hticks, BitVec.ofNat_add]
    rfl

theorem exec_wait_of_wrapped {p : BitVec 32} (hrep : k.shared.Represents lists) (huser : k.InUser)
    (huse : (k.shared.wobjs 0).inUse = true) (howner : (k.shared.wobjs 0).ownerPid = k.sched.curid)
    (hblank : ∀ i, (k.shared.esrc i).parent = none) (hp : p ≠ 0)
    (hwraps : k.shared.ticks + p ≤ k.shared.ticks) :
    ∃ next, waitMonitor.exec k (.call (.wait (0 : Wobj) p)) =
      some (next, .ret k.sched.curid timeoutRet) := by
  have hwo : k.shared.getWo ((0 : Wobj) : ℕ) = some 0 := Pools.getWo_eq_some.mpr ⟨rfl, huse⟩
  obtain ⟨t, stop, hloop, hiter⟩ :=
    Pools.waitLoop_eq hrep ⟨0, decide (p ≠ 0), k.shared.ticks + p⟩
  have hstop : stop = .ret timeoutRet := by
    cases hiter with
    | delivered hfind =>
      have hmem := List.mem_of_find?_eq_some hfind
      exact absurd (hblank _) (hrep.parent_ne_none hmem)
    | timeout hnone hdue => rfl
    | sleep hnone hnot => exact absurd ⟨decide_eq_true hp, hwraps⟩ hnot
  subst hstop
  have hcall : waitMonitor.call k.sched.curid (.wait ((0 : Wobj) : ℕ) p) k.shared =
      some ⟨t, [], .ret timeoutRet⟩ := by
    simp only [waitMonitor, Pools.waitobjWait, hwo, howner, ne_eq, not_true_eq_false, if_false]
    exact hloop
  refine ⟨⟨k.sched, Function.update k.cont k.sched.curid none, t⟩, ?_⟩
  simp only [Monitor.exec, if_pos huser, hcall, Option.bind_some, Kernel.finish, Sched.wakeAll,
    List.foldl_nil]

theorem fits_of_neverEarly {t p : BitVec 32} (hp : p ≠ 0) (hearly : NeverEarly t p) :
    t.toNat + p.toNat < 2 ^ 32 := by
  by_contra hwraps
  obtain ⟨past, k, hrun, hticks, hcur, huser, huse, howner, hblank⟩ := exists_kernel_at t.toNat
  rw [BitVec.ofNat_toNat, BitVec.setWidth_eq] at hticks
  obtain ⟨lists, hrep⟩ := represents_of_kernelRun hrun
  have hdue : k.shared.ticks + p ≤ k.shared.ticks := by
    rw [hticks, BitVec.le_def, BitVec.toNat_add]
    omega
  obtain ⟨next, hexec⟩ := exec_wait_of_wrapped hrep huser huse (howner.trans hcur.symm) hblank hp
    hdue
  have hidle : k.shared.Idle 0 := fun i hparent => absurd (hblank i) (by simp [hparent])
  exact (hearly.timeout hrun hticks (by omega) hidle hexec).1 rfl

/-- **Timers and timeouts never expire early exactly when they do not wrap.** For
every clock value and every interval of at least one tick, sources and waits set
at that clock keep to their interval precisely when the sum fits into 32 bits. -/
theorem neverEarly_iff {t p : BitVec 32} (hp : p ≠ 0) :
    NeverEarly t p ↔ t.toNat + p.toNat < 2 ^ 32 :=
  ⟨fits_of_neverEarly hp, neverEarly_of_fits hp⟩

theorem neverEarly_one_ten : (10 : BitVec 32) ≠ 0 ∧ NeverEarly 1 10 :=
  ⟨by decide, (neverEarly_iff (by decide)).mpr (by decide)⟩

/-- At the first tick the longest interval is not kept. -/
theorem not_neverEarly_one_max : ¬ ∀ t p : BitVec 32, p ≠ 0 → NeverEarly t p := by
  intro hall
  have hwraps : ¬ (1#32).toNat + (4294967295#32).toNat < 2 ^ 32 := by decide
  exact hwraps (fits_of_neverEarly (by decide) (hall 1 4294967295 (by decide)))

end MCertikos.Sync
