/-
# Waiting, waking and timeouts

Every path that raises a source wakes the object the source belongs to, every path that lowers a
flag leaves an idle object idle, and `waitobj_wait` sleeps only on an idle object it owns.
-/

import MCertikos.Sync.PoolRuns

namespace MCertikos.Sync

open Math Thread Function

abbrev WaitKernel := Kernel Wobj WaitCont Pools

abbrev WaitOp := Op WaitCall WaitIrq

namespace Pools

variable {s t : Pools} {lists : Wobj → List Slot} {op : PoolOp} {effect : PoolEffect} {w : Wobj}

def Idle (s : Pools) (w : Wobj) : Prop :=
  ∀ i, (s.esrc i).parent = some w → (s.esrc i).ready = false

theorem Represents.idle_iff (hrep : s.Represents lists) :
    s.Idle w ↔ ∀ i ∈ lists w, (s.esrc i).ready = false := by
  simp only [Idle, hrep.mem_iff]

theorem Idle.notifyAll (hidle : s.Idle w) (due : EventSource → Bool) :
    w ∈ (s.notifyAll due).2 ∨ (s.notifyAll due).1.Idle w := by
  by_cases hfires : ∃ i, Fires due (s.esrc i) ∧ (s.esrc i).parent = some w
  · exact Or.inl ((mem_notifyAll_wakes due s w).mpr hfires)
  · refine Or.inr fun i hparent => ?_
    rw [(sameShape_notifyAll due s).parent i] at hparent
    rw [notifyAll_esrc, if_neg fun h => hfires ⟨i, h, hparent⟩]
    exact hidle i hparent

variable {cont : WaitCont}

theorem Idle.iteration (hidle : s.Idle w) {list : List Slot} {stop : Stop Wobj WaitCont WaitRet}
    (hiter : s.Iteration list cont t stop) : t.Idle w := by
  cases hiter with
  | @delivered i hfind =>
    intro j hparent
    rw [deliver_esrc] at hparent ⊢
    split_ifs at hparent ⊢ with htimer heq
    · rfl
    · rfl
    · exact hidle j hparent
  | timeout hnone hdue | sleep hnone hnot => exact hidle

theorem PoolStep.idle (hstep : PoolStep lists s op t effect) (hidle : s.Idle w) :
    w ∈ effect.wakes ∨ t.Idle w := by
  cases hstep with
  | createFull | addFailed | waitInvalid | signalFailed => exact Or.inr hidle
  | create huse => exact Or.inr hidle
  | @add pid w' type argMs i huse howner hfree =>
    refine Or.inr fun j hparent => ?_
    by_cases heq : j = i
    · simp [setSource, setWobj, newSource, heq]
    · have hparent' : (s.esrc j).parent = some w := by
        simpa [setSource, setWobj, heq] using hparent
      simpa [setSource, setWobj, heq] using hidle j hparent'
  | wait huse howner hiter => exact Or.inr (hidle.iteration hiter)
  | resume hiter => exact Or.inr (hidle.iteration hiter)
  | @signal pid i w' hparent howner htype =>
    by_cases hsame : w = w'
    · exact Or.inl (by simp [hsame])
    · refine Or.inr fun j hj => ?_
      have hne : j ≠ i := by
        rintro rfl
        have hw : (s.esrc j).parent = some w := by simpa [setSource] using hj
        exact hsame (Option.some.inj (hw.symm.trans hparent))
      simpa [setSource, hne] using hidle j (by simpa [setSource, hne] using hj)
  | timer =>
    have hidle' : { s with ticks := s.ticks + 1 }.Idle w := hidle
    simpa only using hidle'.notifyAll (timerDue (s.ticks + 1))
  | console => simpa only using hidle.notifyAll keyboardDue

theorem PoolStep.parks_call {pid : ℕ} {args : WaitCall}
    (hstep : PoolStep lists s (.call pid args) t effect) (hrep : s.Represents lists) {chan : Wobj}
    (hstop : effect.stop = some (.block chan cont)) :
    chan = cont.wo ∧ t = s ∧ s.Idle cont.wo ∧ (s.wobjs cont.wo).inUse = true ∧
      (s.wobjs cont.wo).ownerPid = pid ∧
      ∃ timeoutMs, args = .wait cont.wo timeoutMs ∧ cont.useTimeout = decide (timeoutMs ≠ 0) ∧
        cont.deadline = s.ticks + timeoutMs ∧
        ¬ (cont.useTimeout = true ∧ cont.deadline ≤ s.ticks) := by
  cases hstep with
  | @wait pid w timeoutMs t stop huse howner hiter =>
    cases hiter with
    | sleep hnone hnot =>
      obtain ⟨rfl, rfl⟩ : w = chan ∧
          ⟨w, decide (timeoutMs ≠ 0), s.ticks + timeoutMs⟩ = cont := by
        rwa [Option.some.injEq, Stop.block.injEq] at hstop
      exact ⟨rfl, rfl, hrep.idle_iff.mpr hnone, huse, howner, timeoutMs, rfl, rfl, rfl, hnot⟩
    | delivered hfind | timeout hnone hdue => simp at hstop
  | createFull | create | addFailed | add | waitInvalid | signalFailed | signal => simp at hstop

theorem PoolStep.parks_resume {pid : ℕ} (hstep : PoolStep lists s (.resume pid cont) t effect)
    (hrep : s.Represents lists) {chan : Wobj} {cont' : WaitCont}
    (hstop : effect.stop = some (.block chan cont')) :
    chan = cont.wo ∧ cont' = cont ∧ t = s ∧ s.Idle cont.wo ∧
      ¬ (cont.useTimeout = true ∧ cont.deadline ≤ s.ticks) := by
  cases hstep with
  | resume hiter =>
    cases hiter with
    | sleep hnone hnot =>
      obtain ⟨rfl, rfl⟩ : cont.wo = chan ∧ cont = cont' := by simpa using hstop
      exact ⟨rfl, rfl, rfl, hrep.idle_iff.mpr hnone, hnot⟩
    | delivered hfind | timeout hnone hdue => simp at hstop

end Pools

variable {guard : WaitKernel → WaitOp → Prop}

theorem represents_of_kernelRun {trace : List (WaitOp × Output WaitRet)} {k : WaitKernel}
    (run : waitMonitor.machine.Run guard (Kernel.boot Pools.waitobjInit) trace k) :
    ∃ lists, k.shared.Represents lists := by
  have hdata : waitMonitor.dataMachine.Reachable Machine.anyStep Pools.waitobjInit k.shared :=
    Monitor.dataRun_of_run (fun _ _ _ _ _ => trivial) run
  obtain ⟨_, hrun⟩ := hdata
  obtain ⟨lists, hrep, -⟩ := Pools.represents_of_run hrun
  exact ⟨lists, hrep⟩

/-! ## The sleeping discipline -/

structure WaitInv (conts : ℕ → Option WaitCont) (s : Pools) : Prop where
  represents : ∃ lists, s.Represents lists
  owned : ∀ p cont, conts p = some cont →
    (s.wobjs cont.wo).inUse = true ∧ (s.wobjs cont.wo).ownerPid = p

theorem waitInv_init : WaitInv (fun _ => none) Pools.waitobjInit :=
  ⟨⟨_, Pools.represents_waitobjInit⟩, fun _ _ hcont => nomatch hcont⟩

namespace WaitInv

variable {conts : ℕ → Option WaitCont} {s : Pools} {pid : ℕ}
  {path : Path Wobj WaitCont WaitRet Pools}

theorem of_path (hinv : WaitInv conts s) {lists : Wobj → List Slot} {op : Pools.PoolOp}
    (hrep : s.Represents lists)
    (hstep : Pools.PoolStep lists s op path.shared ⟨path.wakes, some path.stop⟩)
    (hparks : ∀ chan cont, path.stop = .block chan cont →
      (s.wobjs cont.wo).inUse = true ∧ (s.wobjs cont.wo).ownerPid = pid) :
    WaitInv (update conts pid path.contAfter) path.shared := by
  have hpersists := hstep.persists hrep
  obtain ⟨lists', hrep', -⟩ := hrep.step hstep
  refine ⟨⟨lists', hrep'⟩, ?_⟩
  intro p cont hcont
  have howned : (s.wobjs cont.wo).inUse = true ∧ (s.wobjs cont.wo).ownerPid = p := by
    by_cases heq : p = pid
    · subst heq
      rw [update_self] at hcont
      unfold Path.contAfter at hcont
      split at hcont
      · cases hcont
      · next chan cont' hstop =>
        obtain rfl := Option.some.inj hcont
        exact hparks chan cont' hstop
    · rw [update_of_ne heq] at hcont
      exact hinv.owned p cont hcont
  exact ⟨hpersists.inUse _ howned.1, (hpersists.ownerPid _ howned.1).trans howned.2⟩

end WaitInv

theorem waitDiscipline {extra : (ℕ → Option WaitCont) → Pools → Prop}
    (hguard : ∀ {k op}, guard k op → k.ProcessStep op)
    (hcall : ∀ {k : WaitKernel} {args lists} {path : Path Wobj WaitCont WaitRet Pools},
      guard k (.call args) → WaitInv k.cont k.shared → extra k.cont k.shared →
      k.shared.Represents lists →
      Pools.PoolStep lists k.shared (.call k.sched.curid args) path.shared
        ⟨path.wakes, some path.stop⟩ →
      extra (update k.cont k.sched.curid path.contAfter) path.shared)
    (hresume : ∀ {k : WaitKernel} {cont lists} {path : Path Wobj WaitCont WaitRet Pools},
      WaitInv k.cont k.shared → extra k.cont k.shared → k.cont k.sched.curid = some cont →
      k.shared.Represents lists →
      Pools.PoolStep lists k.shared (.resume k.sched.curid cont) path.shared
        ⟨path.wakes, some path.stop⟩ →
      extra (update k.cont k.sched.curid path.contAfter) path.shared)
    (hintr : ∀ {k : WaitKernel} {irq lists shared wakes}, WaitInv k.cont k.shared →
      extra k.cont k.shared → k.shared.Represents lists →
      Pools.PoolStep lists k.shared (.intr irq) shared ⟨wakes, none⟩ → extra k.cont shared) :
    WaitDiscipline (fun conts s => WaitInv conts s ∧ extra conts s) WaitCont.wo
      (fun s _ cont => s.Idle cont.wo) waitMonitor guard  where
  noSigkill hop := (hguard hop).noSigkill
  process hop := hguard hop
  call := by
    intro k args path hop _ hinv _ hpath
    obtain ⟨lists, hrep⟩ := hinv.1.represents
    have hstep := Pools.poolStep_of_exec hrep (Monitor.dataExec_call hpath)
    have hparks := fun (chan : Wobj) (cont : WaitCont) (hstop : path.stop = .block chan cont) =>
      hstep.parks_call hrep (congrArg some hstop)
    exact {
      inv := ⟨hinv.1.of_path hrep hstep fun chan cont hstop =>
          ⟨(hparks chan cont hstop).2.2.2.1, (hparks chan cont hstop).2.2.2.2.1⟩,
        hcall hop hinv.1 hinv.2 hrep hstep⟩
      keeps := fun _ _ _ _ => hstep.idle
      parks := fun chan cont hstop => by
        obtain ⟨hchan, hsame, hidle, -⟩ := hparks chan cont hstop
        exact ⟨hchan, hsame ▸ hidle⟩ }
  resume := by
    intro k cont path hinv hcont hpath
    obtain ⟨lists, hrep⟩ := hinv.1.represents
    have hstep := Pools.poolStep_of_exec hrep (Monitor.dataExec_resume hpath)
    have hparks := fun (chan : Wobj) (cont' : WaitCont) (hstop : path.stop = .block chan cont') =>
      hstep.parks_resume hrep (congrArg some hstop)
    exact {
      inv := ⟨hinv.1.of_path hrep hstep fun chan cont' hstop =>
          (hparks chan cont' hstop).2.1 ▸ hinv.1.owned _ cont hcont,
        hresume hinv.1 hinv.2 hcont hrep hstep⟩
      keeps := fun _ _ _ _ => hstep.idle
      parks := fun chan cont' hstop => by
        obtain ⟨hchan, rfl, hsame, hidle, -⟩ := hparks chan cont' hstop
        exact ⟨hchan, hsame ▸ hidle⟩ }
  intr := by
    intro k irq shared wakes hinv hpath
    obtain ⟨lists, hrep⟩ := hinv.1.represents
    have hstep := Pools.poolStep_of_exec hrep (Monitor.dataExec_intr hpath)
    obtain ⟨lists', hrep', -⟩ := hrep.step hstep
    have hpersists := hstep.persists hrep
    refine ⟨⟨⟨⟨lists', hrep'⟩, ?_⟩, hintr hinv.1 hinv.2 hrep hstep⟩, fun _ _ _ => hstep.idle⟩
    intro p cont hcont
    obtain ⟨huse, howner⟩ := hinv.1.owned p cont hcont
    exact ⟨hpersists.inUse _ huse, (hpersists.ownerPid _ huse).trans howner⟩

theorem processDiscipline : WaitDiscipline (fun conts s => WaitInv conts s ∧ True) WaitCont.wo
      (fun s _ cont => s.Idle cont.wo) waitMonitor Kernel.ProcessStep :=
  waitDiscipline (fun hop => hop) (fun _ _ _ _ _ => trivial) (fun _ _ _ _ _ => trivial)
    (fun _ _ _ _ => trivial)

/-- **No lost wakeup.** In every state of every run, a thread asleep on a wait
object owns it, and none of the object's sources is ready. -/
theorem no_lost_wakeup {trace : List (WaitOp × Output WaitRet)} {k : WaitKernel}
    (run : waitMonitor.machine.Run Kernel.ProcessStep (Kernel.boot Pools.waitobjInit) trace
      k)
    {p : ℕ} {w : Wobj} (hsleep : k.sched.state p = .sleep) (hchan : k.sched.channel p = some w) :
    (∀ i ∈ k.shared.sourcesOf w, (k.shared.esrc i).ready = false) ∧
      (k.shared.wobjs w).ownerPid = p := by
  have hsettled := processDiscipline.settled_of_run ⟨waitInv_init, trivial⟩ run
  obtain ⟨-, cont, hcont, hchannel, hidle⟩ := hsettled.asleep p hsleep
  obtain rfl : w = cont.wo := Option.some.inj (hchan.symm.trans hchannel)
  obtain ⟨lists, hrep⟩ := hsettled.inv.1.represents
  refine ⟨?_, (hsettled.inv.1.owned p cont hcont).2⟩
  rw [hrep.sourcesOf_eq]
  exact hrep.idle_iff.mp hidle

theorem no_lost_wakeup_of_sleeper :
    ∃ (k : WaitKernel) (trace : List (WaitOp × Output WaitRet)),
      waitMonitor.machine.Run Kernel.ProcessStep (Kernel.boot Pools.waitobjInit) trace k ∧
      k.sched.state 1 = .sleep ∧ k.shared.sourcesOf 0 = [0] ∧
      (∀ i ∈ k.shared.sourcesOf 0, (k.shared.esrc i).ready = false) ∧
      (k.shared.wobjs 0).ownerPid = 1 := by
  have hrun : waitMonitor.machine.Run Kernel.ProcessStep (Kernel.boot Pools.waitobjInit)
      (([.spawn 1, .spawn 2, .handoff 1, .call .create, .call (.add 0 eventTimer 5),
        .call (.wait 0 0)] : List WaitOp).zip _) _ :=
    Machine.run_of_guarded rfl
  exact ⟨_, _, hrun, rfl, rfl, no_lost_wakeup hrun rfl rfl⟩

end MCertikos.Sync
