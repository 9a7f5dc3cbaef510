/-
# Timed waits and their deadlines

The timer interrupt looks at the sources, never at the waits.
-/

import MCertikos.Sync.WaitKernel

namespace MCertikos.Sync

open Math Thread Function

namespace Pools

variable {s t : Pools} {lists : Wobj → List Slot} {op : PoolOp} {effect : PoolEffect} {w : Wobj}
  {i : Slot}

def WaitsOn (w : Wobj) : PoolOp → Prop
  | .call _ (.wait wid _) => wid = w
  | .resume _ cont => cont.wo = w
  | _ => False

theorem Iteration.esrc_eq_or {w' : Wobj} {cont : WaitCont} {stop : Stop Wobj WaitCont WaitRet}
    (hiter : s.Iteration (lists w') cont t stop) (hrep : s.Represents lists)
    (hparent : (s.esrc i).parent = some w) : t.esrc i = s.esrc i ∨ (w' = w ∧ ¬ s.Idle w) := by
  cases hiter with
  | @delivered j hfind =>
    have hj := List.mem_of_find?_eq_some hfind
    by_cases hmem : i ∈ lists w'
    · obtain rfl := Option.some.inj (((hrep.mem_iff w' i).mp hmem).symm.trans hparent)
      refine Or.inr ⟨rfl, fun hidle => ?_⟩
      have hready := List.find?_some hfind
      rw [hrep.idle_iff.mp hidle j hj] at hready
      cases hready
    · have hne : i ≠ j := fun heq => hmem (heq ▸ hj)
      refine Or.inl ?_
      simp [deliver_esrc, hmem, hne]
  | timeout hnone hdue | sleep hnone hnot => exact Or.inl rfl

theorem PoolStep.nextFireTick_eq_or (hstep : PoolStep lists s op t effect)
    (hrep : s.Represents lists) (hparent : (s.esrc i).parent = some w) :
    (t.esrc i).nextFireTick = (s.esrc i).nextFireTick ∨
      (WaitsOn w op ∧ ¬ s.Idle w ∧
        ∀ pid args, op = .call pid args → (s.wobjs w).ownerPid = pid) := by
  cases hstep with
  | createFull | addFailed | waitInvalid | signalFailed => exact Or.inl rfl
  | create huse => exact Or.inl rfl
  | @add pid w' type argMs j huse howner hfree =>
    have hne : i ≠ j := by
      rintro rfl
      rw [hfree] at hparent
      cases hparent
    simp [setSource, setWobj, hne]
  | wait huse howner hiter =>
    rcases hiter.esrc_eq_or hrep hparent with hsame | ⟨rfl, hbusy⟩
    · exact Or.inl (congrArg EventSource.nextFireTick hsame)
    · refine Or.inr ⟨rfl, hbusy, ?_⟩
      rintro pid args ⟨rfl, rfl⟩
      exact howner
  | resume hiter =>
    rcases hiter.esrc_eq_or hrep hparent with hsame | ⟨hw, hbusy⟩
    · exact Or.inl (congrArg EventSource.nextFireTick hsame)
    · exact Or.inr ⟨hw, hbusy, fun pid args h => by cases h⟩
  | @signal pid j w' hparent' howner htype =>
    by_cases heq : i = j <;> simp [setSource, heq]
  | timer =>
    refine Or.inl ?_
    rw [notifyAll_esrc]
    split <;> rfl
  | console =>
    refine Or.inl ?_
    rw [notifyAll_esrc]
    split <;> rfl

def Covers (s : Pools) (w : Wobj) (deadline : BitVec 32) (i : Slot) : Prop :=
  (s.esrc i).parent = some w ∧ (s.esrc i).type = eventTimer ∧
    (s.esrc i).nextFireTick ≤ deadline

instance (s : Pools) (w : Wobj) (deadline : BitVec 32) (i : Slot) :
    Decidable (s.Covers w deadline i) := by
  unfold Covers
  infer_instance

def DeadlineCovered (s : Pools) (w : Wobj) (timeoutMs : BitVec 32) : Prop :=
  timeoutMs ≠ 0 → (∃ i, (s.esrc i).parent = some w ∧ (s.esrc i).ready = true) ∨
    s.ticks + timeoutMs ≤ s.ticks ∨ ∃ i, s.Covers w (s.ticks + timeoutMs) i

instance (s : Pools) (w : Wobj) (timeoutMs : BitVec 32) :
    Decidable (s.DeadlineCovered w timeoutMs) := by
  unfold DeadlineCovered
  infer_instance

theorem PoolStep.covers (hstep : PoolStep lists s op t effect) (hrep : s.Represents lists)
    {deadline : BitVec 32} (hcovers : s.Covers w deadline i)
    (hnot : ¬ (WaitsOn w op ∧ ¬ s.Idle w ∧
      ∀ pid args, op = .call pid args → (s.wobjs w).ownerPid = pid)) :
    t.Covers w deadline i := by
  obtain ⟨hparent, htype, hfire⟩ := hcovers
  have hpersists := hstep.persists hrep
  have hid : (s.esrc i).id ≠ 0 := hrep.id_ne_zero (by simp [hparent])
  refine ⟨?_, ?_, ?_⟩
  · rw [hpersists.parent i hid, hparent]
  · rw [hpersists.type i hid, htype]
  · rw [(hstep.nextFireTick_eq_or hrep hparent).resolve_right hnot]
    exact hfire

theorem PoolStep.not_due (hstep : PoolStep lists s (.intr .timer) t effect)
    (hparent : (t.esrc i).parent ≠ none) (htype : (t.esrc i).type = eventTimer)
    (hready : (t.esrc i).ready = false) : t.ticks < (t.esrc i).nextFireTick := by
  cases hstep with
  | timer =>
    rw [notifyAll_esrc] at hparent htype hready
    rw [notifyAll_ticks, notifyAll_esrc]
    split at hready
    · cases hready
    · next hfires =>
      rw [if_neg hfires] at hparent htype ⊢
      rw [← BitVec.not_le]
      intro hdue
      exact hfires ⟨hparent, hready, decide_eq_true ⟨htype, hdue⟩⟩

end Pools

/-- The guard under which timed waits are released in time: besides being a step
of a process, a timed wait of the owner is covered. -/
def TimedWaitsCovered (k : WaitKernel) : WaitOp → Prop
  | .call (.wait wid timeoutMs) => 1 ≤ k.sched.curid ∧
      ∀ w, k.shared.getWo wid = some w → (k.shared.wobjs w).ownerPid = k.sched.curid →
        k.shared.DeadlineCovered w timeoutMs
  | op => k.ProcessStep op

instance (k : WaitKernel) (op : WaitOp) : Decidable (TimedWaitsCovered k op) := by
  unfold TimedWaitsCovered
  split <;> infer_instance

theorem TimedWaitsCovered.processStep {k : WaitKernel} {op : WaitOp}
    (hop : TimedWaitsCovered k op) : k.ProcessStep op := by
  unfold TimedWaitsCovered at hop
  split at hop
  · exact hop.1
  · exact hop

def AllCovered (conts : ℕ → Option WaitCont) (s : Pools) : Prop :=
  ∀ p cont, conts p = some cont → cont.useTimeout = true →
    ∃ i, s.Covers cont.wo cont.deadline i

theorem AllCovered.of_path {conts : ℕ → Option WaitCont} {s : Pools} {pid : ℕ}
    {op : Pools.PoolOp} {lists : Wobj → List Slot} {path : Path Wobj WaitCont WaitRet Pools}
    (hcovered : AllCovered conts s) (hinv : WaitInv conts s) (hrep : s.Represents lists)
    (hstep : Pools.PoolStep lists s op path.shared ⟨path.wakes, some path.stop⟩)
    (howner : ∀ w, Pools.WaitsOn w op →
      (∀ pid args, op = .call pid args → (s.wobjs w).ownerPid = pid) →
      (s.wobjs w).ownerPid = pid)
    (hparks : ∀ chan cont, path.stop = .block chan cont → cont.useTimeout = true →
      ∃ i, path.shared.Covers cont.wo cont.deadline i) :
    AllCovered (update conts pid path.contAfter) path.shared := by
  intro p cont hcont htimed
  by_cases heq : p = pid
  · subst heq
    rw [update_self] at hcont
    unfold Path.contAfter at hcont
    split at hcont
    · cases hcont
    · next chan cont' hstop =>
      obtain rfl := Option.some.inj hcont
      exact hparks chan cont' hstop htimed
  · rw [update_of_ne heq] at hcont
    obtain ⟨i, hi⟩ := hcovered p cont hcont htimed
    refine ⟨i, hstep.covers hrep hi ?_⟩
    rintro ⟨hwaits, -, hcall⟩
    have hp := (hinv.owned p cont hcont).2
    exact heq (hp.symm.trans (howner _ hwaits hcall))

theorem coveredDiscipline :
    WaitDiscipline (fun conts s => WaitInv conts s ∧ AllCovered conts s) WaitCont.wo
      (fun s _ cont => s.Idle cont.wo) waitMonitor TimedWaitsCovered := by
  refine waitDiscipline (fun hop => hop.processStep) ?_ ?_ ?_
  · intro k args lists path hop hinv hcovered hrep hstep
    refine hcovered.of_path hinv hrep hstep (fun w _ hcall => hcall _ _ rfl) ?_
    intro chan cont hstop htimed
    obtain ⟨-, hsame, hidle, huse, howner, timeoutMs, rfl, htimeout, hdeadline, hnot⟩ :=
      hstep.parks_call hrep (congrArg some hstop)
    have hnonzero : timeoutMs ≠ 0 := by simpa [htimeout] using htimed
    have hwo := Pools.getWo_eq_some.mpr ⟨rfl, huse⟩
    rw [hsame, hdeadline]
    rcases hop.2 _ hwo howner hnonzero with ⟨i, hparent, hready⟩ | hdue | hcovers
    · rw [hidle i hparent] at hready
      cases hready
    · exact absurd ⟨htimed, hdeadline ▸ hdue⟩ hnot
    · exact hcovers
  · intro k cont lists path hinv hcovered hcont hrep hstep
    refine hcovered.of_path hinv hrep hstep ?_ ?_
    · intro w hw _
      obtain rfl : cont.wo = w := hw
      exact (hinv.owned _ cont hcont).2
    · intro chan cont' hstop htimed
      obtain ⟨-, rfl, hsame, -⟩ := hstep.parks_resume hrep (congrArg some hstop)
      rw [hsame]
      exact hcovered _ _ hcont htimed
  · intro k irq lists shared wakes hinv hcovered hrep hstep p cont hcont htimed
    obtain ⟨i, hi⟩ := hcovered p cont hcont htimed
    exact ⟨i, hstep.covers hrep hi fun h => h.1⟩

/-- **Covered waits are released at their deadline.** Along every run whose timed
waits are covered when they are called, no thread sleeps past its deadline after a
timer interrupt. -/
theorem timed_wait_released {trace : List (WaitOp × Output WaitRet)} {k next : WaitKernel}
    {out : Output WaitRet}
    (run : waitMonitor.machine.Run TimedWaitsCovered (Kernel.boot Pools.waitobjInit) trace k)
    (hirq : waitMonitor.exec k (.intr .timer) = some (next, out)) {p : ℕ} {cont : WaitCont}
    (hsleep : next.sched.state p = .sleep) (hcont : next.cont p = some cont)
    (htimed : cont.useTimeout = true) : ¬ cont.deadline ≤ next.shared.ticks := by
  have hinit : WaitInv (fun _ => none) Pools.waitobjInit ∧
      AllCovered (fun _ => none) Pools.waitobjInit :=
    ⟨waitInv_init, fun _ _ h => nomatch h⟩
  have hsettled := coveredDiscipline.settled_of_run hinit run
  have hstep := Monitor.step_of_exec hirq
  have hadmitted : TimedWaitsCovered k (.intr .timer) := trivial
  have hsettled' := coveredDiscipline.settled_step hsettled hadmitted hstep
  obtain ⟨lists, hrep⟩ := hsettled.inv.1.represents
  obtain ⟨-, cont', hcont', -, hidle⟩ := hsettled'.asleep p hsleep
  obtain rfl : cont = cont' := Option.some.inj (hcont.symm.trans hcont')
  obtain ⟨i, hparent, htype, hfire⟩ := hsettled'.inv.2 p cont hcont htimed
  cases hstep with
  | intr user hintr =>
    have hdata := Pools.poolStep_of_exec hrep (Monitor.dataExec_intr hintr)
    have hregistered := Option.ne_none_iff_exists'.mpr ⟨_, hparent⟩
    have hnotdue := hdata.not_due hregistered htype (hidle i hparent)
    intro hdue
    exact absurd (BitVec.le_trans hfire hdue) (BitVec.not_le.mpr hnotdue)

theorem timed_wait_released_of_timer :
    ∃ (k next : WaitKernel) (trace : List (WaitOp × Output WaitRet)) (out : Output WaitRet),
      waitMonitor.machine.Run TimedWaitsCovered (Kernel.boot Pools.waitobjInit) trace k ∧
      waitMonitor.exec k (.intr .timer) = some (next, out) ∧ next.sched.state 1 = .sleep ∧
      ∃ cont, next.cont 1 = some cont ∧ cont.useTimeout = true ∧
        ¬ cont.deadline ≤ next.shared.ticks := by
  have hprior : waitMonitor.machine.Run TimedWaitsCovered (Kernel.boot Pools.waitobjInit)
      (([.spawn 1, .spawn 2, .handoff 1, .call .create, .call (.add 0 eventTimer 3)] :
        List WaitOp).zip _) _ :=
    Machine.run_of_guarded rfl
  have hcovered : ∀ k : WaitKernel, 1 ≤ k.sched.curid →
      k.shared.Covers 0 (k.shared.ticks + 5) 0 → TimedWaitsCovered k (.call (.wait 0 5)) := by
    intro k hone hcovers
    refine ⟨hone, fun w hwo _ _ => Or.inr (Or.inr ⟨0, ?_⟩)⟩
    obtain rfl : (0 : Wobj) = w := Fin.ext (Int.ofNat.inj (Pools.getWo_eq_some.mp hwo).1)
    exact hcovers
  have hrun := hprior.extend (hcovered _ (by decide) ⟨rfl, rfl, by decide⟩) rfl
  exact ⟨_, _, _, _, hrun, rfl, by decide +kernel, ⟨0, true, 5⟩, rfl, rfl,
    timed_wait_released (p := 1) hrun rfl (by decide +kernel) rfl rfl⟩

/-- Process 1 waits one tick on an object with no source.  The next timer
interrupt reaches the deadline and leaves the process asleep. -/
theorem timed_wait_without_source_oversleeps :
    ¬ ∀ (k next : WaitKernel) (trace : List (WaitOp × Output WaitRet)) (out : Output WaitRet)
        (p : ℕ) (cont : WaitCont),
      waitMonitor.machine.Run Kernel.ProcessStep (Kernel.boot Pools.waitobjInit) trace k →
      waitMonitor.exec k (.intr .timer) = some (next, out) → next.sched.state p = .sleep →
      next.cont p = some cont → cont.useTimeout = true → ¬ cont.deadline ≤ next.shared.ticks := by
  intro hall
  have hrun : waitMonitor.machine.Run Kernel.ProcessStep (Kernel.boot Pools.waitobjInit)
      (([.spawn 1, .spawn 2, .handoff 1, .call .create, .call (.wait 0 1)] :
        List WaitOp).zip _) _ :=
    Machine.run_of_guarded rfl
  exact hall _ _ _ _ 1 ⟨0, true, 1⟩ hrun rfl rfl rfl rfl (by decide)

end MCertikos.Sync
