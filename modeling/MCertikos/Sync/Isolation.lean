/-
# Processes do not reach each other's wait objects

All processes share the two pools and name objects and sources by small integers.
-/

import MCertikos.Sync.Timer

namespace MCertikos.Sync

open Math Thread Function

namespace Pools

variable {s t : Pools} {lists : Wobj → List Slot} {op : PoolOp} {effect : PoolEffect} {w : Wobj}
  {p q : ℕ}

def Owns (s : Pools) (p : ℕ) (w : Wobj) : Prop :=
  (s.wobjs w).inUse = true ∧ (s.wobjs w).ownerPid = p

theorem Owns.eq (hp : s.Owns p w) (hq : s.Owns q w) : p = q := hp.2.symm.trans hq.2

theorem Owns.persists (howns : s.Owns p w) (hpersists : s.Persists t) : t.Owns p w :=
  ⟨hpersists.inUse w howns.1, (hpersists.ownerPid w howns.1).trans howns.2⟩

def ActsFor (s : Pools) (p : ℕ) : PoolOp → Prop
  | .call pid _ => pid = p
  | .resume pid cont => pid = p ∧ s.Owns p cont.wo
  | .intr _ => False

structure Untouched (s t : Pools) (w : Wobj) : Prop where
  object : t.wobjs w = s.wobjs w
  source : ∀ i, (s.esrc i).parent = some w ∨ (t.esrc i).parent = some w → t.esrc i = s.esrc i

theorem Untouched.refl (s : Pools) (w : Wobj) : Untouched s s w := ⟨rfl, fun _ _ => rfl⟩

theorem Iteration.untouched {w' : Wobj} {cont : WaitCont} {stop : Stop Wobj WaitCont WaitRet}
    (hiter : s.Iteration (lists w') cont t stop) (hrep : s.Represents lists) (hne : w' ≠ w) :
    Untouched s t w := by
  have hshape := hiter.sameShape hrep
  refine ⟨congrFun hshape.wobjs w, fun i hparent => ?_⟩
  have hw : (s.esrc i).parent = some w := by
    rcases hparent with hparent | hparent
    · exact hparent
    · rwa [hshape.parent i] at hparent
  exact (hiter.esrc_eq_or hrep hw).resolve_right fun h => hne h.1

/-- **One call.** What a process does leaves the objects of the others untouched, and
wakes its own objects only. -/
theorem PoolStep.isolated (hstep : PoolStep lists s op t effect) (hrep : s.Represents lists)
    (hacts : s.ActsFor p op) :
    (∀ q w, s.Owns q w → p ≠ q → Untouched s t w) ∧ ∀ w ∈ effect.wakes, s.Owns p w := by
  have hother : ∀ {q w w'}, s.Owns q w → p ≠ q → s.Owns p w' → w' ≠ w := by
    rintro q w w' hq hne hp rfl
    exact hne (hp.eq hq)
  cases hstep with
  | createFull | addFailed | waitInvalid | signalFailed =>
    exact ⟨fun _ w _ _ => .refl s w, by simp⟩
  | @create pid w' huse =>
    refine ⟨fun q w howns _ => ⟨?_, fun _ _ => rfl⟩, by simp⟩
    have hne : w ≠ w' := by
      rintro rfl
      cases huse.symm.trans howns.1
    simp [setWobj, hne]
  | @add pid w' type argMs i huse howner hfree =>
    obtain rfl : pid = p := hacts
    refine ⟨fun q w howns hpq => ?_, by simp⟩
    have hne : w' ≠ w := hother howns hpq ⟨huse, howner⟩
    refine ⟨by simp [setWobj, setSource, Ne.symm hne], fun j hparent => ?_⟩
    have hj : j ≠ i := by
      rintro rfl
      rcases hparent with hparent | hparent
      · cases hfree.symm.trans hparent
      · simp [setWobj, setSource, newSource, hne] at hparent
    simp [setWobj, setSource, hj]
  | wait huse howner hiter =>
    obtain rfl := hacts
    exact ⟨fun q w howns hpq => hiter.untouched hrep (hother howns hpq ⟨huse, howner⟩), by simp⟩
  | resume hiter =>
    exact ⟨fun q w howns hpq => hiter.untouched hrep (hother howns hpq hacts.2), by simp⟩
  | @signal pid i w' hparent howner htype =>
    obtain rfl : pid = p := hacts
    have huse := hrep.inUse_of_mem w' i ((hrep.mem_iff w' i).mpr hparent)
    refine ⟨fun q w howns hpq => ⟨rfl, fun j hj => ?_⟩, by simpa using ⟨huse, howner⟩⟩
    have hne : w' ≠ w := hother howns hpq ⟨huse, howner⟩
    have hji : j ≠ i := by
      rintro rfl
      have hw : (s.esrc j).parent = some w := by simpa [setSource] using hj
      exact hne (Option.some.inj (hparent.symm.trans hw))
    simp [setSource, hji]
  | timer | console => cases hacts

end Pools

/-! ## Channels are owned -/

/-- Every wait in progress and every channel is about an object of its own thread. -/
structure ChannelsOwned (k : WaitKernel) : Prop where
  inv : WaitInv k.cont k.shared
  channel : ∀ p w, k.sched.channel p = some w → k.shared.Owns p w

namespace ChannelsOwned

variable {k next : WaitKernel}

theorem boot : ChannelsOwned (Kernel.boot Pools.waitobjInit) :=
  ⟨waitInv_init, fun _ _ hchan => by cases hchan⟩

theorem frame (howned : ChannelsOwned k) (hrep : ∃ lists, next.shared.Represents lists)
    (hpersists : k.shared.Persists next.shared)
    (hcont : ∀ p cont, next.cont p = some cont → k.cont p = some cont)
    (hchan : ∀ p w, next.sched.channel p = some w → k.sched.channel p = some w) :
    ChannelsOwned next where
  inv := ⟨hrep, fun p cont h =>
    have howns : k.shared.Owns p cont.wo := howned.inv.owned p cont (hcont p cont h)
    howns.persists hpersists⟩
  channel p w h := (howned.channel p w (hchan p w h)).persists hpersists

theorem channel_of_wakeAll {s : Sched Wobj} {chans : List Wobj} {p : ℕ} {w : Wobj}
    (hchan : (s.wakeAll chans).channel p = some w) : s.channel p = some w := by
  rw [(s.wakeAll_fields chans p).2.1] at hchan
  split at hchan
  · cases hchan
  · exact hchan

theorem finish (howned : ChannelsOwned k) {path : Path Wobj WaitCont WaitRet Pools}
    {out : Output WaitRet} (hinv : WaitInv (update k.cont k.sched.curid path.contAfter) path.shared)
    (hpersists : k.shared.Persists path.shared)
    (hparks : ∀ chan cont, path.stop = .block chan cont → chan = cont.wo)
    (hfinish : k.finish path = some (next, out)) : ChannelsOwned next := by
  obtain ⟨value, hstop, -, rfl⟩ | ⟨chan, cont, sched, hstop, -, hsleep, rfl⟩ :=
    Kernel.finish_cases hfinish
  · have hafter : path.contAfter = none := by simp [Path.contAfter, hstop]
    rw [hafter] at hinv
    exact ⟨hinv, fun p w h => (howned.channel p w (channel_of_wakeAll h)).persists hpersists⟩
  · have hafter : path.contAfter = some cont := by simp [Path.contAfter, hstop]
    rw [hafter] at hinv
    refine ⟨hinv, fun p w h => ?_⟩
    rw [(Sched.threadSleep_fields hsleep).1, Sched.wakeAll_curid] at h
    by_cases heq : p = k.sched.curid
    · subst heq
      rw [update_self, Option.some.injEq] at h
      obtain rfl := h
      rw [hparks chan cont hstop]
      exact hinv.owned _ cont (update_self _ _ _)
    · rw [update_of_ne heq] at h
      exact (howned.channel p w (channel_of_wakeAll h)).persists hpersists

theorem sleepReturn (howned : ChannelsOwned k) :
    ChannelsOwned ⟨k.sched.threadSleepReturn, k.cont, k.shared⟩ := by
  refine howned.frame howned.inv.represents (.refl _) (fun _ _ h => h) fun p w h => ?_
  by_cases heq : p = k.sched.curid
  · simp [Sched.threadSleepReturn, Sched.tcbSetChan, heq] at h
  · simpa [Sched.threadSleepReturn, Sched.tcbSetChan, heq] using h

theorem channel_of_sysKill {s : Sched Wobj} {pid signum : ℤ} {p : ℕ} {w : Wobj}
    (hchan : (s.sysKill pid signum).2.channel p = some w) : s.channel p = some w := by
  unfold Sched.sysKill at hchan
  split_ifs at hchan
  · exact hchan
  · simpa [Sched.killTarget, Sched.tcbSetPendingSignals, Sched.tcbSetState] using hchan
  · obtain ⟨chans, heq⟩ := s.postSignal_eq_wakeAll pid.toNat signum
    have hsame := (s.tcbAddPendingSignal_fields pid.toNat signum).2
    dsimp only at hchan
    rw [heq] at hchan
    rw [← hsame]
    exact channel_of_wakeAll hchan
  · exact hchan

theorem step (howned : ChannelsOwned k) {op : WaitOp} {out : Output WaitRet}
    (hstep : waitMonitor.Step k op next out) : ChannelsOwned next := by
  obtain ⟨lists, hrep⟩ := howned.inv.represents
  cases hstep with
  | @spawn pid user hone hlt hdead =>
    refine howned.frame howned.inv.represents (.refl _) (fun p cont h => ?_) fun p w h => ?_
    · by_cases heq : p = pid
      · simp [heq] at h
      · simpa [heq] using h
    · simpa [Sched.threadSpawn, Sched.tcbSetState] using h
  | handoff user hcur hone hlt hready =>
    refine howned.frame howned.inv.represents (.refl _) (fun _ _ h => h) fun p w h => ?_
    simpa [Sched.kernMainHandoff, Sched.tcbSetState, Sched.setCurid] using h
  | yield user =>
    refine howned.frame howned.inv.represents (.refl _) (fun _ _ h => h) fun p w h => ?_
    simpa using h
  | call user hpath hfinish =>
    have hpool := Pools.poolStep_of_exec hrep (Monitor.dataExec_call hpath)
    refine howned.finish (howned.inv.of_path hrep hpool fun chan cont hstop => ?_)
      (hpool.persists hrep) (fun chan cont hstop => ?_) hfinish
    · obtain ⟨-, -, -, huse, howner, -⟩ := hpool.parks_call hrep (congrArg some hstop)
      exact ⟨huse, howner⟩
    · exact (hpool.parks_call hrep (congrArg some hstop)).1
  | @resume cont path _ _ hcont hpath hfinish =>
    have hpool := Pools.poolStep_of_exec hrep (Monitor.dataExec_resume hpath)
    refine howned.sleepReturn.finish (howned.inv.of_path hrep hpool fun chan cont' hstop => ?_)
      (hpool.persists hrep) (fun chan cont' hstop => ?_) hfinish
    · obtain ⟨-, rfl, -⟩ := hpool.parks_resume hrep (congrArg some hstop)
      exact howned.inv.owned _ _ hcont
    · obtain ⟨hchan, rfl, -⟩ := hpool.parks_resume hrep (congrArg some hstop)
      exact hchan
  | intr user hintr =>
    have hpool := Pools.poolStep_of_exec hrep (Monitor.dataExec_intr hintr)
    obtain ⟨lists', hrep', -⟩ := hrep.step hpool
    exact howned.frame ⟨lists', hrep'⟩ (hpool.persists hrep) (fun _ _ h => h)
      fun p w h => channel_of_wakeAll h
  | kill user =>
    exact howned.frame howned.inv.represents (.refl _) (fun _ _ h => h) fun p w h =>
      channel_of_sysKill h
  | terminate user hsched =>
    refine howned.frame howned.inv.represents (.refl _) (fun _ _ h => h) fun p w h => ?_
    rw [Sched.channel_of_threadExit hsched] at h
    exact h

end ChannelsOwned

theorem channelsOwned_of_run {guard : WaitKernel → WaitOp → Prop}
    {trace : List (WaitOp × Output WaitRet)} {k : WaitKernel}
    (run : waitMonitor.machine.Run guard (Kernel.boot Pools.waitobjInit) trace k) :
    ChannelsOwned k :=
  run.invariant .boot fun howned _ hexec => howned.step (Monitor.step_of_exec hexec)

/-! ## Isolation -/

def InCall : WaitOp → Prop
  | .call _ => True
  | .resume => True
  | _ => False

theorem ChannelsOwned.finish_frame {k next : WaitKernel} (howned : ChannelsOwned k)
    {path : Path Wobj WaitCont WaitRet Pools} {out : Output WaitRet} {q : ℕ}
    (hq : k.sched.curid ≠ q) (hwakes : ∀ w ∈ path.wakes, k.shared.Owns k.sched.curid w)
    (hfinish : k.finish path = some (next, out)) : next.sched.channel q = k.sched.channel q ∧
      (k.sched.state q = .sleep → next.sched.state q ≠ .ready) := by
  have hnot : ¬ k.sched.WokenBy path.wakes q := by
    rintro ⟨-, -, -, w, hw, hchan⟩
    exact hq ((hwakes w hw).eq (howned.channel q w hchan))
  obtain ⟨hstate, hchannel, -⟩ := k.sched.wakeAll_fields path.wakes q
  rw [if_neg hnot] at hstate hchannel
  obtain ⟨value, -, -, rfl⟩ | ⟨chan, cont, sched, -, -, hsleep, rfl⟩ :=
    Kernel.finish_cases hfinish
  · refine ⟨hchannel, fun hasleep => ?_⟩
    rw [hstate, hasleep]
    decide
  · obtain ⟨hchan', -, hstate'⟩ := Sched.threadSleep_fields hsleep
    rw [Sched.wakeAll_curid] at hchan' hstate'
    rw [hchan', update_of_ne (Ne.symm hq)]
    refine ⟨hchannel, fun hasleep => ?_⟩
    rcases hstate' q (Ne.symm hq) with hsame | hrun
    · rw [hsame, hstate, hasleep]
      decide
    · rw [hrun]
      decide

/-- **Wait objects are isolated between processes.** In every reachable state, whatever
wait-object call the running process makes or goes on with, the objects of another
process and the sources on them stay as they are, its channel stays as it is, and it is
not moved from sleeping to ready. -/
theorem waitobj_isolated {trace : List (WaitOp × Output WaitRet)} {k next : WaitKernel}
    (run : waitMonitor.machine.Run Machine.anyStep (Kernel.boot Pools.waitobjInit) trace k)
    {p q : ℕ} (hpq : p ≠ q) (hcur : k.sched.curid = p) {op : WaitOp} {out : Output WaitRet}
    (hop : InCall op) (hexec : waitMonitor.exec k op = some (next, out)) :
    (∀ w, k.shared.Owns q w → Pools.Untouched k.shared next.shared w) ∧
      next.sched.channel q = k.sched.channel q ∧
      (k.sched.state q = .sleep → next.sched.state q ≠ .ready) := by
  subst hcur
  have howned := channelsOwned_of_run run
  obtain ⟨lists, hrep⟩ := howned.inv.represents
  cases Monitor.step_of_exec hexec with
  | call user hpath hfinish =>
    have hpool := Pools.poolStep_of_exec hrep (Monitor.dataExec_call hpath)
    obtain ⟨huntouched, hwakes⟩ := hpool.isolated hrep rfl
    rw [(Kernel.effect_of_finish hfinish).1]
    exact ⟨fun w howns => huntouched q w howns hpq, howned.finish_frame hpq hwakes hfinish⟩
  | resume hcont hpath hfinish =>
    have hpool := Pools.poolStep_of_exec hrep (Monitor.dataExec_resume hpath)
    obtain ⟨huntouched, hwakes⟩ := hpool.isolated hrep ⟨rfl, howned.inv.owned _ _ hcont⟩
    rw [(Kernel.effect_of_finish hfinish).1]
    obtain ⟨hchan, hstate⟩ := howned.sleepReturn.finish_frame hpq hwakes hfinish
    rw [hchan]
    refine ⟨fun w howns => huntouched q w howns hpq, ?_, hstate⟩
    simp [Sched.threadSleepReturn, Sched.tcbSetChan, Ne.symm hpq]
  | spawn | handoff | yield | intr | kill | terminate => exact hop.elim

/-- Process 1 sleeps on its object; process 2 tries to register on it, to wait on it
and to signal its source. -/
def intruder : List WaitOp :=
  [.spawn 1, .spawn 2, .handoff 1, .call .create, .call (.add 0 eventSoftware 0),
    .call (.wait 0 0), .call (.add 0 eventTimer 1), .call (.wait 0 0)]

theorem waitobj_isolated_of_intruder :
    ∃ (k next : WaitKernel) (out : Output WaitRet), k.sched.curid = 2 ∧
      k.sched.state 1 = .sleep ∧ k.shared.Owns 1 0 ∧
      waitMonitor.exec k (.call (.signal 1)) = some (next, out) ∧
      Pools.Untouched k.shared next.shared 0 ∧ next.sched.state 1 ≠ .ready := by
  have heval : ∃ x ∈ waitMonitor.machine.runAll (Kernel.boot Pools.waitobjInit) intruder,
      x.1.sched.curid = 2 ∧ x.1.sched.state 1 = .sleep ∧
      ((x.1.shared.wobjs 0).inUse = true ∧ (x.1.shared.wobjs 0).ownerPid = 1) ∧
      (waitMonitor.exec x.1 (.call (.signal 1))).isSome := by
    decide +kernel
  obtain ⟨⟨k, outs⟩, hrunAll, hcur, hsleep, howns, hsome⟩ := heval
  obtain ⟨⟨next, out⟩, hexec⟩ := Option.isSome_iff_exists.mp hsome
  have hrun : waitMonitor.machine.Run Machine.anyStep (Kernel.boot Pools.waitobjInit) _ k :=
    Machine.run_of_runAll (fun _ _ _ => trivial) hrunAll
  have hop : InCall (.call (.signal 1)) := trivial
  obtain ⟨huntouched, -, hstate⟩ := waitobj_isolated (q := 1) hrun (by decide) hcur hop hexec
  exact ⟨k, next, out, hcur, hsleep, howns, hexec, huntouched 0 howns, hstate hsleep⟩

end MCertikos.Sync
