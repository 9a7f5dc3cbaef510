/-
# Waiting with several CPUs

The waiter and any number of notifiers run on different CPUs, and the steps are the sections the
locks delimit: the scan of the flags, which holds the lock of the object; the section of
`thread_sleep`, which holds the scheduler lock and gives the lock of the object back; the store of
the flag in `event_notify`, under no lock at all; and the section of `thread_wakeup`, under the
scheduler lock.
-/

import MCertikos.Sync.WaitKernel

namespace MCertikos.Sync

open Math Thread Function

inductive Waiter
  /-- Outside `waitobj_wait`. -/
  | user
  /-- At the head of its loop. -/
  | scanning (cont : WaitCont)
  /-- After a scan that found nothing, before the section of `thread_sleep`. -/
  | parking (cont : WaitCont)
  /-- In `thread_sleep`, switched away from. -/
  | parked (cont : WaitCont)

/-- The waiter's CPU, the pools, and for each notifier the source it has stored to and
whose object it has yet to wake. -/
structure Smp (ν : Type*) where
  sched : Sched Wobj
  pools : Pools
  waiter : Waiter
  notifiers : ν → Option Slot

inductive SmpOp (ν : Type*)
  /-- The waiter enters `waitobj_wait`. -/
  | enter (wid : ℤ) (timeoutMs : BitVec 32)
  | scan
  | sleep
  /-- The waiter is scheduled again and takes the lock of the object back. -/
  | resume
  /-- The thread on the waiter's CPU, which is in user mode, yields. -/
  | yield
  /-- The store of `event_notify`. -/
  | store (n : ν) (i : Slot)
  /-- The `thread_wakeup` of `event_notify`. -/
  | wake (n : ν)
  /-- The clock advances. -/
  | tick

namespace Smp

variable {ν : Type*}

/-- One step of the waiter `pid`, of its CPU or of a notifier; the output is what
`waitobj_wait` returns. -/
def exec [DecidableEq ν] (pid : ℕ) (k : Smp ν) : SmpOp ν → Option (Smp ν × Option WaitRet)
  | .enter wid timeoutMs =>
    match k.waiter with
    | .user =>
      match k.pools.getWo wid with
      | none => some (k, some ⟨-2, none⟩)
      | some w =>
        if (k.pools.wobjs w).ownerPid ≠ pid then some (k, some ⟨-2, none⟩)
        else
          let cont := ⟨w, decide (timeoutMs ≠ 0), k.pools.ticks + timeoutMs⟩
          some ({ k with waiter := .scanning cont }, none)
    | _ => none
  | .scan =>
    match k.waiter with
    | .scanning cont =>
      (k.pools.waitLoop cont).map fun path =>
        match path.stop with
        | .ret ret => ({ k with pools := path.shared, waiter := .user }, some ret)
        | .block _ cont => ({ k with pools := path.shared, waiter := .parking cont }, none)
    | _ => none
  | .sleep =>
    match k.waiter with
    | .parking cont =>
      if k.sched.curid = pid then
        (k.sched.threadSleep cont.wo).map fun sched =>
          ({ k with sched := sched, waiter := .parked cont }, none)
      else none
    | _ => none
  | .resume =>
    match k.waiter with
    | .parked cont =>
      if k.sched.curid = pid then
        some ({ k with sched := k.sched.threadSleepReturn, waiter := .scanning cont }, none)
      else none
    | _ => none
  | .yield =>
    if k.sched.curid = pid then
      match k.waiter with
      | .user => some ({ k with sched := k.sched.threadYield }, none)
      | _ => none
    else some ({ k with sched := k.sched.threadYield }, none)
  | .store n i =>
    match k.notifiers n, (k.pools.esrc i).parent with
    | none, some _ =>
      some ({ k with
        pools := k.pools.setSource i { k.pools.esrc i with ready := true }
        notifiers := update k.notifiers n (some i) }, none)
    | _, _ => none
  | .wake n =>
    match k.notifiers n with
    | none => none
    | some i =>
      (k.pools.esrc i).parent.map fun w =>
        ({ k with
          sched := k.sched.threadWakeup w
          notifiers := update k.notifiers n none }, none)
  | .tick => some ({ k with pools := { k.pools with ticks := k.pools.ticks + 1 } }, none)

def machine (ν : Type*) [DecidableEq ν] (pid : ℕ) :
    Machine (Smp ν) (SmpOp ν) (Option WaitRet) := ⟨exec pid⟩

/-- The states the system starts from: any pools the operations can build, the waiter in
user mode and awake, and no notifier under way. -/
structure Start (pid : ℕ) (k : Smp ν) : Prop where
  represents : ∃ lists, k.pools.Represents lists
  user : k.waiter = .user
  awake : k.sched.state pid ≠ .sleep
  quiet : ∀ n, k.notifiers n = none

/-- The guard of the runs in which no `thread_wakeup` of the waiter's object falls
between its scan and its sleep. -/
def WakesOutsideWindow (k : Smp ν) : SmpOp ν → Prop
  | .wake n =>
    match k.waiter with
    | .parking cont => ∀ i ∈ k.notifiers n, (k.pools.esrc i).parent ≠ some cont.wo
    | _ => True
  | _ => True

instance (k : Smp ν) (op : SmpOp ν) : Decidable (k.WakesOutsideWindow op) := by
  unfold WakesOutsideWindow
  split
  · split <;> infer_instance
  · infer_instance

def AsleepOn (k : Smp ν) (pid : ℕ) (w : Wobj) : Prop :=
  k.sched.state pid = .sleep ∧ k.sched.channel pid = some w

def Pending (k : Smp ν) (w : Wobj) : Prop :=
  ∃ n, ∃ i ∈ k.notifiers n, (k.pools.esrc i).parent = some w

def Committed (k : Smp ν) (pid : ℕ) (w : Wobj) : Prop :=
  ∃ cont : WaitCont, cont.wo = w ∧
    (k.waiter = .parking cont ∨ k.waiter = .parked cont ∧ k.sched.state pid = .sleep)

/-- Once the waiter is committed, a ready source of its object has a notifier that will
still wake it. -/
structure Inv (pid : ℕ) (k : Smp ν) : Prop where
  represents : ∃ lists, k.pools.Represents lists
  covered : ∀ w, k.Committed pid w → k.pools.Idle w ∨ k.Pending w
  asleep : k.sched.state pid = .sleep → k.sched.curid ≠ pid ∧
    ∃ cont : WaitCont, k.waiter = .parked cont ∧ k.sched.channel pid = some cont.wo

variable {pid : ℕ} {k next : Smp ν}

theorem Start.inv (hstart : k.Start pid) : k.Inv pid where
  represents := hstart.represents
  covered := by
    rintro w ⟨cont, -, hwaiter | ⟨hwaiter, -⟩⟩
    · cases hstart.user.symm.trans hwaiter
    · cases hstart.user.symm.trans hwaiter
  asleep hsleep := absurd hsleep hstart.awake

/-! ## The steps -/

namespace Inv

theorem uncommitted (hrep : ∃ lists, next.pools.Represents lists)
    (hwaiter : next.waiter = .user ∨ ∃ cont, next.waiter = .scanning cont)
    (hawake : next.sched.state pid ≠ .sleep) : next.Inv pid where
  represents := hrep
  covered := by
    rintro w ⟨cont, -, hcommitted⟩
    obtain hwaiter | ⟨cont', hwaiter⟩ := hwaiter
    · rw [hwaiter] at hcommitted
      simp at hcommitted
    · rw [hwaiter] at hcommitted
      simp at hcommitted
  asleep hsleep := absurd hsleep hawake

theorem awake (hinv : k.Inv pid) (hwaiter : ∀ cont, k.waiter ≠ .parked cont) :
    k.sched.state pid ≠ .sleep := by
  intro hsleep
  obtain ⟨-, cont, hparked, -⟩ := hinv.asleep hsleep
  exact hwaiter cont hparked

theorem scan (hinv : k.Inv pid) {cont : WaitCont} (hwaiter : k.waiter = .scanning cont)
    {path : Path Wobj WaitCont WaitRet Pools} (hloop : k.pools.waitLoop cont = some path) :
    (∃ ret, path.stop = .ret ret ∧
      { k with pools := path.shared, waiter := .user }.Inv pid) ∨
    (∃ chan cont', path.stop = .block chan cont' ∧
      { k with pools := path.shared, waiter := .parking cont' }.Inv pid) := by
  have hawake : k.sched.state pid ≠ .sleep := hinv.awake (by simp [hwaiter])
  obtain ⟨lists, hrep⟩ := hinv.represents
  obtain ⟨t, stop, hsome, hiter⟩ := k.pools.waitLoop_eq hrep cont
  obtain rfl := Option.some.inj (hloop.symm.trans hsome)
  have hrep' : t.Represents lists := hrep.of_sameShape (hiter.sameShape hrep)
  cases hiter with
  | delivered hfind | timeout hnone hdue =>
    exact Or.inl ⟨_, rfl, uncommitted ⟨lists, hrep'⟩ (Or.inl rfl) hawake⟩
  | sleep hnone hnot =>
    refine Or.inr ⟨_, _, rfl, ⟨lists, hrep⟩, ?_, fun hsleep => absurd hsleep hawake⟩
    rintro w ⟨cont', rfl, hcommitted⟩
    obtain rfl : cont = cont' := by simpa using hcommitted
    exact Or.inl (hrep.idle_iff.mpr hnone)

theorem sleep (hinv : k.Inv pid) {cont : WaitCont} (hwaiter : k.waiter = .parking cont)
    (hcur : k.sched.curid = pid) {sched : Sched Wobj}
    (hsleep : k.sched.threadSleep cont.wo = some sched) :
    { k with sched := sched, waiter := .parked cont }.Inv pid where
  represents := hinv.represents
  covered := by
    rintro w ⟨cont', hw, hcommitted⟩
    obtain rfl : cont = cont' := by
      rcases hcommitted with hparking | ⟨hparked, -⟩
      · cases hparking
      · exact Waiter.parked.inj hparked
    exact hinv.covered w ⟨cont, hw, Or.inl hwaiter⟩
  asleep hasleep := by
    obtain ⟨hchannel, hrun, -⟩ := Sched.threadSleep_fields hsleep
    refine ⟨?_, cont, rfl, ?_⟩
    · rintro rfl
      cases hrun.symm.trans hasleep
    · rw [hchannel, hcur, update_self]

theorem yield (hinv : k.Inv pid) : { k with sched := k.sched.threadYield }.Inv pid := by
  obtain ⟨hrun, hstate⟩ := k.sched.threadYield_fields
  refine ⟨hinv.represents, ?_, fun hsleep => ?_⟩
  · rintro w ⟨cont, hw, hcommitted⟩
    refine hinv.covered w ⟨cont, hw, hcommitted.imp_right ?_⟩
    rintro ⟨hparked, hsleep⟩
    exact ⟨hparked, hstate pid hsleep⟩
  · obtain ⟨-, cont, hparked, hchannel⟩ := hinv.asleep (hstate pid hsleep)
    refine ⟨?_, cont, hparked, by simpa using hchannel⟩
    rintro rfl
    cases hrun.symm.trans hsleep

theorem store [DecidableEq ν] (hinv : k.Inv pid) {n : ν} {i : Slot} {w : Wobj}
    (hidle : k.notifiers n = none) (hparent : (k.pools.esrc i).parent = some w) :
    { k with
      pools := k.pools.setSource i { k.pools.esrc i with ready := true }
      notifiers := update k.notifiers n (some i) }.Inv pid := by
  have hshape : k.pools.SameShape (k.pools.setSource i { k.pools.esrc i with ready := true }) :=
    Pools.sameShape_raise (by simp [hparent])
  obtain ⟨lists, hrep⟩ := hinv.represents
  refine ⟨⟨lists, hrep.of_sameShape hshape⟩, fun w' hcommitted => ?_, hinv.asleep⟩
  by_cases hw : w = w'
  · refine Or.inr ⟨n, i, by simp, ?_⟩
    rw [hshape.parent, hparent, hw]
  · rcases hinv.covered w' hcommitted with hnone | ⟨m, j, hj, hjw⟩
    · refine Or.inl fun j hj => ?_
      rw [hshape.parent] at hj
      have hne : j ≠ i := by
        rintro rfl
        exact hw (Option.some.inj (hparent.symm.trans hj))
      simpa [Pools.setSource, hne] using hnone j hj
    · have hne : m ≠ n := by
        rintro rfl
        rw [hidle] at hj
        cases hj
      exact Or.inr ⟨m, j, by simpa [hne] using hj, (hshape.parent j).trans hjw⟩

theorem wake [DecidableEq ν] (hinv : k.Inv pid) (hpid : 1 ≤ pid ∧ pid < numIds) {n : ν}
    {i : Slot} {w : Wobj}
    (hnotifier : k.notifiers n = some i) (hparent : (k.pools.esrc i).parent = some w)
    (hwindow : ∀ cont, k.waiter = .parking cont → w ≠ cont.wo) :
    { k with
      sched := k.sched.threadWakeup w
      notifiers := update k.notifiers n none }.Inv pid := by
  obtain ⟨hstate, hchannel, hcurid⟩ := k.sched.threadWakeup_fields w pid
  generalize k.sched.threadWakeup w = sched at hstate hchannel hcurid ⊢
  have hwoken : sched.state pid = .sleep →
      k.sched.state pid = .sleep ∧ k.sched.channel pid ≠ some w := by
    intro hsleep
    rw [hstate] at hsleep
    split at hsleep
    · cases hsleep
    · next hnot => exact ⟨hsleep, fun hchan => hnot ⟨hpid.1, hpid.2, hchan, hsleep⟩⟩
  refine ⟨hinv.represents, ?_, fun hsleep => ?_⟩
  · rintro w' ⟨cont, rfl, hcommitted⟩
    -- A waiter that is still committed waits on another object.
    have hother : w ≠ cont.wo ∧ k.Committed pid cont.wo := by
      rcases hcommitted with hparking | ⟨hparked, hsleep⟩
      · exact ⟨hwindow cont hparking, cont, rfl, Or.inl hparking⟩
      · obtain ⟨hasleep, hchan⟩ := hwoken hsleep
        obtain ⟨-, cont', hparked', hchannel'⟩ := hinv.asleep hasleep
        obtain rfl : cont = cont' := Waiter.parked.inj (hparked.symm.trans hparked')
        refine ⟨?_, cont, rfl, Or.inr ⟨hparked, hasleep⟩⟩
        rintro rfl
        exact hchan hchannel'
    refine (hinv.covered cont.wo hother.2).imp_right ?_
    rintro ⟨m, j, hj, hjw⟩
    have hne : m ≠ n := by
      rintro rfl
      obtain rfl : i = j := Option.some.inj (hnotifier.symm.trans hj)
      exact hother.1 (Option.some.inj (hparent.symm.trans hjw))
    exact ⟨m, j, by simpa [hne] using hj, hjw⟩
  · obtain ⟨hasleep, hchan⟩ := hwoken hsleep
    obtain ⟨hcur, cont, hparked, hchannel'⟩ := hinv.asleep hasleep
    refine ⟨fun heq => hcur (hcurid.symm.trans heq), cont, hparked, ?_⟩
    rw [hchannel, if_neg]
    · exact hchannel'
    · rintro ⟨-, -, hsleeps⟩
      exact hchan hsleeps.1

theorem tick (hinv : k.Inv pid) :
    { k with pools := { k.pools with ticks := k.pools.ticks + 1 } }.Inv pid := by
  obtain ⟨lists, hrep⟩ := hinv.represents
  exact ⟨⟨lists, hrep.of_sameShape ⟨rfl, fun _ => rfl, fun _ => rfl, fun _ => rfl,
    fun _ => rfl, fun _ => rfl, fun _ _ => rfl⟩⟩, hinv.covered, hinv.asleep⟩

variable [DecidableEq ν] {out : Option WaitRet}

theorem exec_enter (hinv : k.Inv pid) {wid : ℤ} {timeoutMs : BitVec 32}
    (hexec : k.exec pid (.enter wid timeoutMs) = some (next, out)) : next.Inv pid := by
  simp only [exec] at hexec
  split at hexec
  · next hwaiter =>
    have hawake : k.sched.state pid ≠ .sleep := hinv.awake (by simp [hwaiter])
    split at hexec
    · cases hexec
      exact hinv
    · split at hexec
      · cases hexec
        exact hinv
      · cases hexec
        exact uncommitted hinv.represents (Or.inr ⟨_, rfl⟩) hawake
  · cases hexec

theorem exec_scan (hinv : k.Inv pid) (hexec : k.exec pid .scan = some (next, out)) :
    next.Inv pid := by
  simp only [exec] at hexec
  split at hexec
  · next cont hwaiter =>
    obtain ⟨path, hloop, heq⟩ := Option.map_eq_some_iff.mp hexec
    obtain ⟨ret, hstop, hnext⟩ | ⟨chan, cont', hstop, hnext⟩ := hinv.scan hwaiter hloop
    · rw [hstop] at heq
      cases heq
      exact hnext
    · rw [hstop] at heq
      cases heq
      exact hnext
  · cases hexec

theorem exec_sleep (hinv : k.Inv pid) (hexec : k.exec pid .sleep = some (next, out)) :
    next.Inv pid := by
  simp only [exec] at hexec
  split at hexec
  · next cont hwaiter =>
    obtain ⟨hcur, hmap⟩ := Option.ite_none_right_eq_some.mp hexec
    obtain ⟨sched, hsleep, heq⟩ := Option.map_eq_some_iff.mp hmap
    cases heq
    exact hinv.sleep hwaiter hcur hsleep
  · cases hexec

theorem exec_resume (hinv : k.Inv pid) (hexec : k.exec pid .resume = some (next, out)) :
    next.Inv pid := by
  simp only [exec] at hexec
  split at hexec
  · next cont hwaiter =>
    obtain ⟨hcur, heq⟩ := Option.ite_none_right_eq_some.mp hexec
    cases heq
    exact uncommitted hinv.represents (Or.inr ⟨_, rfl⟩) fun hsleep => (hinv.asleep hsleep).1 hcur
  · cases hexec

theorem exec_wake (hinv : k.Inv pid) (hpid : 1 ≤ pid ∧ pid < numIds) {n : ν}
    (hop : k.WakesOutsideWindow (.wake n)) (hexec : k.exec pid (.wake n) = some (next, out)) :
    next.Inv pid := by
  simp only [exec] at hexec
  split at hexec
  · cases hexec
  · next i hnotifier =>
    obtain ⟨w, hparent, heq⟩ := Option.map_eq_some_iff.mp hexec
    obtain ⟨rfl, -⟩ := Prod.mk.inj heq
    refine hinv.wake hpid hnotifier hparent fun cont hwaiter heq => ?_
    simp only [WakesOutsideWindow, hwaiter] at hop
    exact hop i hnotifier (hparent.trans (congrArg some heq))

theorem step (hinv : k.Inv pid) (hpid : 1 ≤ pid ∧ pid < numIds) {op : SmpOp ν}
    (hop : k.WakesOutsideWindow op) (hexec : k.exec pid op = some (next, out)) :
    next.Inv pid := by
  cases op with
  | enter wid timeoutMs => exact hinv.exec_enter hexec
  | scan => exact hinv.exec_scan hexec
  | sleep => exact hinv.exec_sleep hexec
  | resume => exact hinv.exec_resume hexec
  | yield =>
    simp only [exec] at hexec
    split at hexec
    · split at hexec <;> cases hexec
      exact hinv.yield
    · cases hexec
      exact hinv.yield
  | store n i =>
    simp only [exec] at hexec
    split at hexec
    · next w hidle hparent =>
      cases hexec
      exact hinv.store hidle hparent
    · cases hexec
  | wake n => exact hinv.exec_wake hpid hop hexec
  | tick =>
    cases hexec
    exact hinv.tick

end Inv

/-! ## Whole runs -/

/-- **No wakeup is lost outside the window.** If no wakeup of the waiter's object falls between
its scan and its sleep: when no notifier is between its two steps, the waiter does not sleep on
an object that has a ready source. -/
theorem no_lost_wakeup_outside_window [DecidableEq ν] {pid : ℕ} (hpid : 1 ≤ pid ∧ pid < numIds)
    {first last : Smp ν} {trace : List (SmpOp ν × Option WaitRet)} (hstart : first.Start pid)
    (run : (machine ν pid).Run WakesOutsideWindow first trace last)
    (hquiet : ∀ n, last.notifiers n = none) {w : Wobj} (hsleep : last.AsleepOn pid w) :
    ∀ i, (last.pools.esrc i).parent = some w → (last.pools.esrc i).ready = false := by
  have hinv : last.Inv pid := run.invariant hstart.inv fun hinv hop hexec =>
    hinv.step hpid hop hexec
  obtain ⟨-, cont, hparked, hchannel⟩ := hinv.asleep hsleep.1
  obtain rfl : cont.wo = w := Option.some.inj (hchannel.symm.trans hsleep.2)
  refine (hinv.covered cont.wo ⟨cont, rfl, Or.inr ⟨hparked, hsleep.1⟩⟩).resolve_right ?_
  rintro ⟨n, i, hi, -⟩
  rw [hquiet n] at hi
  cases hi

def oneWaiter : Smp Unit where
  sched := ((Sched.threadInit.threadSpawn 1).threadSpawn 2).kernMainHandoff 1
  pools := ((Pools.waitobjInit.waitobjCreate 1).2.waitobjAdd 1 0 eventSoftware 0).2
  waiter := .user
  notifiers _ := none

theorem start_oneWaiter : oneWaiter.Start 1 where
  represents := by
    have hrun : waitMonitor.dataMachine.Run Machine.anyStep Pools.waitobjInit
        (([.call 1 .create, .call 1 (.add 0 eventSoftware 0)] : List Pools.PoolOp).zip _)
        oneWaiter.pools := Machine.run_of_runAll (fun _ _ _ => trivial) rfl
    obtain ⟨lists, hrep, -⟩ := Pools.represents_of_run hrun
    exact ⟨lists, hrep⟩
  user := rfl
  awake := by decide
  quiet _ := rfl

theorem no_lost_wakeup_outside_window_of_signal :
    ∃ last : Smp Unit, last.AsleepOn 1 0 ∧ (last.pools.esrc 0).parent = some 0 ∧
      (last.pools.esrc 0).ready = false := by
  have heval : ∃ x ∈ ((machine Unit 1).guarded WakesOutsideWindow).runAll oneWaiter
      [.store () 0, .wake (), .enter 0 0, .scan, .enter 0 0, .scan, .sleep],
      (x.1.sched.state 1 = .sleep ∧ x.1.sched.channel 1 = some 0) ∧
      (∀ n, x.1.notifiers n = none) ∧ (x.1.pools.esrc 0).parent = some 0 := by
    decide +kernel
  obtain ⟨⟨last, outs⟩, hrunAll, hsleep, hquiet, hparent⟩ := heval
  exact ⟨last, hsleep, hparent, no_lost_wakeup_outside_window (by decide) start_oneWaiter
    (Machine.run_of_guarded hrunAll) hquiet hsleep 0 hparent⟩

/-- **A wakeup is lost.** The waiter scans and finds nothing; the notifier stores and
wakes; the waiter goes to sleep on an object with a ready source. -/
theorem wakeup_lost_in_window :
    ∃ (trace : List (SmpOp Unit × Option WaitRet)) (last : Smp Unit), oneWaiter.Start 1 ∧
      (machine Unit 1).Run Machine.anyStep oneWaiter trace last ∧
      (∀ n, last.notifiers n = none) ∧ last.AsleepOn 1 0 ∧
      (last.pools.esrc 0).parent = some 0 ∧ (last.pools.esrc 0).ready = true := by
  have heval : ∃ x ∈ (machine Unit 1).runAll oneWaiter
      [.enter 0 0, .scan, .store () 0, .wake (), .sleep],
      (∀ n, x.1.notifiers n = none) ∧
      (x.1.sched.state 1 = .sleep ∧ x.1.sched.channel 1 = some 0) ∧
      (x.1.pools.esrc 0).parent = some 0 ∧ (x.1.pools.esrc 0).ready = true := by
    decide +kernel
  obtain ⟨⟨last, outs⟩, hrunAll, hstate⟩ := heval
  exact ⟨_, last, start_oneWaiter, Machine.run_of_runAll (fun _ _ _ => trivial) hrunAll, hstate⟩

end Smp

end MCertikos.Sync
