/-
# The wait-object pools over whole runs

The operations on the pools are run in any order, by any thread, with any arguments.
-/

import MCertikos.Sync.WaitObjInv

namespace MCertikos.Sync

open Math Thread

namespace Pools

variable {s t : Pools} {lists : Wobj → List Slot} {op : PoolOp} {effect : PoolEffect}

/-! ## Data that never changes again -/

structure Persists (s t : Pools) : Prop where
  inUse : ∀ w, (s.wobjs w).inUse = true → (t.wobjs w).inUse = true
  ownerPid : ∀ w, (s.wobjs w).inUse = true → (t.wobjs w).ownerPid = (s.wobjs w).ownerPid
  id : ∀ i, (s.esrc i).id ≠ 0 → (t.esrc i).id = (s.esrc i).id
  type : ∀ i, (s.esrc i).id ≠ 0 → (t.esrc i).type = (s.esrc i).type
  periodMs : ∀ i, (s.esrc i).id ≠ 0 → (t.esrc i).periodMs = (s.esrc i).periodMs
  parent : ∀ i, (s.esrc i).id ≠ 0 → (t.esrc i).parent = (s.esrc i).parent
  next : ∀ i, (s.esrc i).id ≠ 0 → (t.esrc i).next = (s.esrc i).next

theorem Persists.refl (s : Pools) : s.Persists s :=
  ⟨fun _ h => h, fun _ _ => rfl, fun _ _ => rfl, fun _ _ => rfl, fun _ _ => rfl,
    fun _ _ => rfl, fun _ _ => rfl⟩

theorem Persists.trans {r : Pools} (hrs : r.Persists s) (hst : s.Persists t) : r.Persists t where
  inUse w hw := hst.inUse w (hrs.inUse w hw)
  ownerPid w hw := (hst.ownerPid w (hrs.inUse w hw)).trans (hrs.ownerPid w hw)
  id i hi := (hst.id i ((hrs.id i hi).symm ▸ hi)).trans (hrs.id i hi)
  type i hi := (hst.type i ((hrs.id i hi).symm ▸ hi)).trans (hrs.type i hi)
  periodMs i hi := (hst.periodMs i ((hrs.id i hi).symm ▸ hi)).trans (hrs.periodMs i hi)
  parent i hi := (hst.parent i ((hrs.id i hi).symm ▸ hi)).trans (hrs.parent i hi)
  next i hi := (hst.next i ((hrs.id i hi).symm ▸ hi)).trans (hrs.next i hi)

theorem SameShape.persists (hshape : s.SameShape t) : s.Persists t where
  inUse w hw := by rw [hshape.wobjs]; exact hw
  ownerPid w _ := by rw [hshape.wobjs]
  id i _ := hshape.id i
  type i _ := hshape.type i
  periodMs i _ := hshape.periodMs i
  parent i _ := hshape.parent i
  next i _ := hshape.next i

theorem persists_create {w : Wobj} (huse : (s.wobjs w).inUse = false) (ownerPid : ℕ) :
    s.Persists (s.setWobj w { s.wobjs w with
      inUse := true, ownerPid := ownerPid, sources := none }) := by
  have hne : ∀ w', (s.wobjs w').inUse = true → w' ≠ w := by
    rintro w' huse' rfl
    rw [huse] at huse'
    cases huse'
  refine { Persists.refl s with inUse := fun w' hw' => ?_, ownerPid := fun w' hw' => ?_ }
  · simpa [setWobj, hne w' hw'] using hw'
  · simp [setWobj, hne w' hw']

theorem persists_add {w : Wobj} {i : Slot} (hid : (s.esrc i).id = 0) (type : ℤ)
    (argMs : BitVec 32) :
    s.Persists ((s.setSource i (s.newSource w i type argMs)).setWobj w
      { s.wobjs w with sources := some i }) := by
  have hesrc : ∀ j, (s.esrc j).id ≠ 0 →
      ((s.setSource i (s.newSource w i type argMs)).setWobj w
        { s.wobjs w with sources := some i }).esrc j = s.esrc j := by
    intro j hj
    have hne : j ≠ i := fun heq => hj (heq ▸ hid)
    simp [setSource, setWobj, hne]
  exact {
    inUse := fun w' hw' => by
      by_cases heq : w' = w
      · simpa [setWobj, setSource, heq] using heq ▸ hw'
      · simpa [setWobj, setSource, heq] using hw'
    ownerPid := fun w' _ => by
      by_cases heq : w' = w <;> simp [setWobj, setSource, heq]
    id := fun j hj => by rw [hesrc j hj]
    type := fun j hj => by rw [hesrc j hj]
    periodMs := fun j hj => by rw [hesrc j hj]
    parent := fun j hj => by rw [hesrc j hj]
    next := fun j hj => by rw [hesrc j hj] }

/-! ## One step -/

theorem Iteration.sameShape {w : Wobj} {cont : WaitCont} {stop : Stop Wobj WaitCont WaitRet}
    (hiter : s.Iteration (lists w) cont t stop) (hrep : s.Represents lists) : s.SameShape t := by
  cases hiter with
  | delivered hfind =>
    exact sameShape_deliver (List.mem_of_find?_eq_some hfind) fun j hj =>
      hrep.parent_ne_none hj
  | timeout hnone hdue | sleep hnone hnot =>
    exact ⟨rfl, fun _ => rfl, fun _ => rfl, fun _ => rfl, fun _ => rfl, fun _ => rfl,
      fun _ _ => rfl⟩

theorem sameShape_timer (s : Pools) (now : BitVec 32) :
    s.SameShape ({ s with ticks := now }.notifyAll (timerDue now)).1 := by
  have hshape := sameShape_notifyAll (timerDue now) { s with ticks := now }
  exact ⟨hshape.wobjs, hshape.id, hshape.type, hshape.periodMs, hshape.parent, hshape.next,
    hshape.ready⟩

def sourceId (i : Slot) : ℤ := i + 1

def registeredBy (w : Wobj) : PoolOp × PoolEffect → List ℤ
  | (.call _ (.add wid _ _), ⟨_, some (.ret ret)⟩) =>
    if wid = w ∧ ret.rc ≠ -1 then [ret.rc] else []
  | _ => []

def registered (w : Wobj) (trace : List (PoolOp × PoolEffect)) : List ℤ :=
  trace.flatMap (registeredBy w)

theorem Represents.step (hrep : s.Represents lists) (hstep : PoolStep lists s op t effect) :
    ∃ lists', t.Represents lists' ∧ ∀ w, (lists' w).map sourceId =
      registeredBy w (op, effect) ++ (lists w).map sourceId := by
  cases hstep with
  | createFull => exact ⟨lists, hrep, fun _ => rfl⟩
  | create huse => exact ⟨lists, hrep.create huse _, fun _ => rfl⟩
  | addFailed => exact ⟨lists, hrep, fun w => by simp [registeredBy]⟩
  | @add pid w type argMs i huse howner hfree =>
    refine ⟨_, hrep.add huse hfree type argMs, fun w' => ?_⟩
    have hrc : (i : ℤ) + 1 ≠ -1 := by omega
    by_cases heq : w' = w
    · simp [registeredBy, heq, hrc, sourceId]
    · have hwid : ¬ ((w : ℕ) : ℤ) = (w' : ℕ) := by
        intro hval
        exact heq (Fin.ext (by omega))
      simp [registeredBy, heq, hwid]
  | waitInvalid => exact ⟨lists, hrep, fun _ => rfl⟩
  | wait huse howner hiter => exact ⟨lists, hrep.of_sameShape (hiter.sameShape hrep), fun _ => rfl⟩
  | resume hiter => exact ⟨lists, hrep.of_sameShape (hiter.sameShape hrep), fun _ => rfl⟩
  | signalFailed => exact ⟨lists, hrep, fun _ => rfl⟩
  | signal hparent howner htype =>
    exact ⟨lists, hrep.of_sameShape (sameShape_raise (by simp [hparent])), fun _ => rfl⟩
  | timer => exact ⟨lists, hrep.of_sameShape (sameShape_timer s _), fun _ => rfl⟩
  | console => exact ⟨lists, hrep.of_sameShape (sameShape_notifyAll _ s), fun _ => rfl⟩

theorem PoolStep.persists (hstep : PoolStep lists s op t effect) (hrep : s.Represents lists) :
    s.Persists t := by
  cases hstep with
  | createFull | addFailed | waitInvalid | signalFailed => exact .refl s
  | create huse => exact persists_create huse _
  | add huse howner hfree => exact persists_add (hrep.blank _ hfree).1 _ _
  | wait huse howner hiter => exact (hiter.sameShape hrep).persists
  | resume hiter => exact (hiter.sameShape hrep).persists
  | signal hparent howner htype => exact (sameShape_raise (by simp [hparent])).persists
  | timer => exact (sameShape_timer s _).persists
  | console => exact (sameShape_notifyAll _ s).persists

def errorCode : WaitCall → ℤ
  | .wait _ _ => -2
  | _ => -1

def Failed : PoolOp → PoolEffect → Prop
  | .call _ args, ⟨_, some (.ret ret)⟩ => ret.rc = errorCode args
  | _, _ => False

theorem PoolStep.eq_of_failed (hstep : PoolStep lists s op t effect) (hfailed : Failed op effect) :
    t = s ∧ effect.wakes = [] := by
  cases hstep with
  | createFull | addFailed | waitInvalid | signalFailed => exact ⟨rfl, rfl⟩
  | create huse | add huse howner hfree =>
    simp only [Failed, errorCode] at hfailed
    omega
  | wait huse howner hiter =>
    cases hiter with
    | delivered hfind | timeout hnone hdue => simp [Failed, errorCode] at hfailed
    | sleep hnone hnot => exact False.elim hfailed
  | signal hparent howner htype => simp [Failed, errorCode] at hfailed
  | resume | timer | console => exact False.elim hfailed

/-! ## Runs -/

section Runs

variable {guard : Pools → PoolOp → Prop} {trace : List (PoolOp × PoolEffect)}

theorem represents_of_run (run : waitMonitor.dataMachine.Run guard waitobjInit trace s) :
    ∃ lists, s.Represents lists ∧
      ∀ w, (lists w).map sourceId = (registered w trace).reverse := by
  induction run with
  | start => exact ⟨_, represents_waitobjInit, fun _ => rfl⟩
  | @extend middle last past op effect prior admitted realized ih =>
    obtain ⟨lists, hrep, horder⟩ := ih
    obtain ⟨lists', hrep', hfront⟩ := hrep.step (poolStep_of_exec hrep realized)
    refine ⟨lists', hrep', fun w => ?_⟩
    have hone : (registeredBy w (op, effect)).reverse = registeredBy w (op, effect) := by
      unfold registeredBy
      split
      · split <;> rfl
      · rfl
    rw [hfront w, horder w, registered, registered, List.flatMap_append,
      List.reverse_append]
    simp [hone]

theorem persists_of_run (hrep : s.Represents lists)
    (run : waitMonitor.dataMachine.Run guard s trace t) : s.Persists t := by
  have hboth : (∃ lists, t.Represents lists) ∧ s.Persists t := by
    apply run.invariant
    · exact ⟨⟨lists, hrep⟩, .refl s⟩
    · rintro u v op effect ⟨⟨lists, hrep⟩, hpersists⟩ - hexec
      have hstep := poolStep_of_exec hrep hexec
      obtain ⟨lists', hrep', -⟩ := hrep.step hstep
      exact ⟨⟨lists', hrep'⟩, hpersists.trans (hstep.persists hrep)⟩
  exact hboth.2

end Runs

structure WellLinked (trace : List (PoolOp × PoolEffect)) (s : Pools) : Prop where
  /-- Every list of sources ends and repeats nothing. -/
  spells : ∀ w, Spells s.next (s.wobjs w).sources (s.sourcesOf w) ∧ (s.sourcesOf w).Nodup
  allocated_iff : ∀ i, (s.esrc i).id ≠ 0 ↔
    ∃! w, (s.wobjs w).inUse = true ∧ i ∈ s.sourcesOf w
  of_mem : ∀ w, ∀ i ∈ s.sourcesOf w,
    (s.esrc i).parent = some w ∧ (s.esrc i).id = sourceId i
  blank : ∀ i, (s.esrc i).id = 0 → (s.esrc i).parent = none ∧ (s.esrc i).ready = false
  /-- A list holds what was registered, newest first. -/
  order : ∀ w, (s.sourcesOf w).map sourceId = (registered w trace).reverse

theorem Represents.wellLinked (hrep : s.Represents lists) {trace : List (PoolOp × PoolEffect)}
    (horder : ∀ w, (lists w).map sourceId = (registered w trace).reverse) : s.WellLinked trace := by
  have hlists : s.sourcesOf = lists := funext hrep.sourcesOf_eq
  have hblank : ∀ i, (s.esrc i).id = 0 → (s.esrc i).parent = none := by
    intro i hid
    by_contra hparent
    exact hrep.id_ne_zero hparent hid
  refine ⟨?_, ?_, ?_, ?_, ?_⟩
  · intro w
    rw [hlists]
    exact ⟨hrep.spells w, (hrep.spells w).nodup⟩
  · intro i
    rw [hlists]
    constructor
    · intro hid
      have hparent : (s.esrc i).parent ≠ none := fun h => hid (hrep.blank i h).1
      obtain ⟨w, hw⟩ := Option.ne_none_iff_exists'.mp hparent
      have hmem := (hrep.mem_iff w i).mpr hw
      refine ⟨w, ⟨hrep.inUse_of_mem w i hmem, hmem⟩, ?_⟩
      rintro w' ⟨-, hmem'⟩
      have hw' := (hrep.mem_iff w' i).mp hmem'
      rw [hw] at hw'
      exact (Option.some.inj hw').symm
    · rintro ⟨w, ⟨-, hmem⟩, -⟩
      exact hrep.id_ne_zero (hrep.parent_ne_none hmem)
  · intro w i hmem
    rw [hlists] at hmem
    exact ⟨(hrep.mem_iff w i).mp hmem, hrep.id_of_mem w i hmem⟩
  · intro i hid
    exact ⟨hblank i hid, (hrep.blank i (hblank i hid)).2⟩
  · intro w
    rw [hlists]
    exact horder w

/-- **Representation invariant of the wait-object pools.** After any sequence of
operations from `waitobj_init` the pools are well linked; every further operation
ends, and one that reports an error changes nothing; and along every continuation
registered data stays as it is. -/
theorem wellLinked_of_run {trace : List (PoolOp × PoolEffect)} {s : Pools}
    (run : waitMonitor.dataMachine.Run Machine.anyStep waitobjInit trace s) : s.WellLinked trace ∧
      (∀ op, ∃ t effect, waitMonitor.dataMachine.exec s op = some (t, effect) ∧
        (Failed op effect → t = s ∧ effect.wakes = [])) ∧
      ∀ later t, waitMonitor.dataMachine.Run Machine.anyStep s later t → s.Persists t := by
  obtain ⟨lists, hrep, horder⟩ := represents_of_run run
  refine ⟨hrep.wellLinked horder, ?_, ?_⟩
  · intro op
    obtain ⟨t, effect, hexec, hstep⟩ := exists_poolStep hrep op
    exact ⟨t, effect, hexec, hstep.eq_of_failed⟩
  · intro later t hlater
    exact persists_of_run hrep hlater

theorem wellLinked_of_two_sources :
    ∃ (s : Pools) (trace : List (PoolOp × PoolEffect)), s.sourcesOf 0 = [1, 0] ∧
      (s.esrc 1).ready = true ∧ s.WellLinked trace := by
  have hguard : ∀ op ∈ ([.call 1 .create, .call 1 (.add 0 eventTimer 5),
      .call 1 (.add 0 eventSoftware 0), .call 1 (.signal 2)] : List PoolOp), ∀ s : Pools,
      Machine.anyStep s op := fun _ _ _ => trivial
  have hrun : waitMonitor.dataMachine.Run Machine.anyStep waitobjInit _ _ :=
    Machine.run_of_runAll hguard rfl
  exact ⟨_, _, rfl, rfl, (wellLinked_of_run hrun).1⟩

end Pools

end MCertikos.Sync
