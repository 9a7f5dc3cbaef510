/-
# Every event is delivered once

A source that is not a timer is raised by a notification and taken down by the wait that returns
its number, and by nothing else.
-/

import MCertikos.Sync.Timer

namespace MCertikos.Sync

open Math Thread

namespace Pools

variable {s t : Pools} {lists : Wobj → List Slot} {op : PoolOp} {effect : PoolEffect} {w : Wobj}
  {i : Slot}

/-! ## Raises and deliveries -/

def deliveredId (effect : PoolEffect) : Option ℤ :=
  match effect.stop with
  | some (.ret ret) => if ret.rc = 0 then ret.outSrcId else none
  | _ => none

def isWait : PoolOp → Bool
  | .call _ (.wait _ _) => true
  | .resume _ _ => true
  | _ => false

abbrev PoolEvent := PoolOp × Pools × PoolEffect × Pools

def raisedBy (i : Slot) (event : PoolEvent) : Bool :=
  !(event.2.1.esrc i).ready && (event.2.2.2.esrc i).ready

def deliveredBy (i : Slot) (event : PoolEvent) : Bool :=
  deliveredId event.2.2.1 = some (sourceId i)

def raises (i : Slot) (trace : List PoolEvent) : ℕ := trace.countP (raisedBy i)

def deliveries (i : Slot) (trace : List PoolEvent) : ℕ := trace.countP (deliveredBy i)

theorem sourceId_inj {i j : Slot} (heq : sourceId i = sourceId j) : i = j := by
  unfold sourceId at heq
  exact Fin.ext (by omega)

/-- What a successful wait on object `w` does when it returns the number of source `i`;
`past` is the run before it. -/
structure Delivery (past : List (PoolOp × PoolEffect)) (s : Pools) (w : Wobj) (i : Slot)
    (t : Pools) : Prop where
  parent : (s.esrc i).parent = some w
  ready : (s.esrc i).ready = true
  /-- No ready source of the object was registered later. -/
  newest : ∃ older newer, registered w past = older ++ sourceId i :: newer ∧
    ∀ j, sourceId j ∈ newer → (s.esrc j).ready = false
  taken : (t.esrc i).ready = false
  timers : ∀ j, s.IsTimerOf w j → (t.esrc j).ready = false ∧
    (t.esrc j).nextFireTick = t.ticks + (t.esrc j).periodMs
  others : ∀ j, j ≠ i → ¬ s.IsTimerOf w j → t.esrc j = s.esrc j

/-! ## One iteration of a wait -/

variable {past : List (PoolOp × PoolEffect)} {stop : Stop Wobj WaitCont WaitRet}

theorem Iteration.delivery {cont : WaitCont} {sid : ℤ} (hiter : s.Iteration (lists w) cont t stop)
    (hrep : s.Represents lists) (horder : (lists w).map sourceId = (registered w past).reverse)
    (hsid : deliveredId ⟨[], some stop⟩ = some sid) :
    ∃ i, sid = sourceId i ∧ Delivery past s w i t := by
  cases hiter with
  | @delivered i hfind =>
    obtain rfl : sourceId i = sid := Option.some.inj hsid
    have hmem := List.mem_of_find?_eq_some hfind
    have hready := List.find?_some hfind
    refine ⟨i, rfl, (hrep.mem_iff w i).mp hmem, hready, ?_, ?_, ?_, ?_⟩
    · obtain ⟨-, newer, older, hsplit, hnone⟩ := List.find?_eq_some_iff_append.mp hfind
      refine ⟨(older.map sourceId).reverse, (newer.map sourceId).reverse, ?_, ?_⟩
      · rw [← List.reverse_reverse (registered w past), ← horder, hsplit]
        simp
      · intro j hj
        obtain ⟨k, hk, heq⟩ := List.mem_map.mp (List.mem_reverse.mp hj)
        obtain rfl := sourceId_inj heq
        simpa using hnone k hk
    · rw [deliver_esrc, if_pos rfl]
      split <;> rfl
    · rintro j ⟨hj, htype⟩
      have hboth : j ∈ lists w ∧ (s.esrc j).type = eventTimer :=
        ⟨(hrep.mem_iff w j).mpr hj, htype⟩
      rw [deliver_esrc, if_pos hboth, deliver_ticks]
      exact ⟨rfl, rfl⟩
    · intro j hne hnot
      have hboth : ¬ (j ∈ lists w ∧ (s.esrc j).type = eventTimer) := by
        rintro ⟨hj, htype⟩
        exact hnot ⟨(hrep.mem_iff w j).mp hj, htype⟩
      rw [deliver_esrc, if_neg hboth, if_neg hne]
  | timeout hnone hdue => cases hsid
  | sleep hnone hnot => cases hsid

theorem Iteration.eq_of_not_delivered {list : List Slot} {cont : WaitCont}
    (hiter : s.Iteration list cont t stop) (hnone : deliveredId ⟨[], some stop⟩ = none) :
    t = s := by
  cases hiter with
  | delivered hfind => cases hnone
  | timeout hnone hdue | sleep hnone hnot => rfl

/-! ## One operation -/

theorem PoolStep.delivery {sid : ℤ} (hstep : PoolStep lists s op t effect)
    (hrep : s.Represents lists) (horder : ∀ w, (lists w).map sourceId = (registered w past).reverse)
    (hsid : deliveredId effect = some sid) :
    ∃ w i, WaitsOn w op ∧ sid = sourceId i ∧ Delivery past s w i t := by
  cases hstep with
  | @wait pid w timeoutMs t stop huse howner hiter =>
    obtain ⟨i, hi, hdelivery⟩ := hiter.delivery hrep (horder w) hsid
    exact ⟨w, i, rfl, hi, hdelivery⟩
  | @resume pid cont t stop hiter =>
    obtain ⟨i, hi, hdelivery⟩ := hiter.delivery hrep (horder cont.wo) hsid
    exact ⟨cont.wo, i, rfl, hi, hdelivery⟩
  | createFull | addFailed | waitInvalid | signalFailed => simp [deliveredId] at hsid
  | create huse => simp [deliveredId] at hsid
  | add huse howner hfree => simp [deliveredId] at hsid
  | signal hparent howner htype => simp [deliveredId] at hsid
  | timer | console => simp [deliveredId] at hsid

theorem PoolStep.eq_of_wait (hstep : PoolStep lists s op t effect) (hwait : isWait op = true)
    (hnone : deliveredId effect = none) : t = s := by
  cases hstep with
  | wait huse howner hiter => exact hiter.eq_of_not_delivered hnone
  | resume hiter => exact hiter.eq_of_not_delivered hnone
  | waitInvalid => rfl
  | createFull | create | addFailed | add | signalFailed | signal => cases hwait
  | timer | console => cases hwait

theorem PoolStep.ready_of_not_delivered (hstep : PoolStep lists s op t effect)
    (hrep : s.Represents lists) (hnone : deliveredId effect = none)
    (hready : (s.esrc i).ready = true) : (t.esrc i).ready = true := by
  cases hstep with
  | createFull | addFailed | waitInvalid | signalFailed => exact hready
  | create huse => exact hready
  | @add pid w type argMs j huse howner hfree =>
    have hne : i ≠ j := by
      rintro rfl
      rw [(hrep.blank i hfree).2] at hready
      cases hready
    simpa [setSource, setWobj, hne] using hready
  | wait huse howner hiter =>
    rw [hiter.eq_of_not_delivered hnone]
    exact hready
  | resume hiter =>
    rw [hiter.eq_of_not_delivered hnone]
    exact hready
  | @signal pid j w hparent howner htype =>
    by_cases heq : i = j <;> simp [setSource, heq, hready]
  | timer | console =>
    rw [notifyAll_esrc]
    split
    · rfl
    · exact hready

theorem PoolStep.lowered (hstep : PoolStep lists s op t effect) (hrep : s.Represents lists)
    (horder : ∀ w, (lists w).map sourceId = (registered w past).reverse)
    (hparent : (s.esrc i).parent = some w) (hready : (s.esrc i).ready = true)
    (hlow : (t.esrc i).ready = false) : WaitsOn w op ∧ ∃ sid, deliveredId effect = some sid := by
  cases hsid : deliveredId effect with
  | none =>
    rw [hstep.ready_of_not_delivered hrep hsid hready] at hlow
    cases hlow
  | some sid =>
    obtain ⟨w', j, hwaits, -, hdelivery⟩ := hstep.delivery hrep horder hsid
    have hw : (s.esrc i).parent = some w' := by
      by_contra hnot
      have hne : i ≠ j := by
        rintro rfl
        exact hnot hdelivery.parent
      rw [hdelivery.others i hne fun htimer => hnot htimer.1, hready] at hlow
      cases hlow
    obtain rfl := Option.some.inj (hw.symm.trans hparent)
    exact ⟨hwaits, sid, rfl⟩

theorem PoolStep.balance (hstep : PoolStep lists s op t effect) (hrep : s.Represents lists)
    (horder : ∀ w, (lists w).map sourceId = (registered w past).reverse)
    (htype : (s.esrc i).type ≠ eventTimer) :
    (s.esrc i).ready.toNat + (raisedBy i (op, s, effect, t)).toNat =
      (deliveredBy i (op, s, effect, t)).toNat + (t.esrc i).ready.toNat := by
  cases hsid : deliveredId effect with
  | none =>
    have hkeeps := hstep.ready_of_not_delivered (i := i) hrep hsid
    simp only [deliveredBy, hsid, raisedBy]
    cases hs : (s.esrc i).ready with
    | false => simp
    | true => simp [hkeeps hs]
  | some sid =>
    obtain ⟨w, j, -, rfl, hdelivery⟩ := hstep.delivery hrep horder hsid
    by_cases heq : i = j
    · subst heq
      simp [deliveredBy, hsid, raisedBy, hdelivery.ready, hdelivery.taken]
    · have hsame := hdelivery.others i heq fun htimer => htype htimer.2
      have hne : sourceId j ≠ sourceId i := fun h => heq (sourceId_inj h).symm
      simp [deliveredBy, hsid, raisedBy, hsame, hne]

theorem PoolStep.unregistered (hstep : PoolStep lists s op t effect) (hrep : s.Represents lists)
    (horder : ∀ w, (lists w).map sourceId = (registered w past).reverse)
    (hfree : (s.esrc i).parent = none) :
    (t.esrc i).ready = false ∧ deliveredBy i (op, s, effect, t) = false := by
  refine ⟨?_, decide_eq_false fun hsid => ?_⟩
  · have hlow := (hrep.blank i hfree).2
    cases hstep with
    | createFull | addFailed | waitInvalid | signalFailed => exact hlow
    | create huse => exact hlow
    | @add pid w type argMs j huse howner hfree' =>
      by_cases heq : i = j <;> simp [setSource, setWobj, newSource, heq]
      exact hlow
    | wait huse howner hiter =>
      rw [(hiter.sameShape hrep).ready i hfree]
      exact hlow
    | resume hiter =>
      rw [(hiter.sameShape hrep).ready i hfree]
      exact hlow
    | @signal pid j w hparent howner htype =>
      rw [(sameShape_raise (by simp [hparent])).ready i hfree]
      exact hlow
    | timer =>
      rw [(sameShape_timer s _).ready i hfree]
      exact hlow
    | console =>
      rw [(sameShape_notifyAll _ s).ready i hfree]
      exact hlow
  · obtain ⟨w, j, -, heq, hdelivery⟩ := hstep.delivery hrep horder hsid
    obtain rfl := sourceId_inj heq
    cases hfree.symm.trans hdelivery.parent

/-! ## Whole runs -/

def NoTimer (s : Pools) (i : Slot) : Prop :=
  (s.esrc i).parent = none ∨ (s.esrc i).type ≠ eventTimer

theorem Persists.noTimer (hpersists : s.Persists t) (hrep : s.Represents lists)
    (hnot : t.NoTimer i) : s.NoTimer i := by
  by_cases hfree : (s.esrc i).parent = none
  · exact Or.inl hfree
  · have hid := hrep.id_ne_zero hfree
    rcases hnot with hparent | htype
    · exact Or.inl ((hpersists.parent i hid).symm.trans hparent)
    · exact Or.inr fun htimer => htype ((hpersists.type i hid).trans htimer)

def Balanced (trace : List PoolEvent) (s : Pools) (i : Slot) : Prop :=
  raises i trace = deliveries i trace + (s.esrc i).ready.toNat

variable {trace : List PoolEvent}

theorem Balanced.step (hbalanced : Balanced trace s i) (hstep : PoolStep lists s op t effect)
    (hrep : s.Represents lists) (horder : ∀ w, (lists w).map sourceId = (registered w past).reverse)
    (hnot : s.NoTimer i) : Balanced (trace ++ [(op, s, effect, t)]) t i := by
  have hone : (s.esrc i).ready.toNat + (raisedBy i (op, s, effect, t)).toNat =
      (deliveredBy i (op, s, effect, t)).toNat + (t.esrc i).ready.toNat := by
    rcases hnot with hfree | htype
    · obtain ⟨hready, hnone⟩ := hstep.unregistered hrep horder hfree
      simp [raisedBy, hready, hnone, (hrep.blank i hfree).2]
    · exact hstep.balance hrep horder htype
  unfold Balanced raises deliveries at hbalanced ⊢
  rw [List.countP_append, List.countP_append, List.countP_singleton, List.countP_singleton]
  simp only [Bool.toNat, Bool.cond_eq_ite] at hone hbalanced ⊢
  omega

theorem balanced_of_run {guard : Pools → PoolOp → Prop}
    (run : waitMonitor.dataMachine.observed.Run guard waitobjInit trace s) (hnot : s.NoTimer i) :
    Balanced trace s i := by
  induction run with
  | start => rfl
  | @extend middle last past op event prior admitted realized ih =>
    obtain ⟨effect, rfl, hexec⟩ := Machine.observed_exec realized
    obtain ⟨lists, hrep, horder⟩ := represents_of_run prior.unobserved
    have hstep := poolStep_of_exec hrep hexec
    have hbefore := (hstep.persists hrep).noTimer hrep hnot
    exact (ih hbefore).step hstep hrep horder hbefore

/-- **Exact event accounting.** The raises of a keyboard or software source are its deliveries
and what is pending.  An operation lowers the flag of a timer only if it is a successful wait on
the timer's object; it returns a number only as the delivery of the most recently registered
ready source of the object waited on; and a wait that returns no number changes nothing. -/
theorem event_accounting {trace : List PoolEvent} {s : Pools}
    (run : waitMonitor.dataMachine.observed.Run Machine.anyStep waitobjInit trace s) :
    (∀ i, (s.esrc i).type = eventKeyboard ∨ (s.esrc i).type = eventSoftware →
      raises i trace = deliveries i trace + (s.esrc i).ready.toNat) ∧
    ∀ op t effect, waitMonitor.dataMachine.exec s op = some (t, effect) →
      (∀ w i, s.IsTimerOf w i → (s.esrc i).ready = true → (t.esrc i).ready = false →
        WaitsOn w op ∧ ∃ sid, deliveredId effect = some sid) ∧
      (∀ sid, deliveredId effect = some sid → ∃ w i, WaitsOn w op ∧ sid = sourceId i ∧
        Delivery (Machine.unobserved trace) s w i t) ∧
      (isWait op = true → deliveredId effect = none → t = s) := by
  obtain ⟨lists, hrep, horder⟩ := represents_of_run run.unobserved
  refine ⟨fun i htype => balanced_of_run run (Or.inr ?_), fun op t effect hexec => ?_⟩
  · rcases htype with htype | htype <;> rw [htype] <;> decide
  · have hstep := poolStep_of_exec hrep hexec
    refine ⟨?_, ?_, hstep.eq_of_wait⟩
    · rintro w i ⟨hparent, -⟩ hready hlow
      exact hstep.lowered hrep horder hparent hready hlow
    · intro sid hsid
      exact hstep.delivery hrep horder hsid

/-- The software source is signalled twice and delivered once. -/
def threeSources : List PoolOp :=
  [.call 1 .create, .call 1 (.add 0 eventSoftware 0), .call 1 (.add 0 eventTimer 1),
    .call 1 (.add 0 eventKeyboard 0), .call 1 (.signal 1), .call 1 (.signal 1),
    .call 1 (.wait 0 0), .intr .timer, .intr .console]

theorem event_accounting_of_threeSources :
    ∃ (s : Pools) (trace : List PoolEvent),
      waitMonitor.dataMachine.observed.Run Machine.anyStep waitobjInit trace s ∧
      (raises 0 trace, deliveries 0 trace) = (1, 1) ∧ (s.esrc 1).ready = true ∧
      raises 2 trace = deliveries 2 trace + (s.esrc 2).ready.toNat ∧
      ∃ w t, Delivery (Machine.unobserved trace) s w 2 t := by
  have heval : ∃ x ∈ waitMonitor.dataMachine.observed.runAll waitobjInit threeSources,
      (raises 0 (threeSources.zip x.2), deliveries 0 (threeSources.zip x.2)) = (1, 1) ∧
      (x.1.esrc 1).ready = true ∧ (x.1.esrc 2).type = eventKeyboard ∧
      ∃ y ∈ waitMonitor.dataMachine.exec x.1 (.call 1 (.wait 0 0)),
        deliveredId y.2 = some (sourceId 2) := by
    decide +kernel
  obtain ⟨⟨s, outs⟩, hrunAll, hcounts, hready, htype, ⟨t, effect⟩, hexec, hsid⟩ := heval
  have hrun : waitMonitor.dataMachine.observed.Run Machine.anyStep waitobjInit _ _ :=
    Machine.run_of_runAll (fun _ _ _ => trivial) hrunAll
  obtain ⟨hbalance, hnext⟩ := event_accounting hrun
  refine ⟨_, _, hrun, hcounts, hready, hbalance 2 (Or.inl htype), ?_⟩
  obtain ⟨w, i, -, hi, hdelivery⟩ := (hnext _ _ _ hexec).2.1 _ hsid
  obtain rfl := sourceId_inj hi
  exact ⟨w, t, hdelivery⟩

end Pools

end MCertikos.Sync
