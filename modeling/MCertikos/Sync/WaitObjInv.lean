/-
# The representation invariant of the wait-object pools

`Represents s lists` says that the pools spell one duplicate-free list of sources for each object,
that a source is on the list of its parent and on no other, and that an unallocated source is
blank.
-/

import MCertikos.Sync.WaitObj
import MCertikos.Thread.Wakeup

namespace MCertikos.Sync

open Math Thread Function

namespace Pools

/-! ## Loops over the pool -/

def Fires (due : EventSource → Bool) (source : EventSource) : Prop :=
  source.parent ≠ none ∧ source.ready = false ∧ due source = true

instance (due : EventSource → Bool) (source : EventSource) : Decidable (Fires due source) := by
  unfold Fires
  infer_instance

variable {s t : Pools} {due : EventSource → Bool} {i : Slot}

theorem notifyOne_of_fires {wakes : List Wobj} {w : Wobj} (hfires : Fires due (s.esrc i))
    (hparent : (s.esrc i).parent = some w) : notifyOne due (s, wakes) i =
      (s.setSource i { s.esrc i with ready := true }, wakes ++ [w]) := by
  simp [notifyOne, eventNotify, hparent, hfires.2.1, hfires.2.2]

theorem notifyOne_of_not_fires {wakes : List Wobj} (hfires : ¬ Fires due (s.esrc i)) :
    notifyOne due (s, wakes) i = (s, wakes) := by
  unfold notifyOne
  refine if_pos ?_
  by_contra hnot
  simp only [not_or, Bool.not_eq_true, Bool.not_eq_false] at hnot
  exact hfires ⟨hnot.1, hnot.2.1, hnot.2.2⟩

theorem foldl_notifyOne (due : EventSource → Bool) (slots : List Slot) (hnodup : slots.Nodup)
    (s : Pools) (wakes : List Wobj) : (slots.foldl (notifyOne due) (s, wakes)).1.ticks = s.ticks ∧
      (slots.foldl (notifyOne due) (s, wakes)).1.wobjs = s.wobjs ∧
      (∀ i, (slots.foldl (notifyOne due) (s, wakes)).1.esrc i =
        if i ∈ slots ∧ Fires due (s.esrc i) then { s.esrc i with ready := true }
        else s.esrc i) ∧
      (∀ w, w ∈ (slots.foldl (notifyOne due) (s, wakes)).2 ↔
        w ∈ wakes ∨ ∃ i ∈ slots, Fires due (s.esrc i) ∧ (s.esrc i).parent = some w) := by
  induction slots generalizing s wakes with
  | nil => simp
  | cons j slots ih =>
    obtain ⟨hnot, hrest⟩ := List.nodup_cons.mp hnodup
    by_cases hfires : Fires due (s.esrc j)
    · obtain ⟨w₀, hparent⟩ := Option.ne_none_iff_exists'.mp hfires.1
      rw [List.foldl_cons, notifyOne_of_fires hfires hparent]
      -- The rest of the loop does not look at slot `j` again.
      have hother : ∀ i ∈ slots,
          (s.setSource j { s.esrc j with ready := true }).esrc i = s.esrc i := by
        intro i hi
        have hne : i ≠ j := fun heq => hnot (heq ▸ hi)
        simp [setSource, hne]
      obtain ⟨hticks, hwobjs, hesrc, hwakes⟩ := ih hrest
        (s.setSource j { s.esrc j with ready := true }) (wakes ++ [w₀])
      refine ⟨hticks, hwobjs, fun i => ?_, fun w => ?_⟩
      · rw [hesrc i]
        by_cases heq : i = j
        · subst heq
          simp [hnot, hfires, setSource]
        · simp [heq, setSource]
      · rw [hwakes w]
        have hexists : (∃ i ∈ slots, Fires due ((s.setSource j
            { s.esrc j with ready := true }).esrc i) ∧ ((s.setSource j
            { s.esrc j with ready := true }).esrc i).parent = some w) ↔
            ∃ i ∈ slots, Fires due (s.esrc i) ∧ (s.esrc i).parent = some w := by
          refine exists_congr fun i => and_congr_right fun hi => ?_
          rw [hother i hi]
        rw [hexists]
        simp [hfires, hparent, or_assoc, eq_comm]
    · rw [List.foldl_cons, notifyOne_of_not_fires hfires]
      obtain ⟨hticks, hwobjs, hesrc, hwakes⟩ := ih hrest s wakes
      refine ⟨hticks, hwobjs, fun i => ?_, fun w => ?_⟩
      · rw [hesrc i]
        by_cases heq : i = j
        · subst heq
          simp [hfires]
        · simp [heq]
      · rw [hwakes w]
        simp [hfires]

@[simp] theorem notifyAll_ticks (due : EventSource → Bool) (s : Pools) :
    (s.notifyAll due).1.ticks = s.ticks := by
  unfold notifyAll
  exact (foldl_notifyOne due _ (List.nodup_finRange _) s []).1

@[simp] theorem notifyAll_wobjs (due : EventSource → Bool) (s : Pools) :
    (s.notifyAll due).1.wobjs = s.wobjs := by
  unfold notifyAll
  exact (foldl_notifyOne due _ (List.nodup_finRange _) s []).2.1

theorem notifyAll_esrc (due : EventSource → Bool) (s : Pools) (i : Slot) :
    (s.notifyAll due).1.esrc i =
      if Fires due (s.esrc i) then { s.esrc i with ready := true } else s.esrc i := by
  simpa [notifyAll] using (foldl_notifyOne due _ (List.nodup_finRange _) s []).2.2.1 i

theorem mem_notifyAll_wakes (due : EventSource → Bool) (s : Pools) (w : Wobj) :
    w ∈ (s.notifyAll due).2 ↔ ∃ i, Fires due (s.esrc i) ∧ (s.esrc i).parent = some w := by
  simpa [notifyAll] using (foldl_notifyOne due _ (List.nodup_finRange _) s []).2.2.2 w

/-! ## Loops along a list of sources -/

variable {list : List Slot}

theorem firstReadyFrom_eq {p : Option Slot} (hspells : Spells s.next p list) {fuel : ℕ}
    (hfuel : list.length ≤ fuel) :
    s.firstReadyFrom fuel p = some (list.find? fun i => (s.esrc i).ready) := by
  induction list generalizing p fuel with
  | nil =>
    obtain rfl : p = none := hspells
    cases fuel <;> rfl
  | cons i list ih =>
    obtain ⟨rfl, hrest⟩ := hspells
    cases fuel with
    | zero => simp at hfuel
    | succ fuel =>
      rw [firstReadyFrom, ih hrest (by simpa using hfuel)]
      by_cases hready : (s.esrc i).ready = true <;> simp [hready]

theorem foldl_rescheduleOne (list : List Slot) (s : Pools) :
    (list.foldl rescheduleOne s).ticks = s.ticks ∧
      (list.foldl rescheduleOne s).wobjs = s.wobjs ∧
      ∀ i, (list.foldl rescheduleOne s).esrc i =
        if i ∈ list ∧ (s.esrc i).type = eventTimer then rearm s.ticks (s.esrc i) else s.esrc i := by
  induction list generalizing s with
  | nil => simp
  | cons j list ih =>
    obtain ⟨hticks, hwobjs, hesrc⟩ := ih (s.rescheduleOne j)
    rw [List.foldl_cons]
    by_cases htimer : (s.esrc j).type = eventTimer
    · have hone : s.rescheduleOne j = s.setSource j (rearm s.ticks (s.esrc j)) := by
        simp [rescheduleOne, htimer]
      rw [hone] at hticks hwobjs hesrc ⊢
      refine ⟨hticks, hwobjs, fun i => ?_⟩
      rw [hesrc i]
      by_cases heq : i = j
      · subst heq
        by_cases hmem : i ∈ list <;> simp [hmem, setSource, rearm, htimer]
      · simp [heq, setSource]
    · have hone : s.rescheduleOne j = s := by
        simp [rescheduleOne, htimer]
      rw [hone] at hticks hwobjs hesrc ⊢
      refine ⟨hticks, hwobjs, fun i => ?_⟩
      rw [hesrc i]
      by_cases heq : i = j
      · subst heq
        simp [htimer]
      · simp [heq]

theorem rescheduleFrom_eq {p : Option Slot} (hspells : Spells s.next p list) {fuel : ℕ}
    (hfuel : list.length ≤ fuel) : rescheduleFrom fuel s p = some (list.foldl rescheduleOne s) := by
  induction list generalizing s p fuel with
  | nil =>
    obtain rfl : p = none := hspells
    cases fuel <;> rfl
  | cons i list ih =>
    obtain ⟨rfl, hrest⟩ := hspells
    cases fuel with
    | zero => simp at hfuel
    | succ fuel =>
      have hnext : ∀ j, (s.rescheduleOne i).next j = s.next j := by
        intro j
        have hesrc := (foldl_rescheduleOne [i] s).2.2 j
        simp only [List.foldl_cons, List.foldl_nil] at hesrc
        rw [next, hesrc]
        split <;> rfl
      rw [rescheduleFrom, hnext i, List.foldl_cons]
      exact ih (hrest.congr fun j _ => hnext j) (by simpa using hfuel)

/-- Deliver source `i` of an object whose sources are `list`: take its flag down
and reschedule the object's timers. -/
def deliver (s : Pools) (list : List Slot) (i : Slot) : Pools :=
  list.foldl rescheduleOne (s.setSource i { s.esrc i with ready := false })

@[simp] theorem deliver_ticks (s : Pools) (list : List Slot) (i : Slot) :
    (s.deliver list i).ticks = s.ticks := (foldl_rescheduleOne list _).1

@[simp] theorem deliver_wobjs (s : Pools) (list : List Slot) (i : Slot) :
    (s.deliver list i).wobjs = s.wobjs := (foldl_rescheduleOne list _).2.1

theorem deliver_esrc (s : Pools) (list : List Slot) (i j : Slot) : (s.deliver list i).esrc j =
      if j ∈ list ∧ (s.esrc j).type = eventTimer then rearm s.ticks (s.esrc j)
      else if j = i then { s.esrc j with ready := false } else s.esrc j := by
  rw [deliver, (foldl_rescheduleOne list _).2.2 j]
  by_cases heq : j = i
  · subst heq
    simp [setSource, rearm]
  · simp [setSource, heq]

/-! ## Operations that move no pointer -/

/-- The same objects and the same registered sources: only the flags and the fire
times of registered sources may differ. -/
structure SameShape (s t : Pools) : Prop where
  wobjs : t.wobjs = s.wobjs
  id : ∀ i, (t.esrc i).id = (s.esrc i).id
  type : ∀ i, (t.esrc i).type = (s.esrc i).type
  periodMs : ∀ i, (t.esrc i).periodMs = (s.esrc i).periodMs
  parent : ∀ i, (t.esrc i).parent = (s.esrc i).parent
  next : ∀ i, (t.esrc i).next = (s.esrc i).next
  ready : ∀ i, (s.esrc i).parent = none → (t.esrc i).ready = (s.esrc i).ready

theorem sameShape_notifyAll (due : EventSource → Bool) (s : Pools) :
    s.SameShape (s.notifyAll due).1 where
  wobjs := notifyAll_wobjs due s
  id i := by rw [notifyAll_esrc]; split <;> rfl
  type i := by rw [notifyAll_esrc]; split <;> rfl
  periodMs i := by rw [notifyAll_esrc]; split <;> rfl
  parent i := by rw [notifyAll_esrc]; split <;> rfl
  next i := by rw [notifyAll_esrc]; split <;> rfl
  ready i hparent := by
    have hfires : ¬ Fires due (s.esrc i) := fun hfires => hfires.1 hparent
    rw [notifyAll_esrc, if_neg hfires]

theorem sameShape_raise (hparent : (s.esrc i).parent ≠ none) :
    s.SameShape (s.setSource i { s.esrc i with ready := true })  where
  wobjs := rfl
  id j := by by_cases h : j = i <;> simp [setSource, h]
  type j := by by_cases h : j = i <;> simp [setSource, h]
  periodMs j := by by_cases h : j = i <;> simp [setSource, h]
  parent j := by by_cases h : j = i <;> simp [setSource, h]
  next j := by by_cases h : j = i <;> simp [setSource, h]
  ready j hj := by
    have hne : j ≠ i := fun heq => hparent (heq ▸ hj)
    simp [setSource, hne]

theorem sameShape_deliver (hmem : i ∈ list) (hparent : ∀ j ∈ list, (s.esrc j).parent ≠ none) :
    s.SameShape (s.deliver list i)  where
  wobjs := deliver_wobjs s list i
  id j := by rw [deliver_esrc]; split_ifs <;> rfl
  type j := by rw [deliver_esrc]; split_ifs <;> rfl
  periodMs j := by rw [deliver_esrc]; split_ifs <;> rfl
  parent j := by rw [deliver_esrc]; split_ifs <;> rfl
  next j := by rw [deliver_esrc]; split_ifs <;> rfl
  ready j hj := by
    have hnot : j ∉ list := fun h => hparent j h hj
    have hne : j ≠ i := fun heq => hnot (heq ▸ hmem)
    simp [deliver_esrc, hnot, hne]

/-! ## The invariant -/

@[simp] theorem next_setWobj (s : Pools) (w : Wobj) (object : WaitObject) :
    (s.setWobj w object).next = s.next := rfl

/-- The pools spell the lists, a source is on the list of its parent only, and an
unallocated source is blank. -/
structure Represents (s : Pools) (lists : Wobj → List Slot) : Prop where
  spells : ∀ w, Spells s.next (s.wobjs w).sources (lists w)
  mem_iff : ∀ w i, i ∈ lists w ↔ (s.esrc i).parent = some w
  id_of_mem : ∀ w, ∀ i ∈ lists w, (s.esrc i).id = i + 1
  inUse_of_mem : ∀ w, ∀ i ∈ lists w, (s.wobjs w).inUse = true
  blank : ∀ i, (s.esrc i).parent = none → (s.esrc i).id = 0 ∧ (s.esrc i).ready = false

def sourcesOf (s : Pools) (w : Wobj) : List Slot :=
  Spells.walk s.next maxEventSources (s.wobjs w).sources

theorem represents_waitobjInit : waitobjInit.Represents fun _ => [] where
  spells _ := rfl
  mem_iff _ _ := by simp [waitobjInit]
  id_of_mem := by simp
  inUse_of_mem := by simp
  blank _ _ := ⟨rfl, rfl⟩

namespace Represents

variable {lists : Wobj → List Slot}

theorem length_le (hrep : s.Represents lists) (w : Wobj) : (lists w).length ≤ maxEventSources := by
  simpa using (hrep.spells w).length_le

theorem sourcesOf_eq (hrep : s.Represents lists) (w : Wobj) : s.sourcesOf w = lists w :=
  (hrep.spells w).walk_eq (hrep.length_le w)

variable {w : Wobj}

theorem parent_ne_none (hrep : s.Represents lists) {i : Slot} (hmem : i ∈ lists w) :
    (s.esrc i).parent ≠ none := by
  simp [(hrep.mem_iff w i).mp hmem]

theorem id_ne_zero (hrep : s.Represents lists) {i : Slot} (hparent : (s.esrc i).parent ≠ none) :
    (s.esrc i).id ≠ 0 := by
  obtain ⟨w, hw⟩ := Option.ne_none_iff_exists'.mp hparent
  rw [hrep.id_of_mem w i ((hrep.mem_iff w i).mpr hw)]
  omega

theorem nil_of_not_inUse (hrep : s.Represents lists) (huse : (s.wobjs w).inUse = false) :
    lists w = [] := by
  refine List.eq_nil_iff_forall_not_mem.mpr fun i hmem => ?_
  rw [hrep.inUse_of_mem w i hmem] at huse
  cases huse

theorem of_sameShape (hrep : s.Represents lists) (hshape : s.SameShape t) : t.Represents lists where
  spells w := by
    rw [hshape.wobjs]
    exact (hrep.spells w).congr fun i _ => hshape.next i
  mem_iff w i := by
    rw [hshape.parent i]
    exact hrep.mem_iff w i
  id_of_mem w i hmem := by
    rw [hshape.id i]
    exact hrep.id_of_mem w i hmem
  inUse_of_mem w i hmem := by
    rw [hshape.wobjs]
    exact hrep.inUse_of_mem w i hmem
  blank i hparent := by
    rw [hshape.parent i] at hparent
    rw [hshape.id i, hshape.ready i hparent]
    exact hrep.blank i hparent

theorem create (hrep : s.Represents lists) (huse : (s.wobjs w).inUse = false) (ownerPid : ℕ) :
    (s.setWobj w { s.wobjs w with
      inUse := true, ownerPid := ownerPid, sources := none }).Represents lists  where
  spells w' := by
    by_cases heq : w' = w
    · subst heq
      rw [hrep.nil_of_not_inUse huse]
      simp [setWobj, Spells]
    · rw [next_setWobj]
      simpa [setWobj, heq] using hrep.spells w'
  mem_iff := hrep.mem_iff
  id_of_mem := hrep.id_of_mem
  inUse_of_mem w' i hmem := by
    by_cases heq : w' = w
    · simp [setWobj, heq]
    · simpa [setWobj, heq] using hrep.inUse_of_mem w' i hmem
  blank := hrep.blank

theorem add (hrep : s.Represents lists) {i : Slot} (huse : (s.wobjs w).inUse = true)
    (hfree : (s.esrc i).parent = none) (type : ℤ) (argMs : BitVec 32) :
    ((s.setSource i (s.newSource w i type argMs)).setWobj w
      { s.wobjs w with sources := some i }).Represents
        (update lists w (i :: lists w)) := by
  have hnot : ∀ w', i ∉ lists w' := by
    intro w' hmem
    exact hrep.parent_ne_none hmem hfree
  have hne : ∀ {w' j}, j ∈ lists w' → j ≠ i := by
    rintro w' j hmem rfl
    exact hnot w' hmem
  -- The old lists do not go through the slot that was filled in.
  have hspells : ∀ w', Spells ((s.setSource i (s.newSource w i type argMs)).setWobj w
      { s.wobjs w with sources := some i }).next (s.wobjs w').sources (lists w') := by
    intro w'
    refine (hrep.spells w').congr fun j hj => ?_
    simp [next, setSource, setWobj, hne hj]
  exact {
    spells := by
      intro w'
      by_cases heq : w' = w
      · subst heq
        rw [update_self]
        refine ⟨by simp [setWobj], ?_⟩
        have hnext : (s.setSource i (s.newSource w' i type argMs)).next i =
            (s.wobjs w').sources := by
          simp [next, setSource, newSource]
        rw [next_setWobj, hnext]
        exact hspells w'
      · rw [update_of_ne heq]
        have hsources : (((s.setSource i (s.newSource w i type argMs)).setWobj w
            { s.wobjs w with sources := some i }).wobjs w').sources =
              (s.wobjs w').sources := by
          simp [setSource, setWobj, heq]
        rw [hsources]
        exact hspells w'
    mem_iff := by
      intro w' j
      by_cases hj : j = i
      · subst hj
        by_cases heq : w' = w
        · simp [setSource, setWobj, newSource, heq]
        · simp [setSource, setWobj, newSource, heq, hnot w', Ne.symm heq]
      · by_cases heq : w' = w
        · simp [setSource, setWobj, heq, hj, hrep.mem_iff]
        · simp [setSource, setWobj, heq, hj, hrep.mem_iff]
    id_of_mem := by
      intro w' j hmem
      by_cases hj : j = i
      · simp [setSource, setWobj, newSource, hj]
      · have hold : j ∈ lists w' := by
          by_cases heq : w' = w
          · subst heq
            simpa [hj] using hmem
          · simpa [heq] using hmem
        simpa [setSource, setWobj, hj] using hrep.id_of_mem w' j hold
    inUse_of_mem := by
      intro w' j hmem
      by_cases heq : w' = w
      · simpa [setSource, setWobj, heq] using huse
      · have hold : j ∈ lists w' := by simpa [heq] using hmem
        simpa [setSource, setWobj, heq] using hrep.inUse_of_mem w' j hold
    blank := by
      intro j hj
      by_cases heq : j = i
      · simp [setSource, setWobj, newSource, heq] at hj
      · simpa [setSource, setWobj, heq] using
          hrep.blank j (by simpa [setSource, setWobj, heq] using hj) }

end Represents

/-! ## What one operation can do -/

theorem getWo_eq_some {wid : ℤ} {w : Wobj} :
    s.getWo wid = some w ↔ wid = w ∧ (s.wobjs w).inUse = true := by
  unfold getWo
  constructor
  · intro hwo
    split at hwo
    · next hrange =>
      dsimp only at hwo
      split at hwo
      · next huse =>
        obtain rfl := Option.some.inj hwo
        exact ⟨(Int.toNat_of_nonneg hrange.1).symm, huse⟩
      · cases hwo
    · cases hwo
  · rintro ⟨rfl, huse⟩
    have hrange : (0 : ℤ) ≤ (w : ℕ) ∧ ((w : ℕ) : ℤ) < maxWaitObjects := by
      have := w.isLt
      omega
    simp [hrange, huse]

abbrev PoolOp := DataOp WaitCont WaitCall WaitIrq

abbrev PoolEffect := Effect Wobj WaitCont WaitRet

/-- How an iteration of the loop of `waitobj_wait` ends, in terms of the list of
the object's sources. -/
inductive Iteration (s : Pools) (list : List Slot) (cont : WaitCont) :
    Pools → Stop Wobj WaitCont WaitRet → Prop
  | delivered {i : Slot} (hfind : list.find? (fun i => (s.esrc i).ready) = some i) :
      Iteration s list cont (s.deliver list i) (.ret ⟨0, some (i + 1)⟩)
  | timeout (hnone : ∀ i ∈ list, (s.esrc i).ready = false)
      (hdue : cont.useTimeout = true ∧ cont.deadline ≤ s.ticks) :
      Iteration s list cont s (.ret ⟨-1, some (-1)⟩)
  | sleep (hnone : ∀ i ∈ list, (s.esrc i).ready = false)
      (hnot : ¬ (cont.useTimeout = true ∧ cont.deadline ≤ s.ticks)) :
      Iteration s list cont s (.block cont.wo cont)

inductive PoolStep (lists : Wobj → List Slot) (s : Pools) :
    PoolOp → Pools → PoolEffect → Prop
  | createFull {pid : ℕ} : PoolStep lists s (.call pid .create) s ⟨[], some (.ret ⟨-1, none⟩)⟩
  | create {pid : ℕ} {w : Wobj} (huse : (s.wobjs w).inUse = false) :
      PoolStep lists s (.call pid .create)
        (s.setWobj w { s.wobjs w with inUse := true, ownerPid := pid, sources := none })
        ⟨[], some (.ret ⟨w, none⟩)⟩
  | addFailed {pid : ℕ} {wid type : ℤ} {argMs : BitVec 32} :
      PoolStep lists s (.call pid (.add wid type argMs)) s ⟨[], some (.ret ⟨-1, none⟩)⟩
  | add {pid : ℕ} {w : Wobj} {type : ℤ} {argMs : BitVec 32} {i : Slot}
      (huse : (s.wobjs w).inUse = true) (howner : (s.wobjs w).ownerPid = pid)
      (hfree : (s.esrc i).parent = none) :
      PoolStep lists s (.call pid (.add w type argMs))
        ((s.setSource i (s.newSource w i type argMs)).setWobj w
          { s.wobjs w with sources := some i })
        ⟨[], some (.ret ⟨i + 1, none⟩)⟩
  | waitInvalid {pid : ℕ} {wid : ℤ} {timeoutMs : BitVec 32} :
      PoolStep lists s (.call pid (.wait wid timeoutMs)) s ⟨[], some (.ret ⟨-2, none⟩)⟩
  | wait {pid : ℕ} {w : Wobj} {timeoutMs : BitVec 32} {t : Pools}
      {stop : Stop Wobj WaitCont WaitRet}
      (huse : (s.wobjs w).inUse = true) (howner : (s.wobjs w).ownerPid = pid)
      (hiter : s.Iteration (lists w) ⟨w, decide (timeoutMs ≠ 0), s.ticks + timeoutMs⟩ t stop) :
      PoolStep lists s (.call pid (.wait w timeoutMs)) t ⟨[], some stop⟩
  | resume {pid : ℕ} {cont : WaitCont} {t : Pools} {stop : Stop Wobj WaitCont WaitRet}
      (hiter : s.Iteration (lists cont.wo) cont t stop) :
      PoolStep lists s (.resume pid cont) t ⟨[], some stop⟩
  | signalFailed {pid : ℕ} {sourceId : ℤ} :
      PoolStep lists s (.call pid (.signal sourceId)) s ⟨[], some (.ret ⟨-1, none⟩)⟩
  | signal {pid : ℕ} {i : Slot} {w : Wobj} (hparent : (s.esrc i).parent = some w)
      (howner : (s.wobjs w).ownerPid = pid) (htype : (s.esrc i).type = eventSoftware) :
      PoolStep lists s (.call pid (.signal (s.esrc i).id))
        (s.setSource i { s.esrc i with ready := true }) ⟨[w], some (.ret ⟨0, none⟩)⟩
  | timer :
      PoolStep lists s (.intr .timer)
        ({ s with ticks := s.ticks + 1 }.notifyAll (timerDue (s.ticks + 1))).1
        ⟨({ s with ticks := s.ticks + 1 }.notifyAll (timerDue (s.ticks + 1))).2, none⟩
  | console :
      PoolStep lists s (.intr .console) (s.notifyAll keyboardDue).1
        ⟨(s.notifyAll keyboardDue).2, none⟩

section Inversion

variable {lists : Wobj → List Slot}

theorem waitLoop_eq (hrep : s.Represents lists) (cont : WaitCont) :
    ∃ t stop, s.waitLoop cont = some ⟨t, [], stop⟩ ∧
      s.Iteration (lists cont.wo) cont t stop := by
  have hfirst : s.firstReadySource cont.wo =
      some ((lists cont.wo).find? fun i => (s.esrc i).ready) :=
    firstReadyFrom_eq (hrep.spells cont.wo) (hrep.length_le cont.wo)
  cases hfind : (lists cont.wo).find? fun i => (s.esrc i).ready with
  | none =>
    have hnone : ∀ i ∈ lists cont.wo, (s.esrc i).ready = false := by
      simpa using hfind
    have hiter : s.waitIteration cont.wo cont.useTimeout cont.deadline =
        some (s, if cont.useTimeout ∧ cont.deadline ≤ s.ticks then .timeout else .sleep) := by
      simp [waitIteration, hfirst, hfind]
    by_cases hdue : cont.useTimeout = true ∧ cont.deadline ≤ s.ticks
    · rw [if_pos hdue] at hiter
      exact ⟨s, _, by simp only [waitLoop, hiter, Option.map_some], .timeout hnone hdue⟩
    · rw [if_neg hdue] at hiter
      exact ⟨s, _, by simp only [waitLoop, hiter, Option.map_some], .sleep hnone hdue⟩
  | some i =>
    have hmem : i ∈ lists cont.wo := List.mem_of_find?_eq_some hfind
    have hid : (s.esrc i).id = i + 1 := hrep.id_of_mem _ i hmem
    have hnonneg : 0 ≤ (s.esrc i).id := by
      rw [hid]
      omega
    have hspells : Spells (s.setSource i { s.esrc i with ready := false }).next
        (s.wobjs cont.wo).sources (lists cont.wo) := by
      refine (hrep.spells cont.wo).congr fun j _ => ?_
      by_cases heq : j = i <;> simp [next, setSource, heq]
    have hresched : (s.setSource i { s.esrc i with ready := false }).rescheduleAllTimerSources
        cont.wo = some (s.deliver (lists cont.wo) i) :=
      rescheduleFrom_eq hspells (hrep.length_le cont.wo)
    have hiter : s.waitIteration cont.wo cont.useTimeout cont.deadline =
        some (s.deliver (lists cont.wo) i, .delivered (s.esrc i).id) := by
      simp only [waitIteration, hfirst, hfind, Option.bind_some, Option.filter_some,
        hnonneg, decide_true, if_true, hresched, Option.map_some]
    rw [hid] at hiter
    exact ⟨_, _, by simp only [waitLoop, hiter, Option.map_some], .delivered hfind⟩

theorem waitobjCreate_cases (s : Pools) (pid : ℕ) :
    s.waitobjCreate pid = (-1, s) ∨ ∃ w, (s.wobjs w).inUse = false ∧
      s.waitobjCreate pid = ((w.val : ℤ),
        s.setWobj w { s.wobjs w with inUse := true, ownerPid := pid, sources := none }) := by
  unfold waitobjCreate
  split
  · next w hfind =>
    have huse := List.find?_some hfind
    exact Or.inr ⟨w, by simpa using huse, rfl⟩
  · exact Or.inl rfl

theorem waitobjAdd_cases (s : Pools) (pid : ℕ) (wid type : ℤ) (argMs : BitVec 32) :
    s.waitobjAdd pid wid type argMs = (-1, s) ∨ ∃ (w : Wobj) (i : Slot), wid = w ∧
      (s.wobjs w).inUse = true ∧ (s.wobjs w).ownerPid = pid ∧ (s.esrc i).parent = none ∧
      s.waitobjAdd pid wid type argMs = ((i.val : ℤ) + 1,
        (s.setSource i (s.newSource w i type argMs)).setWobj w
          { s.wobjs w with sources := some i }) := by
  unfold waitobjAdd
  split
  · exact Or.inl rfl
  · next w hwo =>
    obtain ⟨hwid, huse⟩ := getWo_eq_some.mp hwo
    split
    · exact Or.inl rfl
    · next howner =>
      split
      · exact Or.inl rfl
      · next i halloc =>
        have hfree := List.find?_some halloc
        simp only [decide_eq_true_eq] at hfree
        exact Or.inr ⟨w, i, hwid, huse, not_not.mp howner, hfree.1, rfl⟩

theorem waitobjSignalSource_cases (s : Pools) (pid : ℕ) (sourceId : ℤ) :
    s.waitobjSignalSource pid sourceId = (-1, s, []) ∨ ∃ (i : Slot) (w : Wobj),
      sourceId = (s.esrc i).id ∧ (s.esrc i).parent = some w ∧ (s.wobjs w).ownerPid = pid ∧
      (s.esrc i).type = eventSoftware ∧ s.waitobjSignalSource pid sourceId =
        (0, s.setSource i { s.esrc i with ready := true }, [w]) := by
  unfold waitobjSignalSource
  split
  · exact Or.inl rfl
  · next hrange =>
    dsimp only
    split
    · exact Or.inl rfl
    · next hvalid =>
      simp only [not_or, not_not] at hvalid
      obtain ⟨hid, howner⟩ := hvalid
      obtain ⟨w, hparent, howner⟩ := Option.map_eq_some_iff.mp howner
      split
      · exact Or.inl rfl
      · next htype =>
        refine Or.inr ⟨_, w, hid.symm, hparent, howner, not_not.mp htype, ?_⟩
        simp only [eventNotify, hparent]

theorem exists_poolStep (hrep : s.Represents lists) (op : PoolOp) :
    ∃ t effect, waitMonitor.dataMachine.exec s op = some (t, effect) ∧
      PoolStep lists s op t effect := by
  cases op with
  | call pid args =>
    cases args with
    | create =>
      rcases s.waitobjCreate_cases pid with hfull | ⟨w, huse, heq⟩
      · refine ⟨_, _, ?_, .createFull⟩
        simp [Monitor.dataMachine, Monitor.dataExec, waitMonitor, hfull]
      · refine ⟨_, _, ?_, .create huse⟩
        simp [Monitor.dataMachine, Monitor.dataExec, waitMonitor, heq]
    | add wid type argMs =>
      rcases s.waitobjAdd_cases pid wid type argMs with
        hfailed | ⟨w, i, rfl, huse, howner, hfree, heq⟩
      · refine ⟨_, _, ?_, .addFailed⟩
        simp [Monitor.dataMachine, Monitor.dataExec, waitMonitor, hfailed]
      · refine ⟨_, _, ?_, .add huse howner hfree⟩
        simp [Monitor.dataMachine, Monitor.dataExec, waitMonitor, heq]
    | wait wid timeoutMs =>
      by_cases hvalid : ∃ w : Wobj, s.getWo wid = some w ∧ (s.wobjs w).ownerPid = pid
      · obtain ⟨w, hwo, howner⟩ := hvalid
        obtain ⟨t, stop, hloop, hiter⟩ := s.waitLoop_eq hrep
          ⟨w, decide (timeoutMs ≠ 0), s.ticks + timeoutMs⟩
        obtain ⟨rfl, huse⟩ := getWo_eq_some.mp hwo
        refine ⟨_, _, ?_, .wait huse howner hiter⟩
        simp only [Monitor.dataMachine, Monitor.dataExec, waitMonitor, waitobjWait, hwo,
          howner, ne_eq, not_true_eq_false, if_false, hloop, Option.map_some]
      · refine ⟨_, _, ?_, .waitInvalid⟩
        have hinvalid : s.waitobjWait pid wid timeoutMs =
            some ⟨s, [], .ret ⟨-2, none⟩⟩ := by
          unfold waitobjWait
          split
          · rfl
          · next w hwo => exact if_pos fun howner => hvalid ⟨w, hwo, howner⟩
        simp [Monitor.dataMachine, Monitor.dataExec, waitMonitor, hinvalid]
    | signal sourceId =>
      rcases s.waitobjSignalSource_cases pid sourceId with
        hfailed | ⟨i, w, rfl, hparent, howner, htype, heq⟩
      · refine ⟨_, _, ?_, .signalFailed⟩
        simp [Monitor.dataMachine, Monitor.dataExec, waitMonitor, hfailed]
      · refine ⟨_, _, ?_, .signal hparent howner htype⟩
        simp [Monitor.dataMachine, Monitor.dataExec, waitMonitor, heq]
  | resume pid cont =>
    obtain ⟨t, stop, hloop, hiter⟩ := s.waitLoop_eq hrep cont
    refine ⟨_, _, ?_, .resume hiter⟩
    simp only [Monitor.dataMachine, Monitor.dataExec, waitMonitor, hloop, Option.map_some]
  | intr irq =>
    cases irq with
    | timer => exact ⟨_, _, rfl, .timer⟩
    | console => exact ⟨_, _, rfl, .console⟩

theorem poolStep_of_exec (hrep : s.Represents lists) {op : PoolOp} {effect : PoolEffect}
    (hexec : waitMonitor.dataMachine.exec s op = some (t, effect)) :
    PoolStep lists s op t effect := by
  obtain ⟨t', effect', hexec', hstep⟩ := exists_poolStep hrep op
  rw [hexec, Option.some.injEq, Prod.mk.injEq] at hexec'
  obtain ⟨rfl, rfl⟩ := hexec'
  exact hstep

end Inversion

end Pools

end MCertikos.Sync
