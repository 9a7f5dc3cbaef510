/-
# The initial thread table

`tcb_init` calls `tcb_init_at_id` once for every thread.
-/

import MCertikos.Thread.SchedInv
import Mathlib.Data.Finset.Card
import Mathlib.Data.Finset.Range

namespace MCertikos.Thread

open Function

structure Tcb.SigState where
  sigactions : ℕ → ℕ → BitVec 32
  pendingSignals : BitVec 32
  signalBlockMask : BitVec 32
  savedEspAddr : BitVec 32
  savedEipAddr : BitVec 32
  inSignalHandler : BitVec 32

structure Tcb (χ φ ι : Type) where
  state : TState
  prev : ℕ
  next : ℕ
  channel : Option χ
  openfiles : ℕ → Option φ
  cwd : Option ι
  sigstate : Tcb.SigState

variable {χ φ ι : Type}

def Tcb.blank : Tcb χ φ ι :=
  ⟨.dead, numIds, numIds, none, fun _ => none, none, ⟨fun _ _ => 0, 0, 0, 0, 0, 0⟩⟩

def tcbInitAtId (pool : ℕ → Tcb χ φ ι) (_cpuIdx pid : BitVec 32) : ℕ → Tcb χ φ ι :=
  update pool pid.toNat .blank

/-- `tcb_init`.  The callee's second argument in the call for thread `pid` is the word
`stray pid`. -/
def tcbInit (stray : ℕ → BitVec 32) (pool : ℕ → Tcb χ φ ι) : ℕ → Tcb χ φ ι :=
  (List.range numIds).foldl
    (fun pool pid => tcbInitAtId pool (BitVec.ofNat 32 pid) (stray pid)) pool

theorem tcbInit_apply (stray : ℕ → BitVec 32) (pool : ℕ → Tcb χ φ ι) (p : ℕ) :
    tcbInit stray pool p =
      if p ∈ (List.range numIds).map fun k => (stray k).toNat then .blank else pool p := by
  unfold tcbInit
  induction List.range numIds generalizing pool with
  | nil => rfl
  | cons k ks ih =>
    rw [List.foldl_cons, ih, tcbInitAtId]
    by_cases hk : p = (stray k).toNat <;> simp [hk]

theorem mem_strays {stray : ℕ → BitVec 32} {p : ℕ} :
    (p ∈ (List.range numIds).map fun k => (stray k).toNat) ↔ ∃ k < numIds, (stray k).toNat = p := by
  simp

def Initialised (pool after : ℕ → Tcb χ φ ι) : Prop :=
  (∀ p < numIds, after p = .blank) ∧ ∀ p, numIds ≤ p → after p = pool p

theorem lt_of_covers {stray : ℕ → BitVec 32} (h : ∀ p < numIds, ∃ k < numIds, (stray k).toNat = p)
    {k : ℕ} (hk : k < numIds) : (stray k).toNat < numIds := by
  have hsubset : Finset.range numIds ⊆ (Finset.range numIds).image fun k => (stray k).toNat := by
    intro p hp
    obtain ⟨k, hk, heq⟩ := h p (Finset.mem_range.mp hp)
    exact Finset.mem_image.mpr ⟨k, Finset.mem_range.mpr hk, heq⟩
  have himage := Finset.eq_of_subset_of_card_le hsubset Finset.card_image_le
  rw [← Finset.mem_range, himage]
  exact Finset.mem_image_of_mem _ (Finset.mem_range.mpr hk)

def Sched.ofPool (pool : ℕ → Tcb χ φ ι) : Sched χ where
  state p := (pool p).state
  prev p := (pool p).prev
  next p := (pool p).next
  channel p := (pool p).channel
  pendingSignals p := (pool p).sigstate.pendingSignals
  head _ := numIds
  tail _ := numIds
  curid := 0

theorem Initialised.queueOk {pool after : ℕ → Tcb χ φ ι} (h : Initialised pool after) :
    (Sched.ofPool after).QueueOk [] where
  represents := Math.Links.represents_nil rfl rfl
  lt_of_mem := by simp
  mem_iff p hp := by simp [Sched.ofPool, h.1 p hp, Tcb.blank]
  detached p hp _ := by simp [Sched.ofPool, h.1 p hp, Tcb.blank]
  sleepQueues _ _ := ⟨rfl, rfl⟩

/-- **The initial thread table.** `tcb_init` initialises every table and nothing else exactly if
the stray words are the indices of all threads; and a table so initialised satisfies the
invariant of the ready queue. -/
theorem tcb_init_initialises_iff (stray : ℕ → BitVec 32) :
    ((∀ pool : ℕ → Tcb χ φ ι, Initialised pool (tcbInit stray pool)) ↔
      ∀ p < numIds, ∃ k < numIds, (stray k).toNat = p) ∧
    ∀ pool after : ℕ → Tcb χ φ ι, Initialised pool after → (Sched.ofPool after).QueueOk [] := by
  refine ⟨⟨fun h p hp => ?_, fun h pool => ⟨fun p hp => ?_, fun p hp => ?_⟩⟩,
    fun _ _ h => h.queueOk⟩
  · by_contra hmissed
    have hready := (h fun _ => { Tcb.blank with state := .ready }).1 p hp
    rw [tcbInit_apply, if_neg (mem_strays.not.mpr hmissed)] at hready
    cases congrArg Tcb.state hready
  · rw [tcbInit_apply, if_pos (mem_strays.mpr (h p hp))]
  · refine (tcbInit_apply stray pool p).trans (if_neg fun hmem => ?_)
    obtain ⟨k, hk, rfl⟩ := mem_strays.mp hmem
    exact absurd (lt_of_covers h hk) (Nat.not_lt.mpr hp)

def readyPool : ℕ → Tcb Unit Unit Unit := fun _ => { Tcb.blank with state := .ready }

theorem tcb_init_initialises_of_indices :
    Initialised readyPool (tcbInit (BitVec.ofNat 32) readyPool) :=
  (tcb_init_initialises_iff (BitVec.ofNat 32)).1.mpr
    (fun p hp => ⟨p, hp, Nat.mod_eq_of_lt (hp.trans (by decide))⟩) readyPool

/-- With the word 0 in every call thread 1 stays ready, and with the word 64 the memory behind
the table is overwritten. -/
theorem tcb_init_misses_threads : (tcbInit (fun _ => 0) readyPool 1).state = .ready ∧
    (tcbInit (fun _ => 64) readyPool 64).state = .dead := by
  rw [tcbInit_apply, tcbInit_apply, if_neg (by decide), if_pos (by decide)]
  exact ⟨rfl, rfl⟩

end MCertikos.Thread
