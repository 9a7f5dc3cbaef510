/-
# Spin locks across CPUs

`spinlock.c` on several CPUs.
-/

import MCertikos.Math.Exclusion
import MCertikos.Math.Threads

namespace MCertikos.Sync.Spin

open Math Function System

def numCpus : ℕ := 8

structure Spinlock where
  lockHolder : BitVec 32
  lock : BitVec 32

/-- What a CPU has of the lock.  No access reads this note. -/
inductive Owner
  | none
  /-- The lock is taken by the CPU, which is not stored as the holder. -/
  | taken
  | holder
  deriving DecidableEq

structure Shared where
  lk : Spinlock
  cpus : ℕ → Owner

def spinlockInit : Shared := ⟨⟨BitVec.ofNat 32 (numCpus + 1), 0⟩, fun _ => .none⟩

inductive Access
  /-- `xchg(&lk->lock, 1)` until it returns 0. -/
  | spin
  /-- `xchg(&lk->lock, 1)`. -/
  | xchg
  /-- `xchg(&lk->lock, 0)`. -/
  | give
  /-- Store the index of the CPU as the holder, or the number that is no CPU's. -/
  | setHolder (self : Bool)
  | isTaken
  | isHolder

def Access.Res : Access → Type
  | .xchg => BitVec 32
  | .isTaken | .isHolder => Bool
  | _ => Unit

abbrev accesses : Interface := ⟨Access, Access.Res⟩

abbrev Code := Task accesses (BitVec 32)

def does (a : Access) : Task accesses a.Res := Task.perform (I := accesses) a

def access (cpu : ℕ) (lk : Spinlock) : (a : Access) → Option (Spinlock × a.Res)
  | .spin => if lk.lock = 0 then some ({ lk with lock := 1 }, ()) else .none
  | .xchg => some ({ lk with lock := 1 }, lk.lock)
  | .give => some ({ lk with lock := 0 }, ())
  | .setHolder self =>
    some ({ lk with lockHolder := BitVec.ofNat 32 (if self then cpu else numCpus + 1) }, ())
  | .isTaken => some (lk, decide (lk.lock ≠ 0))
  | .isHolder => some (lk, decide (lk.lockHolder = BitVec.ofNat 32 cpu))

/-- What the CPU may do, what it may then read, and how the note on it changes. -/
def rules : Discipline accesses Owner where
  ok c
    | .spin | .xchg => c = .none
    | .give => c = .taken
    | .setHolder _ => c ≠ .none
    | .isTaken | .isHolder => True
  allow c
    | .isTaken, r => c ≠ .none → r = true
    | .isHolder, r => r = decide (c = .holder)
    | _, _ => True
  next c
    | .spin, _ => .taken
    | .xchg, (old : BitVec 32) => if old = 0 then .taken else c
    | .give, _ => .none
    | .setHolder self, _ => if self then .holder else .taken
    | .isTaken, _ | .isHolder, _ => c

def act (cpu : ℕ) (a : Access) (s : Shared) : Outcome Shared Unit Empty a.Res :=
  match access cpu s.lk a with
  | some (lk, r) => .done ⟨lk, update s.cpus cpu (rules.next (s.cpus cpu) a r)⟩ [] r
  | .none => .wait ()

/-! ## The functions -/

def spinlockAcquire : Code := do
  let _ ← does .spin
  let _ ← does (.setHolder true)
  return 0

def spinlockTryAcquire : Code := do
  let old : BitVec 32 ← does .xchg
  if old = 0 then
    let _ ← does (.setHolder true)
    return old
  else return old

def spinlockRelease : Code := do
  let _ ← does (.setHolder false)
  let _ ← does .give
  return 0

def spinlockHolding : Code := do
  let taken : Bool ← does .isTaken
  if taken then
    let holder : Bool ← does .isHolder
    return if holder then 1 else 0
  else return 0

inductive Call
  | acquire
  | tryAcquire
  | release
  | holding

def Call.code : Call → Code
  | .acquire => spinlockAcquire
  | .tryAcquire => spinlockTryAcquire
  | .release => spinlockRelease
  | .holding => spinlockHolding

def smp : System accesses Call Empty (BitVec 32) Shared Unit Empty :=
  ⟨Call.code, act, fun irq => irq.elim⟩

/-- When a function may be called, and what it leaves with its value. -/
def contract : Contract Call (BitVec 32) Owner where
  pre
    | .acquire, c | .tryAcquire, c => c = .none
    | .release, c => c = .holder
    | .holding, _ => True
  post
    | .acquire, _, c => c = .holder
    | .tryAcquire, old, c => c = if old = 0 then .holder else .none
    | .release, _, c => c = .none
    | .holding, value, c => c ≠ .taken ∧ value = if c = .holder then 1 else 0

theorem code_wp (call : Call) (c : Owner) (hidle : c ≠ .taken) (hpre : contract.pre call c) :
    call.code.wp rules (contract.post call) c := by
  cases call with
  | acquire => exact ⟨hpre, fun _ _ => ⟨Owner.noConfusion, fun _ _ => rfl⟩⟩
  | tryAcquire =>
    refine ⟨hpre, fun (old : BitVec 32) _ => ?_⟩
    change (if old = 0 then _ else _ : Code).wp rules _ (if old = 0 then _ else _)
    by_cases hold : old = 0
    · rw [if_pos hold, if_pos hold]
      exact ⟨Owner.noConfusion, fun _ _ => (if_pos hold).symm⟩
    · rw [if_neg hold, if_neg hold]
      exact hpre.trans (if_neg hold).symm
  | release =>
    obtain rfl : c = .holder := hpre
    exact ⟨Owner.noConfusion, fun _ _ => ⟨rfl, fun _ _ => rfl⟩⟩
  | holding =>
    refine ⟨trivial, fun (found : Bool) (hfound : c ≠ .none → found = true) => ?_⟩
    cases found with
    | false =>
      obtain rfl : c = .none := by_contra fun hc => Bool.false_ne_true (hfound hc)
      exact ⟨hidle, rfl⟩
    | true =>
      refine ⟨trivial, fun (holder : Bool) (hholder : holder = decide (c = .holder)) => ?_⟩
      exact ⟨hidle, by simp [hholder, rules]⟩

/-! ## The invariant -/

structure Inv (s : Shared) : Prop where
  exclusive : Exclusive (fun _ : Unit => s.lk.lock ≠ 0) fun cpu _ => s.cpus cpu ≠ .none
  holder : ∀ cpu < numCpus, s.lk.lockHolder = BitVec.ofNat 32 cpu ↔ s.cpus cpu = .holder

theorem ofNat_inj {m n : ℕ} (hm : m ≤ numCpus + 1) (hn : n < numCpus) :
    BitVec.ofNat 32 m = BitVec.ofNat 32 n ↔ m = n := by
  unfold numCpus at *
  rw [← BitVec.toNat_inj, BitVec.toNat_ofNat, BitVec.toNat_ofNat, Nat.mod_eq_of_lt (by omega),
    Nat.mod_eq_of_lt (by omega)]

theorem inv_init : Inv spinlockInit where
  exclusive := ⟨fun _ => by simp [spinlockInit], fun hp => absurd rfl hp⟩
  holder cpu hcpu := by
    refine (ofNat_inj le_rfl hcpu).trans (iff_of_false (by omega) Owner.noConfusion)

section Step

variable {lk : Spinlock} {cpus : ℕ → Owner} {cpu : ℕ}

theorem Inv.take (h : Inv ⟨lk, cpus⟩) (hfree : lk.lock = 0) :
    Inv ⟨{ lk with lock := 1 }, update cpus cpu .taken⟩ where
  exclusive := by
    refine h.exclusive.acquire (p := cpu) (i := ()) (not_not_intro hfree) (by simp) fun q _ => ?_
    by_cases hq : q = cpu <;> simp [hq]
  holder q hlt := by
    have hnone : cpus q = .none := by_contra fun hq =>
      h.exclusive.flag_of_holds (i := ()) hq hfree
    refine (h.holder q hlt).trans ?_
    by_cases hq : q = cpu <;> simp_all

theorem Inv.give (h : Inv ⟨lk, cpus⟩) (htaken : cpus cpu = .taken) :
    Inv ⟨{ lk with lock := 0 }, update cpus cpu .none⟩ where
  exclusive := by
    refine h.exclusive.release (p := cpu) (i := ()) (by simp [htaken]) (by simp) fun q _ => ?_
    by_cases hq : q = cpu <;> simp [hq]
  holder q hlt := by
    refine (h.holder q hlt).trans ?_
    by_cases hq : q = cpu <;> simp [hq, htaken]

theorem Inv.setHolder (h : Inv ⟨lk, cpus⟩) (hcpu : cpu < numCpus) (htaken : cpus cpu ≠ .none)
    (self : Bool) :
    Inv ⟨{ lk with lockHolder := BitVec.ofNat 32 (if self then cpu else numCpus + 1) },
      update cpus cpu (if self then .holder else .taken)⟩ where
  exclusive := by
    refine h.exclusive.congr (fun _ => Iff.rfl) fun q _ => ?_
    by_cases hq : q = cpu
    · cases self <;> simp [hq, htaken]
    · simp [hq]
  holder q hlt := by
    refine (ofNat_inj (by split <;> omega) hlt).trans ?_
    by_cases hq : q = cpu
    · cases self <;> simp [hq]
      omega
    · -- The other CPUs have nothing of the lock.
      have hnone : cpus q = .none := by_contra fun hheld =>
        hq (h.exclusive.unique (i := ()) hheld htaken)
      simp only [update_of_ne hq, hnone, reduceCtorEq, iff_false]
      split <;> omega

theorem Inv.step {s s' : Shared} (h : Inv s) (hcpu : cpu < numCpus) {a : Access} {wakes : List Unit}
    {r : a.Res} (hok : rules.ok (s.cpus cpu) a) (hact : act cpu a s = .done s' wakes r) :
    Inv s' ∧ rules.allow (s.cpus cpu) a r ∧
      s'.cpus = update s.cpus cpu (rules.next (s.cpus cpu) a r) := by
  obtain ⟨lk, cpus⟩ := s
  cases a with
  | spin =>
    by_cases hfree : lk.lock = 0
    · simp only [act, access, if_pos hfree] at hact
      cases hact
      exact ⟨h.take hfree, trivial, rfl⟩
    · simp only [act, access, if_neg hfree] at hact
      cases hact
  | xchg =>
    cases hact
    refine ⟨?_, trivial, rfl⟩
    change Inv ⟨_, update cpus cpu (if lk.lock = 0 then _ else _)⟩
    by_cases hfree : lk.lock = 0
    · rw [if_pos hfree]
      exact h.take hfree
    · rw [if_neg hfree, update_eq_self]
      exact ⟨h.exclusive.congr (fun _ => iff_of_true (by simp) hfree) fun _ _ => Iff.rfl, h.holder⟩
  | give =>
    cases hact
    exact ⟨h.give hok, trivial, rfl⟩
  | setHolder self =>
    cases hact
    exact ⟨h.setHolder hcpu hok self, trivial, rfl⟩
  | isTaken =>
    cases hact
    refine ⟨(update_eq_self cpu cpus).symm ▸ h, fun htaken => ?_, rfl⟩
    exact decide_eq_true (h.exclusive.flag_of_holds (i := ()) htaken)
  | isHolder =>
    cases hact
    refine ⟨(update_eq_self cpu cpus).symm ▸ h, ?_, rfl⟩
    exact decide_eq_decide.mpr (h.holder cpu hcpu)

end Step

theorem lawful : Lawful smp (fun _ => rules) contract Shared.cpus (· ≠ .taken) Inv
    fun _ cpu _ _ => cpu < numCpus where
  start := code_wp
  ret call value c hpost := by
    cases call <;> simp only [contract] at hpost
    · simp [hpost]
    · rw [hpost]
      split <;> exact Owner.noConfusion
    · simp [hpost]
    · exact hpost.1
  act hinv hok hact hcpu := hinv.step hcpu hok hact
  intr {irq} := irq.elim

/-- The functions are called as their contracts ask, by the CPUs there are. -/
abbrev Proper : Threads accesses Call (BitVec 32) Shared → ThreadOp Call Empty → Prop :=
  smp.Respects contract Shared.cpus fun _ cpu _ _ => cpu < numCpus

/-- **Spin locks exclude.** However the CPUs interleave: at most one of them has the lock, from
the `xchg` that takes it to the one that gives it back, and the lock is 0 just when none has.
Where a function returns, the CPU has the lock just if it should, and the value of
`spinlock_try_acquire` or `spinlock_holding` says whether it has. -/
theorem spinlock_excludes {k : Threads accesses Call (BitVec 32) Shared}
    {trace : List (ThreadOp Call Empty × Option (BitVec 32))}
    (run : smp.machine.Run Proper (.boot spinlockInit) trace k) :
    Exclusive (fun _ : Unit => k.state.lk.lock ≠ 0) (fun cpu _ => k.state.cpus cpu ≠ .none) ∧
    ∀ cpu call value, k.running cpu = some (call, .ret value) →
      contract.post call value (k.state.cpus cpu) := by
  have h := lawful.inOrder_of_run run (fun _ _ hop => hop) inv_init fun _ => Owner.noConfusion
  exact ⟨h.state.exclusive, fun cpu call value hrun => h.task cpu call _ hrun⟩

instance (k : Threads accesses Call (BitVec 32) Shared) :
    (op : ThreadOp Call Empty) → Decidable (Proper k op)
  | .start cpu .acquire | .start cpu .tryAcquire =>
    inferInstanceAs (Decidable (k.state.cpus cpu = .none))
  | .start cpu .release => inferInstanceAs (Decidable (k.state.cpus cpu = .holder))
  | .start _ .holding => isTrue trivial
  | .act cpu => inferInstanceAs (Decidable (∀ x ∈ smp.result k cpu, cpu < numCpus))
  | .intr _ => isTrue trivial

def contend : List (ThreadOp Call Empty) :=
  [.start 0 .acquire, .act 0, .act 0, .start 1 .tryAcquire, .act 1, .start 2 .acquire]

def handOver : List (ThreadOp Call Empty) :=
  [.act 0, .start 0 .release, .act 0, .act 0, .act 2, .act 2]

/-- CPU 0 takes the lock; then CPU 1 tries in vain, and CPU 2 spins until CPU 0 gives it back. -/
theorem spinlock_excludes_of_contention : ∃ trace k trace' k',
    smp.machine.Run Proper (.boot spinlockInit) trace k ∧
      k.running 1 = some (.tryAcquire, .ret 1) ∧ k.state.cpus 1 = .none ∧
      smp.machine.exec k (.act 2) = none ∧
      smp.machine.Run Proper (.boot spinlockInit) (trace ++ trace') k' ∧
      k'.running 2 = some (.acquire, .ret 0) ∧ k'.state.cpus 2 = .holder := by
  have hrun : smp.machine.Run Proper (.boot spinlockInit) (contend.zip _) _ :=
    Machine.run_of_guarded rfl
  have hrun' := hrun.trans (Machine.run_of_guarded
    (show (smp.machine.guarded Proper).runAll _ handOver = some (_, _) from rfl))
  exact ⟨_, _, _, _, hrun, rfl, (spinlock_excludes hrun).2 1 .tryAcquire 1 rfl, rfl, hrun', rfl,
    (spinlock_excludes hrun').2 2 .acquire 0 rfl⟩

end MCertikos.Sync.Spin
