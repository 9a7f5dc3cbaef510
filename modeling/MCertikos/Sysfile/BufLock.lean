/-
# The lock of the kernel buffer

`sys_read` and `sys_write` share one buffer of the kernel, and hold the spinlock `buf_lock` from
their first step to their last, over all their sleeps.
-/

import MCertikos.Sysfile.Transactions

namespace MCertikos.Sysfile

open Math FS UserMem

variable {w : World} {pid : ℕ} {a : Act} {chan : Chan}

theorem sleeps_cases (hwait : step pid a w = .wait chan) :
    (∃ sector, a = .bufGet sector) ∨ (∃ b, a = .ideWait b) ∨ a = .logAcquire ∨
      ∃ i, a = .inodeAcquire i := by
  have heffect : w.shared.effect (w.proc pid) a = .wait chan := by
    unfold step at hwait
    split at hwait
    · cases hwait
    · next heffect =>
      cases hwait
      exact heffect
    · cases hwait
  cases a with
  | bufGet sector => exact .inl ⟨sector, rfl⟩
  | ideWait b => exact .inr (.inl ⟨b, rfl⟩)
  | logAcquire => exact .inr (.inr (.inl rfl))
  | inodeAcquire i => exact .inr (.inr (.inr ⟨i, rfl⟩))
  | _ =>
    simp only [Shared.effect, Shared.bufcacheRelease, Shared.ideSubmit, Shared.inodeGet,
      Shared.inodeUnlock, Shared.inodePutTest, Shared.inodePutFinish, Shared.fileAlloc,
      Shared.fileClose] at heffect
    repeat' split at heffect
    all_goals cases heffect

variable {k : Calls} {p : ℕ} {c : Call} {t : Code Reply}

theorem bufLock_of_sleepsAt
    (h : System.Orderly (fun c => (c.rules False).discipline) World.proc Proc.Idle Accounted k)
    (hrun : k.running p = some (c, t)) (hsleeps : (system Call.code).sleepsAt k p = some a) :
    (k.state.proc p).bufLock = c.isReadWrite := by
  obtain ⟨c', next, chan, hact, hwait⟩ := System.running_of_sleepsAt hsleeps
  rw [hrun] at hact
  cases hact
  obtain ⟨⟨-, hok⟩, -⟩ := h.task p c _ hrun
  obtain ⟨sector, rfl⟩ | ⟨b, rfl⟩ | rfl | ⟨i, rfl⟩ := sleeps_cases hwait <;> exact hok

/-- **Who holds `buf_lock`.** Let every process that is in a call sleep, in any state of any
interleaving of the calls.  A read or a write that starts now spins on `buf_lock` exactly if a
process sleeps in a read or a write. -/
theorem lockBuf_spins_iff {disk : Disk} {trace : List (ThreadOp Call Unit × Option Reply)}
    (run : (system Call.code).machine.Run Machine.anyStep (.boot (.boot disk)) trace k)
    (hsleeps : ∀ p, k.running p ≠ none → (system Call.code).sleepsAt k p ≠ none) (q : ℕ) :
    step q .lockBuf k.state = .halt .spin ↔
      ∃ p c t, k.running p = some (c, t) ∧ c.isReadWrite = true := by
  have horderly := System.orderly_of_run (sound_calls False) run
    (fun _ op _ => by cases op <;> simp [System.Admitted]) (Accounted.boot disk)
    fun _ => Proc.idle_init
  have hspin : step q .lockBuf k.state = .halt .spin ↔ k.state.shared.bufLock = true := by
    unfold step Shared.effect
    cases k.state.shared.bufLock <;> simp
  rw [hspin]
  have hlock := horderly.state.bufLock.flag_iff ()
  rw [hlock]
  constructor
  · rintro ⟨p, hp⟩
    obtain hnone | ⟨⟨c, t⟩, hrun⟩ := Option.eq_none_or_eq_some (k.running p)
    · rw [(horderly.resting p hnone).bufLock] at hp
      cases hp
    · obtain ⟨a, ha⟩ := Option.ne_none_iff_exists'.mp (hsleeps p (by simp [hrun]))
      exact ⟨p, c, t, hrun, (bufLock_of_sleepsAt horderly hrun ha).symm.trans hp⟩
  · rintro ⟨p, c, t, hrun, hc⟩
    obtain ⟨a, ha⟩ := Option.ne_none_iff_exists'.mp (hsleeps p (by simp [hrun]))
    exact ⟨p, (bufLock_of_sleepsAt horderly hrun ha).trans hc⟩

theorem lockBuf_spins_iff_open :
    ∃ (trace : List (ThreadOp Call Unit × Option Reply)) (k : Calls),
      (system Call.code).machine.Run Machine.anyStep mkfsBoot trace k ∧
      ((system Call.code).sleepsAt k 1).isSome ∧ step 2 .lockBuf k.state ≠ .halt .spin := by
  let k : Calls := (system Call.code).play Machine.anyStep 10
    [.step (.start 1 (.open [slash] 0)), .go 1] mkfsBoot
  obtain ⟨trace, hrun⟩ : ∃ trace, (system Call.code).machine.Run Machine.anyStep mkfsBoot trace k :=
    System.run_of_play Machine.anyStep 10 _ mkfsBoot
  have hother : ∀ p, p ≠ 1 → k.running p = none := by
    intro p hp
    repeat refine (Function.update_of_ne hp _ _).trans ?_
    rfl
  have hsleeps : ((system Call.code).sleepsAt k 1).isSome := by decide +kernel
  have hall : ∀ p, k.running p ≠ none → (system Call.code).sleepsAt k p ≠ none := by
    intro p hp
    obtain rfl : p = 1 := by
      by_contra hne
      exact hp (hother p hne)
    exact Option.isSome_iff_ne_none.mp hsleeps
  refine ⟨trace, k, hrun, hsleeps, fun hspin => ?_⟩
  obtain ⟨p, c, t, hp, hc⟩ := (lockBuf_spins_iff hrun hall 2).mp hspin
  by_cases hp1 : p = 1
  · subst hp1
    cases hp
    cases hc
  · rw [hother p hp1] at hp
    cases hp

/-- A process sleeps for the disk in `sys_read`, and another one spins for good at the start of
its own. -/
theorem read_sleeps_with_bufLock :
    ∃ (trace : List (ThreadOp Call Unit × Option Reply)) (k : Calls),
      (system Call.code).machine.Run Machine.anyStep mkfsBoot trace k ∧
      k = after Machine.anyStep (inSequence [(1, .open [slash] 0)] ++
        [.step (.start 1 (.read 0 vmUserlo 16)), .go 1, .step (.start 2 (.read 0 vmUserlo 16))]) ∧
      (k.running 1).any (fun x => x.1.isReadWrite) ∧
      ((system Call.code).sleepsAt k 1).isSome ∧ k.state.shared.bufLock = true ∧
      (system Call.code).haltsWith k 2 = some .spin := by
  obtain ⟨trace, hrun⟩ := System.run_of_play Machine.anyStep 2000
    (inSequence [(1, .open [slash] 0)] ++
      [.step (.start 1 (.read 0 vmUserlo 16)), .go 1, .step (.start 2 (.read 0 vmUserlo 16))])
    mkfsBoot
  exact ⟨trace, _, hrun, rfl, by decide +kernel⟩

end MCertikos.Sysfile
