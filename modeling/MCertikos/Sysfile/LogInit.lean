/-
# Recovery and the first call

`log_init` runs inside the first `sys_open`, behind a flag that is cleared before the recovery
starts.
-/

import MCertikos.Sysfile.Transactions

namespace MCertikos.Sysfile

open Math FS Function

def Act.accesses : Act → Bool
  | .bufGet _ => true
  | .logGet => true
  | .logModify _ => true
  | _ => false

def Call.isOpen : Call → Bool
  | .open _ _ => true
  | _ => false

/-- The guard of runs in which the first call is a `sys_open`, and no other call starts before
its recovery is complete. -/
def RecoversFirst (k : Calls) : ThreadOp Call Unit → Prop
  | .start _ c => k.state.shared.recovered = true ∨
      c.isOpen = true ∧ k.state.shared.first = true ∧ ∀ p, k.running p = none
  | _ => True

variable {w w' : World} {pid : ℕ} {a : Act} {r : a.Res} {wakes : List Chan}

theorem recovered_of_step (hstep : step pid a w = .done w' wakes r) :
    (w.shared.recovered = true → w'.shared.recovered = true) ∧
    ((w.proc pid).recovering = true →
      w'.shared.recovered = true ∨ (w'.proc pid).recovering = true) := by
  obtain ⟨shared, heffect, rfl⟩ := effect_of_step hstep
  simp only [update_self]
  cases a with
  | noteRecovered =>
    cases heffect
    exact ⟨fun _ => rfl, fun _ => .inl rfl⟩
  | testFirst =>
    cases heffect
    refine ⟨id, fun h => .inr ?_⟩
    cases w.shared.first
    · exact h
    · rfl
  | _ =>
    simp only [Shared.effect, Shared.bufcacheGet, Shared.bufcacheRelease, Shared.ideSubmit,
      Shared.inodeGet, Shared.inodeAcquire, Shared.inodeUnlock, Shared.inodePutTest,
      Shared.inodePutFinish, Shared.fileAlloc, Shared.fileClose] at heffect
    repeat' split at heffect
    all_goals first
      | cases heffect; done
      | cases heffect; exact ⟨id, .inr⟩

/-- Recovery is complete, or it is under way in the only call, or that call is a `sys_open`
which has not taken a step. -/
structure RecoveryStage (k : Calls) : Prop where
  alone : k.state.shared.recovered = true ∨
    ∀ p q, k.running p ≠ none → k.running q ≠ none → p = q
  stage : ∀ p c t, k.running p = some (c, t) →
    k.state.shared.recovered = true ∨ (k.state.proc p).recovering = true ∨
      k.state.shared.first = true ∧ ∃ path omode, t = sysOpen path omode

namespace RecoveryStage

variable {k next : Calls} {op : ThreadOp Call Unit}

theorem step (h : RecoveryStage k) (hop : RecoversFirst k op)
    (hstep : (system Call.code).Step k op next) : RecoveryStage next := by
  cases hstep with
  | @start pid c hrun =>
    obtain hdone | ⟨hopen, hfirst, hnone⟩ := hop
    · exact ⟨.inl hdone, fun _ _ _ _ => .inl hdone⟩
    · have honly : ∀ p, update k.running pid (some (c, c.code)) p ≠ none → p = pid := by
        intro p hp
        by_contra hne
        exact hp (by simp [hne, hnone])
      refine ⟨.inr fun p q hp hq => (honly p hp).trans (honly q hq).symm, ?_⟩
      intro p c' t hp
      obtain rfl : p = pid := honly p (ne_of_eq_of_ne hp (Option.some_ne_none _))
      simp only [update_self, Option.some.injEq, Prod.mk.injEq] at hp
      obtain ⟨rfl, rfl⟩ := hp
      cases c with
      | «open» path omode => exact .inr (.inr ⟨hfirst, path, omode, rfl⟩)
      | _ => cases hopen
  | @ret pid c value hrun =>
    have hrunning : ∀ p, update k.running pid none p ≠ none → k.running p ≠ none := by
      intro p hp
      by_cases hpid : p = pid
      · simp [hpid] at hp
      · simpa [hpid] using hp
    refine ⟨h.alone.imp_right fun halone p q hp hq =>
      halone p q (hrunning p hp) (hrunning q hq), ?_⟩
    intro p c' t hp
    by_cases hpid : p = pid
    · simp [hpid] at hp
    · exact h.stage p c' t (by simpa [hpid] using hp)
  | @act pid c a rest w wakes r hrun hact =>
    obtain ⟨hdone, hleave⟩ := recovered_of_step hact
    by_cases hafter : w.shared.recovered = true
    · exact ⟨.inl hafter, fun _ _ _ _ => .inl hafter⟩
    · have hbefore : ¬ k.state.shared.recovered = true := fun hrec => hafter (hdone hrec)
      have halone := h.alone.resolve_left hbefore
      have honly : ∀ p, update k.running pid (some (c, rest r)) p ≠ none → p = pid := by
        intro p hp
        by_cases hpid : p = pid
        · exact hpid
        · exact halone p pid (by simpa [hpid] using hp) (by simp [hrun])
      refine ⟨.inr fun p q hp hq => (honly p hp).trans (honly q hq).symm, ?_⟩
      intro p c' t hp
      obtain rfl : p = pid := honly p (ne_of_eq_of_ne hp (Option.some_ne_none _))
      obtain hrecovering | ⟨hfirst, path, omode, ht⟩ :=
        (h.stage p c _ hrun).resolve_left hbefore
      · exact .inr (.inl ((hleave hrecovering).resolve_left hafter))
      · -- The first step of `sys_open` finds the flag set and starts the recovery.
        cases ht
        cases hact
        exact .inr (.inl (by simp [Proc.after, hfirst]))
  | intr =>
    obtain ⟨bufs, queue, disk, heq, -⟩ := k.state.shared.ideIntr_frame
    simp only [system, heq]
    exact ⟨h.alone, h.stage⟩

end RecoveryStage

variable {disk : Disk} {trace : List (ThreadOp Call Unit × Option Reply)} {k : Calls}

theorem recoveryStage_of_run {guard : Calls → ThreadOp Call Unit → Prop}
    (run : (system Call.code).machine.Run guard (.boot (.boot disk)) trace k)
    (hguard : ∀ k op, guard k op → RecoversFirst k op) : RecoveryStage k := by
  apply run.invariant
  · exact ⟨.inr fun _ _ hp => absurd rfl hp, fun _ _ _ hp => nomatch hp⟩
  · intro k next op out h hop hexec
    exact h.step (hguard k op hop) (System.step_of_exec hexec)

/-- **Recovery comes first.** If the first call is a `sys_open` and no other call starts before
its `log_init` has returned, then no call takes a buffer or uses the log before recovery is
complete, apart from `log_init` itself. -/
theorem access_after_recovery
    (run : (system Call.code).machine.Run RecoversFirst (.boot (.boot disk)) trace k) (p : ℕ)
    (c : Call) (a : Act) (next : a.Res → Code Reply)
    (hrun : k.running p = some (c, .act a next)) (ha : a.accesses = true) :
    k.state.shared.recovered = true ∨ (k.state.proc p).recovering = true := by
  have hstage := recoveryStage_of_run run fun _ _ hop => hop
  obtain hdone | hrecovering | ⟨-, path, omode, ht⟩ := hstage.stage p c _ hrun
  · exact .inl hdone
  · exact .inr hrecovering
  · cases ht
    cases ha

def Continues (_ : Calls) : ThreadOp Call Unit → Prop
  | .start _ _ => False
  | _ => True

instance (k : Calls) : (op : ThreadOp Call Unit) → Decidable (Continues k op)
  | .start _ _ => isFalse id
  | .act _ | .intr _ => isTrue trivial

def fetching (k : Calls) (p : ℕ) : Option Sector :=
  match k.running p with
  | some (_, .act (.bufGet sector) _) => some sector
  | _ => none

theorem running_of_fetching {p : ℕ} {sector : Sector} (h : fetching k p = some sector) :
    ∃ c next, k.running p = some (c, .act (.bufGet sector) next) := by
  unfold fetching at h
  split at h
  · next hrun =>
    cases h
    exact ⟨_, _, hrun⟩
  · cases h

def opening : Calls :=
  ⟨update mkfsBoot.running 1 (some (.open [slash] 0, sysOpen [slash] 0)), mkfsBoot.state⟩

def logInitDone : Calls := (system Call.code).play Continues 20
  ((List.replicate 3 [.go 1, .step (.intr ())]).flatten ++ List.replicate 6 (.step (.act 1)))
  opening

/-- `log_init` reads the superblock and the header and writes the header back; the read of the
inode of the root directory comes after it. -/
theorem access_after_recovery_open :
    ∃ (trace : List (ThreadOp Call Unit × Option Reply)) (c : Call) (next : ℕ → Code Reply),
      (system Call.code).machine.Run RecoversFirst mkfsBoot trace logInitDone ∧
      logInitDone.running 1 = some (c, .act (.bufGet (iblock 1)) next) ∧
      (logInitDone.state.proc 1).recovering = false ∧
      logInitDone.state.shared.recovered = true := by
  have hstart : (system Call.code).machine.Run RecoversFirst mkfsBoot
      [(.start 1 (.open [slash] 0), none)] opening := .single (.inr ⟨rfl, rfl, fun _ => rfl⟩) rfl
  obtain ⟨trace, hrest⟩ : ∃ trace,
      (system Call.code).machine.Run Continues opening trace logInitDone :=
    System.run_of_play Continues 20 _ opening
  have hrun := hstart.trans (hrest.weaken fun _ op hop => by
    cases op with
    | start pid c => exact hop.elim
    | _ => trivial)
  have heval : fetching logInitDone 1 = some (iblock 1) ∧
      (logInitDone.state.proc 1).recovering = false := by decide +kernel
  obtain ⟨c, next, hnext⟩ := running_of_fetching heval.1
  refine ⟨_, c, next, hrun, hnext, heval.2, ?_⟩
  exact (access_after_recovery hrun 1 c (.bufGet (iblock 1)) next hnext rfl).resolve_right
    (by simp [heval.2])

/-- A `sys_mkdir` before the first `sys_open` goes to the inode of the root directory while
the log is not recovered. -/
theorem mkdir_before_recovery :
    ∃ (trace : List (ThreadOp Call Unit × Option Reply)) (k : Calls) (next : ℕ → Code Reply),
      (system Call.code).machine.Run Machine.anyStep mkfsBoot trace k ∧
      k.running 1 = some (.mkdir dPath, .act (.bufGet (iblock 1)) next) ∧
      k.state.shared.recovered = false ∧ (k.state.proc 1).recovering = false := by
  have heval : (system Call.code).machine.runAll mkfsBoot
      [.start 1 (.mkdir dPath), .act 1, .act 1, .act 1, .act 1] = some _ := rfl
  exact ⟨_, _, _, Machine.run_of_runAll (fun _ _ _ => trivial) heval, rfl, rfl, rfl⟩

end MCertikos.Sysfile
