/-
# Writes outside a transaction

`log_write` panics if nobody is in a transaction.
-/

import MCertikos.Sysfile.Locks

namespace MCertikos.Sysfile

open Math FS

theorem sound_calls (strict : Prop) :
    System.Sound (system Call.code) (fun c => (c.rules strict).discipline) World.proc Proc.Idle
      Accounted fun w pid a r => strict → (w.proc pid).TransOk a r where
  start c l hl _ := c.code_wp strict hl
  ret _ _ _ hl := hl
  act hinv hok hact hadmits := by
    refine ⟨hinv.step hok.1 hact, ⟨hinv.allow hok.1 hact, hadmits⟩, ?_⟩
    obtain ⟨shared, -, rfl⟩ := effect_of_step hact
    rfl
  intr hinv := ⟨hinv.ideIntr, rfl⟩

/-- The guard of runs in which no process outside a transaction meets a missing block or an
inode to free. -/
def WritesInTrans (k : Calls) (op : ThreadOp Call Unit) : Prop :=
  (system Call.code).Admitted (fun w pid a r => (w.proc pid).TransOk a r) k op

instance (k : Calls) (op : ThreadOp Call Unit) : Decidable (WritesInTrans k op) :=
  inferInstanceAs (Decidable (System.Admitted _ _ k op))

theorem orderly_of_writesInTrans {guard : Calls → ThreadOp Call Unit → Prop} {disk : Disk}
    {trace : List (ThreadOp Call Unit × Option Reply)} {k : Calls}
    (run : (system Call.code).machine.Run guard (.boot (.boot disk)) trace k)
    (hguard : ∀ k op, guard k op → WritesInTrans k op) :
    System.Orderly (fun c => (c.rules True).discipline) World.proc Proc.Idle Accounted k := by
  apply System.orderly_of_run (sound_calls True) run _ (Accounted.boot disk) fun _ => Proc.idle_init
  intro k op hop
  cases op with
  | act pid =>
    intro x hx _
    exact hguard k _ hop x hx
  | _ => trivial

/-- **Writes happen inside transactions.** No interleaving of the calls in which processes
outside a transaction meet neither a missing block nor an inode to free reaches the panic
"write outside of trans". -/
theorem writeOutsideTrans_unreachable {disk : Disk}
    {trace : List (ThreadOp Call Unit × Option Reply)} {k : Calls}
    (run : (system Call.code).machine.Run WritesInTrans (.boot (.boot disk)) trace k) (p : ℕ)
    (c : Call) (next : Empty → Code Reply) :
    k.running p ≠ some (c, .act (.stop .writeOutsideTrans) next) := by
  intro hrun
  have horderly := orderly_of_writesInTrans run fun _ _ hop => hop
  obtain ⟨⟨-, hok⟩, -⟩ := horderly.task p c _ hrun
  exact hok trivial

theorem writeOutsideTrans_unreachable_unlink :
    ∃ (trace : List (ThreadOp Call Unit × Option Reply)) (k : Calls),
      (system Call.code).machine.Run WritesInTrans mkfsBoot trace k ∧
      k = after WritesInTrans
        (inSequence [(1, .open [slash] 0), (1, .mkdir dPath), (1, .unlink dPath)]) ∧
      (k.running 1).isNone ∧
      ∀ c next, k.running 1 ≠ some (c, .act (.stop .writeOutsideTrans) next) := by
  obtain ⟨trace, hrun⟩ := System.run_of_play WritesInTrans 2000
    (inSequence [(1, .open [slash] 0), (1, .mkdir dPath), (1, .unlink dPath)])
    mkfsBoot
  exact ⟨trace, _, hrun, rfl, by decide +kernel, writeOutsideTrans_unreachable hrun 1⟩

/-- A process makes a directory, moves into it, removes it and moves out again.  It then drops
the last reference to the directory outside a transaction, and the kernel panics. -/
theorem chdir_writes_outside_trans :
    ∃ (trace : List (ThreadOp Call Unit × Option Reply)) (k : Calls),
      (system Call.code).machine.Run Machine.anyStep mkfsBoot trace k ∧
      k = after Machine.anyStep (inSequence [(1, .open [slash] 0), (1, .mkdir dPath),
        (1, .ls 100), (1, .chdir dPath), (1, .unlink dPath), (1, .chdir [slash])]) ∧
      (system Call.code).haltsWith k 1 = some .writeOutsideTrans := by
  obtain ⟨trace, hrun⟩ := System.run_of_play Machine.anyStep 2000
    (inSequence [(1, .open [slash] 0), (1, .mkdir dPath), (1, .ls 100), (1, .chdir dPath),
      (1, .unlink dPath), (1, .chdir [slash])]) mkfsBoot
  exact ⟨trace, _, hrun, rfl, by decide +kernel⟩

end MCertikos.Sysfile
