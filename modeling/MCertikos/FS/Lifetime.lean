/-
# The life of a disk

A disk sees one transaction after another.
-/

import MCertikos.FS.Recovery

namespace MCertikos.FS

open Math

/-- A transaction that was begun: what it wrote, and whether it completed. -/
structure Attempt where
  writes : List (Sector × Block)
  completed : Bool

/-- A history of the log in memory and the disk.  After a power failure the machine boots and
recovers; all recoveries but the last are cut short as well. -/
inductive Lives (r : Region) (first : Log × Disk) : List Attempt → Log × Disk → Prop
  | start : Lives r first [] first
  | complete {attempts : List Attempt} {log log' : Log} {disk disk' : Disk}
      {writes : List (Sector × Block)} (past : Lives r first attempts (log, disk))
      (outside : ∀ write ∈ writes, ¬ r.Contains write.1)
      (run : (log.beginTrans.transaction writes).run disk = some (log', disk')) :
      Lives r first (attempts ++ [⟨writes, true⟩]) (log', disk')
  | fail {attempts : List Attempt} {log log' : Log} {disk left again disk' : Disk}
      {writes : List (Sector × Block)} (past : Lives r first attempts (log, disk))
      (outside : ∀ write ∈ writes, ¬ r.Contains write.1)
      (crash : (log.beginTrans.transaction writes).CrashesTo disk left)
      (crashes : Relation.ReflTransGen (Log.boot r).recoverFromLog.CrashesTo left again)
      (run : (Log.boot r).recoverFromLog.run again = some (log', disk')) :
      Lives r first (attempts ++ [⟨writes, false⟩]) (log', disk')

/-- Between two transactions the log is empty in memory and on the disk. -/
structure AtRest (r : Region) (home : Disk) (log : Log) (disk : Disk) : Prop where
  region : log.toRegion = r
  empty : log.lh.n = 0
  clean : r.Clean home disk

section Step

variable {r : Region} {home disk left disk' : Disk} {log log' : Log}
  {writes : List (Sector × Block)}

theorem AtRest.inTrans (h : AtRest r home log disk) (hsize : 0 < r.size.toNat) :
    log.beginTrans.InTrans home home disk := by
  obtain ⟨rfl, hempty, hclean⟩ := h
  exact ⟨rfl, hclean, hclean.logged hsize hempty⟩

theorem AtRest.complete (h : AtRest r home log disk) (hsize : 0 < r.size.toNat)
    (houtside : ∀ write ∈ writes, ¬ r.Contains write.1)
    (hrun : (log.beginTrans.transaction writes).run disk = some (log', disk')) :
    AtRest r (applyWrites home writes) log' disk' := by
  have htrans := h.inTrans hsize
  obtain ⟨rfl, -, -⟩ := h
  obtain ⟨⟨logged, mid⟩, hwrites, hcommit⟩ :=
    Option.bind_eq_some_iff.mp ((Prog.run_bind _ _ disk).symm.trans hrun)
  obtain ⟨hregion, hlogged⟩ :=
    Prog.post_of_run (Log.wp_logWrites htrans houtside fun _ _ _ _ _ => trivial) hwrites
  have hwp : logged.commitTrans.wp True _ _ mid :=
    Log.wp_commitTrans hlogged.clean hlogged.logged
  obtain ⟨⟨hregion', -, hempty⟩, hclean⟩ := Prog.post_of_run hwp hcommit
  exact ⟨hregion'.trans hregion, hempty, hregion ▸ hclean⟩

theorem AtRest.crash (h : AtRest r home log disk) (hsize : 0 < r.size.toNat)
    (houtside : ∀ write ∈ writes, ¬ r.Contains write.1)
    (hcrash : (log.beginTrans.transaction writes).CrashesTo disk left) :
    r.Recoverable home left ∨ r.Recoverable (applyWrites home writes) left := by
  have htrans := h.inTrans hsize
  obtain ⟨rfl, hempty, -⟩ := h
  exact Prog.crash_of_crashesTo (Log.wp_transaction htrans hempty houtside) hcrash

theorem atRest_of_recovery {again : Disk} (h : r.Recoverable home left)
    (hcrashes : Relation.ReflTransGen (Log.boot r).recoverFromLog.CrashesTo left again)
    (hrun : (Log.boot r).recoverFromLog.run again = some (log', disk')) :
    AtRest r home log' disk' := by
  have hwp : ∀ disk, r.Recoverable home disk → (Log.boot r).recoverFromLog.wp False
      (r.Recoverable home) _ disk := fun disk => Log.wp_recoverFromLog (Log.boot r) rfl
  induction hcrashes using Relation.ReflTransGen.head_induction_on with
  | refl =>
    obtain ⟨⟨hregion, -, hempty⟩, hclean⟩ := Prog.post_of_run (hwp _ h) hrun
    exact ⟨hregion, hempty, hclean⟩
  | head hcrash _ ih => exact ih (Prog.crash_of_crashesTo (hwp _ h) hcrash)

end Step

theorem applyWrites_concat (home : Disk) (kept : List (List (Sector × Block)))
    (writes : List (Sector × Block)) : applyWrites home (kept ++ [writes]).flatten =
      applyWrites (applyWrites home kept.flatten) writes := by
  simp [applyWrites]

/-- Of the attempts these were kept: all that completed, and perhaps others. -/
structure Durable (attempts : List Attempt) (kept : List (List (Sector × Block))) : Prop where
  completed : ((attempts.filter Attempt.completed).map Attempt.writes).Sublist kept
  begun : kept.Sublist (attempts.map Attempt.writes)

theorem Durable.concat {attempts : List Attempt} {kept : List (List (Sector × Block))}
    (h : Durable attempts kept) (writes : List (Sector × Block)) (completed : Bool) :
    Durable (attempts ++ [⟨writes, completed⟩]) (kept ++ [writes]) where
  completed := by
    cases completed
    · simpa using h.completed.trans (List.sublist_append_left _ _)
    · simpa using h.completed.append (.refl [writes])
  begun := by simpa using h.begun.append (.refl [writes])

/-- **The life of a disk.** Through any number of transactions and power failures, also during
recovery, the disk holds what the transactions it kept wrote one after the other: all that
completed, and some of the others as a whole. -/
theorem transactions_serialize {r : Region} {home : Disk} {log : Log} {last : Log × Disk}
    {attempts : List Attempt} (hsize : 0 < r.size.toNat) (hrest : AtRest r home log home)
    (hlives : Lives r (log, home) attempts last) :
    ∃ kept, Durable attempts kept ∧ AtRest r (applyWrites home kept.flatten) last.1 last.2 := by
  induction hlives with
  | start => exact ⟨[], ⟨.slnil, .slnil⟩, hrest⟩
  | complete _ outside run ih =>
    obtain ⟨kept, hkept, hatRest⟩ := ih
    refine ⟨_, hkept.concat _ true, ?_⟩
    rw [applyWrites_concat]
    exact hatRest.complete hsize outside run
  | fail _ outside crash crashes run ih =>
    obtain ⟨kept, hkept, hatRest⟩ := ih
    obtain hleft | hleft := hatRest.crash hsize outside crash
    · refine ⟨kept, ⟨by simpa using hkept.completed, ?_⟩, atRest_of_recovery hleft crashes run⟩
      rw [List.map_append]
      exact hkept.begun.trans (List.sublist_append_left _ _)
    · refine ⟨_, hkept.concat _ false, ?_⟩
      rw [applyWrites_concat]
      exact atRest_of_recovery hleft crashes run

/-- Power fails in a transaction after its header was written, and a second one completes after
recovery: the disk has kept both. -/
theorem transactions_serialize_of_recovery : ∃ last,
    Lives ⟨100, 10⟩ (Log.boot ⟨100, 10⟩, fun _ _ => 0)
      [⟨Log.absorbed, false⟩, ⟨[(7, fun _ => 9)], true⟩] last ∧
    AtRest ⟨100, 10⟩ (applyWrites (fun _ _ => 0) [Log.absorbed, [(7, fun _ => 9)]].flatten)
      last.1 last.2 := by
  have hrest : AtRest ⟨100, 10⟩ (fun _ _ => 0) (Log.boot ⟨100, 10⟩) fun _ _ => 0 :=
    ⟨rfl, rfl, fun _ _ => rfl, by decide⟩
  obtain ⟨left, hcrash, log, disk, hrecover, last, hrun, hfive⟩ : ∃ left,
      ((Log.boot ⟨100, 10⟩).beginTrans.transaction Log.absorbed).CrashesTo (fun _ _ => 0) left ∧
      ∃ log disk, (Log.boot ⟨100, 10⟩).recoverFromLog.run left = some (log, disk) ∧
      ∃ last, (log.beginTrans.transaction [(7, fun _ => 9)]).run disk = some last ∧
        last.2 5 0 = 3 :=
    ⟨_, .inr (.inr (.inr (.inr (.inl rfl)))), _, _, rfl, _, rfl, by decide +kernel⟩
  have hlives := (Lives.fail .start (by simp [Log.absorbed, Region.Contains]) hcrash .refl
    hrecover).complete (by simp [Region.Contains]) hrun
  obtain ⟨kept, ⟨hcompleted, hbegun⟩, hatRest⟩ := transactions_serialize (by decide) hrest hlives
  have hvalue := congrFun (hatRest.clean.home_eq 5 (by decide)) 0
  -- A disk that had kept the second one alone would not have the 3.
  have hlong : 2 ≤ kept.length := by
    by_contra hshort
    obtain rfl : [[(7, fun _ => 9)]] = kept := hcompleted.eq_of_length_le (by simp; omega)
    exact absurd (hfive.symm.trans hvalue) (by decide)
  obtain rfl := hbegun.eq_of_length_le hlong
  exact ⟨last, hlives, hatRest⟩

end MCertikos.FS
