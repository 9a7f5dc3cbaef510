/-
# Commits and the buffers they need

`commit_trans` reads the header, the blocks of the log and their home blocks through the buffer
cache while the logged blocks are pinned, so it needs free buffers like any other caller.
-/

import MCertikos.FS.InodeUpdate

namespace MCertikos.FS

open Math

def readBuffer (cache : Disk) (pinned : Finset Sector) (held : List Sector) (sector : Sector) :
    Except Halt Block :=
  if sector ∈ held.toFinset then .error .deadlock
  else if sector ∉ pinned ∧ nbuf ≤ (pinned ∪ held.toFinset).card then .error .noBuffers
  else .ok (cache sector)

namespace Log

def withHead (log : Log) (cache : Disk) : Disk :=
  Function.update cache log.start
    (((cache log.start).setWord 0 log.lh.n).setWords 1 log.lh.sector log.lh.count)

def withInstalled (log : Log) (cache : Disk) (tail : ℕ) : Disk :=
  Function.update cache (log.lh.sector tail) (cache (log.slotAddr tail))

def pendingSectors (log : Log) (tail : ℕ) : Finset Sector :=
  {i ∈ Finset.range log.lh.count | tail ≤ i}.image log.lh.sector

def writeHeadBuf (log : Log) (pinned : Finset Sector) (cache : Disk) : Except Halt Disk := do
  let _ ← readBuffer cache pinned [] log.start
  return log.withHead cache

/-- The body of the loop of `install_trans`.  `bufcache_write` of the home block makes its
buffer clean. -/
def installOneBuf (log : Log) (cache : Disk) (tail : ℕ) : Except Halt Disk := do
  let _ ← readBuffer cache (log.pendingSectors tail) [] (log.slotAddr tail)
  let _ ← readBuffer cache (log.pendingSectors tail) [log.slotAddr tail] (log.lh.sector tail)
  return log.withInstalled cache tail

def installTransBuf (log : Log) (cache : Disk) : Except Halt Disk :=
  (List.range log.lh.count).foldlM log.installOneBuf cache

end Log

def Fs.commitTransBuf (s : Fs) : Except Halt Fs :=
  if 0 < s.log.lh.n.toInt then do
    let cache ← s.log.writeHeadBuf s.log.sectors s.cache
    let cache ← s.log.installTransBuf cache
    let cache ← s.log.erase.writeHeadBuf ∅ cache
    return ⟨cache, { s.log.erase with busy := false }⟩
  else return ⟨s.cache, { s.log with busy := false }⟩

section Commit

variable {log : Log} {cache : Disk} {pinned : Finset Sector} {held : List Sector}
  {sector : Sector} {tail : ℕ} {s : Fs}

def Short (count : ℕ) (e : Halt) : Prop := e = .noBuffers ∧ nbuf ≤ count + 1

theorem readBuffer_meets {count : ℕ} (hfree : sector ∉ held)
    (hcard : pinned.card + held.length ≤ count + 1) :
    Meets (Short count) (fun data => data = cache sector)
      (readBuffer cache pinned held sector) := by
  have hunion := Finset.card_union_le pinned held.toFinset
  have hlist := held.toFinset_card_le
  rw [readBuffer, if_neg (List.mem_toFinset.not.mpr hfree)]
  split
  · next hfull => exact ⟨rfl, by have := hfull.2; omega⟩
  · rfl

theorem card_pendingSectors_le (log : Log) (tail : ℕ) :
    (log.pendingSectors tail).card ≤ log.lh.count := by
  refine Finset.card_image_le.trans ((Finset.card_filter_le _ _).trans ?_)
  rw [Finset.card_range]

theorem installOneBuf_meets (hlog : log.Logged log.lh cache cache) (htail : tail < log.lh.count)
    (disk : Disk) : Meets (Short log.lh.count) (fun disk' => disk' = log.withInstalled disk tail)
      (log.installOneBuf disk tail) := by
  have hpending := card_pendingSectors_le log tail
  have hne : log.lh.sector tail ∉ [log.slotAddr tail] := by
    rw [List.mem_singleton]
    intro heq
    refine hlog.outside tail htail ?_
    rw [heq]
    exact Region.contains_slotAddr (by have := hlog.room; omega)
  refine Meets.bind (readBuffer_meets List.not_mem_nil
    (by simp only [List.length_nil]; omega)) fun _ _ => ?_
  exact Meets.bind (readBuffer_meets hne (by simp only [List.length_singleton]; omega))
    fun _ _ => rfl

theorem installTransBuf_meets (hlog : log.Logged log.lh cache cache) (disk : Disk) :
    Meets (Short log.lh.count)
      (fun disk' => disk' = (List.range log.lh.count).foldl log.withInstalled disk)
      (log.installTransBuf disk) := by
  refine Meets.foldlM_range
    (fun k disk' => disk' = (List.range k).foldl log.withInstalled disk) rfl ?_
  rintro k hk _ rfl
  rw [List.range_succ, List.foldl_append]
  exact installOneBuf_meets hlog hk _

theorem writeHeadBuf_meets (log : Log) {count : ℕ} (hcard : pinned.card ≤ count) (disk : Disk) :
    Meets (Short count) (fun disk' => disk' = log.withHead disk) (log.writeHeadBuf pinned disk) :=
  Meets.bind (readBuffer_meets List.not_mem_nil (by simp only [List.length_nil]; omega))
    fun _ _ => rfl

theorem run_commitTrans (hn : 0 < log.lh.n.toInt) (disk : Disk) :
    log.commitTrans.run disk = some ({ log.erase with busy := false },
      log.erase.withHead ((List.range log.lh.count).foldl log.withInstalled
        (log.withHead disk))) := by
  have hinstall : ∀ disk, log.installTrans.run disk =
      some ((), (List.range log.lh.count).foldl log.withInstalled disk) := by
    intro disk
    rw [List.range_eq_range']
    exact Prog.run_loop 0 _ (fun _ _ => rfl) disk
  unfold Log.commitTrans
  rw [if_pos hn]
  show (log.installTrans.bind _).run (log.withHead disk) = _
  rw [Prog.run_bind, hinstall]
  rfl

/-- **A commit with two buffers to spare ends**, and if it ends it has done what the commit
without the buffers does. -/
theorem commitTransBuf_meets (hlog : s.LogOk) :
    Meets (Short s.log.sectors.card) (fun s' => s.commitTrans = some s') s.commitTransBuf := by
  have hcount : s.log.sectors.card = s.log.lh.count := Log.card_sectors hlog
  unfold Fs.commitTransBuf Fs.commitTrans
  by_cases hn : 0 < s.log.lh.n.toInt
  · rw [if_pos hn, run_commitTrans hn]
    refine Meets.bind (writeHeadBuf_meets s.log (Nat.le_refl _) s.cache) ?_
    rintro _ rfl
    refine Meets.bind ((installTransBuf_meets hlog (s.log.withHead s.cache)).mono
      (fun _ he => hcount ▸ he) fun _ h => h) ?_
    rintro _ rfl
    refine Meets.bind (writeHeadBuf_meets s.log.erase (Nat.zero_le _) _) ?_
    rintro _ rfl
    rfl
  · rw [if_neg hn, Log.commitTrans, if_neg hn]
    rfl

theorem commitTrans_log {s' : Fs} (hlog : s.LogOk) (hcommit : s.commitTrans = some s') :
    s'.log.busy = false ∧ s'.log.sectors = ∅ := by
  unfold Fs.commitTrans at hcommit
  by_cases hn : 0 < s.log.lh.n.toInt
  · rw [run_commitTrans hn] at hcommit
    obtain rfl := Option.some.inj hcommit
    exact ⟨rfl, rfl⟩
  · rw [Log.commitTrans, if_neg hn] at hcommit
    obtain rfl := Option.some.inj hcommit
    have hzero : s.log.lh.count = 0 := by
      have hnat := hlog.n_toInt
      omega
    refine ⟨rfl, ?_⟩
    show s.log.sectors = ∅
    rw [Log.sectors, hzero]
    rfl

end Commit

end MCertikos.FS
