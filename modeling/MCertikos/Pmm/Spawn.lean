/-
# The quota check and `sys_spawn`

`container_can_consume` adds a signed usage and an unsigned number of pages, and compares the sum
with a signed quota.
-/

import MCertikos.Pmm.Quota

namespace MCertikos.Pmm

open Thread Function

def Mem.containerCanConsume (s : Mem) (id : ℕ) (n : BitVec 32) : BitVec 32 :=
  if (s.container id).quota < (s.container id).usage + n then 0 else 1

structure Container.Within (c : Container) : Prop where
  usage : 0 ≤ c.usage.toInt
  quota : c.usage.toInt ≤ c.quota.toInt

theorem Container.Within.toNat {c : Container} (h : c.Within) :
    c.usage.toNat ≤ c.quota.toNat ∧ c.quota.toNat < 2 ^ 31 ∧
      c.usage.toInt = c.usage.toNat ∧ c.quota.toInt = c.quota.toNat := by
  obtain ⟨husage, hquota⟩ := h
  rw [BitVec.toInt_eq_toNat_cond] at *
  rw [BitVec.toInt_eq_toNat_cond] at *
  have hlt := c.usage.isLt
  have hlt' := c.quota.isLt
  split at husage <;> split at hquota <;> split <;> omega

section Check

variable {s : Mem} {id : ℕ} {n : BitVec 32}

theorem containerCanConsume_eq_one : s.containerCanConsume id n = 1 ↔
      ((s.container id).usage.toNat + n.toNat) % 2 ^ 32 ≤ (s.container id).quota.toNat := by
  rw [← BitVec.toNat_add, ← BitVec.le_def, ← BitVec.not_lt]
  unfold Mem.containerCanConsume
  split
  · next hlt => exact iff_of_false (by decide) (not_not_intro hlt)
  · next hle => exact iff_of_true rfl hle

theorem Container.Within.of_toNat {c : Container} (hle : c.usage.toNat ≤ c.quota.toNat)
    (hlt : c.quota.toNat < 2 ^ 31) : c.Within := by
  constructor
  · rw [BitVec.toInt_eq_toNat_of_lt (by omega)]
    omega
  · rw [BitVec.toInt_eq_toNat_of_lt (by omega), BitVec.toInt_eq_toNat_of_lt (by omega)]
    omega

end Check

/-- What the callers of `container_can_consume` rely on. -/
structure QuotaChecked (s : Mem) (id : ℕ) (n : BitVec 32) : Prop where
  exact : s.containerCanConsume id n = 1 ↔
    (s.container id).usage.toInt + (n.toNat : ℤ) ≤ (s.container id).quota.toInt
  split : s.containerCanConsume id n = 1 →
    ((s.containerSplit id n).2.container id).Within ∧
    ((s.containerSplit id n).2.container (s.containerSplit id n).1).Within ∧
    ((s.containerSplit id n).2.container id).usage.toInt =
      (s.container id).usage.toInt + (n.toNat : ℤ)

section Exact

variable {s : Mem} {id : ℕ} {n : BitVec 32} (h : (s.container id).Within)
include h

theorem split_within (hsum : (s.container id).usage.toNat + n.toNat ≤ (s.container id).quota.toNat) :
    ((s.containerSplit id n).2.container id).Within ∧
      ((s.containerSplit id n).2.container (s.containerSplit id n).1).Within ∧
      ((s.containerSplit id n).2.container id).usage.toInt =
        (s.container id).usage.toInt + (n.toNat : ℤ) := by
  obtain ⟨-, hlt, husage, -⟩ := h.toNat
  have hne : s.nextChild id ≠ id := by
    unfold Mem.nextChild maxChildren
    omega
  have hparent : (s.containerSplit id n).2.container id = charged (s.container id) n := by
    rw [containerSplit_container (s := ⟨s, fun _ => ∅⟩), if_pos rfl]
  have hchild : (s.containerSplit id n).2.container (s.containerSplit id n).1 =
      ⟨n, 0, BitVec.ofNat 32 id, 0, true⟩ := by
    rw [containerSplit_container (s := ⟨s, fun _ => ∅⟩)]
    exact (if_neg hne).trans (if_pos rfl)
  have hadd : ((s.container id).usage + n).toNat = (s.container id).usage.toNat + n.toNat := by
    rw [BitVec.toNat_add, Nat.mod_eq_of_lt (by omega)]
  rw [hparent, hchild]
  refine ⟨.of_toNat ?_ hlt, .of_toNat (Nat.zero_le _) ?_, ?_⟩
  · rw [charged, hadd]
    exact hsum
  · show n.toNat < 2 ^ 31
    omega
  · rw [charged, husage, BitVec.toInt_eq_toNat_of_lt (by rw [hadd]; omega), hadd, Nat.cast_add]

/-- **The quota check is exact just for sums below 2³².** Then `container_can_consume` returns 1
exactly if the usage with the pages is within the quota, and a split that passed it leaves parent
and child within their quotas.  A sum that wraps around is below the usage, and passes. -/
theorem quota_check_exact : QuotaChecked s id n ↔
    (s.container id).usage.toNat + n.toNat < 2 ^ 32 := by
  obtain ⟨hle, hlt, husage, hquota⟩ := h.toNat
  have hn := n.isLt
  constructor
  · intro hchecked
    by_contra hwrap
    have hpasses : s.containerCanConsume id n = 1 := by
      rw [containerCanConsume_eq_one]
      omega
    have hfits := hchecked.exact.mp hpasses
    rw [husage, hquota] at hfits
    omega
  · intro hwrap
    have hiff : s.containerCanConsume id n = 1 ↔ _ := containerCanConsume_eq_one
    rw [Nat.mod_eq_of_lt hwrap] at hiff
    refine ⟨hiff.trans ?_, fun hpasses => split_within h (hiff.mp hpasses)⟩
    rw [husage, hquota]
    omega

end Exact

def oneContainer (quota usage : BitVec 32) : Mem where
  container := update (fun _ => ⟨0, 0, 0, 0, false⟩) 0 ⟨quota, usage, 0, 0, true⟩
  table := ⟨0, fun _ => 0, fun _ => 0, 0⟩

theorem quota_check_exact_of_ten :
    ((oneContainer 10 2).containerSplit 0 8).2.container 1 = ⟨8, 0, 0, 0, true⟩ ∧
      (((oneContainer 10 2).containerSplit 0 8).2.container 0).usage.toInt = 2 + 8 := by
  have hwithin : ((oneContainer 10 2).container 0).Within := ⟨by decide, by decide⟩
  have hchecked : QuotaChecked (oneContainer 10 2) 0 8 := (quota_check_exact hwithin).mpr (by decide)
  exact ⟨by decide, (hchecked.split (by decide)).2.2⟩

/-- One page is used of a quota of one, and 2³² - 1 more pass the check.  The child gets the
quota -1, and the parent has used nothing. -/
theorem quota_check_wraps : ((oneContainer 1 1).container 0).Within ∧
      (oneContainer 1 1).containerCanConsume 0 0xffffffff = 1 ∧
      ¬ ((oneContainer 1 1).container 0).usage.toInt + ((0xffffffff : BitVec 32).toNat : ℤ) ≤
        ((oneContainer 1 1).container 0).quota.toInt ∧
      ¬ (((oneContainer 1 1).containerSplit 0 0xffffffff).2.container 1).Within ∧
      (((oneContainer 1 1).containerSplit 0 0xffffffff).2.container 1).quota.toInt = -1 ∧
      (((oneContainer 1 1).containerSplit 0 0xffffffff).2.container 0).usage.toInt = 0 := by
  refine ⟨⟨by decide, by decide⟩, by decide, by decide, fun hwithin => ?_, by decide, by decide⟩
  exact absurd hwithin.quota (by decide)

/-! ## `sys_spawn` -/

inductive ElfImage
  | ping
  | pong
  | ding
  | fstest
  | shell
  | waitDemo
  deriving DecidableEq, Repr

def elfImage (elfId : BitVec 32) : Option ElfImage :=
  if elfId = 1 then some .ping
  else if elfId = 2 then some .pong
  else if elfId = 3 then some .ding
  else if elfId = 4 then some .fstest
  else if elfId = 5 then some .shell
  else if elfId = 6 then some .waitDemo
  else none

inductive SpawnErrno
  | succ
  | exceedsQuota
  | maxNumChildenReached
  | invalChildId
  | invalPid
  deriving DecidableEq, Repr

structure SpawnKernel (κ : Type*) where
  pmm : κ → Mem
  curid : κ → Fin numIds
  procCreate : κ → ElfImage → BitVec 32 → BitVec 32 × κ

/-- The end of `sys_spawn`: what it leaves in the trap frame, how it called `proc_create` if
it did, and the kernel. -/
structure Spawned (κ : Type*) where
  errno : SpawnErrno
  retval1 : BitVec 32
  called : Option (ElfImage × BitVec 32)
  state : κ

section Spawn

variable {κ : Type*} (K : SpawnKernel κ)

def spawnFails (k : κ) (errno : SpawnErrno) : Spawned κ :=
  ⟨errno, BitVec.ofNat 32 numIds, none, k⟩

def sysSpawn (garbage : BitVec 32) (k : κ) (elfId quota : BitVec 32) : Spawned κ :=
  let qok := (K.pmm k).containerCanConsume garbage.toNat quota
  let nc := ((K.pmm k).container garbage.toNat).nchildren
  let curid := BitVec.ofNat 32 (K.curid k).val
  if qok = 0 then spawnFails k .exceedsQuota
  else if BitVec.ofNat 32 numIds <
      curid * BitVec.ofNat 32 maxChildren + 1 + BitVec.ofNat 32 maxChildren then
    spawnFails k .maxNumChildenReached
  else if nc = BitVec.ofNat 32 maxChildren then spawnFails k .invalChildId
  else
    match elfImage elfId with
    | none => spawnFails k .invalPid
    | some image =>
      let (newPid, k) := K.procCreate k image quota
      if newPid = BitVec.ofNat 32 numIds then
        ⟨.invalPid, BitVec.ofNat 32 numIds, some (image, quota), k⟩
      else ⟨.succ, newPid, some (image, quota), k⟩

/-- The checks of a container before a child is split off. -/
def Spare (k : κ) (id : ℕ) (quota : BitVec 32) : Prop :=
  (K.pmm k).containerCanConsume id quota = 1 ∧
    ((K.pmm k).container id).nchildren ≠ BitVec.ofNat 32 maxChildren

/-- The checks that do not look at a container. -/
def Launchable (k : κ) (elfId : BitVec 32) : Prop :=
  (K.curid k : ℕ) * maxChildren + 1 + maxChildren ≤ numIds ∧
    1 ≤ elfId.toNat ∧ elfId.toNat ≤ 6

/-- The conditions under which the caller may spawn. -/
def MaySpawn (k : κ) (elfId quota : BitVec 32) : Prop :=
  Spare K k (K.curid k) quota ∧ Launchable K k elfId

end Spawn

theorem elfImage_isSome {elfId : BitVec 32} :
    (elfImage elfId).isSome = true ↔ 1 ≤ elfId.toNat ∧ elfId.toNat ≤ 6 := by
  simp only [elfImage, ← BitVec.toNat_inj, BitVec.reduceToNat]
  split_ifs <;> simp <;> omega

theorem room_iff (cur : Fin numIds) :
    BitVec.ofNat 32 numIds < BitVec.ofNat 32 cur.val * BitVec.ofNat 32 maxChildren + 1 +
        BitVec.ofNat 32 maxChildren ↔ ¬ (cur : ℕ) * maxChildren + 1 + maxChildren ≤ numIds := by
  revert cur
  decide

/-- `proc_create` was called just if the container of the caller allows it. -/
structure Decided {κ : Type*} (K : SpawnKernel κ) (k : κ) (elfId quota : BitVec 32)
    (r : Spawned κ) : Prop where
  called_iff : r.called.isSome = true ↔ MaySpawn K k elfId quota
  call : ∀ c ∈ r.called, elfImage elfId = some c.1 ∧ c.2 = quota
  fails : r.called = none →
    r.retval1 = BitVec.ofNat 32 numIds ∧ r.errno ≠ .succ ∧ r.state = k

section Decides

variable {κ : Type*} {K : SpawnKernel κ} {k : κ} {garbage elfId quota : BitVec 32}

/-- What `sys_spawn` does is decided by the container that `curid` happens to name. -/
theorem sysSpawn_cases (K : SpawnKernel κ) (k : κ) (garbage elfId quota : BitVec 32) :
    Spare K k garbage.toNat quota ∧ Launchable K k elfId ∧
      (∃ image, elfImage elfId = some image ∧
        (sysSpawn K garbage k elfId quota).called = some (image, quota)) ∨
    ¬ (Spare K k garbage.toNat quota ∧ Launchable K k elfId) ∧
      ∃ errno ≠ .succ, sysSpawn K garbage k elfId quota = spawnFails k errno := by
  unfold sysSpawn
  dsimp only
  split
  · next hqok =>
    refine .inr ⟨fun hmay => ?_, _, by decide, rfl⟩
    cases hqok.symm.trans hmay.1.1
  next hqok =>
  have hone : (K.pmm k).containerCanConsume garbage.toNat quota = 1 := by
    unfold Mem.containerCanConsume at hqok ⊢
    split at hqok
    · exact absurd rfl hqok
    · next hlt => rw [if_neg hlt]
  split
  · next hroom => exact .inr ⟨fun hmay => (room_iff _).mp hroom hmay.2.1, _, by decide, rfl⟩
  next hroom =>
  rw [room_iff, not_not] at hroom
  split
  · next hfull => exact .inr ⟨fun hmay => hmay.1.2 hfull, _, by decide, rfl⟩
  next hfew =>
  cases himage : elfImage elfId with
  | none =>
    refine .inr ⟨fun hmay => ?_, _, by decide, rfl⟩
    have hsome := elfImage_isSome.mpr hmay.2.2
    rw [himage] at hsome
    cases hsome
  | some image =>
    have helf := elfImage_isSome.mp (by rw [himage]; rfl)
    refine .inl ⟨⟨hone, hfew⟩, ⟨hroom, helf⟩, image, rfl, ?_⟩
    dsimp only
    split <;> rfl

/-- **`sys_spawn` decides on the caller's container just if it looks as full as the one named by
`curid`.** Before it is assigned, `curid` holds anything.  With room for children and a known
binary, `proc_create` is called exactly if the caller may spawn when both containers pass the
checks or both fail; with no room or an unknown binary nothing is called in any case. -/
theorem spawn_decides : Decided K k elfId quota (sysSpawn K garbage k elfId quota) ↔
    (Launchable K k elfId → (Spare K k garbage.toNat quota ↔ Spare K k (K.curid k) quota)) := by
  obtain ⟨hspare, hlaunch, image, himage, hcalled⟩ | ⟨hnot, errno, herrno, hfails⟩ :=
    sysSpawn_cases K k garbage elfId quota
  · constructor
    · intro hdecided _
      have hmay := hdecided.called_iff.mp (by rw [hcalled]; rfl)
      exact iff_of_true hspare hmay.1
    · intro hsame
      refine ⟨?_, by simp [hcalled, himage], by simp [hcalled]⟩
      rw [hcalled]
      exact iff_of_true rfl ⟨(hsame hlaunch).mp hspare, hlaunch⟩
  · rw [hfails]
    constructor
    · intro hdecided hlaunch
      refine iff_of_false (fun hspare => hnot ⟨hspare, hlaunch⟩) fun hspare => ?_
      cases hdecided.called_iff.mpr ⟨hspare, hlaunch⟩
    · intro hsame
      refine ⟨iff_of_false (by simp [spawnFails]) fun hmay => ?_, by simp [spawnFails],
        fun _ => ⟨rfl, herrno, rfl⟩⟩
      exact hnot ⟨(hsame hmay.2).mpr hmay.1, hmay.2⟩

end Decides

def twoQuotas (quota₁ quota₂ : BitVec 32) : Mem where
  container := update
    (update (fun _ => ⟨0, 0, 0, 0, false⟩) 1 ⟨quota₁, 0, 0, 0, true⟩)
    2 ⟨quota₂, 0, 0, 0, true⟩
  table := ⟨0, fun _ => 0, fun _ => 0, 0⟩

def firstRuns : SpawnKernel Mem where
  pmm k := k
  curid _ := ⟨1, by decide⟩
  procCreate k _ quota :=
    let (child, k) := k.containerSplit 1 quota
    (BitVec.ofNat 32 child, k)

theorem spawn_decides_of_shell :
    Decided firstRuns (twoQuotas 10 20) 5 5 (sysSpawn firstRuns 2 (twoQuotas 10 20) 5 5) ∧
      (sysSpawn firstRuns 2 (twoQuotas 10 20) 5 5).called = some (.shell, 5) := by
  have hsame : Spare firstRuns (twoQuotas 10 20) 2 5 ↔ Spare firstRuns (twoQuotas 10 20) 1 5 :=
    iff_of_true ⟨by decide, by decide⟩ ⟨by decide, by decide⟩
  exact ⟨spawn_decides.mpr fun _ => hsame, by decide⟩

/-- With the 2 of another process in `curid`, process 1 may spawn and gets an error for its
quota; and it may not spawn, and `proc_create` is called, and its usage exceeds its quota. -/
theorem spawn_looks_elsewhere :
    (MaySpawn firstRuns (twoQuotas 10 0) 5 5 ∧
      (sysSpawn firstRuns 2 (twoQuotas 10 0) 5 5).called = none ∧
      (sysSpawn firstRuns 2 (twoQuotas 10 0) 5 5).errno = .exceedsQuota) ∧
    ¬ MaySpawn firstRuns (twoQuotas 0 10) 5 5 ∧
      (sysSpawn firstRuns 2 (twoQuotas 0 10) 5 5).called = some (.shell, 5) ∧
      (sysSpawn firstRuns 2 (twoQuotas 0 10) 5 5).errno = .succ ∧
      ((sysSpawn firstRuns 2 (twoQuotas 0 10) 5 5).state.container 1).usage = 5 ∧
      ((sysSpawn firstRuns 2 (twoQuotas 0 10) 5 5).state.container 1).quota = 0 := by
  refine ⟨⟨⟨⟨by decide, by decide⟩, by decide, by decide⟩, by decide, by decide⟩, fun hmay => ?_,
    by decide, by decide, by decide, by decide⟩
  exact absurd hmay.1.1 (by decide)

end MCertikos.Pmm
