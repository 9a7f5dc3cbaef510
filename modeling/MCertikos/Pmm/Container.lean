/-
# Memory containers

Each process has a container with a quota of pages and a usage.
-/

import MCertikos.Math.Run
import MCertikos.Pmm.PageAlloc
import MCertikos.Thread.Sched
import Mathlib.Algebra.BigOperators.Group.Finset.Basic

namespace MCertikos.Pmm

open Math Thread Function

def maxChildren : ℕ := 3

structure Container where
  quota : BitVec 32
  usage : BitVec 32
  parent : BitVec 32
  nchildren : BitVec 32
  used : Bool
  deriving DecidableEq

/-- The containers and the table of physical pages. -/
structure Mem where
  container : ℕ → Container
  table : AllocTable

namespace Mem

def setContainer (s : Mem) (id : ℕ) (c : Container) : Mem :=
  { s with container := update s.container id c }

def realQuota (t : AllocTable) : ℕ :=
  (List.range' 1 (t.numPages - 1)).countP fun i => t.Free i

/-- Set up the table for a memory map, and give all free pages to container 0.  The other
containers are zero, as static memory is. -/
def containerInit (t : AllocTable) (mm : List MemRange) : Mem where
  container :=
    update (fun _ => ⟨0, 0, 0, 0, false⟩) 0
      ⟨BitVec.ofNat 32 (realQuota (t.pmemInit mm)), 0, 0, 0, true⟩
  table := t.pmemInit mm

def nextChild (s : Mem) (id : ℕ) : ℕ := id * maxChildren + 1 + (s.container id).nchildren.toNat

def containerSplit (s : Mem) (id : ℕ) (quota : BitVec 32) : ℕ × Mem :=
  let nc := (s.container id).nchildren
  let child := s.nextChild id
  let s := s.setContainer child ⟨quota, 0, BitVec.ofNat 32 id, 0, true⟩
  let c := s.container id
  (child, s.setContainer id { c with usage := c.usage + quota, nchildren := nc + 1 })

def containerAlloc (s : Mem) (id : ℕ) : ℕ × Mem :=
  let c := s.container id
  if c.usage = c.quota then (0, s)
  else
    let s := s.setContainer id { c with usage := c.usage + 1 }
    let (i, table) := s.table.palloc
    (i, { s with table := table })

def containerFree (s : Mem) (id page : ℕ) : Mem :=
  if s.table.atIsAllocated page then
    let c := s.container id
    let s := { s with table := s.table.pfree page }
    if 0 < c.usage.toInt then s.setContainer id { c with usage := c.usage - 1 } else s
  else s

end Mem

/-- The memory, and the pages that each container holds. -/
structure Books where
  pmm : Mem
  held : ℕ → Finset ℕ

inductive QuotaOp
  | alloc (id : ℕ)
  | free (id page : ℕ)
  | split (id : ℕ) (quota : BitVec 32)

namespace Books

def boot (t : AllocTable) (mm : List MemRange) : Books := ⟨.containerInit t mm, fun _ => ∅⟩

def credit (held : ℕ → Finset ℕ) (id page : ℕ) : ℕ → Finset ℕ :=
  if page = 0 then held else update held id (insert page (held id))

def exec (s : Books) : QuotaOp → Option (Books × ℕ)
  | .alloc id =>
    if id < numIds then
      let (page, pmm) := s.pmm.containerAlloc id
      some (⟨pmm, credit s.held id page⟩, page)
    else none
  | .free id page =>
    if id < numIds then
      some (⟨s.pmm.containerFree id page,
        update s.held id ((s.held id).erase page)⟩, 0)
    else none
  | .split id quota =>
    if id < numIds ∧ s.pmm.nextChild id < numIds then
      let (child, pmm) := s.pmm.containerSplit id quota
      some (⟨pmm, s.held⟩, child)
    else none

def machine : Machine Books QuotaOp ℕ := ⟨exec⟩

/-- The callers may free a page the container holds, and split off no more than it has left, into
fewer than `maxChildren` children. -/
def Permitted (s : Books) : QuotaOp → Prop
  | .alloc _ => True
  | .free id page => page ∈ s.held id
  | .split id quota =>
    (s.pmm.container id).usage.toInt + (quota.toNat : ℤ) ≤ (s.pmm.container id).quota.toInt ∧
      (s.pmm.container id).nchildren.toInt < (maxChildren : ℤ)

instance (s : Books) (op : QuotaOp) : Decidable (s.Permitted op) := by
  cases op <;> unfold Permitted <;> infer_instance

/-- The containers split off from a container.  Container 0 is its own parent, but not its
own child. -/
def children (s : Mem) (id : ℕ) : Finset ℕ :=
  {c ∈ Finset.range numIds | c ≠ 0 ∧ (s.container c).used = true ∧
    (s.container c).parent = BitVec.ofNat 32 id}

def Accounted (s : Books) : Prop :=
  ∀ id < numIds, (s.pmm.container id).used = true →
    0 ≤ (s.pmm.container id).usage.toInt ∧
    (s.pmm.container id).usage.toInt ≤ (s.pmm.container id).quota.toInt ∧
    (s.pmm.container id).usage.toInt = ((s.held id).card : ℤ) +
      ∑ c ∈ children s.pmm id, (s.pmm.container c).quota.toInt

def PageFound (s : Books) (id : ℕ) : Prop :=
  (s.pmm.container id).usage = (s.pmm.container id).quota ∨ s.pmm.table.HasFree

def Covered (s : Books) (op : QuotaOp) : Prop :=
  s.Permitted op ∧ ∀ id, op = .alloc id → s.PageFound id

end Books

end MCertikos.Pmm
