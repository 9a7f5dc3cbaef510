/-
# The entry loops over the firmware tables

At boot the processors are found in the MADT of ACPI or, without one, in the MP configuration
table.
-/

import Mathlib.Algebra.Ring.Nat

namespace MCertikos.Dev

/-! ## A loop over entries -/

section EntryLoop

variable {σ : Type*} (step : BitVec 32 → BitVec 32) (visit : BitVec 32 → σ → σ) (e : BitVec 32)

/-- The loop `while (p < e)` with pointers of 32 bits. -/
def entryLoop : ℕ → BitVec 32 → σ → Option σ
  | 0, p, s => if p < e then none else some s
  | fuel + 1, p, s => if p < e then entryLoop fuel (p + step p) (visit p s) else some s

inductive Reached (p : BitVec 32) : BitVec 32 → Prop
  | first : Reached p p
  | next {q : BitVec 32} (h : Reached p q) (hq : q < e) : Reached p (q + step q)

variable {step e} {p q : BitVec 32}

theorem entryLoop_isSome (hend : e.toNat + 255 ≤ 2 ^ 32) (hle : ∀ q, (step q).toNat ≤ 255)
    (hstep : ∀ q, Reached step e p q → q < e → step q ≠ 0) {fuel : ℕ} (hq : Reached step e p q)
    (hfuel : e.toNat ≤ q.toNat + fuel) (s : σ) :
    ∃ s', entryLoop step visit e fuel q s = some s' := by
  induction fuel generalizing q s with
  | zero => exact ⟨s, if_neg (BitVec.not_lt.mpr hfuel)⟩
  | succ fuel ih =>
    rw [entryLoop]
    split
    · next hlt =>
      have hlt' : q.toNat < e.toNat := hlt
      have hpos : (step q).toNat ≠ 0 := fun hzero => hstep q hq hlt (BitVec.eq_of_toNat_eq hzero)
      have hadd : (q + step q).toNat = q.toNat + (step q).toNat := by
        rw [BitVec.toNat_add, Nat.mod_eq_of_lt]
        have hbound := hle q
        omega
      exact ih (hq.next hlt) (by omega) _
    · exact ⟨s, rfl⟩

theorem entryLoop_stuck (hq : q < e) (hstep : step q = 0) (fuel : ℕ) (s : σ) :
    entryLoop step visit e fuel q s = none := by
  induction fuel generalizing s with
  | zero => exact if_pos hq
  | succ fuel ih => rw [entryLoop, if_pos hq, hstep, show q + 0 = q from BitVec.add_zero q, ih]

theorem entryLoop_eq_none (h : Reached step e p q) (hq : q < e) (hstep : step q = 0)
    (fuel : ℕ) (s : σ) : entryLoop step visit e fuel p s = none := by
  have hback : (∀ fuel s, entryLoop step visit e fuel q s = none) →
      ∀ fuel s, entryLoop step visit e fuel p s = none := by
    clear hq hstep
    induction h with
    | first => exact id
    | next _ hlt ih =>
      refine fun hnext => ih fun fuel s => ?_
      cases fuel with
      | zero => exact if_pos hlt
      | succ fuel => rw [entryLoop, if_pos hlt, hnext]
  exact hback (entryLoop_stuck visit hq hstep) fuel s

end EntryLoop

/-! ## The tables -/

/-- The memory, and the address that the firmware gives for a table in it. -/
structure Table where
  memory : BitVec 32 → BitVec 8
  base : BitVec 32

namespace Table

variable (t : Table)

def byte (i : ℕ) : BitVec 8 := t.memory (t.base + BitVec.ofNat 32 i)

def word (p : BitVec 32) : BitVec 32 :=
  t.memory (p + 3) ++ t.memory (p + 2) ++ t.memory (p + 1) ++ t.memory p

def sum (len : ℕ) : BitVec 8 := (List.range len).foldl (fun sum i => sum + t.byte i) 0

/-- The first entry is behind a header of 44 bytes in both tables. -/
def entries : BitVec 32 := t.base + 44

/-- Neither the table nor an entry that begins in it runs over the end of the address space. -/
def Below (len : ℕ) : Prop := t.base.toNat + len + 255 ≤ 2 ^ 32

/-- What the loops record: the calls of `pcpu_mp_init_cpu` and of `ioapic_register`. -/
structure Probe where
  ncpu : ℕ := 0
  apIdx : ℕ := 1
  foundBsp : Bool := false
  cpus : List (ℕ × BitVec 8 × Bool) := []
  ioapics : List (BitVec 32 × BitVec 8 × BitVec 32) := []

def Probe.addCpu (s : Probe) (id : BitVec 8) : Bool → Probe
  | true => { s with ncpu := s.ncpu + 1, cpus := s.cpus ++ [(0, id, true)] }
  | false => { s with
      ncpu := s.ncpu + 1, apIdx := s.apIdx + 1, cpus := s.cpus ++ [(s.apIdx, id, false)] }

def mpLength : ℕ := (t.byte 5 ++ t.byte 4 : BitVec 16).toNat

def mpEnd : BitVec 32 := t.base + BitVec.ofNat 32 t.mpLength

def Mpconfig : Prop :=
  [t.byte 0, t.byte 1, t.byte 2, t.byte 3] = [0x50, 0x43, 0x4d, 0x50] ∧
    (t.byte 6 = 1 ∨ t.byte 6 = 4) ∧ t.sum t.mpLength = 0

def mpStep (p : BitVec 32) : BitVec 32 :=
  if t.memory p = 0 then 20
  else if t.memory p = 1 ∨ t.memory p = 2 ∨ t.memory p = 3 ∨ t.memory p = 4 then 8
  else 0

def mpVisit (p : BitVec 32) (s : Probe) : Probe :=
  if t.memory p = 0 then
    if t.memory (p + 3) &&& 1 = 0 then s
    else s.addCpu (t.memory (p + 1)) (t.memory (p + 3) &&& 2 ≠ 0)
  else if t.memory p = 2 then
    { s with ioapics := s.ioapics ++ [(t.word (p + 4), t.memory (p + 1), 0)] }
  else s

def mpInitFallback (fuel : ℕ) : Option Probe :=
  entryLoop t.mpStep t.mpVisit t.mpEnd fuel t.entries {}

def madtLength : BitVec 32 := t.word (t.base + 4)

def madtEnd : BitVec 32 := t.base + t.madtLength

def ProbeMadt : Prop := t.word t.base = 0x43495041 ∧ t.sum t.madtLength.toInt.toNat = 0

def madtStep (p : BitVec 32) : BitVec 32 := (t.memory (p + 1)).setWidth 32

def madtVisit (p : BitVec 32) (s : Probe) : Probe :=
  if t.memory p = 0 then
    if t.word (p + 4) &&& 1 = 0 then s
    else { s.addCpu (t.memory (p + 3)) (!s.foundBsp) with foundBsp := true }
  else if t.memory p = 1 then
    { s with ioapics := s.ioapics ++ [(t.word (p + 4), t.memory (p + 2), t.word (p + 8))] }
  else s

def pcpuMpInit (fuel : ℕ) : Option Probe :=
  entryLoop t.madtStep t.madtVisit t.madtEnd fuel t.entries {}

variable {t}

theorem mpStep_eq_zero {p : BitVec 32} : t.mpStep p = 0 ↔ 4 < t.memory p := by
  have htoNat : 4 < t.memory p ↔ 4 < (t.memory p).toNat := Iff.rfl
  simp only [mpStep, htoNat, ← BitVec.toNat_inj]
  split
  · simp_all
  · split <;> simp_all <;> omega

theorem mpStep_le (p : BitVec 32) : (t.mpStep p).toNat ≤ 255 := by
  unfold mpStep
  split_ifs <;> decide

theorem madtStep_le (p : BitVec 32) : (t.madtStep p).toNat ≤ 255 := by
  rw [madtStep, BitVec.toNat_setWidth_of_le (by decide)]
  exact Nat.le_of_lt_succ (t.memory (p + 1)).isLt

/-- Below the end of the address space there is one turn for each byte of the table. -/
theorem Below.turns {e : BitVec 32} {len : ℕ} (h : t.Below len)
    (he : e = t.base + BitVec.ofNat 32 len) :
    e.toNat + 255 ≤ 2 ^ 32 ∧ e.toNat ≤ t.entries.toNat + len := by
  unfold Below at h
  have hend : e.toNat = t.base.toNat + len := by
    rw [he, BitVec.toNat_add, BitVec.toNat_ofNat, Nat.mod_eq_of_lt (a := len) (by omega),
      Nat.mod_eq_of_lt (by omega)]
  have hfirst : t.entries.toNat = t.base.toNat + 44 := by
    rw [entries, BitVec.toNat_add]
    exact Nat.mod_eq_of_lt (show t.base.toNat + 44 < 2 ^ 32 by omega)
  omega

/-- **When the entry loops end.** For every table, accepted or not: the loop over the MP table
ends, within one turn per byte, if every entry it comes to is of a known type, and the loop over
the MADT if every entry it comes to has a length, as long as the table is below the end of the
address space.  If it comes to another entry, no number of turns ends it. -/
theorem entry_loops_end_iff (conf madt : Table) :
    (conf.Below conf.mpLength →
      (∀ q, Reached conf.mpStep conf.mpEnd conf.entries q → q < conf.mpEnd →
        conf.memory q ≤ 4) → ∃ s, conf.mpInitFallback conf.mpLength = some s) ∧
    ((∃ q, Reached conf.mpStep conf.mpEnd conf.entries q ∧ q < conf.mpEnd ∧
      4 < conf.memory q) → ∀ fuel, conf.mpInitFallback fuel = none) ∧
    (madt.Below madt.madtLength.toNat →
      (∀ q, Reached madt.madtStep madt.madtEnd madt.entries q → q < madt.madtEnd →
        madt.memory (q + 1) ≠ 0) → ∃ s, madt.pcpuMpInit madt.madtLength.toNat = some s) ∧
    ((∃ q, Reached madt.madtStep madt.madtEnd madt.entries q ∧ q < madt.madtEnd ∧
      madt.memory (q + 1) = 0) → ∀ fuel, madt.pcpuMpInit fuel = none) := by
  refine ⟨fun hbelow h => ?_, fun ⟨q, hq, hlt, h⟩ fuel => ?_, fun hbelow h => ?_,
    fun ⟨q, hq, hlt, h⟩ fuel => ?_⟩
  · obtain ⟨hend, hfuel⟩ := hbelow.turns rfl
    refine entryLoop_isSome _ hend mpStep_le (fun q hq hlt hzero => ?_) .first hfuel _
    exact absurd (mpStep_eq_zero.mp hzero) (BitVec.not_lt.mpr (h q hq hlt))
  · exact entryLoop_eq_none _ hq hlt (mpStep_eq_zero.mpr h) fuel _
  · obtain ⟨hend, hfuel⟩ := hbelow.turns
      (show madt.madtEnd = _ by rw [madtEnd, BitVec.ofNat_toNat, BitVec.setWidth_eq])
    refine entryLoop_isSome _ hend madtStep_le (fun q hq hlt hzero => h q hq hlt ?_) .first hfuel _
    have htoNat := congrArg BitVec.toNat hzero
    rw [madtStep, BitVec.toNat_setWidth_of_le (by decide)] at htoNat
    exact BitVec.eq_of_toNat_eq htoNat
  · exact entryLoop_eq_none _ hq hlt (by rw [madtStep, h]; rfl) fuel _

def ofBytes (bytes : List (BitVec 8)) : Table :=
  ⟨fun addr => bytes.getD (addr - 0xf0000).toNat 0, 0xf0000⟩

def unknownType : Table := ofBytes
  ([0x50, 0x43, 0x4d, 0x50, 45, 0, 4, 154] ++ List.replicate 36 0 ++ [5])

def noLength : Table := ofBytes [0x41, 0x50, 0x49, 0x43, 46, 0, 0, 0, 0, 181]

/-- Both are accepted, and neither loop ends. -/
theorem entry_loops_hang :
    (unknownType.Mpconfig ∧ unknownType.Below unknownType.mpLength ∧
      ∀ fuel, unknownType.mpInitFallback fuel = none) ∧
    noLength.ProbeMadt ∧ noLength.Below noLength.madtLength.toNat ∧
      ∀ fuel, noLength.pcpuMpInit fuel = none := by
  have hbelow : unknownType.Below unknownType.mpLength ∧
      noLength.Below noLength.madtLength.toNat := by
    unfold Below
    decide
  refine ⟨⟨⟨by decide, .inr rfl, by decide⟩, hbelow.1, fun fuel => ?_⟩, ⟨by decide, by decide⟩,
    hbelow.2, fun fuel => ?_⟩
  · exact entryLoop_stuck _ (by decide) (by decide) fuel _
  · exact entryLoop_stuck _ (by decide) (by decide) fuel _

end Table

end MCertikos.Dev
