/-
# The physical memory map

`pmmap_init` copies the memory map that the boot loader leaves into 128 static slots.
-/

import Mathlib.Algebra.Ring.Nat
import MCertikos.Math.Chain
import MCertikos.Pmm.PageAlloc
import Mathlib.Data.List.TakeWhile

namespace MCertikos.Pmm

open Math Function

def nslots : ℕ := 128

abbrev SlotId := Fin nslots

structure Region where
  start : BitVec 32
  /-- The field `end`. -/
  stop : BitVec 32
  type : BitVec 32
  deriving DecidableEq, Repr

inductive PmmapType
  | usable
  | resv
  | acpi
  | nvs
  deriving DecidableEq, Repr

def pmmapSublistNr (type : BitVec 32) : Option PmmapType :=
  if type = 1 then some .usable
  else if type = 2 then some .resv
  else if type = 3 then some .acpi
  else if type = 4 then some .nvs
  else none

/-- The static data of `mboot.c`; the links of the slots are functions of their own. -/
structure Pmmap where
  region : SlotId → Region
  next : SlotId → Option SlotId
  typeNext : SlotId → Option SlotId
  nextFree : ℕ
  list : Option SlotId
  sublist : PmmapType → Option SlotId
  maxUsableMemory : BitVec 32
  memNpages : BitVec 32
  nentries : ℕ

structure MbootMmap where
  baseAddrLow : BitVec 32
  baseAddrHigh : BitVec 32
  lengthLow : BitVec 32
  lengthHigh : BitVec 32
  type : BitVec 32
  deriving DecidableEq, Repr

namespace Pmmap

variable (s : Pmmap)

/-! ## `pmmap_insert` -/

/-- The loop of `pmmap_insert`: the last slot before the first one that starts behind `start`.
It fails if the list does not end. -/
def findLast (start : BitVec 32) : ℕ → Option SlotId → Option SlotId → Option (Option SlotId)
  | _, none, last => some last
  | 0, some _, _ => none
  | fuel + 1, some slot, last =>
    if start < (s.region slot).start then some last
    else findLast start fuel (s.next slot) (some slot)

def link (slot : SlotId) : Option SlotId → Pmmap
  | none => { s with next := update s.next slot s.list, list := some slot }
  | some last => { s with next := Spells.insertAfter s.next last slot }

def pmmapInsert (r : Region) : Option Pmmap :=
  if h : s.nextFree < nslots then
    let slot : SlotId := ⟨s.nextFree, h⟩
    let s := { s with nextFree := s.nextFree + 1, region := update s.region slot r }
    (s.findLast r.start nslots s.list none).map (s.link slot)
  else none

/-! ## `pmmap_merge` -/

end Pmmap

def Region.Joins (r r' : Region) : Prop :=
  r.start ≤ r'.start ∧ r'.start ≤ r.stop ∧ r.type = r'.type

instance (r r' : Region) : Decidable (r.Joins r') := inferInstanceAs (Decidable (_ ∧ _ ∧ _))

def Region.join (r r' : Region) : Region :=
  { r with stop := if r'.stop < r.stop then r.stop else r'.stop }

namespace Pmmap

variable (s : Pmmap)

/-- Step 1 of `pmmap_merge`, from a slot on: join a slot with its successor, and go on behind
it. -/
def mergeLoop (s : Pmmap) : ℕ → Option SlotId → Option Pmmap
  | _, none => some s
  | 0, some _ => none
  | fuel + 1, some slot =>
    match s.next slot with
    | none => some s
    | some nextSlot =>
      if (s.region slot).Joins (s.region nextSlot) then
        let s := { s with
          region := update s.region slot
            ((s.region slot).join (s.region nextSlot))
          next := update s.next slot (s.next nextSlot) }
        s.mergeLoop fuel (s.next slot)
      else s.mergeLoop fuel (s.next slot)

def mergeStep : Option Pmmap := s.mergeLoop nslots s.list

def linkType (type : PmmapType) (slot : SlotId) : Option SlotId → Pmmap
  | some last => { s with typeNext := Spells.insertAfter s.typeNext last slot }
  | none =>
    { s with
      typeNext := update s.typeNext slot (s.sublist type)
      sublist := update s.sublist type (some slot) }

/-- Step 2 of `pmmap_merge`, from a slot on, with `last_slot`; a region of no type fails the
assertion. -/
def sublistLoop (s : Pmmap) (last : PmmapType → Option SlotId) :
    ℕ → Option SlotId → Option (Pmmap × (PmmapType → Option SlotId))
  | _, none => some (s, last)
  | 0, some _ => none
  | fuel + 1, some slot =>
    match pmmapSublistNr (s.region slot).type with
    | none => none
    | some type =>
      (s.linkType type slot (last type)).sublistLoop
        (update last type (some slot)) fuel (s.next slot)

def setMaxUsable : Option SlotId → Pmmap
  | some slot => { s with maxUsableMemory := (s.region slot).stop }
  | none => s

def sublistStep : Option Pmmap :=
  (s.sublistLoop (fun _ => none) nslots s.list).map fun (s, last) => s.setMaxUsable (last .usable)

def pmmapMerge : Option Pmmap := s.mergeStep.bind sublistStep

/-! ## `pmmap_init` -/

end Pmmap

def MbootMmap.region (e : MbootMmap) : Region where
  start := e.baseAddrLow
  stop :=
    if e.lengthHigh ≠ 0 ∨ 0xffffffff - e.baseAddrLow ≤ e.lengthLow then 0xffffffff
    else e.baseAddrLow + e.lengthLow
  type := e.type

namespace Pmmap

variable (s : Pmmap)

def insertAll (s : Pmmap) : List MbootMmap → Option Pmmap
  | [] => some s
  | e :: es =>
    if e.baseAddrHigh ≠ 0 then s.insertAll es
    else (s.pmmapInsert e.region).bind fun s => s.insertAll es

def countEntries : Pmmap := { s with nentries := (Spells.walk s.next nslots s.list).length }

def empty : Pmmap where
  region _ := ⟨0, 0, 0⟩
  next _ := none
  typeNext _ := none
  nextFree := 0
  list := none
  sublist _ := none
  maxUsableMemory := 0
  memNpages := 0
  nentries := 0

def setNpages : Pmmap :=
  { s with memNpages := (s.maxUsableMemory - s.maxUsableMemory % 4096) / 4096 }

def pmmapInit (es : List MbootMmap) : Option Pmmap :=
  ((empty.insertAll es).bind pmmapMerge).map fun s => s.countEntries.setNpages

end Pmmap

/-! ## Lists of regions -/

def Region.Covers (r : Region) (a : ℕ) : Prop := r.start.toNat ≤ a ∧ a < r.stop.toNat

def Covered (rs : List Region) (type : BitVec 32) (a : ℕ) : Prop :=
  ∃ r ∈ rs, r.type = type ∧ r.Covers a

def SortedRegions (rs : List Region) : Prop := rs.Pairwise fun r r' => r.start ≤ r'.start

def insertRegion (r : Region) (rs : List Region) : List Region :=
  rs.takeWhile (fun r' => r'.start ≤ r.start) ++
    r :: rs.dropWhile fun r' => r'.start ≤ r.start

def mergeOnce : List Region → List Region
  | r :: r' :: rs => if r.Joins r' then r.join r' :: mergeOnce rs else r :: mergeOnce (r' :: rs)
  | rs => rs

section Regions

variable {r r' : Region} {rs : List Region} {type : BitVec 32} {a : ℕ}

theorem Covered.cons_iff :
    Covered (r :: rs) type a ↔ (r.type = type ∧ r.Covers a) ∨ Covered rs type a := by
  simp [Covered]

theorem mem_insertRegion {x : Region} : x ∈ insertRegion r rs ↔ x = r ∨ x ∈ rs := by
  have hsplit := congrArg (x ∈ ·) (List.takeWhile_append_dropWhile
    (p := fun r' : Region => decide (r'.start ≤ r.start)) (l := rs))
  simp only [insertRegion, List.mem_append, List.mem_cons, eq_iff_iff] at hsplit ⊢
  rw [← hsplit]
  tauto

theorem SortedRegions.insertRegion (h : SortedRegions rs) : SortedRegions (insertRegion r rs) := by
  have hle : ∀ x ∈ rs.takeWhile (fun r' => r'.start ≤ r.start), x.start ≤ r.start := by
    intro x hx
    simpa using List.mem_takeWhile_imp hx
  have hsplit : rs.takeWhile (fun r' => r'.start ≤ r.start) ++
      rs.dropWhile (fun r' => r'.start ≤ r.start) = rs := List.takeWhile_append_dropWhile
  -- The first region that is left starts behind the new one, and so do all after it.
  have hlt : ∀ x ∈ rs.dropWhile (fun r' => r'.start ≤ r.start), r.start ≤ x.start := by
    cases hdrop : rs.dropWhile (fun r' => r'.start ≤ r.start) with
    | nil => simp
    | cons y ys =>
      have hy : r.start < y.start := by
        have hhead := List.head_dropWhile_not (fun r' : Region => decide (r'.start ≤ r.start))
          (l := rs) (by rw [hdrop]; simp)
        simpa [hdrop] using hhead
      have hsorted : (y :: ys).Pairwise fun r r' => r.start ≤ r'.start := by
        rw [← hdrop]
        exact h.sublist (List.dropWhile_sublist _)
      intro x hx
      obtain rfl | hx := List.mem_cons.mp hx
      · exact BitVec.le_of_lt hy
      · exact BitVec.le_trans (BitVec.le_of_lt hy) ((List.pairwise_cons.mp hsorted).1 x hx)
  rw [SortedRegions, ← hsplit, List.pairwise_append] at h
  unfold SortedRegions Pmm.insertRegion
  refine List.pairwise_append.mpr ⟨h.1, List.pairwise_cons.mpr ⟨hlt, h.2.1⟩, ?_⟩
  intro x hx y hy
  obtain rfl | hy := List.mem_cons.mp hy
  · exact hle x hx
  · exact h.2.2 x hx y hy

theorem Region.Joins.covers_iff (h : r.Joins r') :
    (r.join r').Covers a ↔ r.Covers a ∨ r'.Covers a := by
  obtain ⟨hstart, hstop, -⟩ := h
  rw [BitVec.le_def] at hstart hstop
  unfold Region.Covers Region.join
  dsimp only
  split
  · next hlt =>
    rw [BitVec.lt_def] at hlt
    omega
  · next hle =>
    rw [BitVec.not_lt, BitVec.le_def] at hle
    omega

theorem Covered.mergeOnce_iff : Covered (mergeOnce rs) type a ↔ Covered rs type a := by
  induction rs using mergeOnce.induct with
  | case1 r r' rs hjoins ih =>
    rw [mergeOnce, if_pos hjoins]
    simp only [Covered.cons_iff, ih, hjoins.covers_iff]
    have htype : (r.join r').type = r.type := rfl
    rw [htype, ← hjoins.2.2]
    tauto
  | case2 r r' rs hjoins ih =>
    rw [mergeOnce, if_neg hjoins, Covered.cons_iff, ih, Covered.cons_iff (r := r)]
  | case3 rs hshort => rw [mergeOnce]; exact hshort

theorem starts_mergeOnce (rs : List Region) :
    ((mergeOnce rs).map Region.start).Sublist (rs.map Region.start) := by
  induction rs using mergeOnce.induct with
  | case1 r r' rs hjoins ih =>
    rw [mergeOnce, if_pos hjoins]
    exact (ih.cons r'.start).cons_cons r.start
  | case2 r r' rs hjoins ih =>
    rw [mergeOnce, if_neg hjoins]
    exact ih.cons_cons r.start
  | case3 rs hshort =>
    rw [mergeOnce]
    exact hshort

theorem type_of_mem_mergeOnce (h : r ∈ mergeOnce rs) : ∃ r' ∈ rs, r.type = r'.type := by
  induction rs using mergeOnce.induct with
  | case1 r₁ r₂ rs hjoins ih =>
    rw [mergeOnce, if_pos hjoins] at h
    obtain rfl | h := List.mem_cons.mp h
    · exact ⟨r₁, List.mem_cons_self, rfl⟩
    · obtain ⟨r', hr', htype⟩ := ih h
      exact ⟨r', List.mem_cons_of_mem _ (List.mem_cons_of_mem _ hr'), htype⟩
  | case2 r₁ r₂ rs hjoins ih =>
    rw [mergeOnce, if_neg hjoins] at h
    obtain rfl | h := List.mem_cons.mp h
    · exact ⟨_, List.mem_cons_self, rfl⟩
    · obtain ⟨r', hr', htype⟩ := ih h
      exact ⟨r', List.mem_cons_of_mem _ hr', htype⟩
  | case3 rs hshort =>
    rw [mergeOnce] at h
    · exact ⟨r, h, rfl⟩
    · exact hshort

theorem SortedRegions.mergeOnce (h : SortedRegions rs) : SortedRegions (mergeOnce rs) := by
  have hstarts : (rs.map Region.start).Pairwise (· ≤ ·) := List.pairwise_map.mpr h
  exact List.pairwise_map.mp (hstarts.sublist (starts_mergeOnce rs))

end Regions

/-! ## The loops along the links -/

namespace Pmmap

variable {s : Pmmap} {xs : List SlotId} {r : Region}

structure Listed (s : Pmmap) (xs : List SlotId) : Prop where
  chain : Spells s.next s.list xs
  used : ∀ slot ∈ xs, slot.val < s.nextFree

theorem Listed.length_le (h : s.Listed xs) : xs.length ≤ nslots := by
  simpa using h.chain.length_le

variable {fuel : ℕ}

theorem findLast_eq {start : BitVec 32} {p last : Option SlotId} (h : Spells s.next p xs)
    (hfuel : xs.length ≤ fuel) : s.findLast start fuel p last =
      some ((xs.takeWhile fun slot => (s.region slot).start ≤ start).getLast?.or last) := by
  induction xs generalizing fuel p last with
  | nil =>
    obtain rfl : p = none := h
    cases fuel <;> rfl
  | cons slot xs ih =>
    obtain ⟨rfl, hrest⟩ := h
    cases fuel with
    | zero => simp at hfuel
    | succ fuel =>
      rw [findLast]
      by_cases hlt : start < (s.region slot).start
      · rw [if_pos hlt, List.takeWhile_cons_of_neg (by simpa using hlt)]
        rfl
      · rw [if_neg hlt, List.takeWhile_cons_of_pos (by simpa using hlt),
          ih hrest (by simpa using hfuel), List.getLast?_cons]
        cases (xs.takeWhile fun slot => (s.region slot).start ≤ start).getLast? <;> rfl

theorem link_spec (h : Spells s.next s.list xs) (hslot : slot ∉ xs) :
    ∃ last ys, s.findLast (s.region slot).start nslots s.list none = some last ∧
      Spells (s.link slot last).next (s.link slot last).list ys ∧
      (∀ x, x ∈ ys ↔ x = slot ∨ x ∈ xs) ∧
      ys.map s.region = insertRegion (s.region slot) (xs.map s.region) := by
  have hlength : xs.length ≤ nslots := by simpa using h.length_le
  generalize htake : xs.takeWhile (fun x => (s.region x).start ≤ (s.region slot).start) = before
  generalize hdrop : xs.dropWhile (fun x => (s.region x).start ≤ (s.region slot).start) = after
  have hsplit : before ++ after = xs := by
    rw [← htake, ← hdrop]
    exact List.takeWhile_append_dropWhile
  refine ⟨before.getLast?, before ++ slot :: after, ?_, ?_, fun x => ?_, ?_⟩
  · rw [findLast_eq h hlength, htake]
    cases before.getLast? <;> rfl
  · cases hlast : before.getLast? with
    | none =>
      obtain rfl : before = [] := List.getLast?_eq_none_iff.mp hlast
      rw [List.nil_append] at hsplit
      subst hsplit
      exact h.insertHead hslot
    | some last =>
      obtain ⟨ys, rfl⟩ := List.getLast?_eq_some_iff.mp hlast
      rw [← List.append_cons] at hsplit ⊢
      rw [← hsplit] at h hslot
      exact h.insert hslot
  · rw [← hsplit]
    simp only [List.mem_append, List.mem_cons]
    tauto
  · rw [insertRegion, List.takeWhile_map, List.dropWhile_map, List.map_append, List.map_cons,
      ← htake, ← hdrop]
    rfl

theorem pmmapInsert_spec (h : s.Listed xs) (hfree : s.nextFree < nslots) :
    ∃ s' ys, s.pmmapInsert r = some s' ∧ s'.Listed ys ∧
      ys.map s'.region = insertRegion r (xs.map s.region) ∧
      s'.nextFree = s.nextFree + 1 ∧ s'.sublist = s.sublist := by
  have hslot : (⟨s.nextFree, hfree⟩ : SlotId) ∉ xs := fun hmem =>
    Nat.lt_irrefl _ (h.used _ hmem)
  have hregion : ∀ x ∈ xs, update s.region ⟨s.nextFree, hfree⟩ r x = s.region x := by
    intro x hx
    refine update_of_ne ?_ _ _
    rintro rfl
    exact hslot hx
  obtain ⟨last, ys, hlast, hchain, hmem, hmap⟩ := link_spec
    (s := { s with
      nextFree := s.nextFree + 1
      region := update s.region ⟨s.nextFree, hfree⟩ r }) h.chain hslot
  simp only [update_self, List.map_congr_left hregion] at hlast hmap
  refine ⟨_, ys, ?_, ⟨hchain, fun x hx => ?_⟩, ?_, ?_, ?_⟩
  · rw [pmmapInsert, dif_pos hfree]
    dsimp only
    rw [hlast]
    rfl
  · have hnext : ∀ (t : Pmmap) slot, (t.link slot last).nextFree = t.nextFree := by
      intro t slot
      cases last <;> rfl
    rw [hnext]
    obtain rfl | hx := (hmem x).mp hx
    · exact Nat.lt_succ_self _
    · exact Nat.lt_succ_of_lt (h.used x hx)
  · cases last <;> exact hmap
  · cases last <;> rfl
  · cases last <;> rfl

def collect (rs : List Region) (es : List MbootMmap) : List Region :=
  es.foldl (fun rs e => if e.baseAddrHigh ≠ 0 then rs else insertRegion e.region rs) rs

def below4G (es : List MbootMmap) : List MbootMmap := es.filter fun e => e.baseAddrHigh = 0

theorem insertAll_spec {es : List MbootMmap} (h : s.Listed xs)
    (hroom : s.nextFree + (below4G es).length ≤ nslots) :
    ∃ s' ys, s.insertAll es = some s' ∧ s'.Listed ys ∧
      ys.map s'.region = collect (xs.map s.region) es ∧ s'.sublist = s.sublist := by
  induction es generalizing s xs with
  | nil => exact ⟨s, xs, rfl, h, rfl, rfl⟩
  | cons e es ih =>
    unfold below4G at hroom ih
    unfold collect at ih ⊢
    rw [insertAll, List.foldl_cons]
    by_cases hhigh : e.baseAddrHigh = 0
    · rw [List.filter_cons_of_pos (by simpa using hhigh), List.length_cons] at hroom
      obtain ⟨s₁, ys, hinsert, hlisted, hmap, hnext, hsub⟩ :=
        pmmapInsert_spec (r := e.region) h (by omega)
      obtain ⟨s', zs, hall, hlisted', hmap', hsub'⟩ := ih hlisted (by omega)
      rw [if_neg (not_not_intro hhigh), if_neg (not_not_intro hhigh), hinsert, ← hmap]
      exact ⟨s', zs, hall, hlisted', hmap', hsub'.trans hsub⟩
    · rw [List.filter_cons_of_neg (by simpa using hhigh)] at hroom
      rw [if_pos hhigh, if_pos hhigh]
      exact ih h hroom

def MergesTo (s : Pmmap) (p : Option SlotId) (xs : List SlotId) (result : Option Pmmap) : Prop :=
  ∃ region next ys, result = some { s with region := region, next := next } ∧
    Spells next p ys ∧ ys.Sublist xs ∧ ys.map region = mergeOnce (xs.map s.region) ∧
    ∀ x ∉ xs, region x = s.region x ∧ next x = s.next x

theorem mergeLoop_join {slot slot' : SlotId}
    (ih : ∀ {s : Pmmap} {p : Option SlotId} {xs : List SlotId}, Spells s.next p xs →
      xs.length ≤ fuel → s.MergesTo p xs (s.mergeLoop fuel p)) (hnotMem : slot ∉ slot' :: xs)
    (hnext : s.next slot = some slot') (hrest : Spells s.next (s.next slot') xs)
    (hfuel : xs.length + 1 ≤ fuel) (hjoins : (s.region slot).Joins (s.region slot')) :
    s.MergesTo (some slot) (slot :: slot' :: xs) (s.mergeLoop (fuel + 1) (some slot)) := by
  have hslot : ∀ x ∈ xs, x ≠ slot := by
    rintro x hx rfl
    exact hnotMem (List.mem_cons_of_mem slot' hx)
  let s₁ : Pmmap := { s with
    region := update s.region slot ((s.region slot).join (s.region slot'))
    next := update s.next slot (s.next slot') }
  have hchain : Spells s₁.next (s.next slot') xs :=
    hrest.congr fun x hx => update_of_ne (hslot x hx) _ _
  obtain ⟨region, next, ys, hloop, hspells, hsub, hmap, hother⟩ := ih hchain (by omega)
  have hregions : xs.map s₁.region = xs.map s.region :=
    List.map_congr_left fun x hx => update_of_ne (hslot x hx) _ _
  obtain ⟨hregionSlot, hnextSlot⟩ := hother slot fun hmem => hslot slot hmem rfl
  have hnext₁ : s₁.next slot = s.next slot' := update_self ..
  refine ⟨region, next, slot :: ys, ?_, ⟨rfl, ?_⟩, (hsub.cons slot').cons_cons slot, ?_,
    fun x hx => ?_⟩
  · rw [mergeLoop, hnext]
    dsimp only
    rw [if_pos hjoins]
    exact (congrArg (s₁.mergeLoop fuel) hnext₁).trans hloop
  · rw [hnextSlot, hnext₁]
    exact hspells
  · rw [List.map_cons, hmap, hregions, hregionSlot]
    simp only [List.map_cons, mergeOnce, if_pos hjoins, s₁, update_self]
  · rw [List.mem_cons, List.mem_cons, not_or, not_or] at hx
    obtain ⟨hregion, hnext⟩ := hother x hx.2.2
    rw [hregion, hnext]
    exact ⟨update_of_ne hx.1 _ _, update_of_ne hx.1 _ _⟩

theorem mergeLoop_spec {p : Option SlotId} (h : Spells s.next p xs) (hfuel : xs.length ≤ fuel) :
    s.MergesTo p xs (s.mergeLoop fuel p) := by
  induction fuel generalizing s p xs with
  | zero =>
    obtain rfl : xs = [] := List.length_eq_zero_iff.mp (Nat.le_zero.mp hfuel)
    obtain rfl : p = none := h
    exact ⟨s.region, s.next, [], rfl, rfl, .slnil, rfl, fun _ _ => ⟨rfl, rfl⟩⟩
  | succ fuel ih =>
    cases xs with
    | nil =>
      obtain rfl : p = none := h
      exact ⟨s.region, s.next, [], rfl, rfl, .slnil, rfl, fun _ _ => ⟨rfl, rfl⟩⟩
    | cons slot xs =>
      obtain ⟨hnotMem, -⟩ := List.nodup_cons.mp h.nodup
      obtain ⟨rfl, hrest⟩ := h
      cases xs with
      | nil =>
        have hnone : s.next slot = none := hrest
        refine ⟨s.region, s.next, [slot], ?_, ⟨rfl, hrest⟩, List.Sublist.refl _, rfl,
          fun _ _ => ⟨rfl, rfl⟩⟩
        rw [mergeLoop, hnone]
      | cons slot' xs =>
        obtain ⟨hnext, hrest'⟩ := id hrest
        by_cases hjoins : (s.region slot).Joins (s.region slot')
        · exact mergeLoop_join ih hnotMem hnext hrest' (by simpa using hfuel) hjoins
        · obtain ⟨region, next, ys, hloop, hspells, hsub, hmap, hother⟩ :=
            ih hrest (by simpa using hfuel)
          have hslot := hother slot hnotMem
          refine ⟨region, next, slot :: ys, ?_, ⟨rfl, ?_⟩, hsub.cons_cons slot, ?_,
            fun x hx => hother x fun hmem => hx (List.mem_cons_of_mem slot hmem)⟩
          · rw [mergeLoop, hnext]
            dsimp only
            rw [if_neg hjoins]
            rw [hnext] at hloop
            exact hloop
          · rw [hslot.2]
            exact hspells
          · rw [List.map_cons, hslot.1, hmap]
            simp only [List.map_cons, mergeOnce, if_neg hjoins]

def ofType (region : SlotId → Region) (type : PmmapType) (xs : List SlotId) : List SlotId :=
  xs.filter fun slot => pmmapSublistNr (region slot).type = some type

/-- The list of each type has the slots of that type, and `last_slot` is its last one. -/
structure Sublisted (s : Pmmap) (last : PmmapType → Option SlotId) (xs : List SlotId) : Prop where
  chain : ∀ type, Spells s.typeNext (s.sublist type) (ofType s.region type xs)
  last : ∀ type, last type = (ofType s.region type xs).getLast?

variable {last : PmmapType → Option SlotId} {slot : SlotId} {type : PmmapType}

theorem linkType_fields (type : PmmapType) (slot : SlotId) (p : Option SlotId) :
    (s.linkType type slot p).region = s.region ∧ (s.linkType type slot p).next = s.next ∧
      (s.linkType type slot p).list = s.list := by
  cases p <;> exact ⟨rfl, rfl, rfl⟩

theorem ofType_concat (region : SlotId → Region) (xs : List SlotId) (type' : PmmapType)
    (htype : pmmapSublistNr (region slot).type = some type) : ofType region type' (xs ++ [slot]) =
      if type' = type then ofType region type' xs ++ [slot] else ofType region type' xs := by
  unfold ofType
  rw [List.filter_append]
  by_cases heq : type' = type
  · simp [heq, htype]
  · simp [heq, htype, Ne.symm heq]

theorem linkType_other {type' : PmmapType} (h : s.Sublisted last xs) (hslot : slot ∉ xs)
    (hne : type' ≠ type) : Spells (s.linkType type slot (last type)).typeNext
        ((s.linkType type slot (last type)).sublist type') (ofType s.region type' xs) := by
  have hnot : ∀ x ∈ ofType s.region type' xs, x ≠ slot := by
    rintro x hx rfl
    exact hslot (List.mem_of_mem_filter hx)
  cases hlast : last type with
  | none =>
    have hsub : (s.linkType type slot none).sublist type' = s.sublist type' :=
      update_of_ne hne _ _
    rw [hsub]
    exact (h.chain type').congr fun x hx => update_of_ne (hnot x hx) _ _
  | some l =>
    have hl : l ∈ ofType s.region type xs := by
      apply List.mem_of_getLast?
      rw [← h.last type, hlast]
    have hnot' : ∀ x ∈ ofType s.region type' xs, x ≠ l := by
      rintro x hx rfl
      have htype' := of_decide_eq_true (List.mem_filter.mp hx).2
      have htype := of_decide_eq_true (List.mem_filter.mp hl).2
      exact hne (Option.some.inj (htype'.symm.trans htype))
    refine (h.chain type').congr fun x hx => ?_
    exact (update_of_ne (hnot' x hx) _ _).trans (update_of_ne (hnot x hx) _ _)

theorem linkType_self (h : s.Sublisted last xs) (hslot : slot ∉ xs) :
    Spells (s.linkType type slot (last type)).typeNext
      ((s.linkType type slot (last type)).sublist type) (ofType s.region type xs ++ [slot]) := by
  have hnot : slot ∉ ofType s.region type xs := fun hmem => hslot (List.mem_of_mem_filter hmem)
  have hchain := h.chain type
  have hlast := h.last type
  cases hl : last type with
  | none =>
    rw [hl] at hlast
    have hnil := List.getLast?_eq_none_iff.mp hlast.symm
    rw [hnil] at hchain hnot ⊢
    have hsub : (s.linkType type slot none).sublist type = some slot := update_self ..
    rw [hsub]
    exact hchain.insertHead hnot
  | some l =>
    rw [hl] at hlast
    obtain ⟨ys, hys⟩ := List.getLast?_eq_some_iff.mp hlast.symm
    rw [hys] at hchain hnot ⊢
    have hinsert := hchain.insert hnot
    rwa [List.append_cons] at hinsert

theorem Sublisted.linkType (h : s.Sublisted last xs) (hslot : slot ∉ xs)
    (htype : pmmapSublistNr (s.region slot).type = some type) :
    (s.linkType type slot (last type)).Sublisted (update last type (some slot)) (xs ++ [slot]) := by
  obtain ⟨hregion, -, -⟩ := linkType_fields (s := s) type slot (last type)
  refine ⟨fun type' => ?_, fun type' => ?_⟩
  · rw [hregion, ofType_concat s.region xs type' htype]
    split
    · next heq =>
      subst heq
      exact linkType_self h hslot
    · next hne => exact linkType_other h hslot hne
  · rw [hregion, ofType_concat s.region xs type' htype]
    split
    · next heq => simp [heq]
    · next hne => rw [update_of_ne hne, h.last type']

theorem sublistLoop_spec {p : Option SlotId} {ys : List SlotId} (hsub : s.Sublisted last ys)
    (h : Spells s.next p xs) (hnodup : (ys ++ xs).Nodup)
    (htypes : ∀ slot ∈ xs, (pmmapSublistNr (s.region slot).type).isSome = true)
    (hfuel : xs.length ≤ fuel) :
    ∃ s' last', s.sublistLoop last fuel p = some (s', last') ∧ s'.region = s.region ∧
      s'.next = s.next ∧ s'.list = s.list ∧ s'.Sublisted last' (ys ++ xs) := by
  induction xs generalizing s last fuel p ys with
  | nil =>
    obtain rfl : p = none := h
    refine ⟨s, last, ?_, rfl, rfl, rfl, by rwa [List.append_nil]⟩
    cases fuel <;> rfl
  | cons slot xs ih =>
    obtain ⟨rfl, hrest⟩ := h
    obtain ⟨type, htype⟩ := Option.isSome_iff_exists.mp (htypes slot List.mem_cons_self)
    have hslot : slot ∉ ys := by
      intro hmem
      exact (List.nodup_append.mp hnodup).2.2 slot hmem slot List.mem_cons_self rfl
    obtain ⟨hregion, hnext, hlist⟩ :=
      linkType_fields (s := s) type slot (last type)
    rw [List.append_cons] at hnodup
    cases fuel with
    | zero => simp at hfuel
    | succ fuel =>
      obtain ⟨s', last', hloop, hregion', hnext', hlist', hsub'⟩ :=
        ih (hsub.linkType hslot htype) (by rwa [hnext]) hnodup
          (fun x hx => by rw [hregion]; exact htypes x (List.mem_cons_of_mem slot hx))
          (by simpa using hfuel)
      refine ⟨s', last', ?_, hregion'.trans hregion, hnext'.trans hnext, hlist'.trans hlist, ?_⟩
      · rw [sublistLoop, htype]
        exact hloop
      · rwa [List.append_cons]

theorem pmmapMerge_spec (h : Spells s.next s.list xs) (hsub : s.sublist = fun _ => none)
    (htypes : ∀ r ∈ xs.map s.region, (pmmapSublistNr r.type).isSome = true) :
    ∃ s' ys, s.pmmapMerge = some s' ∧ Spells s'.next s'.list ys ∧
      ys.map s'.region = mergeOnce (xs.map s.region) ∧
      ∀ type, Spells s'.typeNext (s'.sublist type) (ofType s'.region type ys) := by
  have hlength : xs.length ≤ nslots := by simpa using h.length_le
  obtain ⟨region, next, ys, hloop, hchain, hys, hmap, -⟩ := mergeLoop_spec h hlength
  have hstart : Sublisted { s with region := region, next := next } (fun _ => none) [] :=
    ⟨fun type => congrFun hsub type, fun _ => rfl⟩
  have htypes' : ∀ slot ∈ ys, (pmmapSublistNr (region slot).type).isSome = true := by
    intro slot hslot
    have hmem : region slot ∈ mergeOnce (xs.map s.region) := by
      rw [← hmap]
      exact List.mem_map_of_mem hslot
    obtain ⟨r, hr, htype⟩ := type_of_mem_mergeOnce hmem
    rw [htype]
    exact htypes r hr
  have hfuel : ys.length ≤ nslots := hys.length_le.trans hlength
  obtain ⟨s', last', hloop', hregion, hnext, hlist, hsub'⟩ := sublistLoop_spec
    hstart hchain (by simpa using hchain.nodup) htypes' hfuel
  have hmerge : s.pmmapMerge = some (s'.setMaxUsable (last' .usable)) := by
    rw [pmmapMerge, mergeStep, hloop, Option.bind_some, sublistStep, hloop']
    rfl
  have hchain' : Spells s'.next s'.list ys := by
    rw [hnext, hlist]
    exact hchain
  have hmap' : ys.map s'.region = mergeOnce (xs.map s.region) := by
    rw [hregion]
    exact hmap
  rw [hmerge]
  cases last' .usable with
  | none => exact ⟨_, ys, rfl, hchain', hmap', hsub'.chain⟩
  | some slot => exact ⟨_, ys, rfl, hchain', hmap', hsub'.chain⟩

end Pmmap

/-! ## The map as a whole -/

namespace MbootMmap

variable (e : MbootMmap)

def base : ℕ := e.baseAddrHigh.toNat * 2 ^ 32 + e.baseAddrLow.toNat

def length : ℕ := e.lengthHigh.toNat * 2 ^ 32 + e.lengthLow.toNat

def Covers (a : ℕ) : Prop := e.base ≤ a ∧ a < min (e.base + e.length) 0xffffffff

instance (a : ℕ) : Decidable (e.Covers a) := inferInstanceAs (Decidable (_ ∧ _))

variable {e}

theorem toNat_high_eq_zero {w : BitVec 32} : w.toNat = 0 ↔ w = 0 :=
  ⟨fun h => BitVec.eq_of_toNat_eq h, fun h => by rw [h]; rfl⟩

theorem toNat_max_sub (w : BitVec 32) : (0xffffffff - w).toNat = 2 ^ 32 - 1 - w.toNat := by
  have hlt := w.isLt
  have hmax : (0xffffffff : BitVec 32).toNat = 2 ^ 32 - 1 := rfl
  rw [BitVec.toNat_sub, hmax]
  omega

theorem region_covers_iff (hhigh : e.baseAddrHigh = 0) (a : ℕ) :
    e.region.Covers a ↔ e.Covers a := by
  have hlow := e.baseAddrLow.isLt
  have hlength := e.lengthLow.isLt
  have hmax : (0xffffffff : BitVec 32).toNat = 2 ^ 32 - 1 := rfl
  have hsub := toNat_max_sub e.baseAddrLow
  have hnull : (0 : BitVec 32).toNat = 0 := rfl
  have hzero := toNat_high_eq_zero (w := e.lengthHigh)
  unfold Region.Covers MbootMmap.Covers base length region
  rw [hhigh]
  dsimp only
  split
  · next hlong =>
    rw [BitVec.le_def, hsub, ne_eq, ← hzero] at hlong
    rw [hmax, hnull]
    omega
  · next hshort =>
    rw [not_or, not_not, BitVec.not_le, BitVec.lt_def, hsub, ← hzero] at hshort
    rw [BitVec.toNat_add, hnull, hshort.1]
    omega

theorem not_covers (hhigh : e.baseAddrHigh ≠ 0) (a : ℕ) : ¬ e.Covers a := by
  have hpos : e.baseAddrHigh.toNat ≠ 0 := fun hzero => hhigh (toNat_high_eq_zero.mp hzero)
  unfold Covers base
  omega

theorem region_start_le : e.region.start ≤ e.region.stop := by
  have hlow := e.baseAddrLow.isLt
  have hmax : (0xffffffff : BitVec 32).toNat = 2 ^ 32 - 1 := rfl
  have hsub := toNat_max_sub e.baseAddrLow
  unfold region
  rw [BitVec.le_def]
  dsimp only
  split
  · rw [hmax]
    omega
  · next hshort =>
    rw [not_or, BitVec.not_le, BitVec.lt_def, hsub] at hshort
    rw [BitVec.toNat_add]
    omega

end MbootMmap

section Collect

variable {rs : List Region} {es : List MbootMmap}

open Pmmap

theorem mem_collect {r : Region} :
    r ∈ collect rs es ↔ r ∈ rs ∨ ∃ e ∈ es, e.baseAddrHigh = 0 ∧ r = e.region := by
  unfold collect
  induction es generalizing rs with
  | nil => simp
  | cons e es ih =>
    rw [List.foldl_cons, ih]
    by_cases hhigh : e.baseAddrHigh = 0
    · rw [if_neg (not_not_intro hhigh), mem_insertRegion]
      simp only [List.mem_cons, exists_eq_or_imp, hhigh, true_and]
      tauto
    · rw [if_pos hhigh]
      simp only [List.mem_cons, exists_eq_or_imp, hhigh, false_and, false_or]

theorem SortedRegions.collect (h : SortedRegions rs) : SortedRegions (collect rs es) := by
  unfold Pmmap.collect
  induction es generalizing rs with
  | nil => exact h
  | cons e es ih =>
    rw [List.foldl_cons]
    split
    · exact ih h
    · exact ih h.insertRegion

theorem covered_collect {type : BitVec 32} {a : ℕ} :
    Covered (collect [] es) type a ↔ ∃ e ∈ es, e.type = type ∧ e.Covers a := by
  unfold Covered
  constructor
  · rintro ⟨r, hr, htype, hcovers⟩
    obtain hr | ⟨e, he, hhigh, rfl⟩ := mem_collect.mp hr
    · cases hr
    · exact ⟨e, he, htype, (e.region_covers_iff hhigh a).mp hcovers⟩
  · rintro ⟨e, he, htype, hcovers⟩
    have hhigh : e.baseAddrHigh = 0 := by
      by_contra hne
      exact e.not_covers hne a hcovers
    exact ⟨e.region, mem_collect.mpr (.inr ⟨e, he, hhigh, rfl⟩), htype,
      (e.region_covers_iff hhigh a).mpr hcovers⟩

end Collect

structure Digestible (es : List MbootMmap) : Prop where
  few : (Pmmap.below4G es).length ≤ nslots
  types : ∀ e ∈ Pmmap.below4G es, 1 ≤ e.type.toNat ∧ e.type.toNat ≤ 4

theorem pmmapSublistNr_isSome {type : BitVec 32} :
    (pmmapSublistNr type).isSome = true ↔ 1 ≤ type.toNat ∧ type.toNat ≤ 4 := by
  simp only [pmmapSublistNr, ← BitVec.toNat_inj, BitVec.reduceToNat]
  split_ifs <;> simp <;> omega

namespace Pmmap

variable {es : List MbootMmap}

structure Made (es : List MbootMmap) (s : Pmmap) (xs : List SlotId) : Prop where
  chain : Spells s.next s.list xs
  regions : xs.map s.region = mergeOnce (collect [] es)
  sublists : ∀ type, Spells s.typeNext (s.sublist type) (ofType s.region type xs)
  nentries : s.nentries = xs.length

theorem pmmapInit_spec (h : Digestible es) : ∃ s xs, pmmapInit es = some s ∧ Made es s xs := by
  have hempty : empty.Listed [] := ⟨rfl, by simp⟩
  have hroom : empty.nextFree + (below4G es).length ≤ nslots := by simpa [empty] using h.few
  obtain ⟨s₁, ys, hall, hlisted, hmap, hsub⟩ := insertAll_spec hempty hroom
  have htypes : ∀ r ∈ ys.map s₁.region, (pmmapSublistNr r.type).isSome = true := by
    intro r hr
    rw [hmap] at hr
    obtain hr | ⟨e, he, hhigh, rfl⟩ := mem_collect.mp hr
    · cases hr
    · have hmem : e ∈ below4G es := List.mem_filter.mpr ⟨he, by simpa using hhigh⟩
      exact pmmapSublistNr_isSome.mpr (h.types e hmem)
  obtain ⟨s₂, xs, hmerge, hchain, hregions, hsublists⟩ := pmmapMerge_spec hlisted.chain hsub htypes
  have hlength : xs.length ≤ nslots := by simpa using hchain.length_le
  refine ⟨s₂.countEntries.setNpages, xs, ?_, hchain, hregions.trans (by rw [hmap]; rfl),
    hsublists, ?_⟩
  · rw [pmmapInit, hall, Option.bind_some, hmerge, Option.map_some]
  · exact congrArg List.length (hchain.walk_eq hlength)

end Pmmap

/-- **The memory map is digested faithfully.** Of at most 128 entries below 4G, all of the types
1 to 4, `pmmap_init` leaves a list that is sorted by the start of the regions, in which the
regions of each type have the addresses of the entries of that type, and the list of each type
has the slots of that type in the order of the list. -/
theorem memory_map_digested {es : List MbootMmap} (h : Digestible es) :
    ∃ s xs, Pmmap.pmmapInit es = some s ∧ Spells s.next s.list xs ∧
      SortedRegions (xs.map s.region) ∧
      (∀ type a, Covered (xs.map s.region) type a ↔ ∃ e ∈ es, e.type = type ∧ e.Covers a) ∧
      ∀ type, Spells s.typeNext (s.sublist type)
        (xs.filter fun slot => pmmapSublistNr (s.region slot).type = some type) := by
  obtain ⟨s, xs, hinit, hmade⟩ := Pmmap.pmmapInit_spec h
  have hsorted : SortedRegions (Pmmap.collect [] es) :=
    SortedRegions.collect List.Pairwise.nil
  refine ⟨s, xs, hinit, hmade.chain, ?_, fun type a => ?_, hmade.sublists⟩
  · rw [hmade.regions]
    exact hsorted.mergeOnce
  · rw [hmade.regions, Covered.mergeOnce_iff, covered_collect]

theorem memory_map_digested_of_four :
    ∃ s xs, Pmmap.pmmapInit [⟨0x1000, 0, 0x2000, 0, 1⟩, ⟨0x1800, 0, 0x100, 0, 2⟩,
        ⟨0x2000, 0, 0, 1, 1⟩, ⟨0, 1, 0x1000, 0, 9⟩] = some s ∧
      Spells s.next s.list xs ∧ SortedRegions (xs.map s.region) ∧
      Covered (xs.map s.region) 1 0x1000 ∧ ¬ Covered (xs.map s.region) 2 0x1000 := by
  have hdigestible : Digestible [⟨0x1000, 0, 0x2000, 0, 1⟩, ⟨0x1800, 0, 0x100, 0, 2⟩,
      ⟨0x2000, 0, 0, 1, 1⟩, ⟨0, 1, 0x1000, 0, 9⟩] := ⟨by decide, by decide⟩
  obtain ⟨s, xs, hinit, hchain, hsorted, hcovered, -⟩ := memory_map_digested hdigestible
  refine ⟨s, xs, hinit, hchain, hsorted, ?_, ?_⟩
  · rw [hcovered]
    exact ⟨_, List.mem_cons_self, rfl, by decide⟩
  · rw [hcovered]
    decide

end MCertikos.Pmm
