/-
# One pass of merging

Step 1 of `pmmap_merge` joins a region with its successor and then goes on behind the two: the
joined region is never compared with what follows it.
-/

import MCertikos.Pmm.MemMap
import Mathlib.Data.List.Chain

namespace MCertikos.Pmm

open Math

/-- Two regions of one type overlap, or the second starts where the first stops. -/
def Region.Touches (r r' : Region) : Prop := r.type = r'.type ∧ r'.start ≤ r.stop

instance (r r' : Region) : Decidable (r.Touches r') := inferInstanceAs (Decidable (_ ∧ _))

/-- No three neighbours form a chain: if the first two join, the third does not join them. -/
def NoChain : List Region → Prop
  | r :: r' :: r'' :: rs =>
    ¬ (r.Joins r' ∧ (r.join r').Joins r'') ∧ NoChain (r' :: r'' :: rs)
  | _ => True

section Regions

variable {r r' : Region} {rs : List Region}

theorem NoChain.tail (h : NoChain (r :: rs)) : NoChain rs := by
  cases rs with
  | nil => trivial
  | cons r' rs =>
    cases rs with
    | nil => trivial
    | cons r'' rs => exact h.2

theorem NoChain.cons (h : NoChain rs) (hhead : ∀ x ∈ rs.head?, ¬ r.Joins x) :
    NoChain (r :: rs) := by
  cases rs with
  | nil => trivial
  | cons r' rs =>
    cases rs with
    | nil => trivial
    | cons r'' rs => exact ⟨fun hjoins => hhead r' rfl hjoins.1, h⟩

/-- A pass leaves the start and the type of the first region as they are. -/
theorem forall_head?_mergeOnce :
    (∀ x ∈ (mergeOnce rs).head?, ¬ r.Joins x) ↔ ∀ x ∈ rs.head?, ¬ r.Joins x := by
  cases rs with
  | nil => rfl
  | cons a rs =>
    cases rs with
    | nil => rfl
    | cons b rs =>
      rw [mergeOnce]
      split
      · simp only [List.head?_cons, Option.mem_some_iff, forall_eq']
        rfl
      · rfl

theorem Region.Joins.join_left {x : Region} (h : r.Joins r') (hx : r'.Joins x) :
    (r.join r').Joins x := by
  refine ⟨BitVec.le_trans h.1 hx.1, BitVec.le_trans hx.2.1 ?_, h.2.2.trans hx.2.2⟩
  unfold Region.join
  split
  · next hlt => exact BitVec.le_of_lt hlt
  · exact BitVec.le_refl _

/-- A pass leaves neighbours that join just where three regions form a chain.  The first region
of the first chain was not joined with its predecessor, for that pair would begin a chain
before. -/
theorem isChain_mergeOnce_iff :
    ((mergeOnce rs).IsChain fun r r' => ¬ r.Joins r') ↔ NoChain rs := by
  induction rs using mergeOnce.induct with
  | case1 r r' rs hjoins ih =>
    rw [mergeOnce, if_pos hjoins, List.isChain_cons, forall_head?_mergeOnce, ih]
    constructor
    · rintro ⟨hhead, hno⟩
      have hrest : NoChain (r' :: rs) := hno.cons fun x hx hx' => hhead x hx (hjoins.join_left hx')
      cases rs with
      | nil => trivial
      | cons r'' rs => exact ⟨fun hchain => hhead r'' rfl hchain.2, hrest⟩
    · intro h
      refine ⟨fun x hx hx' => ?_, h.tail.tail⟩
      cases rs with
      | nil => cases hx
      | cons r'' rs =>
        obtain rfl : r'' = x := Option.some.inj hx
        exact h.1 ⟨hjoins, hx'⟩
  | case2 r r' rs hjoins ih =>
    rw [mergeOnce, if_neg hjoins, List.isChain_cons, forall_head?_mergeOnce, ih]
    have hhead : ∀ x ∈ (r' :: rs).head?, ¬ r.Joins x := by
      rintro x ⟨⟩
      exact hjoins
    exact ⟨fun h => h.2.cons hhead, fun h => ⟨hhead, h.tail⟩⟩
  | case3 rs hshort =>
    cases rs with
    | nil => exact iff_of_true .nil trivial
    | cons r rs =>
      cases rs with
      | nil => exact iff_of_true (.singleton r) trivial
      | cons r' rs => exact absurd rfl (hshort r r' rs)

theorem SortedRegions.isChain_not_touches (h : SortedRegions rs)
    (hjoins : rs.IsChain fun r r' => ¬ r.Joins r') : rs.IsChain fun r r' => ¬ r.Touches r' := by
  induction rs with
  | nil => exact .nil
  | cons r rs ih =>
    obtain ⟨hle, hsorted⟩ := List.pairwise_cons.mp h
    obtain ⟨hhead, htail⟩ := List.isChain_cons.mp hjoins
    refine (ih hsorted htail).cons fun x hx htouches => hhead x hx ?_
    exact ⟨hle x (List.mem_of_mem_head? hx), htouches.2, htouches.1⟩

end Regions

theorem Pmmap.mergeLoop_of_not_joins {s : Pmmap} {fuel : ℕ} {p : Option SlotId}
    {xs : List SlotId} (h : Spells s.next p xs) (hfuel : xs.length ≤ fuel)
    (hjoins : (xs.map s.region).IsChain fun r r' => ¬ r.Joins r') :
    s.mergeLoop fuel p = some s := by
  induction fuel generalizing p xs with
  | zero =>
    obtain rfl : xs = [] := List.length_eq_zero_iff.mp (Nat.le_zero.mp hfuel)
    obtain rfl : p = none := h
    rfl
  | succ fuel ih =>
    cases xs with
    | nil =>
      obtain rfl : p = none := h
      rfl
    | cons slot xs =>
      obtain ⟨rfl, hrest⟩ := h
      obtain ⟨hhead, htail⟩ := List.isChain_cons.mp hjoins
      have hloop := ih hrest (by simpa using hfuel) htail
      rw [mergeLoop]
      cases xs with
      | nil => rw [show s.next slot = none from hrest]
      | cons slot' xs =>
        have hnext : s.next slot = some slot' := hrest.1
        rw [hnext] at hloop ⊢
        dsimp only
        rw [if_neg (hhead _ rfl)]
        exact hloop

/-- **Merging reaches a fixed point just where no three regions form a chain.** For every list
that is sorted by start: only then after step 1 of `pmmap_merge` no neighbours of the same type
overlap or touch, and running it a second time changes nothing. -/
theorem merge_reaches_fixed_point {s : Pmmap} {xs : List SlotId}
    (hchain : Spells s.next s.list xs) (hsorted : SortedRegions (xs.map s.region)) :
    (∃ s' ys, s.mergeStep = some s' ∧ Spells s'.next s'.list ys ∧
      ((ys.map s'.region).IsChain fun r r' => ¬ r.Touches r') ∧ s'.mergeStep = some s') ↔
      NoChain (xs.map s.region) := by
  have hlength : xs.length ≤ nslots := by simpa using hchain.length_le
  obtain ⟨region, next, ys, hmerge, hspells, hsub, hmap, -⟩ :=
    Pmmap.mergeLoop_spec hchain hlength
  rw [← isChain_mergeOnce_iff, ← hmap]
  constructor
  · rintro ⟨s', zs, hmerge', hspells', hapart, -⟩
    obtain rfl := Option.some.inj (hmerge.symm.trans hmerge')
    obtain rfl : ys = zs := hspells.unique hspells'
    exact hapart.imp fun _ _ hnot hjoins => hnot ⟨hjoins.2.2, hjoins.2.1⟩
  · intro hjoins
    refine ⟨_, ys, hmerge, hspells, ?_, ?_⟩
    · refine SortedRegions.isChain_not_touches ?_ hjoins
      rw [hmap]
      exact hsorted.mergeOnce
    · exact Pmmap.mergeLoop_of_not_joins hspells (hsub.length_le.trans hlength) hjoins

theorem Pmmap.exists_inserted (es : List MbootMmap) (hfew : (Pmmap.below4G es).length ≤ nslots) :
    ∃ s xs, Pmmap.empty.insertAll es = some s ∧ Spells s.next s.list xs ∧
      xs.map s.region = Pmmap.collect [] es := by
  have hempty : Pmmap.empty.Listed [] := ⟨rfl, by simp⟩
  have hroom : Pmmap.empty.nextFree + (Pmmap.below4G es).length ≤ nslots := by
    simpa [Pmmap.empty] using hfew
  obtain ⟨s, xs, hall, hlisted, hmap, -⟩ := Pmmap.insertAll_spec hempty hroom
  exact ⟨s, xs, hall, hlisted.chain, hmap⟩

def MbootMmap.usable (base length : BitVec 32) : MbootMmap := ⟨base, 0, length, 0, 1⟩

theorem merge_reaches_fixed_point_of_pair :
    ∃ s s', Pmmap.empty.insertAll [.usable 1 1, .usable 0 1, .usable 4 1] = some s ∧
      s.mergeStep = some s' ∧ s'.mergeStep = some s' := by
  obtain ⟨s, xs, hall, hchain, hmap⟩ := Pmmap.exists_inserted
    [.usable 1 1, .usable 0 1, .usable 4 1] (by decide)
  have hregions : xs.map s.region = [⟨0, 1, 1⟩, ⟨1, 2, 1⟩, ⟨4, 5, 1⟩] := hmap.trans (by decide)
  have hsorted : SortedRegions (xs.map s.region) := by
    rw [hmap]
    exact SortedRegions.collect List.Pairwise.nil
  obtain ⟨s', ys, hmerge, -, -, hfixed⟩ := (merge_reaches_fixed_point hchain hsorted).mpr
    (by rw [hregions]; exact ⟨by decide, trivial⟩)
  exact ⟨s, s', hall, hmerge, hfixed⟩

/-- Of three regions that touch one after the other the pass joins the first two; the third one
touches them, and a second pass joins it too. -/
theorem merge_stops_behind_pair : ∃ (s : Pmmap) (xs : List SlotId), Spells s.next s.list xs ∧
      xs.map s.region = [⟨0, 1, 1⟩, ⟨1, 2, 1⟩, ⟨2, 3, 1⟩] ∧
      ∃ s' ys, s.mergeStep = some s' ∧ Spells s'.next s'.list ys ∧
        ys.map s'.region = [⟨0, 2, 1⟩, ⟨2, 3, 1⟩] ∧
        Region.Touches ⟨0, 2, 1⟩ ⟨2, 3, 1⟩ ∧ s'.mergeStep ≠ some s' := by
  obtain ⟨s, xs, -, hchain, hmap⟩ := Pmmap.exists_inserted
    [.usable 0 1, .usable 1 1, .usable 2 1] (by decide)
  have hregions : xs.map s.region = [⟨0, 1, 1⟩, ⟨1, 2, 1⟩, ⟨2, 3, 1⟩] := hmap.trans (by decide)
  obtain ⟨region, next, ys, hmerge, hspells, -, hmap', -⟩ :=
    Pmmap.mergeLoop_spec hchain (by simpa using hchain.length_le)
  have hleft : ys.map region = [⟨0, 2, 1⟩, ⟨2, 3, 1⟩] := by
    rw [hmap', hregions]
    decide
  let s' : Pmmap := { s with region := region, next := next }
  refine ⟨s, xs, hchain, hregions, s', ys, hmerge, hspells, hleft, by decide, fun hagain => ?_⟩
  -- A second pass leaves one region, so it does not leave the same list.
  have hlength : ys.length ≤ nslots := by simpa using hspells.length_le
  obtain ⟨region', next', zs, hmerge', hspells', -, hmap'', -⟩ :=
    Pmmap.mergeLoop_spec (s := s') hspells hlength
  have heq := Option.some.inj (hmerge'.symm.trans hagain)
  rw [Pmmap.mk.injEq] at heq
  obtain ⟨-, hnext, -⟩ := heq
  rw [hnext] at hspells'
  obtain rfl : zs = ys := hspells'.unique hspells
  have hone : zs.length = 1 := by
    rw [← List.length_map, hmap'', hleft]
    decide
  have htwo : zs.length = 2 := by
    rw [← List.length_map, hleft]
    rfl
  omega

end MCertikos.Pmm
