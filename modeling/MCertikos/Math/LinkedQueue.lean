/-
# Index-linked queues

A doubly linked queue whose links are stored outside the queue, in two fields of each member, with
one index standing for "no member".
-/

import Mathlib.Algebra.Ring.Nat
import Mathlib.Data.List.Nodup
import Mathlib.Data.List.Perm.Subperm
import Mathlib.Logic.Function.Basic
import Mathlib.Tactic.Common

namespace MCertikos.Math

open Function

universe u

structure Links (α : Type u) where
  head : α
  tail : α
  prev : α → α
  next : α → α

namespace Links

variable {α : Type u}

def Segment (L : Links α) : α → List α → α → Prop
  | _, [], _ => True
  | before, x :: rest, after =>
    L.prev x = before ∧ L.next x = rest.headD after ∧ Segment L x rest after

/-- The links spell the duplicate-free list `xs`, with `nil` as the missing
index. -/
structure Represents (nil : α) (L : Links α) (xs : List α) : Prop where
  nodup : xs.Nodup
  nil_not_mem : nil ∉ xs
  head_eq : L.head = xs.headD nil
  tail_eq : L.tail = xs.getLastD nil
  segment : L.Segment nil xs nil

def walk [DecidableEq α] (nil : α) (next : α → α) : ℕ → α → List α
  | 0, _ => []
  | fuel + 1, x => if x = nil then [] else x :: walk nil next fuel (next x)

/-- Look for the first index that passes a test, from an index on.  The outer
`none` is a loop that did not end within the fuel. -/
def search [DecidableEq α] (nil : α) (next : α → α) (test : α → Bool) : ℕ → α → Option (Option α)
  | 0, x => if x = nil then some none else none
  | fuel + 1, x =>
    if x = nil then some none
    else if test x then some (some x) else search nil next test fuel (next x)

theorem search_passes [DecidableEq α] {nil : α} {next : α → α} {test : α → Bool} {fuel : ℕ}
    {x y : α} (h : search nil next test fuel x = some (some y)) : test y = true := by
  induction fuel generalizing x with
  | zero =>
    unfold search at h
    split at h <;> cases h
  | succ fuel ih =>
    unfold search at h
    split_ifs at h with hnil htest
    · cases h
    · cases h
      exact htest
    · exact ih h

def pushBack [DecidableEq α] (nil : α) (L : Links α) (x : α) : Links α :=
  if L.tail = nil then
    { head := x, tail := x
      prev := update L.prev x nil
      next := update L.next x nil }
  else
    { head := L.head, tail := x
      prev := update L.prev x L.tail
      next := update (update L.next L.tail x) x nil }

def unlink [DecidableEq α] (nil : α) (L : Links α) (x : α) : Links α :=
  { head := if L.prev x = nil then L.next x else L.head
    tail := if L.next x = nil then L.prev x else L.tail
    prev := update
      (if L.next x = nil then L.prev else update L.prev (L.next x) (L.prev x)) x nil
    next := update
      (if L.prev x = nil then L.next else update L.next (L.prev x) (L.next x)) x nil }

theorem Segment.congr {L K : Links α} {before after : α} {xs : List α}
    (hagree : ∀ x ∈ xs, K.prev x = L.prev x ∧ K.next x = L.next x)
    (hseg : L.Segment before xs after) : K.Segment before xs after := by
  induction xs generalizing before with
  | nil => trivial
  | cons x rest ih =>
    obtain ⟨hprev, hnext, hrest⟩ := hseg
    obtain ⟨hp, hn⟩ := hagree x List.mem_cons_self
    exact ⟨hp.trans hprev, hn.trans hnext,
      ih (fun y hy => hagree y (List.mem_cons_of_mem _ hy)) hrest⟩

theorem segment_append {L : Links α} {before after : α} {xs ys : List α} :
    L.Segment before (xs ++ ys) after ↔
      L.Segment before xs (ys.headD after) ∧ L.Segment (xs.getLastD before) ys after := by
  induction xs generalizing before with
  | nil => simp [Segment]
  | cons x rest ih =>
    have hhead : (rest ++ ys).headD after = rest.headD (ys.headD after) := by
      cases rest <;> rfl
    have hlast : (x :: rest).getLastD before = rest.getLastD x := by
      cases rest <;> rfl
    simp only [List.cons_append, Segment, ih, hhead, hlast, and_assoc]

theorem segment_middle {L : Links α} {before after x : α} {xs ys : List α}
    (hseg : L.Segment before (xs ++ x :: ys) after) :
    L.prev x = xs.getLastD before ∧ L.next x = ys.headD after := by
  obtain ⟨-, hprev, hnext, -⟩ := segment_append.mp hseg
  exact ⟨hprev, hnext⟩

theorem Segment.relink_last {L K : Links α} {before after fresh y : α} {xs : List α}
    (hprev : ∀ x ∈ xs ++ [y], K.prev x = L.prev x)
    (hnext : ∀ x ∈ xs, K.next x = L.next x) (hlast : K.next y = fresh)
    (hseg : L.Segment before (xs ++ [y]) after) : K.Segment before (xs ++ [y]) fresh := by
  obtain ⟨hinit, hy, -, -⟩ := segment_append.mp hseg
  refine segment_append.mpr ⟨?_, ?_, hlast, trivial⟩
  · exact Segment.congr
      (fun x hx => ⟨hprev x (List.mem_append_left _ hx), hnext x hx⟩) hinit
  · rw [hprev y (by simp), hy]

theorem Segment.relink_first {L K : Links α} {before after fresh y : α} {ys : List α}
    (hprev : ∀ x ∈ ys, K.prev x = L.prev x)
    (hnext : ∀ x ∈ y :: ys, K.next x = L.next x) (hfirst : K.prev y = fresh)
    (hseg : L.Segment before (y :: ys) after) : K.Segment fresh (y :: ys) after := by
  obtain ⟨-, hy, hrest⟩ := hseg
  refine ⟨hfirst, (hnext y List.mem_cons_self).trans hy, ?_⟩
  exact Segment.congr
    (fun x hx => ⟨hprev x hx, hnext x (List.mem_cons_of_mem _ hx)⟩) hrest

section Reading

variable {nil : α} {L : Links α}

theorem represents_nil (hhead : L.head = nil) (htail : L.tail = nil) : Represents nil L [] :=
  ⟨List.nodup_nil, by simp, by simpa using hhead, by simpa using htail, trivial⟩

namespace Represents

variable {xs : List α}

theorem tail_eq_nil_iff (hrep : Represents nil L xs) : L.tail = nil ↔ xs = [] := by
  rw [hrep.tail_eq]
  rcases List.eq_nil_or_concat' xs with rfl | ⟨init, last, rfl⟩
  · simp
  · have hne : last ≠ nil := fun heq => hrep.nil_not_mem (heq ▸ by simp)
    simpa using hne

theorem tail_mem (hrep : Represents nil L xs) (htail : L.tail ≠ nil) : L.tail ∈ xs := by
  rcases List.eq_nil_or_concat' xs with rfl | ⟨init, last, rfl⟩
  · exact absurd (hrep.tail_eq_nil_iff.mpr rfl) htail
  · have hlast : L.tail = last := by simpa using hrep.tail_eq
    simp [hlast]

variable {ys : List α} {x : α}

theorem links_of_split (hrep : Represents nil L (xs ++ x :: ys)) :
    L.prev x = xs.getLastD nil ∧ L.next x = ys.headD nil :=
  segment_middle hrep.segment

theorem ne_of_split (hrep : Represents nil L (xs ++ x :: ys)) :
    (∀ y ∈ xs, y ≠ x) ∧ (∀ y ∈ ys, y ≠ x) ∧ ∀ a ∈ xs, ∀ b ∈ ys, a ≠ b := by
  obtain ⟨-, hnodup, hdisj⟩ := List.nodup_append.mp hrep.nodup
  refine ⟨fun y hy => hdisj y hy x List.mem_cons_self, ?_, ?_⟩
  · rintro y hy rfl
    exact (List.nodup_cons.mp hnodup).1 hy
  · intro a ha b hb
    exact hdisj a ha b (List.mem_cons_of_mem _ hb)

theorem nil_not_mem_of_split (hrep : Represents nil L (xs ++ x :: ys)) : nil ∉ xs ∧ nil ∉ ys :=
  ⟨fun h => hrep.nil_not_mem (List.mem_append_left _ h), fun h => hrep.nil_not_mem (by simp [h])⟩

theorem links_mem (hrep : Represents nil L xs) (hx : x ∈ xs) :
    (L.prev x ≠ nil → L.prev x ∈ xs) ∧ (L.next x ≠ nil → L.next x ∈ xs) := by
  obtain ⟨before, after, rfl⟩ := List.append_of_mem hx
  obtain ⟨hprev, hnext⟩ := hrep.links_of_split
  rw [hprev, hnext]
  constructor
  · intro hne
    rcases List.eq_nil_or_concat' before with rfl | ⟨init, last, rfl⟩
    · exact absurd rfl hne
    · simp
  · intro hne
    cases after with
    | nil => exact absurd rfl hne
    | cons y rest => simp

theorem prev_ne_next (hrep : Represents nil L (xs ++ x :: ys)) (hprev : L.prev x ≠ nil) :
    L.prev x ≠ L.next x := by
  obtain ⟨hp, hn⟩ := hrep.links_of_split
  rcases List.eq_nil_or_concat' xs with rfl | ⟨init, last, rfl⟩
  · exact absurd hp hprev
  · cases ys with
    | nil => rw [hn]; exact hprev
    | cons y rest =>
      have hdisj := (List.nodup_append.mp hrep.nodup).2.2
      rw [hp, hn]
      simpa using hdisj last (by simp) y (by simp)

end Represents

end Reading

section Operations

variable [DecidableEq α] {nil : α} {L : Links α}

theorem represents_unlink_of_detached {x : α} (hprev : L.prev x = nil)
    (hnext : L.next x = nil) : Represents nil (L.unlink nil x) [] :=
  represents_nil (by simp [unlink, hprev, hnext]) (by simp [unlink, hprev, hnext])

namespace Represents

variable {xs : List α} {x : α}

/-- Appending a new element. -/
theorem pushBack (hrep : Represents nil L xs) (hfresh : x ∉ xs) (hx : x ≠ nil) :
    Represents nil (L.pushBack nil x) (xs ++ [x]) := by
  have hnodup : (xs ++ [x]).Nodup := by
    rw [List.nodup_append]
    refine ⟨hrep.nodup, List.nodup_singleton x, ?_⟩
    intro a ha b hb
    rw [List.mem_singleton] at hb
    subst hb
    exact fun heq => hfresh (heq ▸ ha)
  have hmem : nil ∉ xs ++ [x] := by
    simp [hrep.nil_not_mem, Ne.symm hx]
  rcases List.eq_nil_or_concat' xs with rfl | ⟨init, last, rfl⟩
  · have htail : L.tail = nil := hrep.tail_eq_nil_iff.mpr rfl
    refine ⟨hnodup, hmem, ?_, ?_, ?_⟩ <;> simp [Links.pushBack, htail, Segment]
  · have htail : L.tail = last := by simpa using hrep.tail_eq
    have hlast : last ≠ nil := fun heq => hrep.nil_not_mem (heq ▸ by simp)
    have hne : x ≠ last := fun heq => hfresh (heq ▸ by simp)
    have hpush : L.pushBack nil x =
        { head := L.head, tail := x
          prev := update L.prev x last
          next := update (update L.next last x) x nil } := by
      rw [Links.pushBack, htail, if_neg hlast]
    have houter : ∀ y ∈ init ++ [last], y ≠ x := fun y hy heq => hfresh (heq ▸ hy)
    have hinner : ∀ y ∈ init, y ≠ last := by
      intro y hy heq
      have hdisj := (List.nodup_append.mp hrep.nodup).2.2
      exact hdisj y hy last (by simp) heq
    refine ⟨hnodup, hmem, ?_, ?_, segment_append.mpr ⟨?_, ?_⟩⟩
    · rw [hpush, hrep.head_eq]
      cases init <;> rfl
    · simp [hpush]
    · refine Segment.relink_last ?_ ?_ ?_ hrep.segment
      · intro y hy
        simp [hpush, houter y hy]
      · intro y hy
        simp [hpush, houter y (List.mem_append_left _ hy), hinner y hy]
      · simp [hpush, Ne.symm hne]
    · refine ⟨?_, ?_, trivial⟩ <;> simp [hpush]

theorem pushBack_frame {x y : α} (hrep : Represents nil L xs) (hne : y ≠ x) (hy : y ∉ xs) :
    (L.pushBack nil x).prev y = L.prev y ∧ (L.pushBack nil x).next y = L.next y := by
  unfold Links.pushBack
  by_cases htail : L.tail = nil
  · simp [htail, hne]
  · have hytail : y ≠ L.tail := fun heq => hy (heq ▸ hrep.tail_mem htail)
    simp [htail, hne, hytail]

variable {ys : List α}

section Unlink

variable (hrep : Represents nil L (xs ++ x :: ys))

include hrep

theorem unlink_head : (L.unlink nil x).head = (xs ++ ys).headD nil := by
  obtain ⟨hprev, hnext⟩ := hrep.links_of_split
  cases xs with
  | nil => simp [Links.unlink, hprev, hnext]
  | cons a rest =>
    have hne : (a :: rest).getLastD nil ≠ nil := by
      intro heq
      have hlast : rest.getLastD a ∈ a :: rest := List.getLastD_mem_cons
      rw [List.getLastD_cons] at heq
      exact hrep.nil_not_mem_of_split.1 (heq ▸ hlast)
    have hhead := hrep.head_eq
    simp only [List.cons_append, List.headD_cons] at hhead
    simp only [Links.unlink, hprev, if_neg hne, hhead, List.cons_append, List.headD_cons]

theorem unlink_tail : (L.unlink nil x).tail = (xs ++ ys).getLastD nil := by
  obtain ⟨hprev, hnext⟩ := hrep.links_of_split
  cases ys with
  | nil => simp [Links.unlink, hprev, hnext]
  | cons b rest =>
    have hne : b ≠ nil := fun heq => hrep.nil_not_mem_of_split.2 (heq ▸ List.mem_cons_self)
    have htail := hrep.tail_eq
    simp only [Links.unlink, hnext, List.headD_cons, if_neg hne, htail]
    simp [List.getLastD_eq_getLast?, List.getLast?_append, List.getLast?_cons_cons]

theorem unlink_before : (L.unlink nil x).Segment nil xs (ys.headD nil) := by
  obtain ⟨hprev, hnext⟩ := hrep.links_of_split
  obtain ⟨hx, -, hdisj⟩ := hrep.ne_of_split
  obtain ⟨hseg, -⟩ := segment_append.mp hrep.segment
  rcases List.eq_nil_or_concat' xs with rfl | ⟨init, last, rfl⟩
  · trivial
  · have hlast : last ≠ nil := fun heq => hrep.nil_not_mem_of_split.1 (heq ▸ by simp)
    have hinit : ∀ y ∈ init, y ≠ last := fun y hy heq =>
      (List.nodup_append.mp (List.nodup_append.mp hrep.nodup).1).2.2 y hy last (by simp) heq
    have hhead : ∀ y ∈ init ++ [last], ys.headD nil ≠ nil → y ≠ ys.headD nil := by
      intro y hy hne heq
      cases ys with
      | nil => exact hne rfl
      | cons b rest => exact hdisj y hy b List.mem_cons_self heq
    generalize ys.headD nil = first at hnext hhead ⊢
    refine Segment.relink_last ?_ ?_ ?_ hseg
    · intro y hy
      by_cases hne : first = nil
      · simp [Links.unlink, hnext, hne, hx y hy]
      · simp [Links.unlink, hnext, hne, hx y hy, hhead y hy hne]
    · intro y hy
      simp [Links.unlink, hprev, hlast, hx y (List.mem_append_left _ hy), hinit y hy]
    · simp [Links.unlink, hprev, hnext, hlast, hx last (by simp)]

theorem unlink_after : (L.unlink nil x).Segment (xs.getLastD nil) ys nil := by
  obtain ⟨hprev, hnext⟩ := hrep.links_of_split
  obtain ⟨-, hx, hdisj⟩ := hrep.ne_of_split
  obtain ⟨-, -, -, hseg⟩ := segment_append.mp hrep.segment
  cases ys with
  | nil => trivial
  | cons b rest =>
    have hb : b ≠ nil := fun heq => hrep.nil_not_mem_of_split.2 (heq ▸ List.mem_cons_self)
    have hnodup := (List.nodup_cons.mp (List.nodup_append.mp hrep.nodup).2.1).2
    have hrest : ∀ y ∈ rest, y ≠ b := fun y hy heq =>
      (List.nodup_cons.mp hnodup).1 (heq ▸ hy)
    have hlast : ∀ y ∈ b :: rest, xs.getLastD nil ≠ nil → y ≠ xs.getLastD nil := by
      intro y hy hne heq
      rcases List.eq_nil_or_concat' xs with rfl | ⟨init, last, rfl⟩
      · exact hne rfl
      · exact hdisj last (by simp) y hy (by simpa using heq.symm)
    generalize xs.getLastD nil = last at hprev hlast ⊢
    refine Segment.relink_first ?_ ?_ ?_ hseg
    · intro y hy
      simp [Links.unlink, hnext, hb, hx y (List.mem_cons_of_mem _ hy), hrest y hy]
    · intro y hy
      by_cases hne : last = nil
      · simp [Links.unlink, hprev, hne, hx y hy]
      · simp [Links.unlink, hprev, hne, hx y hy, hlast y hy hne]
    · simp [Links.unlink, hprev, hnext, hb, hx b List.mem_cons_self]

theorem unlink_split : Represents nil (L.unlink nil x) (xs ++ ys) where
  nodup := (List.nodup_middle.mp hrep.nodup).of_cons
  nil_not_mem := by
    obtain ⟨hleft, hright⟩ := hrep.nil_not_mem_of_split
    simp [hleft, hright]
  head_eq := hrep.unlink_head
  tail_eq := hrep.unlink_tail
  segment := segment_append.mpr ⟨hrep.unlink_before, hrep.unlink_after⟩

end Unlink

/-- Unlinking an element takes it out of the list. -/
theorem unlink (hrep : Represents nil L xs) (hx : x ∈ xs) :
    Represents nil (L.unlink nil x) (xs.erase x) := by
  obtain ⟨before, after, rfl⟩ := List.append_of_mem hx
  have hnot : x ∉ before := fun h =>
    (List.nodup_append.mp hrep.nodup).2.2 x h x List.mem_cons_self rfl
  rw [List.erase_append_right _ hnot, List.erase_cons_head]
  exact hrep.unlink_split

theorem unlink_frame {x y : α} (hrep : Represents nil L xs) (hx : x ∈ xs) (hy : y ∉ xs) :
    (L.unlink nil x).prev y = L.prev y ∧ (L.unlink nil x).next y = L.next y := by
  have hyx : y ≠ x := fun heq => hy (heq ▸ hx)
  obtain ⟨hprev, hnext⟩ := hrep.links_mem hx
  unfold Links.unlink
  constructor
  · by_cases h : L.next x = nil
    · simp [h, hyx]
    · have hn : y ≠ L.next x := fun heq => hy (heq ▸ hnext h)
      simp [h, hn, hyx]
  · by_cases h : L.prev x = nil
    · simp [h, hyx]
    · have hp : y ≠ L.prev x := fun heq => hy (heq ▸ hprev h)
      simp [h, hp, hyx]

omit [DecidableEq α] in
/-- Induction along the list, with fuel for each of its elements. -/
theorem along (hrep : Represents nil L xs) {motive : ℕ → α → List α → Prop}
    (done : ∀ fuel, motive fuel nil [])
    (step : ∀ fuel y rest, y ≠ nil → motive fuel (L.next y) rest → motive (fuel + 1) y (y :: rest))
    {fuel : ℕ} (hfuel : xs.length ≤ fuel) : motive fuel L.head xs := by
  have hgeneral : ∀ (ys : List α) (before : α) (fuel : ℕ), nil ∉ ys → ys.length ≤ fuel →
      L.Segment before ys nil → motive fuel (ys.headD nil) ys := by
    intro ys
    induction ys with
    | nil => exact fun _ fuel _ _ _ => done fuel
    | cons y rest ih =>
      intro before fuel hmem hlen hseg
      cases fuel with
      | zero => simp at hlen
      | succ fuel =>
        obtain ⟨-, hnext, hrest⟩ := hseg
        refine step fuel y rest (fun heq => hmem (heq ▸ List.mem_cons_self)) ?_
        rw [hnext]
        exact ih y fuel (fun h => hmem (List.mem_cons_of_mem _ h)) (by simpa using hlen) hrest
  rw [hrep.head_eq]
  exact hgeneral xs nil fuel hrep.nil_not_mem hfuel hrep.segment

theorem walk_head (hrep : Represents nil L xs) {fuel : ℕ} (hfuel : xs.length ≤ fuel) :
    walk nil L.next fuel L.head = xs := by
  refine hrep.along (motive := fun fuel x ys => walk nil L.next fuel x = ys) ?_ ?_ hfuel
  · intro fuel
    cases fuel <;> simp [walk]
  · intro fuel y rest hy htail
    rw [walk, if_neg hy, htail]

theorem search_head (hrep : Represents nil L xs) (test : α → Bool) {fuel : ℕ}
    (hfuel : xs.length ≤ fuel) : search nil L.next test fuel L.head = some (xs.find? test) := by
  refine hrep.along
    (motive := fun fuel x ys => search nil L.next test fuel x = some (ys.find? test)) ?_ ?_ hfuel
  · intro fuel
    cases fuel <;> simp [search]
  · intro fuel y rest hy htail
    rw [search, if_neg hy, htail]
    cases htest : test y <;> simp [htest]

theorem length_le_of_lt {K : Links ℕ} {n bound : ℕ} {xs : List ℕ} (hrep : Represents n K xs)
    (hlt : ∀ x ∈ xs, x < bound) : xs.length ≤ bound := by
  have hsub : xs ⊆ List.range bound := fun x hx => List.mem_range.mpr (hlt x hx)
  simpa using (List.subperm_of_subset hrep.nodup hsub).length_le

end Represents

end Operations

end Links

end MCertikos.Math
