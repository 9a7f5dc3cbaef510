/-
# Segments of a list

The segments of a list are its maximal non-empty parts without a separator, in order.
-/

import Mathlib.Data.List.Basic
import Mathlib.Data.List.TakeWhile
import Mathlib.Algebra.Ring.Nat

namespace MCertikos.Math

variable {α : Type*} {p : α → Bool} {l seg : List α} {a : α}

def segments (p : α → Bool) (l : List α) : List (List α) :=
  (l.splitOnP p).filter fun seg => !seg.isEmpty

@[simp] theorem segments_nil : segments p [] = [] := rfl

theorem segments_cons_of_sep (ha : p a = true) : segments p (a :: l) = segments p l := by
  rw [segments, List.splitOnP_cons_eq_if_modifyHead, if_pos ha]
  rfl

theorem segments_dropWhile (p : α → Bool) (l : List α) :
    segments p (l.dropWhile p) = segments p l := by
  induction l with
  | nil => rfl
  | cons a l ih =>
    cases ha : p a with
    | true => rw [List.dropWhile_cons_of_pos ha, ih, segments_cons_of_sep ha]
    | false => rw [List.dropWhile_cons_of_neg (ha ▸ Bool.false_ne_true)]

theorem segments_append (hseg : ∀ a ∈ seg, p a = false) (hne : seg ≠ []) (ha : p a = true) :
    segments p (seg ++ a :: l) = seg :: segments p l := by
  have hempty : (!seg.isEmpty) = true := by simpa using hne
  rw [segments, List.splitOnP_append_cons seg l ha, List.splitOnP_eq_singleton hseg,
    List.filter_append, List.filter_singleton, hempty]
  rfl

theorem segments_of_no_sep (hseg : ∀ a ∈ seg, p a = false) (hne : seg ≠ []) :
    segments p seg = [seg] := by
  have hempty : (!seg.isEmpty) = true := by simpa using hne
  rw [segments, List.splitOnP_eq_singleton hseg, List.filter_singleton, hempty]
  rfl

/-- **The first segment** of a list that does not begin with a separator. -/
theorem segments_eq_cons (p : α → Bool) (ha : p a = false) : segments p (a :: l) =
      (a :: l).takeWhile (fun b => !p b) :: segments p ((a :: l).dropWhile fun b => !p b) := by
  have hseg : ∀ b ∈ (a :: l).takeWhile (fun b => !p b), p b = false := by
    intro b hb
    simpa using List.mem_takeWhile_imp hb
  have hne : (a :: l).takeWhile (fun b => !p b) ≠ [] := by
    rw [List.takeWhile_cons_of_pos (by simp [ha])]
    exact List.cons_ne_nil _ _
  have hsplit : segments p (a :: l) = segments p
      ((a :: l).takeWhile (fun b => !p b) ++ (a :: l).dropWhile fun b => !p b) := by
    rw [List.takeWhile_append_dropWhile]
  rw [hsplit]
  cases hrest : (a :: l).dropWhile (fun b => !p b) with
  | nil => rw [List.append_nil, segments_of_no_sep hseg hne, segments_nil]
  | cons b rest =>
    have hb : p b = true := by
      have hhead := List.head?_dropWhile_not (fun b => !p b) (a :: l)
      rw [hrest] at hhead
      simpa using hhead
    rw [segments_append hseg hne hb, segments_cons_of_sep hb]

end MCertikos.Math
