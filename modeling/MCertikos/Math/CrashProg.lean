/-
# Programs over a disk that may lose power

A program reads and writes the cells of a disk, returns a value, or halts.
-/

import Mathlib.Algebra.Ring.Nat
import Mathlib.Logic.Function.Basic
import Mathlib.Data.List.Basic
import Mathlib.Data.Nat.Notation
import Mathlib.Tactic.Common

namespace MCertikos.Math

open Function

inductive Prog (A V : Type) (α : Type)
  | ret (value : α)
  | read (addr : A) (next : V → Prog A V α)
  | write (addr : A) (value : V) (next : Prog A V α)
  | halt

namespace Prog

variable {A V α β ι : Type}

def bind : Prog A V α → (α → Prog A V β) → Prog A V β
  | ret value, k => k value
  | read addr next, k => read addr fun value => (next value).bind k
  | write addr value next, k => write addr value (next.bind k)
  | halt, _ => halt

instance : Monad (Prog A V) where
  pure := ret
  bind := bind

def fetch (addr : A) : Prog A V V := read addr ret

def store (addr : A) (value : V) : Prog A V Unit := write addr value (ret ())

def loop (body : ℕ → Prog A V Unit) (first : ℕ) : ℕ → Prog A V Unit
  | 0 => ret ()
  | count + 1 => (body first).bind fun _ => loop body (first + 1) count

variable [DecidableEq A]

def run : Prog A V α → (A → V) → Option (α × (A → V))
  | ret value, disk => some (value, disk)
  | read addr next, disk => (next (disk addr)).run disk
  | write addr value next, disk => next.run (update disk addr value)
  | halt, _ => none

theorem run_bind (p : Prog A V α) (k : α → Prog A V β) (disk : A → V) :
    (p.bind k).run disk = (p.run disk).bind fun r => (k r.1).run r.2 := by
  induction p generalizing disk with
  | ret value => rfl
  | read addr next ih => exact ih _ _
  | write addr value next ih => exact ih _
  | halt => rfl

variable {body : ℕ → Prog A V Unit}

theorem run_loop {turn : (A → V) → ℕ → A → V} (first count : ℕ)
    (hbody : ∀ i disk, (body i).run disk = some ((), turn disk i)) (disk : A → V) :
    (loop body first count).run disk = some ((), (List.range' first count).foldl turn disk) := by
  induction count generalizing first disk with
  | zero => rfl
  | succ count ih =>
    rw [loop, run_bind, hbody, Option.bind_some, ih, List.range'_succ, List.foldl_cons]

def CrashesTo : Prog A V α → (A → V) → (A → V) → Prop
  | ret _, disk, left => left = disk
  | read addr next, disk, left => (next (disk addr)).CrashesTo disk left
  | write addr value next, disk, left =>
    left = disk ∨ next.CrashesTo (update disk addr value) left
  | halt, disk, left => left = disk

inductive RecoversTo (recovery : Prog A V α) : (A → V) → (A → V) → Prop
  | complete {disk last : A → V} {value : α} (hrun : recovery.run disk = some (value, last)) :
      RecoversTo recovery disk last
  | restart {disk left last : A → V} (hcrash : recovery.CrashesTo disk left)
      (hrest : RecoversTo recovery left last) : RecoversTo recovery disk last

/-! ## Weakest preconditions -/

/-- The program leaves only disks that satisfy `crash`, ends with `post` if it ends, and halts
only under `stuck`. -/
def wp (stuck : Prop) (crash : (A → V) → Prop) (post : α → (A → V) → Prop) :
    Prog A V α → (A → V) → Prop
  | ret value, disk => crash disk ∧ post value disk
  | read addr next, disk => (next (disk addr)).wp stuck crash post disk
  | write addr value next, disk =>
    crash disk ∧ next.wp stuck crash post (update disk addr value)
  | halt, disk => crash disk ∧ stuck

variable {stuck : Prop} {crash : (A → V) → Prop} {post : α → (A → V) → Prop}
  {p : Prog A V α} {disk last : A → V}

theorem wp_bind {k : α → Prog A V β} {post : β → (A → V) → Prop}
    (h : p.wp stuck crash (fun value => (k value).wp stuck crash post) disk) :
    (p.bind k).wp stuck crash post disk := by
  induction p generalizing disk with
  | ret value => exact h.2
  | read addr next ih => exact ih _ h
  | write addr value next ih => exact ⟨h.1, ih h.2⟩
  | halt => exact h

theorem wp_mono {crash' : (A → V) → Prop} {post' : α → (A → V) → Prop}
    (h : p.wp stuck crash post disk) (hcrash : ∀ left, crash left → crash' left)
    (hpost : ∀ value last, post value last → post' value last) : p.wp stuck crash' post' disk := by
  induction p generalizing disk with
  | ret value => exact ⟨hcrash _ h.1, hpost _ _ h.2⟩
  | read addr next ih => exact ih _ h
  | write addr value next ih => exact ⟨hcrash _ h.1, ih h.2⟩
  | halt => exact ⟨hcrash _ h.1, h.2⟩

theorem wp_loop (inv : ℕ → (A → V) → Prop) {first count : ℕ} (hinv : inv first disk)
    (hcrash : ∀ i disk, inv i disk → crash disk)
    (hbody : ∀ i disk, first ≤ i → i < first + count → inv i disk →
      (body i).wp stuck crash (fun _ => inv (i + 1)) disk) :
    (loop body first count).wp stuck crash (fun _ => inv (first + count)) disk := by
  induction count generalizing first disk with
  | zero => exact ⟨hcrash _ _ hinv, hinv⟩
  | succ count ih =>
    apply wp_bind
    refine wp_mono (hbody first disk (by omega) (by omega) hinv) (fun _ h => h) ?_
    intro _ last hlast
    rw [show first + (count + 1) = first + 1 + count by omega]
    exact ih hlast fun i disk hfirst hi => hbody i disk (by omega) (by omega)

/-! ## Soundness -/

theorem crash_of_crashesTo (h : p.wp stuck crash post disk) (hcrash : p.CrashesTo disk last) :
    crash last := by
  induction p generalizing disk with
  | ret value => exact hcrash ▸ h.1
  | read addr next ih => exact ih _ h hcrash
  | write addr value next ih =>
    obtain rfl | hcrash := hcrash
    · exact h.1
    · exact ih h.2 hcrash
  | halt => exact hcrash ▸ h.1

theorem post_of_run (h : p.wp stuck crash post disk) {value : α}
    (hrun : p.run disk = some (value, last)) : post value last := by
  induction p generalizing disk with
  | ret value =>
    obtain ⟨rfl, rfl⟩ := Prod.mk.inj (Option.some.inj hrun)
    exact h.2
  | read addr next ih => exact ih _ h hrun
  | write addr value next ih => exact ih h.2 hrun
  | halt => cases hrun

theorem run_of_not_stuck (h : p.wp stuck crash post disk) (hstuck : ¬ stuck) :
    ∃ value last, p.run disk = some (value, last) := by
  induction p generalizing disk with
  | ret value => exact ⟨value, disk, rfl⟩
  | read addr next ih => exact ih _ h
  | write addr value next ih => exact ih h.2
  | halt => exact absurd h.2 hstuck

/-- **The recovery rule.** A crash condition that recovery keeps leads to its postcondition
through any number of power failures. -/
theorem post_of_recoversTo {post : (A → V) → Prop} (hrecover : p.RecoversTo disk last)
    (hwp : ∀ disk, crash disk → p.wp stuck crash (fun _ => post) disk) (hdisk : crash disk) :
    post last := by
  induction hrecover with
  | complete hrun => exact post_of_run (hwp _ hdisk) hrun
  | restart hcrash _ ih => exact ih (crash_of_crashesTo (hwp _ hdisk) hcrash)

end Prog

end MCertikos.Math
