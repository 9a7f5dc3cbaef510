/-
# Refinement of machines

A machine refines a specification when each of its steps can be read as a list of events of the
specification, and the specification accepts them.
-/

import MCertikos.Math.Run

namespace MCertikos.Math

universe us ua ub ut ue

namespace Machine

variable {σ : Type us} {α : Type ua} {β : Type ub} {τ : Type ut} {ε : Type ue}
  (M : Machine σ α β) (events : σ → α → β → List ε)

def logged : Machine (σ × List ε) α β where
  exec s op := (M.exec s.1 op).map fun (t, out) => ((t, s.2 ++ events s.1 op out), out)

variable {M events} {guard : σ → α → Prop}

theorem logged_cases {s t : σ × List ε} {op : α} {out : β}
    (hexec : (M.logged events).exec s op = some (t, out)) :
    M.exec s.1 op = some (t.1, out) ∧ t.2 = s.2 ++ events s.1 op out := by
  simp only [logged, Option.map_eq_some_iff, Prod.mk.injEq] at hexec
  obtain ⟨⟨t', out'⟩, hstep, rfl, rfl⟩ := hexec
  exact ⟨hstep, rfl⟩

variable {trace : List (α × β)}

theorem Run.of_logged {first last : σ × List ε}
    (run : (M.logged events).Run (fun s op => guard s.1 op) first trace last) :
    M.Run guard first.1 trace last.1 := by
  induction run with
  | start => exact .start
  | extend prior admitted realized ih => exact ih.extend admitted (logged_cases realized).1

/-- **The refinement rule.** If every admitted step is matched by a run of the specification over
its events, then the specification accepts the log of every run. -/
theorem Run.refines {A : Machine τ ε Unit} {inv : σ → Prop} {first last : σ × List ε}
    (run : (M.logged events).Run (fun s op => guard s.1 op) first trace last) (abs : σ → τ)
    (hempty : first.2 = []) (hinv : ∀ {trace t}, M.Run guard first.1 trace t → inv t)
    (hstep : ∀ {s t op out}, inv s → guard s op → M.exec s op = some (t, out) →
      A.Run anyStep (abs s) ((events s op out).map fun event => (event, ())) (abs t)) :
    A.Run anyStep (abs first.1) (last.2.map fun event => (event, ())) (abs last.1) := by
  induction run with
  | start =>
    rw [hempty]
    exact .start
  | extend prior admitted realized ih =>
    obtain ⟨hexec, hlog⟩ := logged_cases realized
    rw [hlog, List.map_append]
    exact ih.trans (hstep (hinv prior.of_logged) admitted hexec)

end Machine

end MCertikos.Math
