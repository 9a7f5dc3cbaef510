/-
# Runs of partial deterministic machines

A machine reads one operation at a time and either refuses it or moves to a new state and emits
one output.
-/

import Mathlib.Algebra.Ring.Nat
import Mathlib.Data.List.Basic
import Mathlib.Tactic.Common

namespace MCertikos.Math

universe us ua ub

def Since {ε : Type ua} (p q : ε → Prop) (trace : List ε) : Prop :=
  ∃ before event after, trace = before ++ event :: after ∧ p event ∧ ∀ e ∈ after, ¬ q e

theorem not_since_nil {ε : Type ua} {p q : ε → Prop} : ¬ Since p q [] := by
  rintro ⟨before, event, after, heq, -⟩
  cases before <;> cases heq

theorem since_concat {ε : Type ua} {p q : ε → Prop} {trace : List ε} {event : ε} :
    Since p q (trace ++ [event]) ↔ p event ∨ (Since p q trace ∧ ¬ q event) := by
  constructor
  · rintro ⟨before, e, after, heq, hp, hnone⟩
    obtain rfl | ⟨init, last, rfl⟩ := List.eq_nil_or_concat after
    · obtain ⟨-, hlast⟩ := List.append_inj' heq rfl
      obtain rfl := List.singleton_inj.mp hlast
      exact Or.inl hp
    · rw [List.concat_eq_append] at heq hnone
      rw [← List.cons_append, ← List.append_assoc] at heq
      obtain ⟨rfl, hlast⟩ := List.append_inj' heq rfl
      obtain rfl := List.singleton_inj.mp hlast
      exact Or.inr ⟨⟨before, e, init, rfl, hp, fun x hx => hnone x (List.mem_append_left _ hx)⟩,
        hnone _ (List.mem_append_right _ (List.mem_singleton_self _))⟩
  · rintro (hp | ⟨⟨before, e, after, rfl, hp, hnone⟩, hq⟩)
    · exact ⟨trace, event, [], rfl, hp, by simp⟩
    · refine ⟨before, e, after ++ [event], by simp, hp, fun x hx => ?_⟩
      obtain hx | hx := List.mem_append.mp hx
      · exact hnone x hx
      · rw [List.mem_singleton.mp hx]
        exact hq

/-- A partial deterministic machine over states `σ`, operations `α` and outputs
`β`. -/
structure Machine (σ : Type us) (α : Type ua) (β : Type ub) where
  /-- One step; `none` when the operation is not enabled or does not finish. -/
  exec : σ → α → Option (σ × β)

namespace Machine

variable {σ : Type us} {α : Type ua} {β : Type ub} (M : Machine σ α β)

def anyStep : σ → α → Prop := fun _ _ => True

instance (s : σ) (op : α) : Decidable (anyStep s op) := isTrue trivial

/-- An execution.  The trace lists each operation with the output it produced, oldest first, and
every step met the guard in the state it was taken from. -/
inductive Run (guard : σ → α → Prop) (first : σ) : List (α × β) → σ → Prop
  | start : Run guard first [] first
  | extend {middle last : σ} {trace : List (α × β)} {op : α} {out : β}
      (prior : Run guard first trace middle) (admitted : guard middle op)
      (realized : M.exec middle op = some (last, out)) :
      Run guard first (trace ++ [(op, out)]) last

def Reachable (guard : σ → α → Prop) (init state : σ) : Prop :=
  ∃ trace, M.Run guard init trace state

variable {M} {guard : σ → α → Prop} {first last : σ}

theorem Run.single {op : α} {out : β} (admitted : guard first op)
    (realized : M.exec first op = some (last, out)) : M.Run guard first [(op, out)] last := by
  simpa using Run.extend Run.start admitted realized

theorem Run.trans {first middle last : σ} {before after : List (α × β)}
    (hfirst : M.Run guard first before middle) (hsecond : M.Run guard middle after last) :
    M.Run guard first (before ++ after) last := by
  induction hsecond with
  | start => simpa using hfirst
  | extend prior admitted realized ih =>
    rw [← List.append_assoc]
    exact ih.extend admitted realized

variable {trace : List (α × β)}

theorem Run.weaken {weaker : σ → α → Prop} (himp : ∀ s op, guard s op → weaker s op)
    (run : M.Run guard first trace last) : M.Run weaker first trace last := by
  induction run with
  | start => exact .start
  | extend prior admitted realized ih => exact ih.extend (himp _ _ admitted) realized

/-- **The invariant rule.** A predicate that holds at the start and is kept by
every admitted step holds at the end of every run. -/
theorem Run.invariant {inv : σ → Prop} (run : M.Run guard first trace last) (init : inv first)
    (step : ∀ {s t : σ} {op : α} {out : β}, inv s → guard s op →
      M.exec s op = some (t, out) → inv t) : inv last := by
  induction run with
  | start => exact init
  | extend prior admitted realized ih => exact step ih admitted realized

theorem Run.invariant_trace {inv : List (α × β) → σ → Prop} (run : M.Run guard first trace last)
    (init : inv [] first)
    (step : ∀ {past : List (α × β)} {s t : σ} {op : α} {out : β}, inv past s →
      guard s op → M.exec s op = some (t, out) → inv (past ++ [(op, out)]) t) : inv trace last := by
  induction run with
  | start => exact init
  | extend prior admitted realized ih => exact step ih admitted realized

theorem Reachable.trans {init middle last : σ} (hreach : M.Reachable guard init middle)
    (run : M.Run guard middle trace last) : M.Reachable guard init last := by
  obtain ⟨past, hpast⟩ := hreach
  exact ⟨past ++ trace, hpast.trans run⟩

variable (M) in
def runAll : σ → List α → Option (σ × List β)
  | state, [] => some (state, [])
  | state, op :: ops =>
    match M.exec state op with
    | none => none
    | some (next, out) =>
      match runAll next ops with
      | none => none
      | some (last, outs) => some (last, out :: outs)

theorem run_of_runAll {ops : List α} {outs : List β} (hguard : ∀ op ∈ ops, ∀ s, guard s op)
    (hrun : M.runAll first ops = some (last, outs)) : M.Run guard first (ops.zip outs) last := by
  induction ops generalizing first outs with
  | nil =>
    simp only [runAll, Option.some.injEq, Prod.mk.injEq] at hrun
    obtain ⟨rfl, rfl⟩ := hrun
    exact .start
  | cons op ops ih =>
    rw [runAll] at hrun
    split at hrun
    · cases hrun
    · next next out hstep =>
      split at hrun
      · cases hrun
      · next final rest hrest =>
        simp only [Option.some.injEq, Prod.mk.injEq] at hrun
        obtain ⟨rfl, rfl⟩ := hrun
        have hfirst : M.Run guard first [(op, out)] next :=
          Run.single (hguard op List.mem_cons_self first) hstep
        exact hfirst.trans
          (ih (fun op hop => hguard op (List.mem_cons_of_mem _ hop)) hrest)

variable (M) in
/-- The machine that also shows the states before and after each step, for counting
along a run what no single output shows. -/
def observed : Machine σ α (σ × β × σ) where
  exec s op := (M.exec s op).map fun (t, out) => (t, s, out, t)

def unobserved (trace : List (α × σ × β × σ)) : List (α × β) :=
  trace.map fun event => (event.1, event.2.2.1)

theorem observed_exec {s t : σ} {op : α} {event : σ × β × σ}
    (hexec : M.observed.exec s op = some (t, event)) :
    ∃ out, event = (s, out, t) ∧ M.exec s op = some (t, out) := by
  obtain ⟨⟨u, out⟩, hstep, heq⟩ := Option.map_eq_some_iff.mp hexec
  obtain ⟨rfl, rfl⟩ := Prod.mk.inj heq
  exact ⟨out, rfl, hstep⟩

theorem Run.unobserved {trace : List (α × σ × β × σ)}
    (run : M.observed.Run guard first trace last) :
    M.Run guard first (Machine.unobserved trace) last := by
  induction run with
  | start => exact .start
  | extend prior admitted realized ih =>
    obtain ⟨out, rfl, hstep⟩ := observed_exec realized
    rw [Machine.unobserved, List.map_append]
    exact ih.extend admitted hstep

section Guarded

variable (M) (guard) [∀ s op, Decidable (guard s op)]

def guarded : Machine σ α β where
  exec s op := if guard s op then M.exec s op else none

variable {M guard}

theorem Run.of_guarded {weaker : σ → α → Prop} {first last : σ} {trace : List (α × β)}
    (run : (M.guarded guard).Run weaker first trace last) : M.Run guard first trace last := by
  induction run with
  | start => exact .start
  | extend prior _ realized ih =>
    obtain ⟨admitted, hexec⟩ := (Option.ite_none_right_eq_some).mp realized
    exact ih.extend admitted hexec

theorem run_of_guarded {first last : σ} {ops : List α} {outs : List β}
    (hrun : (M.guarded guard).runAll first ops = some (last, outs)) :
    M.Run guard first (ops.zip outs) last := by
  have hany : (M.guarded guard).Run anyStep first (ops.zip outs) last :=
    run_of_runAll (fun _ _ _ => trivial) hrun
  exact hany.of_guarded

end Guarded

end Machine

end MCertikos.Math
