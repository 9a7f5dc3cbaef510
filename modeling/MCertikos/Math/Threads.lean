/-
# Threads that run resumable programs

Any number of threads run programs on one shared state.
-/

import MCertikos.Math.Run
import MCertikos.Math.Task
import Mathlib.Logic.Function.Basic

namespace MCertikos.Math

open Function

universe u

/-- The programs of the calls, the effect of their actions, and the interrupt handlers. -/
structure System (I : Interface.{u}) (ω ι β σ χ η : Type u) where
  program : ω → Task I β
  act : Semantics I σ χ η
  /-- The new state and the channels that the handler wakes. -/
  intr : ι → σ → σ × List χ

structure Threads (I : Interface.{u}) (ω β σ : Type u) where
  running : ℕ → Option (ω × Task I β)
  state : σ

inductive ThreadOp (ω ι : Type u)
  | start (pid : ℕ) (args : ω)
  | act (pid : ℕ)
  | intr (irq : ι)

variable {I : Interface.{u}} {ω ι β σ χ η τ : Type u}

def Threads.boot (s : σ) : Threads I ω β σ := ⟨fun _ => none, s⟩

namespace System

variable (sys : System I ω ι β σ χ η)

def exec (k : Threads I ω β σ) : ThreadOp ω ι → Option (Threads I ω β σ × Option β)
  | .start pid args =>
    match k.running pid with
    | none =>
      some (⟨update k.running pid (some (args, sys.program args)), k.state⟩, none)
    | some _ => none
  | .act pid =>
    match k.running pid with
    | none => none
    | some (_, .ret value) => some (⟨update k.running pid none, k.state⟩, some value)
    | some (args, .act a next) =>
      match sys.act pid a k.state with
      | .done s _ r => some (⟨update k.running pid (some (args, next r)), s⟩, none)
      | .wait _ => none
      | .halt _ => none
  | .intr irq => some (⟨k.running, (sys.intr irq k.state).1⟩, none)

def machine : Machine (Threads I ω β σ) (ThreadOp ω ι) (Option β) := ⟨sys.exec⟩

inductive Step (k : Threads I ω β σ) : ThreadOp ω ι → Threads I ω β σ → Prop
  | start {pid : ℕ} {args : ω} (hrun : k.running pid = none) :
      Step k (.start pid args)
        ⟨update k.running pid (some (args, sys.program args)), k.state⟩
  | ret {pid : ℕ} {args : ω} {value : β} (hrun : k.running pid = some (args, .ret value)) :
      Step k (.act pid) ⟨update k.running pid none, k.state⟩
  | act {pid : ℕ} {args : ω} {a : I.Act} {next : I.Res a → Task I β} {s : σ}
      {wakes : List χ} {r : I.Res a} (hrun : k.running pid = some (args, .act a next))
      (hact : sys.act pid a k.state = .done s wakes r) :
      Step k (.act pid) ⟨update k.running pid (some (args, next r)), s⟩
  | intr {irq : ι} : Step k (.intr irq) ⟨k.running, (sys.intr irq k.state).1⟩

variable {sys}

theorem step_of_exec {k next : Threads I ω β σ} {op : ThreadOp ω ι} {out : Option β}
    (hexec : sys.machine.exec k op = some (next, out)) : sys.Step k op next := by
  cases op with
  | start pid args =>
    simp only [machine, exec] at hexec
    split at hexec
    · next hrun =>
      cases hexec
      exact .start hrun
    · cases hexec
  | act pid =>
    simp only [machine, exec] at hexec
    split at hexec
    · cases hexec
    · next hrun =>
      cases hexec
      exact .ret hrun
    · next hrun =>
      split at hexec
      · next hact =>
        cases hexec
        exact .act hrun hact
      · cases hexec
      · cases hexec
  | intr irq =>
    cases hexec
    exact .intr

/-! ## Programs that run up to where they wait -/

def By (pid : ℕ) (_ : Threads I ω β σ) : ThreadOp ω ι → Prop
  | .start p _ => p = pid
  | .act p => p = pid
  | .intr _ => True

instance {pid : ℕ} (k : Threads I ω β σ) : (op : ThreadOp ω ι) → Decidable (By pid k op)
  | .start p _ => inferInstanceAs (Decidable (p = pid))
  | .act p => inferInstanceAs (Decidable (p = pid))
  | .intr _ => isTrue trivial

theorem running_of_by {guard : Threads I ω β σ → ThreadOp ω ι → Prop} {pid : ℕ}
    {k k' : Threads I ω β σ} {trace : List (ThreadOp ω ι × Option β)}
    (run : sys.machine.Run guard k trace k') (hguard : ∀ k op, guard k op → By pid k op) (p : ℕ)
    (hp : p ≠ pid) : k'.running p = k.running p := by
  induction run with
  | start => rfl
  | extend _ hop hexec ih =>
    rw [← ih]
    have hby := hguard _ _ hop
    cases step_of_exec hexec with
    | start hrun =>
      obtain rfl := hby
      simp [hp]
    | ret hrun =>
      obtain rfl := hby
      simp [hp]
    | act hrun hact =>
      obtain rfl := hby
      simp [hp]
    | intr => rfl

def leaves (args : ω) : Progress I σ χ η β → Option (σ × Option (ω × Task I β))
  | .returned s _ _ => some (s, none)
  | .blocked s _ _ rest => some (s, some (args, rest))
  | .halted _ => none

variable {k : Threads I ω β σ}

theorem run_of_advance {pid : ℕ} {args : ω} {t : Task I β} {s : σ} {wakes : List χ}
    {rest : Option (ω × Task I β)} (hrun : k.running pid = some (args, t))
    (hleaves : leaves args (t.advance sys.act pid k.state wakes) = some (s, rest)) :
    ∃ trace, sys.machine.Run (By pid) k trace ⟨update k.running pid rest, s⟩ := by
  induction t generalizing k wakes with
  | ret value =>
    cases hleaves
    refine ⟨[(.act pid, some value)], .single rfl ?_⟩
    simp only [machine, exec, hrun]
  | act a next ih =>
    unfold Task.advance at hleaves
    split at hleaves
    · next s' woken r hact =>
      have hfirst : sys.machine.Run (By pid) k [(.act pid, none)]
          ⟨update k.running pid (some (args, next r)), s'⟩ :=
        .single rfl (by simp only [machine, exec, hrun, hact])
      obtain ⟨trace, hrest⟩ := ih r
        (k := ⟨update k.running pid (some (args, next r)), s'⟩)
        (update_self ..) hleaves
      rw [update_idem] at hrest
      exact ⟨_, hfirst.trans hrest⟩
    · cases hleaves
      rw [← hrun, update_eq_self]
      exact ⟨[], .start⟩
    · cases hleaves

/-! ## Schedules -/

section Schedules

variable (sys : System I ω ι β σ χ η) (guard : Threads I ω β σ → ThreadOp ω ι → Prop)
  [∀ k op, Decidable (guard k op)]

def proceed (pid : ℕ) : ℕ → Threads I ω β σ → Threads I ω β σ
  | 0, k => k
  | n + 1, k =>
    if guard k (.act pid) then
      match sys.exec k (.act pid) with
      | some (k', _) => proceed pid n k'
      | none => k
    else k

/-- What a scheduler does: it lets a thread go on until it has to wait, or has a program
started or an interrupt taken. -/
inductive Turn (ω ι : Type u)
  | go (pid : ℕ)
  | step (op : ThreadOp ω ι)

def turn (fuel : ℕ) (k : Threads I ω β σ) : Turn ω ι → Threads I ω β σ
  | .go pid => sys.proceed guard pid fuel k
  | .step op =>
    if guard k op then
      match sys.exec k op with
      | some (k', _) => k'
      | none => k
    else k

def play (fuel : ℕ) (turns : List (Turn ω ι)) (k : Threads I ω β σ) : Threads I ω β σ :=
  turns.foldl (sys.turn guard fuel) k

variable {sys}

theorem run_of_proceed (pid n : ℕ) (k : Threads I ω β σ) :
    ∃ trace, sys.machine.Run guard k trace (sys.proceed guard pid n k) := by
  induction n generalizing k with
  | zero => exact ⟨_, .start⟩
  | succ n ih =>
    unfold proceed
    split
    · next hguard =>
      split
      · next k' out hexec =>
        obtain ⟨trace, hrest⟩ := ih k'
        exact ⟨_, (Machine.Run.single hguard hexec).trans hrest⟩
      · exact ⟨_, .start⟩
    · exact ⟨_, .start⟩

theorem run_of_turn (fuel : ℕ) (k : Threads I ω β σ) (t : Turn ω ι) :
    ∃ trace, sys.machine.Run guard k trace (sys.turn guard fuel k t) := by
  cases t with
  | go pid => exact run_of_proceed guard pid fuel k
  | step op =>
    simp only [turn]
    split
    · next hguard =>
      split
      · next k' out hexec => exact ⟨_, .single hguard hexec⟩
      · exact ⟨_, .start⟩
    · exact ⟨_, .start⟩

theorem run_of_play (fuel : ℕ) (turns : List (Turn ω ι)) (k : Threads I ω β σ) :
    ∃ trace, sys.machine.Run guard k trace (sys.play guard fuel turns k) := by
  induction turns generalizing k with
  | nil => exact ⟨_, .start⟩
  | cons t turns ih =>
    obtain ⟨before, hfirst⟩ := run_of_turn guard fuel k t
    obtain ⟨after, hrest⟩ := ih (sys.turn guard fuel k t)
    exact ⟨before ++ after, hfirst.trans hrest⟩

end Schedules

/-! ## Systems that keep to a discipline -/

def result (sys : System I ω ι β σ χ η) (k : Threads I ω β σ) (pid : ℕ) :
    Option ((a : I.Act) × I.Res a) :=
  match k.running pid with
  | some (_, .act a _) =>
    match sys.act pid a k.state with
    | .done _ _ r => some ⟨a, r⟩
    | _ => none
  | _ => none

def sleepsAt (sys : System I ω ι β σ χ η) (k : Threads I ω β σ) (pid : ℕ) : Option I.Act :=
  match k.running pid with
  | some (_, .act a _) =>
    match sys.act pid a k.state with
    | .wait _ => some a
    | _ => none
  | _ => none

theorem running_of_sleepsAt {pid : ℕ} {a : I.Act} (h : sys.sleepsAt k pid = some a) :
    ∃ args next chan, k.running pid = some (args, .act a next) ∧
      sys.act pid a k.state = .wait chan := by
  unfold sleepsAt at h
  split at h
  · next args a' next hrun =>
    split at h
    · next chan hact =>
      cases h
      exact ⟨args, next, chan, hrun, hact⟩
    · cases h
  · cases h

def haltsWith (sys : System I ω ι β σ χ η) (k : Threads I ω β σ) (pid : ℕ) : Option η :=
  match k.running pid with
  | some (_, .act a _) =>
    match sys.act pid a k.state with
    | .halt reason => some reason
    | _ => none
  | _ => none

def Admitted (sys : System I ω ι β σ χ η)
    (admits : σ → ℕ → (a : I.Act) → I.Res a → Prop) (k : Threads I ω β σ) : ThreadOp ω ι → Prop
  | .act pid => ∀ x ∈ sys.result k pid, admits k.state pid x.1 x.2
  | _ => True

instance {admits : σ → ℕ → (a : I.Act) → I.Res a → Prop}
    [∀ s pid a r, Decidable (admits s pid a r)] (k : Threads I ω β σ) :
    (op : ThreadOp ω ι) → Decidable (sys.Admitted admits k op)
  | .act pid => inferInstanceAs (Decidable (∀ x ∈ sys.result k pid, admits k.state pid x.1 x.2))
  | .start _ _ => isTrue trivial
  | .intr _ => isTrue trivial

/-- What has to hold when a program is started, and what it leaves with its value. -/
structure Contract (ω β τ : Type u) where
  pre : ω → τ → Prop
  post : ω → β → τ → Prop

/-- Every program keeps to its discipline and meets its contract, and an action in order keeps
the invariant. -/
structure Lawful (sys : System I ω ι β σ χ η) (D : ω → Discipline I τ) (C : Contract ω β τ)
    (view : σ → ℕ → τ) (idle : τ → Prop) (inv : σ → Prop)
    (admits : σ → ℕ → (a : I.Act) → I.Res a → Prop) : Prop where
  start : ∀ args l, idle l → C.pre args l → (sys.program args).wp (D args) (C.post args) l
  ret : ∀ args value l, C.post args value l → idle l
  act : ∀ {args s s' pid a wakes r}, inv s → (D args).ok (view s pid) a →
    sys.act pid a s = .done s' wakes r → admits s pid a r →
    inv s' ∧ (D args).allow (view s pid) a r ∧
      view s' = update (view s) pid ((D args).next (view s pid) a r)
  intr : ∀ {irq s}, inv s →
    inv (sys.intr irq s).1 ∧ view (sys.intr irq s).1 = view s

def Respects (sys : System I ω ι β σ χ η) (C : Contract ω β τ) (view : σ → ℕ → τ)
    (admits : σ → ℕ → (a : I.Act) → I.Res a → Prop) (k : Threads I ω β σ) : ThreadOp ω ι → Prop
  | .start pid args => C.pre args (view k.state pid)
  | .act pid => ∀ x ∈ sys.result k pid, admits k.state pid x.1 x.2
  | .intr _ => True

structure InOrder (D : ω → Discipline I τ) (C : Contract ω β τ) (view : σ → ℕ → τ)
    (idle : τ → Prop) (inv : σ → Prop) (k : Threads I ω β σ) : Prop where
  state : inv k.state
  resting : ∀ p, k.running p = none → idle (view k.state p)
  task : ∀ p args t, k.running p = some (args, t) →
    t.wp (D args) (C.post args) (view k.state p)

namespace Lawful

variable {D : ω → Discipline I τ} {C : Contract ω β τ} {view : σ → ℕ → τ} {idle : τ → Prop}
  {inv : σ → Prop} {admits : σ → ℕ → (a : I.Act) → I.Res a → Prop} {k next : Threads I ω β σ}

theorem inOrder_step (hsys : Lawful sys D C view idle inv admits) {op : ThreadOp ω ι}
    (h : InOrder D C view idle inv k) (hop : sys.Respects C view admits k op)
    (hstep : sys.Step k op next) : InOrder D C view idle inv next := by
  cases hstep with
  | @start pid args hrun =>
    refine ⟨h.state, fun p hp => ?_, fun p args' t hp => ?_⟩
    · by_cases hpid : p = pid
      · simp [hpid] at hp
      · exact h.resting p (by simpa [hpid] using hp)
    · by_cases hpid : p = pid
      · subst hpid
        simp only [update_self, Option.some.injEq, Prod.mk.injEq] at hp
        obtain ⟨rfl, rfl⟩ := hp
        exact hsys.start args _ (h.resting p hrun) hop
      · exact h.task p args' t (by simpa [hpid] using hp)
  | @ret pid args value hrun =>
    refine ⟨h.state, fun p hp => ?_, fun p args' t hp => ?_⟩
    · by_cases hpid : p = pid
      · subst hpid
        exact hsys.ret args value _ (h.task p args (.ret value) hrun)
      · exact h.resting p (by simpa [hpid] using hp)
    · by_cases hpid : p = pid
      · simp [hpid] at hp
      · exact h.task p args' t (by simpa [hpid] using hp)
  | @act pid args a rest s wakes r hrun hact =>
    obtain ⟨hok, hrest⟩ := h.task pid args _ hrun
    have hresult : sys.result k pid = some ⟨a, r⟩ := by simp only [result, hrun, hact]
    obtain ⟨hinv, hallow, hview⟩ := hsys.act h.state hok hact (hop _ hresult)
    refine ⟨hinv, fun p hp => ?_, fun p args' t hp => ?_⟩
    · by_cases hpid : p = pid
      · simp [hpid] at hp
      · simpa [hview, hpid] using h.resting p (by simpa [hpid] using hp)
    · by_cases hpid : p = pid
      · subst hpid
        simp only [update_self, Option.some.injEq, Prod.mk.injEq] at hp
        obtain ⟨rfl, rfl⟩ := hp
        simpa [hview] using hrest r hallow
      · simpa [hview, hpid] using h.task p args' t (by simpa [hpid] using hp)
  | @intr irq =>
    obtain ⟨hinv, hview⟩ := hsys.intr h.state
    exact ⟨hinv, hview ▸ h.resting, hview ▸ h.task⟩

/-- **The rule of contracts.** Everybody is in order in every state of every run that starts
the programs as their contracts ask. -/
theorem inOrder_of_run (hsys : Lawful sys D C view idle inv admits)
    {guard : Threads I ω β σ → ThreadOp ω ι → Prop} {s : σ} {trace : List (ThreadOp ω ι × Option β)}
    (run : sys.machine.Run guard (Threads.boot s) trace k)
    (hguard : ∀ k op, guard k op → sys.Respects C view admits k op) (hinv : inv s)
    (hidle : ∀ p, idle (view s p)) : InOrder D C view idle inv k := by
  apply run.invariant
  · exact ⟨hinv, fun p _ => hidle p, fun _ _ _ hp => nomatch hp⟩
  · intro k next op out h hop hexec
    exact hsys.inOrder_step h (hguard k op hop) (step_of_exec hexec)

end Lawful

/-! ## Programs that leave a thread idle -/

def idleContract (idle : τ → Prop) : Contract ω β τ := ⟨fun _ _ => True, fun _ _ => idle⟩

abbrev Sound (sys : System I ω ι β σ χ η) (D : ω → Discipline I τ) (view : σ → ℕ → τ)
    (idle : τ → Prop) (inv : σ → Prop) (admits : σ → ℕ → (a : I.Act) → I.Res a → Prop) : Prop :=
  Lawful sys D (idleContract idle) view idle inv admits

abbrev Orderly (D : ω → Discipline I τ) (view : σ → ℕ → τ) (idle : τ → Prop) (inv : σ → Prop)
    (k : Threads I ω β σ) : Prop :=
  InOrder D (idleContract idle) view idle inv k

/-- **The rule of disciplines.** Everybody is in order in every state of every admitted run. -/
theorem orderly_of_run {D : ω → Discipline I τ} {view : σ → ℕ → τ} {idle : τ → Prop}
    {inv : σ → Prop} {admits : σ → ℕ → (a : I.Act) → I.Res a → Prop}
    (hsys : Sound sys D view idle inv admits) {guard : Threads I ω β σ → ThreadOp ω ι → Prop}
    {s : σ} {trace : List (ThreadOp ω ι × Option β)}
    (run : sys.machine.Run guard (Threads.boot s) trace k)
    (hguard : ∀ k op, guard k op → sys.Admitted admits k op) (hinv : inv s)
    (hidle : ∀ p, idle (view s p)) : Orderly D view idle inv k := by
  refine hsys.inOrder_of_run run (fun k op hop => ?_) hinv hidle
  cases op with
  | act pid => exact hguard k _ hop
  | _ => trivial

end System

end MCertikos.Math
