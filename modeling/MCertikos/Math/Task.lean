/-
# Resumable programs

Kernel code that sleeps is a tree of atomic actions: an action of the shared state, and for each
result the rest of the program.
-/

import Mathlib.Tactic.Common

namespace MCertikos.Math

universe u

structure Interface where
  Act : Type u
  Res : Act → Type u

inductive Task (I : Interface.{u}) (β : Type u)
  | ret (value : β)
  | act (a : I.Act) (next : I.Res a → Task I β)

namespace Task

variable {I : Interface.{u}} {α β : Type u}

def bind : Task I α → (α → Task I β) → Task I β
  | ret value, f => f value
  | act a next, f => act a fun r => (next r).bind f

instance : Monad (Task I) where
  pure := ret
  bind := bind

def perform (a : I.Act) : Task I (I.Res a) := act a ret

@[simp] theorem pure_eq (value : α) : (pure value : Task I α) = ret value := rfl

@[simp] theorem ret_bind (value : α) (f : α → Task I β) : ret value >>= f = f value := rfl

@[simp] theorem act_bind (a : I.Act) (next : I.Res a → Task I α) (f : α → Task I β) :
    act a next >>= f = act a fun r => next r >>= f := rfl

@[simp] theorem perform_bind (a : I.Act) (f : I.Res a → Task I β) : perform a >>= f = act a f := rfl

def each (f : α → Task I PUnit.{u + 1}) : List α → Task I PUnit.{u + 1}
  | [] => ret ⟨⟩
  | x :: xs => f x >>= fun _ => each f xs

def All (p : I.Act → Prop) : Task I β → Prop
  | ret _ => True
  | act a next => p a ∧ ∀ r, (next r).All p

section All

variable {p : I.Act → Prop}

theorem all_pure (value : α) : (pure value : Task I α).All p := trivial

theorem all_perform {a : I.Act} (ha : p a) : (perform a).All p := ⟨ha, fun _ => trivial⟩

theorem all_bind {t : Task I α} {f : α → Task I β} (ht : t.All p)
    (hf : ∀ value, (f value).All p) : (t >>= f).All p := by
  induction t with
  | ret value => exact hf value
  | act a next ih => exact ⟨ht.1, fun r => ih r (ht.2 r)⟩

theorem all_ite {c : Prop} [Decidable c] {t t' : Task I β} (ht : t.All p)
    (ht' : t'.All p) : (if c then t else t').All p := by
  split
  · exact ht
  · exact ht'

theorem all_each {f : α → Task I PUnit.{u + 1}} {xs : List α} (hf : ∀ x, (f x).All p) :
    (each f xs).All p := by
  induction xs with
  | nil => trivial
  | cons x xs ih => exact all_bind (hf x) fun _ => ih

end All

end Task

/-! ## Disciplines -/

structure Discipline (I : Interface.{u}) (τ : Type u) where
  /-- The action is in order. -/
  ok : τ → I.Act → Prop
  /-- The result is one that can come back. -/
  allow : τ → (a : I.Act) → I.Res a → Prop
  /-- The local state after the action. -/
  next : τ → (a : I.Act) → I.Res a → τ

namespace Task

variable {I : Interface.{u}} {τ : Type u} (D : Discipline I τ) {α β : Type u}

/-- **The weakest precondition**: the program keeps to the discipline, and its value and its local
state at the end meet the postcondition. -/
def wp : Task I β → (β → τ → Prop) → τ → Prop
  | ret value, post, l => post value l
  | act a next, post, l => D.ok l a ∧ ∀ r, D.allow l a r → (next r).wp post (D.next l a r)

variable {D} {post : β → τ → Prop} {l : τ}

theorem wp_act {a : I.Act} {next : I.Res a → Task I β} (hok : D.ok l a)
    (hnext : ∀ r, D.allow l a r → (next r).wp D post (D.next l a r)) :
    (act a next).wp D post l := ⟨hok, hnext⟩

variable {t : Task I β}

theorem wp_mono {post' : β → τ → Prop} (h : t.wp D post l)
    (himp : ∀ value l', post value l' → post' value l') : t.wp D post' l := by
  induction t generalizing l with
  | ret value => exact himp value l h
  | act a next ih => exact ⟨h.1, fun r hr => ih r (h.2 r hr)⟩

theorem wp_bind {t : Task I α} {f : α → Task I β}
    (h : t.wp D (fun value l' => (f value).wp D post l') l) : (t >>= f).wp D post l := by
  induction t generalizing l with
  | ret value => exact h
  | act a next ih => exact ⟨h.1, fun r hr => ih r (h.2 r hr)⟩

theorem wp_weaken {D' : Discipline I τ} (h : t.wp D post l) (hok : ∀ l a, D.ok l a → D'.ok l a)
    (hallow : ∀ l a r, D'.allow l a r → D.allow l a r) (hnext : D'.next = D.next) :
    t.wp D' post l := by
  induction t generalizing l with
  | ret value => exact h
  | act a next ih =>
    refine ⟨hok l a h.1, fun r hr => ?_⟩
    rw [hnext]
    exact ih r (h.2 r (hallow l a r hr))

theorem wp_restrict {p : I.Act → Prop} (h : t.wp D post l) (hall : t.All p) :
    t.wp { D with ok := fun l a => D.ok l a ∧ p a } post l := by
  induction t generalizing l with
  | ret value => exact h
  | act a next ih => exact ⟨⟨h.1, hall.1⟩, fun r hr => ih r (h.2 r hr) (hall.2 r)⟩

theorem wp_each {f : α → Task I PUnit.{u + 1}} {xs : List α}
    {post : PUnit.{u + 1} → τ → Prop} (inv : τ → Prop) (hinv : inv l)
    (hstep : ∀ x ∈ xs, ∀ l, inv l → (f x).wp D (fun _ l' => inv l') l)
    (hpost : ∀ l, inv l → post ⟨⟩ l) : (each f xs).wp D post l := by
  induction xs generalizing l with
  | nil => exact hpost l hinv
  | cons x xs ih =>
    apply wp_bind
    refine wp_mono (hstep x List.mem_cons_self l hinv) fun _ l' hl' => ?_
    exact ih hl' fun y hy => hstep y (List.mem_cons_of_mem x hy)

end Task

/-! ## What programs do -/

/-- What an action does: it is carried out and wakes some channels, it has to wait for a
channel, or it stops the machine. -/
inductive Outcome (σ : Type u) (χ : Type u) (η : Type u) (ρ : Type u)
  | done (state : σ) (wakes : List χ) (result : ρ)
  | wait (chan : χ)
  | halt (reason : η)

abbrev Semantics (I : Interface.{u}) (σ : Type u) (χ : Type u) (η : Type u) :=
  ℕ → (a : I.Act) → σ → Outcome σ χ η (I.Res a)

inductive Progress (I : Interface.{u}) (σ : Type u) (χ : Type u) (η : Type u)
    (β : Type u)
  | returned (state : σ) (wakes : List χ) (value : β)
  | blocked (state : σ) (wakes : List χ) (chan : χ) (rest : Task I β)
  | halted (reason : η)

def Task.advance {I : Interface.{u}} {σ : Type u} {χ : Type u} {η : Type u} {β : Type u}
    (S : Semantics I σ χ η) (pid : ℕ) : Task I β → σ → List χ → Progress I σ χ η β
  | ret value, s, wakes => .returned s wakes value
  | act a next, s, wakes =>
    match S pid a s with
    | .done s' woken r => (next r).advance S pid s' (wakes ++ woken)
    | .wait chan => .blocked s wakes chan (act a next)
    | .halt reason => .halted reason

end MCertikos.Math
