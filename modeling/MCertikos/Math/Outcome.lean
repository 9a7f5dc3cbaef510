/-
# Programs that may stop with an error

The pre- and postcondition rules for computations in `Except`: a computation meets a pair of
conditions if its value satisfies the second or its error the first.
-/

import Mathlib.Data.Nat.Notation
import Mathlib.Tactic.Common

namespace MCertikos.Math

universe u v

variable {ε : Type u} {α β : Type v} {fail : ε → Prop} {post : α → Prop}

def Meets (fail : ε → Prop) (post : α → Prop) : Except ε α → Prop
  | .ok value => post value
  | .error e => fail e

namespace Meets

variable {m : Except ε α}

theorem bind {k : α → Except ε β} {post' : β → Prop} (h : Meets fail post m)
    (hk : ∀ value, post value → Meets fail post' (k value)) : Meets fail post' (m >>= k) := by
  cases m with
  | ok value => exact hk value h
  | error e => exact h

theorem mono {fail' : ε → Prop} {post' : α → Prop} (h : Meets fail post m)
    (hfail : ∀ e, fail e → fail' e) (hpost : ∀ value, post value → post' value) :
    Meets fail' post' m := by
  cases m with
  | ok value => exact hpost value h
  | error e => exact hfail e h

theorem map {f : α → β} {post' : β → Prop} (h : Meets fail (fun value => post' (f value)) m) :
    Meets fail post' (m.map f) := by
  cases m with
  | ok value => exact h
  | error e => exact h

theorem exists_ok (h : Meets fail post m) (hfail : ∀ e, ¬ fail e) :
    ∃ value, m = .ok value ∧ post value := by
  cases m with
  | ok value => exact ⟨value, rfl, h⟩
  | error e => exact absurd h (hfail e)

theorem of_ok (h : Meets fail post m) {value : α} (hok : m = .ok value) : post value := by
  subst hok
  exact h

theorem and_eq (h : Meets fail post m) :
    Meets fail (fun value => m = .ok value ∧ post value) m := by
  cases m with
  | ok value => exact ⟨rfl, h⟩
  | error e => exact h

theorem foldlM_range {σ : Type v} {f : σ → ℕ → Except ε σ} {count : ℕ} {state : σ}
    (inv : ℕ → σ → Prop) (hinit : inv 0 state)
    (hstep : ∀ k < count, ∀ state, inv k state → Meets fail (inv (k + 1)) (f state k)) :
    Meets fail (inv count) ((List.range count).foldlM f state) := by
  induction count with
  | zero => exact hinit
  | succ count ih =>
    rw [List.range_succ, List.foldlM_append]
    refine bind (ih fun k hk => hstep k (by omega)) fun state hinv => ?_
    rw [List.foldlM_cons]
    exact bind (hstep count (by omega) state hinv) fun _ h => h

end Meets

theorem eq_ok_of_toOption {m : Except ε α} {value : α} (h : m.toOption = some value) :
    m = .ok value := by
  cases m with
  | ok value' => exact congrArg Except.ok (Option.some.inj h)
  | error e => cases h

def stopOf : Except ε α → Option ε
  | .ok _ => none
  | .error e => some e

theorem eq_error_of_stopOf {m : Except ε α} {e : ε} (h : stopOf m = some e) : m = .error e := by
  cases m with
  | ok value => cases h
  | error e' => exact congrArg Except.error (Option.some.inj h)

/-! ## Computations with a state -/

section State

variable {σ : Type v} {post₂ : β → σ → Prop} {s : σ} {m : StateT σ (Except ε) α}
  {k : α → StateT σ (Except ε) β} {post : α × σ → Prop} {post' : β × σ → Prop}

theorem Meets.bind_state (h : Meets fail post (m s))
    (hk : ∀ value s', post (value, s') → Meets fail post' (k value s')) :
    Meets fail post' ((m >>= k) s) :=
  Meets.bind h fun r hr => hk r.1 r.2 hr

theorem Meets.bind_of_ok {value : α} {s' : σ} (hm : m s = .ok (value, s'))
    (hk : Meets fail post' (k value s')) : Meets fail post' ((m >>= k) s) := by
  have hbind : (m >>= k) s = (m s >>= fun r => k r.1 r.2) := rfl
  rw [hbind, hm]
  exact hk

theorem Meets.get_bind {k : σ → StateT σ (Except ε) α} (h : Meets fail post (k s s)) :
    Meets fail post ((MonadState.get >>= k) s) := h

theorem Meets.set_bind {s' : σ} {k : PUnit → StateT σ (Except ε) α}
    (h : Meets fail post (k ⟨⟩ s')) : Meets fail post ((MonadStateOf.set s' >>= k) s) := h

def Returns (post : α → σ → Prop) (m : StateT σ (Except ε) α) (s : σ) : Prop :=
  ∀ value s', m s = .ok (value, s') → post value s'

namespace Returns

variable {m : StateT σ (Except ε) α} {post : α → σ → Prop}

theorem bind {k : α → StateT σ (Except ε) β} (h : Returns post m s)
    (hk : ∀ value s', post value s' → Returns post₂ (k value) s') : Returns post₂ (m >>= k) s := by
  intro value s' hok
  have hok : (m s >>= fun r => k r.1 r.2) = .ok (value, s') := hok
  cases hm : m s with
  | ok r =>
    rw [hm] at hok
    exact hk r.1 r.2 (h r.1 r.2 hm) value s' hok
  | error e =>
    rw [hm] at hok
    cases hok

theorem mono {post' : α → σ → Prop} (h : Returns post m s)
    (hpost : ∀ value s', post value s' → post' value s') : Returns post' m s :=
  fun value s' hok => hpost value s' (h value s' hok)

theorem pure {value : α} (h : post value s) :
    Returns post (Pure.pure value : StateT σ (Except ε) α) s := by
  intro value' s' hok
  obtain ⟨rfl, rfl⟩ := Prod.mk.inj (Except.ok.inj hok)
  exact h

theorem get_bind {k : σ → StateT σ (Except ε) α} (h : Returns post (k s) s) :
    Returns post (MonadState.get >>= k) s := h

theorem set {post : PUnit → σ → Prop} {t : σ} (h : post ⟨⟩ t) :
    Returns post (MonadStateOf.set t : StateT σ (Except ε) PUnit) s := by
  intro value s' hok
  obtain ⟨-, rfl⟩ := Prod.mk.inj (Except.ok.inj hok)
  exact h

theorem set_bind {k : PUnit → StateT σ (Except ε) α} {t : σ} (h : Returns post (k ⟨⟩) t) :
    Returns post (MonadStateOf.set t >>= k) s := h

theorem throw {e : ε} : Returns post (MonadExcept.throw e : StateT σ (Except ε) α) s := by
  intro value s' hok
  cases hok

end Returns

end State

end MCertikos.Math
