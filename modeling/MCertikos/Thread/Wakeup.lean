/-
# What a sleeping thread waits for

A subsystem sleeps in a loop: it tests a condition on its own data, and if the condition fails it
sleeps on a channel and tests again when it runs.
-/

import MCertikos.Thread.Kill

namespace MCertikos.Thread

open Math Function

variable {χ κ ω ι ρ σ : Type*}

def Path.contAfter (path : Path χ κ ρ σ) : Option κ :=
  match path.stop with
  | .ret _ => none
  | .block _ cont => some cont

section Discipline

variable (inv : (ℕ → Option κ) → σ → Prop) (chanOf : κ → χ) (waiting : σ → ℕ → κ → Prop)

def KeepsWaiting (before after : σ) (wakes : List χ) (pid : ℕ) (cont : κ) : Prop :=
  waiting before pid cont → chanOf cont ∈ wakes ∨ waiting after pid cont

structure PathDiscipline (conts : ℕ → Option κ) (before : σ) (pid : ℕ)
    (path : Path χ κ ρ σ) : Prop where
  inv : inv (update conts pid path.contAfter) path.shared
  keeps : ∀ p cont, p ≠ pid → conts p = some cont →
    KeepsWaiting chanOf waiting before path.shared path.wakes p cont
  parks : ∀ chan cont, path.stop = .block chan cont →
    chan = chanOf cont ∧ waiting path.shared pid cont

variable [DecidableEq χ] (M : Monitor χ κ ω ι ρ σ) (guard : Kernel χ κ σ → Op ω ι → Prop)

/-- The sleeping discipline of a subsystem, for the runs whose steps meet a
guard. -/
structure WaitDiscipline : Prop where
  noSigkill : ∀ {k : Kernel χ κ σ} {op : Op ω ι}, guard k op → k.NoSigkill op
  process : ∀ {k : Kernel χ κ σ} {args : ω}, guard k (.call args) → 1 ≤ k.sched.curid
  call : ∀ {k : Kernel χ κ σ} {args : ω} {path : Path χ κ ρ σ}, guard k (.call args) →
    k.sched.curid < numIds → inv k.cont k.shared → k.InUser →
    M.call k.sched.curid args k.shared = some path →
    PathDiscipline inv chanOf waiting k.cont k.shared k.sched.curid path
  resume : ∀ {k : Kernel χ κ σ} {cont : κ} {path : Path χ κ ρ σ},
    inv k.cont k.shared → k.cont k.sched.curid = some cont →
    M.resume k.sched.curid cont k.shared = some path →
    PathDiscipline inv chanOf waiting k.cont k.shared k.sched.curid path
  intr : ∀ {k : Kernel χ κ σ} {irq : ι} {shared : σ} {wakes : List χ},
    inv k.cont k.shared → M.intr irq k.shared = some (shared, wakes) →
    inv k.cont shared ∧ ∀ p cont, k.cont p = some cont →
      KeepsWaiting chanOf waiting k.shared shared wakes p cont

structure Settled (k : Kernel χ κ σ) : Prop where
  sched : k.WellFormed
  inv : inv k.cont k.shared
  cont_of_dead : ∀ p, k.sched.state p = .dead → k.cont p = none
  process : ∀ p cont, k.cont p = some cont → 1 ≤ p
  asleep : ∀ p, k.sched.state p = .sleep → p < numIds ∧ ∃ cont, k.cont p = some cont ∧
    k.sched.channel p = some (chanOf cont) ∧ waiting k.shared p cont

end Discipline

variable {inv : (ℕ → Option κ) → σ → Prop} {chanOf : κ → χ} {waiting : σ → ℕ → κ → Prop}
  {path : Path χ κ ρ σ}

theorem Path.contAfter_of_stop {chan : χ} {cont : κ} (hstop : path.stop = .block chan cont) :
    path.contAfter = some cont := by
  simp [Path.contAfter, hstop]

namespace Settled

variable {k next : Kernel χ κ σ}

theorem boot {shared : σ} (hinv : inv (fun _ => none) shared) :
    Settled inv chanOf waiting (Kernel.boot shared : Kernel χ κ σ) where
  sched := Kernel.wellFormed_boot shared
  inv := hinv
  cont_of_dead _ _ := rfl
  process _ _ hcont := nomatch hcont
  asleep p hsleep := by
    by_cases hp : p = 0 <;> simp [Kernel.boot, Sched.threadInit, hp] at hsleep

variable (h : Settled inv chanOf waiting k)

include h

theorem frame (hwf : next.WellFormed)
    (hcont : next.cont = k.cont) (hshared : next.shared = k.shared)
    (hdead : ∀ p, next.sched.state p = .dead → k.cont p = none)
    (hsleep : ∀ p, next.sched.state p = .sleep →
      k.sched.state p = .sleep ∧ next.sched.channel p = k.sched.channel p) :
    Settled inv chanOf waiting next where
  sched := hwf
  inv := by
    rw [hcont, hshared]
    exact h.inv
  cont_of_dead p hp := by
    rw [hcont]
    exact hdead p hp
  process p cont hp := h.process p cont (hcont ▸ hp)
  asleep p hp := by
    obtain ⟨hbefore, hchan⟩ := hsleep p hp
    rw [hcont, hshared, hchan]
    exact h.asleep p hbefore

variable [DecidableEq χ] {wakes : List χ}

theorem asleep_wakeAll {p : ℕ} (hsleep : (k.sched.wakeAll wakes).state p = .sleep) :
    p < numIds ∧ ∃ cont, k.cont p = some cont ∧
      (k.sched.wakeAll wakes).channel p = some (chanOf cont) ∧
      chanOf cont ∉ wakes ∧ waiting k.shared p cont := by
  classical
  obtain ⟨hstate, hchannel, -⟩ := k.sched.wakeAll_fields wakes p
  have hnot : ¬ k.sched.WokenBy wakes p := by
    intro hwoken
    rw [hstate, if_pos hwoken] at hsleep
    cases hsleep
  rw [hstate, if_neg hnot] at hsleep
  obtain ⟨hlt, cont, hcont, hchan, hwaiting⟩ := h.asleep p hsleep
  refine ⟨hlt, cont, hcont, ?_, ?_, hwaiting⟩
  · rw [hchannel, if_neg hnot, hchan]
  · intro hmem
    exact hnot ⟨h.process p cont hcont, hlt, hsleep, _, hmem, hchan⟩

theorem cont_of_dead_wakeAll {p : ℕ}
    (hdead : (k.sched.wakeAll wakes).state p = .dead) : k.cont p = none := by
  classical
  apply h.cont_of_dead p
  rw [(k.sched.wakeAll_fields wakes p).1] at hdead
  split at hdead
  · cases hdead
  · exact hdead

variable {path : Path χ κ ρ σ}

theorem asleep_path
    (hpath : PathDiscipline inv chanOf waiting k.cont k.shared k.sched.curid path) {p : ℕ}
    (hne : p ≠ k.sched.curid) (hsleep : (k.sched.wakeAll path.wakes).state p = .sleep) :
    p < numIds ∧ ∃ cont, k.cont p = some cont ∧
      (k.sched.wakeAll path.wakes).channel p = some (chanOf cont) ∧
      waiting path.shared p cont := by
  obtain ⟨hlt, cont, hcont, hchan, hmem, hwaiting⟩ := h.asleep_wakeAll hsleep
  exact ⟨hlt, cont, hcont, hchan, (hpath.keeps p cont hne hcont hwaiting).resolve_left hmem⟩

theorem returned {value : ρ}
    (hpath : PathDiscipline inv chanOf waiting k.cont k.shared k.sched.curid path)
    (hstop : path.stop = .ret value) : Settled inv chanOf waiting
      ⟨k.sched.wakeAll path.wakes, update k.cont k.sched.curid none, path.shared⟩ := by
  obtain ⟨q, hq⟩ := h.sched
  obtain ⟨q', hwake⟩ := hq.wakeAll path.wakes
  have hinv := hpath.inv
  simp only [Path.contAfter, hstop] at hinv
  have hne : ∀ p state, state ≠ .run →
      (k.sched.wakeAll path.wakes).state p = state → p ≠ k.sched.curid := by
    rintro p state hstate hp rfl
    have hrun := hwake.curid_run
    rw [Sched.wakeAll_curid, hp] at hrun
    exact hstate hrun
  exact {
    sched := ⟨q', hwake⟩
    inv := hinv
    cont_of_dead := fun p hp => by
      simpa [hne p _ (by decide) hp] using h.cont_of_dead_wakeAll hp
    process := fun p cont hp => by
      by_cases heq : p = k.sched.curid
      · simp [heq] at hp
      · exact h.process p cont (by simpa [heq] using hp)
    asleep := fun p hp => by
      have hother := hne p _ (by decide) hp
      simpa [hother] using h.asleep_path hpath hother hp }

theorem parked {chan : χ} {cont : κ} {sched : Sched χ} (hone : 1 ≤ k.sched.curid)
    (hpath : PathDiscipline inv chanOf waiting k.cont k.shared k.sched.curid path)
    (hstop : path.stop = .block chan cont)
    (hsleep : (k.sched.wakeAll path.wakes).threadSleep chan = some sched) :
    Settled inv chanOf waiting ⟨sched, update k.cont k.sched.curid (some cont), path.shared⟩ := by
  obtain ⟨q, hq⟩ := h.sched
  obtain ⟨q', hwake⟩ := hq.wakeAll path.wakes
  have hinv := hpath.inv
  rw [Path.contAfter_of_stop hstop] at hinv
  obtain ⟨hchan, hwaiting⟩ := hpath.parks chan cont hstop
  have hswitch := hwake.threadSleep hsleep
  have hchannel := (Sched.threadSleep_fields hsleep).1
  rw [Sched.wakeAll_curid] at hchannel
  exact {
    sched := ⟨_, hswitch.wellFormed⟩
    inv := hinv
    cont_of_dead := fun p hp => by
      obtain ⟨-, hsame⟩ | ⟨hne, hbefore⟩ := hswitch.cases hp (by decide)
      · cases hsame
      · rw [Sched.wakeAll_curid] at hne
        simpa [hne] using h.cont_of_dead_wakeAll hbefore
    process := fun p cont hp => by
      by_cases heq : p = k.sched.curid
      · exact heq ▸ hone
      · exact h.process p cont (by simpa [heq] using hp)
    asleep := fun p hp => by
      obtain ⟨heq, -⟩ | ⟨hne, hbefore⟩ := hswitch.cases hp (by decide)
      · rw [Sched.wakeAll_curid] at heq
        subst heq
        exact ⟨hq.curid_lt, cont, by simp, by simp [hchannel, hchan], hwaiting⟩
      · rw [Sched.wakeAll_curid] at hne
        simpa [hne, hchannel] using h.asleep_path hpath hne hbefore }

theorem finish {out : Output ρ} (hone : 1 ≤ k.sched.curid)
    (hpath : PathDiscipline inv chanOf waiting k.cont k.shared k.sched.curid path)
    (hfinish : k.finish path = some (next, out)) : Settled inv chanOf waiting next := by
  obtain ⟨value, hstop, -, rfl⟩ | ⟨chan, cont, sched, hstop, -, hsleep, rfl⟩ :=
    Kernel.finish_cases hfinish
  · exact h.returned hpath hstop
  · exact h.parked hone hpath hstop hsleep

theorem interrupted {shared : σ} (hinv : inv k.cont shared)
    (hkeeps : ∀ p cont, k.cont p = some cont →
      KeepsWaiting chanOf waiting k.shared shared wakes p cont) :
    Settled inv chanOf waiting ⟨k.sched.wakeAll wakes, k.cont, shared⟩  where
  sched := by
    obtain ⟨q, hq⟩ := h.sched
    exact hq.wakeAll wakes
  inv := hinv
  cont_of_dead _ hp := h.cont_of_dead_wakeAll hp
  process := h.process
  asleep p hp := by
    obtain ⟨hlt, cont, hcont, hchan, hmem, hwaiting⟩ := h.asleep_wakeAll hp
    exact ⟨hlt, cont, hcont, hchan, (hkeeps p cont hcont hwaiting).resolve_left hmem⟩

omit [DecidableEq χ] in
theorem spawned {pid : ℕ} (hdead : k.sched.state pid = .dead)
    (hwf : (Kernel.mk (k.sched.threadSpawn pid) (update k.cont pid none)
      k.shared).WellFormed) :
    Settled inv chanOf waiting ⟨k.sched.threadSpawn pid, update k.cont pid none, k.shared⟩ := by
  have hcont := h.cont_of_dead pid hdead
  refine h.frame hwf (update_eq_self_iff.mpr hcont.symm) rfl ?_ ?_
  · intro p hp
    by_cases heq : p = pid
    · exact heq ▸ hcont
    · exact h.cont_of_dead p (by simpa [Sched.threadSpawn, Sched.tcbSetState, heq] using hp)
  · intro p hp
    by_cases heq : p = pid
    · simp [Sched.threadSpawn, Sched.tcbSetState, heq] at hp
    · simpa [Sched.threadSpawn, Sched.tcbSetState, heq] using hp

omit [DecidableEq χ] in
theorem handedOff {pid : ℕ}
    (hwf : (Kernel.mk (k.sched.kernMainHandoff pid) k.cont k.shared).WellFormed) :
    Settled inv chanOf waiting ⟨k.sched.kernMainHandoff pid, k.cont, k.shared⟩ := by
  have hold : ∀ p state, state ≠ .run → (k.sched.kernMainHandoff pid).state p = state →
      k.sched.state p = state := by
    intro p state hrun hp
    by_cases heq : p = pid
    · simp [Sched.kernMainHandoff, Sched.setCurid, Sched.tcbSetState, heq, Ne.symm hrun] at hp
    · simpa [Sched.kernMainHandoff, Sched.setCurid, Sched.tcbSetState, heq] using hp
  refine h.frame hwf rfl rfl ?_ ?_
  · intro p hp
    exact h.cont_of_dead p (hold p _ (by decide) hp)
  · intro p hp
    refine ⟨hold p _ (by decide) hp, ?_⟩
    simp [Sched.kernMainHandoff, Sched.setCurid, Sched.tcbSetState]

omit [DecidableEq χ] in
theorem yielded : Settled inv chanOf waiting ⟨k.sched.threadYield, k.cont, k.shared⟩ := by
  obtain ⟨q, hq⟩ := id h.sched
  refine h.frame ⟨_, hq.threadYield.wellFormed⟩ rfl rfl (fun p hp => ?_) (fun p hp => ?_)
  · obtain ⟨-, hsame⟩ | ⟨-, hbefore⟩ := hq.threadYield.cases hp (by decide)
    · cases hsame
    · exact h.cont_of_dead p hbefore
  · exact ⟨k.sched.threadYield_fields.2 p hp, congrFun k.sched.threadYield_channel p⟩

omit [DecidableEq χ] in
theorem terminated (user : k.InUser) {sched : Sched χ}
    (hsched : k.sched.terminateCurrent = some sched) :
    Settled inv chanOf waiting ⟨sched, k.cont, k.shared⟩ := by
  obtain ⟨q, hq⟩ := id h.sched
  have hswitch := hq.terminateCurrent hsched
  refine h.frame ⟨_, hswitch.wellFormed⟩ rfl rfl (fun p hp => ?_) (fun p hp => ?_)
  · obtain ⟨heq, -⟩ | ⟨-, hbefore⟩ := hswitch.cases hp (by decide)
    · exact heq ▸ user
    · exact h.cont_of_dead p hbefore
  · obtain ⟨-, hsame⟩ | ⟨-, hbefore⟩ := hswitch.cases hp (by decide)
    · cases hsame
    · exact ⟨hbefore, congrFun (Sched.channel_of_threadExit hsched) p⟩

theorem signalled {pid signum : ℤ} (hsignum : signum ≠ sigkill) :
    Settled inv chanOf waiting ⟨(k.sched.sysKill pid signum).2, k.cont, k.shared⟩ := by
  have hwoken : ∃ (t : Sched χ) (chans : List χ),
      (k.sched.sysKill pid signum).2 = t.wakeAll chans ∧ t.state = k.sched.state ∧
        t.channel = k.sched.channel := by
    unfold Sched.sysKill
    split_ifs
    · exact ⟨_, [], rfl, rfl, rfl⟩
    · obtain ⟨chans, heq⟩ := k.sched.postSignal_eq_wakeAll pid.toNat signum
      exact ⟨_, chans, heq, k.sched.tcbAddPendingSignal_fields _ signum⟩
    · exact ⟨_, [], rfl, rfl, rfl⟩
  have hwf : ∃ q, (k.sched.sysKill pid signum).2.WellFormed q := by
    obtain ⟨q, hq⟩ := h.sched
    exact hq.sysKill fun hkill => absurd hkill hsignum
  obtain ⟨t, chans, heq, hstate, hchannel⟩ := hwoken
  rw [heq] at hwf ⊢
  have hold : ∀ p, ((t.wakeAll chans).state p = .dead → k.sched.state p = .dead) ∧
      ((t.wakeAll chans).state p = .sleep → k.sched.state p = .sleep ∧
        (t.wakeAll chans).channel p = k.sched.channel p) := by
    classical
    intro p
    obtain ⟨hst, hch, -⟩ := t.wakeAll_fields chans p
    rw [hst, hch, hstate, hchannel]
    by_cases hw : t.WokenBy chans p <;> simp [hw]
  exact h.frame hwf rfl rfl (fun p hp => h.cont_of_dead p ((hold p).1 hp))
    (fun p hp => (hold p).2 hp)

end Settled

namespace WaitDiscipline

variable [DecidableEq χ] {M : Monitor χ κ ω ι ρ σ} {guard : Kernel χ κ σ → Op ω ι → Prop}

theorem settled_step (hM : WaitDiscipline inv chanOf waiting M guard) {k next : Kernel χ κ σ}
    {op : Op ω ι} {out : Output ρ} (h : Settled inv chanOf waiting k) (hop : guard k op)
    (hstep : M.Step k op next out) : Settled inv chanOf waiting next := by
  have hkill := hM.noSigkill hop
  have hwf := Monitor.wellFormed_step h.sched hkill.killHarmless hstep
  cases hstep with
  | spawn user hone hlt hdead => exact h.spawned hdead hwf
  | handoff user hcur hone hlt hready => exact h.handedOff hwf
  | yield user => exact h.yielded
  | call user hpath hfinish =>
    have hlt : k.sched.curid < numIds := by
      obtain ⟨q, hq⟩ := h.sched
      exact hq.curid_lt
    exact h.finish (hM.process hop) (hM.call hop hlt h.inv user hpath) hfinish
  | resume hcont hpath hfinish =>
    have hreturn : Settled inv chanOf waiting
        ⟨k.sched.threadSleepReturn, k.cont, k.shared⟩ := by
      obtain ⟨q, hq⟩ := id h.sched
      refine h.frame ⟨q, hq.threadSleepReturn⟩ rfl rfl h.cont_of_dead ?_
      intro p hp
      have hne : p ≠ k.sched.curid := by
        rintro rfl
        exact absurd (hp.symm.trans hq.curid_run) (by decide)
      exact ⟨hp, update_of_ne hne _ _⟩
    exact hreturn.finish (h.process _ _ hcont) (hM.resume h.inv hcont hpath) hfinish
  | intr user hintr =>
    obtain ⟨hinv, hkeeps⟩ := hM.intr h.inv hintr
    exact h.interrupted hinv hkeeps
  | kill user => exact h.signalled hkill
  | terminate user hsched => exact h.terminated user hsched

/-- **No lost wakeups.** Under the discipline, every thread asleep in any state of any run from
boot is waiting on the channel of its own condition. -/
theorem settled_of_run (hM : WaitDiscipline inv chanOf waiting M guard) {shared : σ}
    (hinv : inv (fun _ => none) shared) {trace : List (Op ω ι × Output ρ)}
    {k : Kernel χ κ σ} (run : M.machine.Run guard (Kernel.boot shared) trace k) :
    Settled inv chanOf waiting k :=
  run.invariant (Settled.boot hinv) fun h hop hexec =>
    hM.settled_step h hop (Monitor.step_of_exec hexec)

end WaitDiscipline

/-! ## The subsystem on its own -/

inductive DataOp (κ ω ι : Type*)
  | call (pid : ℕ) (args : ω)
  | resume (pid : ℕ) (cont : κ)
  | intr (irq : ι)

structure Effect (χ κ ρ : Type*) where
  wakes : List χ
  /-- How the path stopped; an interrupt handler just ends. -/
  stop : Option (Stop χ κ ρ)

def Effect.contAfter (effect : Effect χ κ ρ) : Option κ :=
  match effect.stop with
  | some (.block _ cont) => some cont
  | _ => none

def Effect.output (effect : Effect χ κ ρ) (pid : ℕ) : Output ρ :=
  match effect.stop with
  | some (.ret value) => .ret pid value
  | _ => .silent

theorem Path.contAfter_effect (path : Path χ κ ρ σ) :
    (Effect.mk path.wakes (some path.stop)).contAfter = path.contAfter := by
  unfold Effect.contAfter Path.contAfter
  cases path.stop <;> rfl

theorem Kernel.effect_of_finish [DecidableEq χ] {k next : Kernel χ κ σ} {out : Output ρ}
    (hfinish : k.finish path = some (next, out)) : next.shared = path.shared ∧
      next.cont = update k.cont k.sched.curid (Effect.mk path.wakes (some path.stop)).contAfter ∧
      out = (Effect.mk path.wakes (some path.stop)).output k.sched.curid := by
  obtain ⟨value, hstop, rfl, rfl⟩ | ⟨chan, cont, sched, hstop, rfl, -, rfl⟩ :=
    Kernel.finish_cases hfinish
  · simp [Effect.contAfter, Effect.output, hstop]
  · simp [Effect.contAfter, Effect.output, hstop]

namespace Monitor

variable (M : Monitor χ κ ω ι ρ σ)

def dataExec (shared : σ) : DataOp κ ω ι → Option (σ × Effect χ κ ρ)
  | .call pid args =>
    (M.call pid args shared).map fun path => (path.shared, ⟨path.wakes, some path.stop⟩)
  | .resume pid cont =>
    (M.resume pid cont shared).map fun path => (path.shared, ⟨path.wakes, some path.stop⟩)
  | .intr irq => (M.intr irq shared).map fun (shared, wakes) => (shared, ⟨wakes, none⟩)

def dataMachine : Machine σ (DataOp κ ω ι) (Effect χ κ ρ) := ⟨M.dataExec⟩

variable {M} {path : Path χ κ ρ σ}

theorem dataExec_call {pid : ℕ} {args : ω} {shared : σ}
    (hpath : M.call pid args shared = some path) : M.dataMachine.exec shared (.call pid args) =
      some (path.shared, ⟨path.wakes, some path.stop⟩) := by
  simp only [dataMachine, dataExec, hpath, Option.map_some]

theorem dataExec_resume {pid : ℕ} {cont : κ} {shared : σ}
    (hpath : M.resume pid cont shared = some path) : M.dataMachine.exec shared (.resume pid cont) =
      some (path.shared, ⟨path.wakes, some path.stop⟩) := by
  simp only [dataMachine, dataExec, hpath, Option.map_some]

theorem dataExec_intr {irq : ι} {shared after : σ} {wakes : List χ}
    (hintr : M.intr irq shared = some (after, wakes)) :
    M.dataMachine.exec shared (.intr irq) = some (after, ⟨wakes, none⟩) := by
  simp only [dataMachine, dataExec, hintr, Option.map_some]

end Monitor

def Kernel.dataOp (k : Kernel χ κ σ) : Op ω ι → Option (DataOp κ ω ι)
  | .call args => some (.call k.sched.curid args)
  | .resume => (k.cont k.sched.curid).map (.resume k.sched.curid)
  | .intr irq => some (.intr irq)
  | _ => none

namespace Monitor

variable [DecidableEq χ] {M : Monitor χ κ ω ι ρ σ} {k next : Kernel χ κ σ} {op : Op ω ι}
  {out : Output ρ}

theorem dataExec_of_step (hstep : M.Step k op next out) :
    (k.dataOp op = none ∧ next.shared = k.shared) ∨
      ∃ dop effect, k.dataOp op = some dop ∧
        M.dataMachine.exec k.shared dop = some (next.shared, effect) := by
  have hshared : ∀ {k next : Kernel χ κ σ} {path : Path χ κ ρ σ} {out : Output ρ},
      k.finish path = some (next, out) → next.shared = path.shared := by
    intro k next path out hfinish
    obtain ⟨value, -, -, rfl⟩ | ⟨chan, cont, sched, -, -, -, rfl⟩ :=
      Kernel.finish_cases hfinish <;> rfl
  cases hstep with
  | @call args path _ _ user hpath hfinish =>
    have hexec := dataExec_call hpath
    rw [← hshared hfinish] at hexec
    exact Or.inr ⟨.call k.sched.curid args, _, rfl, hexec⟩
  | @resume cont path _ _ hcont hpath hfinish =>
    have hexec := dataExec_resume hpath
    rw [← hshared hfinish] at hexec
    refine Or.inr ⟨.resume k.sched.curid cont, _, ?_, hexec⟩
    simp only [Kernel.dataOp, hcont, Option.map_some]
  | intr user hintr => exact Or.inr ⟨_, _, rfl, dataExec_intr hintr⟩
  | spawn | handoff | yield | kill | terminate => exact Or.inl ⟨rfl, rfl⟩

theorem dataExec_of_ret {pid : ℕ} {value : ρ} (hstep : M.Step k op next (.ret pid value)) :
    pid = k.sched.curid ∧ ∃ dop wakes, k.dataOp op = some dop ∧
      M.dataMachine.exec k.shared dop = some (next.shared, ⟨wakes, some (.ret value)⟩) := by
  have hret : ∀ {k next : Kernel χ κ σ} {path : Path χ κ ρ σ},
      k.finish path = some (next, .ret pid value) →
      pid = k.sched.curid ∧ path.stop = .ret value ∧ next.shared = path.shared := by
    intro k next path hfinish
    obtain ⟨value', hstop, hout, rfl⟩ | ⟨chan, cont, sched, -, hout, -⟩ :=
      Kernel.finish_cases hfinish
    · obtain ⟨rfl, rfl⟩ := Output.ret.inj hout
      exact ⟨rfl, hstop, rfl⟩
    · cases hout
  cases hstep with
  | @call args path _ _ user hpath hfinish =>
    obtain ⟨hpid, hstop, hshared⟩ := hret hfinish
    have hexec := dataExec_call hpath
    rw [hstop, ← hshared] at hexec
    exact ⟨hpid, _, _, rfl, hexec⟩
  | @resume cont path _ _ hcont hpath hfinish =>
    obtain ⟨hpid, hstop, hshared⟩ := hret hfinish
    have hexec := dataExec_resume hpath
    rw [hstop, ← hshared] at hexec
    exact ⟨hpid, _, _, by simp only [Kernel.dataOp, hcont, Option.map_some], hexec⟩

private theorem blocked_of_finish {path : Path χ κ ρ σ} (hfinish : k.finish path = some (next, out))
    (hout : ∀ value, out ≠ .ret k.sched.curid value) :
    ∃ chan cont, path.stop = .block chan cont ∧ next.shared = path.shared ∧
      next.cont = update k.cont k.sched.curid (some cont) := by
  obtain ⟨value, -, hret, -⟩ | ⟨chan, cont, sched, hstop, -, -, rfl⟩ :=
    Kernel.finish_cases hfinish
  · exact absurd hret (hout value)
  · exact ⟨chan, cont, hstop, rfl, rfl⟩

theorem dataExec_of_silent {args : ω} (hstep : M.Step k (.call args) next .silent) :
    ∃ wakes chan cont, M.dataMachine.exec k.shared (.call k.sched.curid args) =
      some (next.shared, ⟨wakes, some (.block chan cont)⟩) ∧
      next.cont = update k.cont k.sched.curid (some cont) := by
  cases hstep with
  | call user hpath hfinish =>
    obtain ⟨chan, cont, hstop, hshared, hcont⟩ :=
      blocked_of_finish hfinish fun _ h => nomatch h
    have hexec := dataExec_call hpath
    rw [hstop, ← hshared] at hexec
    exact ⟨_, chan, cont, hexec, hcont⟩

theorem cont_of_step {p : ℕ} {cont : κ} (hstep : M.Step k op next out)
    (hcont : k.cont p = some cont) (halive : k.sched.state p ≠ .dead)
    (hout : ∀ value, out ≠ .ret p value) :
    next.cont p = some cont ∨ ∃ wakes chan cont', M.dataMachine.exec k.shared (.resume p cont) =
      some (next.shared, ⟨wakes, some (.block chan cont')⟩) ∧ next.cont p = some cont' := by
  cases hstep with
  | @spawn pid user hone hlt hdead =>
    have hne : p ≠ pid := by
      rintro rfl
      exact halive hdead
    exact Or.inl (by simpa [hne] using hcont)
  | handoff | yield | intr | kill | terminate => exact Or.inl hcont
  | call user hpath hfinish =>
    have hne : p ≠ k.sched.curid := by
      rintro rfl
      exact absurd (hcont.symm.trans user) (by simp)
    refine Or.inl ?_
    obtain ⟨_, -, -, rfl⟩ | ⟨_, _, _, -, -, -, rfl⟩ := Kernel.finish_cases hfinish
    · simpa [hne] using hcont
    · simpa [hne] using hcont
  | @resume cont' path _ _ hcur hpath hfinish =>
    by_cases heq : p = k.sched.curid
    · subst heq
      obtain rfl : cont = cont' := Option.some.inj (hcont.symm.trans hcur)
      obtain ⟨chan, cont', hstop, hshared, hnext⟩ := blocked_of_finish hfinish hout
      have hexec := dataExec_resume hpath
      rw [hstop, ← hshared] at hexec
      refine Or.inr ⟨_, chan, cont', hexec, ?_⟩
      rw [hnext]
      exact update_self _ _ _
    · refine Or.inl ?_
      obtain ⟨_, -, -, rfl⟩ | ⟨_, _, _, -, -, -, rfl⟩ := Kernel.finish_cases hfinish
      · simpa [heq, Sched.threadSleepReturn, Sched.tcbSetChan] using hcont
      · simpa [heq, Sched.threadSleepReturn, Sched.tcbSetChan] using hcont

theorem dataRun_of_run {guard : Kernel χ κ σ → Op ω ι → Prop} {dataGuard : σ → DataOp κ ω ι → Prop}
    (hguard : ∀ k op dop, guard k op → k.dataOp op = some dop → dataGuard k.shared dop)
    {first last : Kernel χ κ σ} {trace : List (Op ω ι × Output ρ)}
    (run : M.machine.Run guard first trace last) :
    M.dataMachine.Reachable dataGuard first.shared last.shared := by
  induction run with
  | start => exact ⟨[], .start⟩
  | extend prior admitted realized ih =>
    obtain ⟨-, hsame⟩ | ⟨dop, effect, hdop, hexec⟩ := dataExec_of_step (step_of_exec realized)
    · exact hsame ▸ ih
    · exact ih.trans (.single (hguard _ _ _ admitted hdop) hexec)

end Monitor

end MCertikos.Thread
