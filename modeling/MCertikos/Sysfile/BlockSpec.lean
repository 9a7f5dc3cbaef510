/-
# Buffers and the log keep to the discipline

Each function of `bufcache.c`, `log.c` and `block.c`, and what it needs of the process that calls
it.
-/

import MCertikos.Sysfile.Block
import MCertikos.Sysfile.Discipline

namespace MCertikos.Sysfile

open Math FS

namespace Proc

def hold (l : Proc) (b : ℕ) (sector : Sector) : Proc :=
  { l with bufs := (b, sector) :: l.bufs }

@[simp] theorem hold_after_bufRelease (l : Proc) (b : ℕ) (sector : Sector) (r : Unit) :
    (l.hold b sector).after (.bufRelease b) r = l := by
  simp [after, hold]

theorem hold_hold_after_bufRelease (l : Proc) (a b : ℕ) (s s' : Sector) (r : Unit) :
    ∃ s'', ((l.hold a s).hold b s').after (.bufRelease a) r = l.hold b s'' := by
  by_cases hab : b = a
  · exact ⟨s, by simp [after, hold, hab]⟩
  · exact ⟨s', by simp [after, hold, hab]⟩

end Proc

def Act.plain : Act → Bool
  | .bufValid _ | .bufData _ | .bufSuperblock _ | .bufFirstFree _ _ _ | .bufModify _ _
  | .bufSetDirty _ | .bufWrite _ | .ideSubmit _ | .logSetRegion _ | .logModify _
  | .inodeLoad _ | .inodeModify _ _ | .inodeSetValid _ | .fileAdvance _ _ => true
  | _ => false

namespace Rules

variable {R : Rules} {l : Proc} {β γ : Type} {Q : β → Proc → Prop}

def Keeps (R : Rules) (t : Code β) (l : Proc) : Prop :=
  t.wp R.discipline (fun _ l' => l' = l) l

theorem Keeps.wp {t : Code β} (h : R.Keeps t l) (hpost : ∀ v, Q v l) : t.wp R.discipline Q l := by
  apply Task.wp_mono h
  rintro v _ rfl
  exact hpost v

theorem Keeps.bind {t : Code γ} {f : γ → Code β} (h : R.Keeps t l)
    (hf : ∀ v, (f v).wp R.discipline Q l) : (t >>= f).wp R.discipline Q l :=
  Task.wp_bind (h.wp hf)

theorem keeps_pure (v : β) : R.Keeps (pure v) l := rfl

theorem wp_act {a : Act} {Q : a.Res → Proc → Prop} (hlock : l.LockOk a) (hok : R.Ok l a)
    (hpost : ∀ r, l.LockAllow a r → R.Allow l a r → Q r (l.after a r)) :
    (act a).wp R.discipline Q l :=
  ⟨⟨hlock, hok⟩, fun r hr => hpost r hr.1 hr.2⟩

theorem keeps_of_plain {a : Act} (ha : a.plain = true) : R.Keeps (act a) l := by
  cases a <;> first | cases ha; done | exact ⟨⟨trivial, trivial⟩, fun _ _ => rfl⟩

theorem act_bind {a : Act} {f : a.Res → Code β} (hlock : l.LockOk a) (hok : R.Ok l a)
    (hf : ∀ r, l.LockAllow a r → R.Allow l a r → (f r).wp R.discipline Q (l.after a r)) :
    (act a >>= f).wp R.discipline Q l :=
  Task.wp_bind (wp_act hlock hok hf)

theorem plain_bind {a : Act} {f : a.Res → Code β} (ha : a.plain = true)
    (hf : ∀ r, (f r).wp R.discipline Q l) : (act a >>= f).wp R.discipline Q l :=
  (keeps_of_plain ha).bind hf

theorem wp_stop {reason : Stop} (hreason : reason ≠ .writeOutsideTrans) :
    (stop reason : Code β).wp R.discipline Q l := by
  refine ⟨⟨trivial, ?_⟩, fun r => nomatch r⟩
  cases reason <;> trivial

/-! ## When blocks may be written -/

structure MayWrite (R : Rules) (l : Proc) : Prop where
  bufLock : l.bufLock = R.rw
  trans : R.strict → l.trans = true

theorem MayWrite.hold (h : R.MayWrite l) (b : ℕ) (sector : Sector) :
    R.MayWrite (l.hold b sector) := ⟨h.bufLock, h.trans⟩

/-! ## `bufcache.c` and `ide.c` -/

theorem keeps_ideRw (hl : l.bufLock = R.rw) (b : ℕ) : R.Keeps (ideRw b) l := by
  apply plain_bind rfl
  intro _
  exact wp_act trivial hl fun _ _ _ => rfl

variable {sector : Sector}

theorem bufcacheRead_wp {Q : ℕ → Proc → Prop} (hl : l.bufLock = R.rw)
    (hpost : ∀ b, Q b (l.hold b sector)) : (bufcacheRead sector).wp R.discipline Q l := by
  refine act_bind trivial hl fun b _ _ => ?_
  apply plain_bind rfl
  intro valid
  split
  · exact hpost b
  · apply (keeps_ideRw (l := l.hold b sector) hl b).bind
    intro _
    exact hpost b

theorem keeps_bufcacheWrite (hl : l.bufLock = R.rw) (b : ℕ) : R.Keeps (bufcacheWrite b) l := by
  apply plain_bind rfl
  intro _
  exact keeps_ideRw hl b

theorem bufcacheRelease_wp {Q : Unit → Proc → Prop} {b : ℕ} (hpost : ∀ v, Q v l) :
    (bufcacheRelease b).wp R.discipline Q (l.hold b sector) := by
  refine wp_act ⟨sector, List.mem_cons_self⟩ trivial fun r _ _ => ?_
  rw [Proc.hold_after_bufRelease]
  exact hpost r

theorem bufcacheRead_bind {f : ℕ → Code β} (hl : l.bufLock = R.rw)
    (hf : ∀ b, (f b).wp R.discipline Q (l.hold b sector)) :
    (bufcacheRead sector >>= f).wp R.discipline Q l :=
  Task.wp_bind (bufcacheRead_wp hl hf)

theorem bufcacheRelease_bind {b : ℕ} {f : Unit → Code β} (hf : ∀ v, (f v).wp R.discipline Q l) :
    (bufcacheRelease b >>= f).wp R.discipline Q (l.hold b sector) :=
  Task.wp_bind (bufcacheRelease_wp hf)

/-! ## `log.c` -/

theorem keeps_logGet : R.Keeps (act .logGet) l :=
  wp_act trivial trivial fun _ _ _ => rfl

section Recovery

variable (hl : l.bufLock = R.rw)

include hl

theorem keeps_readSuperblock : R.Keeps readSuperblock l := by
  apply bufcacheRead_bind hl
  intro bp
  apply plain_bind rfl
  intro sb
  apply bufcacheRelease_bind
  intro _
  exact keeps_pure sb

theorem keeps_installOne (log : Log) (tail : ℕ) : R.Keeps (installOne log tail) l := by
  apply bufcacheRead_bind hl
  intro lbuf
  apply keeps_logGet.bind
  intro log'
  apply bufcacheRead_bind (l := l.hold _ _) hl
  intro dbuf
  apply plain_bind rfl
  intro data
  apply plain_bind rfl
  intro _
  apply (keeps_bufcacheWrite (l := (l.hold _ _).hold _ _) hl dbuf).bind
  intro _
  apply Task.wp_bind
  -- The two buffers are released in the order they were taken.
  refine wp_act ⟨_, List.mem_cons_of_mem _ List.mem_cons_self⟩ trivial fun r _ _ => ?_
  obtain ⟨sector, hrelease⟩ := l.hold_hold_after_bufRelease lbuf dbuf _ _ r
  rw [hrelease]
  exact bufcacheRelease_wp fun _ => rfl

theorem keeps_installFrom (fuel tail : ℕ) : R.Keeps (installFrom fuel tail) l := by
  induction fuel generalizing tail with
  | zero => exact wp_stop (by decide)
  | succ fuel ih =>
    apply keeps_logGet.bind
    intro log
    split
    · apply (keeps_installOne hl log tail).bind
      intro _
      exact ih (tail + 1)
    · exact keeps_pure ()

theorem keeps_installTrans : R.Keeps installTrans l :=
  keeps_installFrom hl _ _

theorem keeps_readHead : R.Keeps readHead l := by
  apply keeps_logGet.bind
  intro log
  apply bufcacheRead_bind hl
  intro buf
  apply plain_bind rfl
  intro data
  apply plain_bind rfl
  intro _
  exact bufcacheRelease_wp fun _ => rfl

theorem keeps_writeHead : R.Keeps writeHead l := by
  apply keeps_logGet.bind
  intro log
  apply bufcacheRead_bind hl
  intro buf
  apply keeps_logGet.bind
  intro log'
  apply plain_bind rfl
  intro _
  apply (keeps_bufcacheWrite (l := l.hold _ _) hl buf).bind
  intro _
  exact bufcacheRelease_wp fun _ => rfl

theorem keeps_recoverFromLog : R.Keeps recoverFromLog l := by
  apply (keeps_readHead hl).bind
  intro _
  apply (keeps_installTrans hl).bind
  intro _
  apply plain_bind rfl
  intro _
  exact keeps_writeHead hl

theorem keeps_logInit : R.Keeps logInit l := by
  apply (keeps_readSuperblock hl).bind
  intro sb
  apply plain_bind rfl
  intro _
  exact keeps_recoverFromLog hl

end Recovery

theorem beginTrans_wp {Q : Unit → Proc → Prop} (hl : l.bufLock = R.rw)
    (hpost : ∀ v, Q v { l with trans := true }) : beginTrans.wp R.discipline Q l :=
  wp_act trivial hl fun v _ _ => hpost v

theorem commitTrans_wp {Q : Unit → Proc → Prop} (hl : l.bufLock = R.rw) (htrans : l.trans = true)
    (hpost : ∀ v, Q v { l with trans := false }) : commitTrans.wp R.discipline Q l := by
  have hrelease : ((fun _ => act .logRelease : Unit → Code Unit) ()).wp R.discipline Q l :=
    wp_act htrans trivial fun v _ _ => hpost v
  apply keeps_logGet.bind
  intro log
  split
  · apply (keeps_writeHead hl).bind
    intro _
    apply (keeps_installTrans hl).bind
    intro _
    apply plain_bind rfl
    intro _
    apply (keeps_writeHead hl).bind
    intro _
    exact hrelease
  · exact hrelease

theorem keeps_logWrite (hl : R.MayWrite l) (b : ℕ) (sector : Sector) :
    R.Keeps (logWrite b sector) l := by
  refine act_bind trivial trivial fun log hlog _ => ?_
  split_ifs with hfull hbusy
  · exact wp_stop (by decide)
  · refine ⟨⟨trivial, fun hs => ?_⟩, fun r => nomatch r⟩
    rw [hlog (hl.trans hs)] at hbusy
    cases hbusy
  · apply plain_bind rfl
    intro _
    apply bufcacheRead_bind hl.bufLock
    intro lbuf
    apply plain_bind rfl
    intro data
    apply plain_bind rfl
    intro _
    apply (keeps_bufcacheWrite (hl.hold _ _).bufLock lbuf).bind
    intro _
    apply bufcacheRelease_bind
    intro _
    apply plain_bind rfl
    intro _
    exact keeps_of_plain rfl

/-! ## `block.c` -/

theorem keeps_blockZero (hl : R.MayWrite l) (bno : Sector) : R.Keeps (blockZero bno) l := by
  apply bufcacheRead_bind hl.bufLock
  intro bp
  apply plain_bind rfl
  intro _
  apply (keeps_logWrite (hl.hold _ _) bp bno).bind
  intro _
  exact bufcacheRelease_wp fun _ => rfl

theorem keeps_allocFrom (hl : R.MayWrite l) (sb : Superblock) (ks : List ℕ) :
    R.Keeps (allocFrom sb ks) l := by
  induction ks with
  | nil => exact wp_stop (by decide)
  | cons k ks ih =>
    apply bufcacheRead_bind hl.bufLock
    intro bp
    apply plain_bind rfl
    intro bi
    cases bi with
    | some bi =>
      apply plain_bind rfl
      intro _
      apply (keeps_logWrite (hl.hold _ _) bp _).bind
      intro _
      apply bufcacheRelease_bind
      intro _
      apply (keeps_blockZero hl _).bind
      intro _
      exact keeps_pure _
    | none =>
      apply bufcacheRelease_bind
      intro _
      exact ih

theorem keeps_blockAlloc (hl : R.MayWrite l) : R.Keeps blockAlloc l := by
  apply (keeps_readSuperblock hl.bufLock).bind
  intro sb
  exact keeps_allocFrom hl sb _

theorem keeps_blockFree (hl : R.MayWrite l) (b : Sector) : R.Keeps (blockFree b) l := by
  apply (keeps_readSuperblock hl.bufLock).bind
  intro sb
  apply bufcacheRead_bind hl.bufLock
  intro bp
  apply plain_bind rfl
  intro data
  split
  · exact wp_stop (by decide)
  · apply plain_bind rfl
    intro _
    apply (keeps_logWrite (hl.hold _ _) bp _).bind
    intro _
    exact bufcacheRelease_wp fun _ => rfl

end Rules

end MCertikos.Sysfile
