/-
# The invariant of the buffer cache

The list of buffers is a circle of all of them, a busy buffer has one holder, and no two buffers
are for the same sector.
-/

import MCertikos.BufCache.State
import MCertikos.Math.Exclusion
import Mathlib.Data.Fintype.Card

namespace MCertikos.BufCache

open Math FS Function Shared

/-! ## Addresses -/

theorem Key.addr_injective {key key' : Key} (h : key.Named) (h' : key'.Named)
    (heq : key.addr = key'.addr) : key = key' := by
  obtain ⟨dev, sector⟩ := key
  obtain ⟨dev', sector'⟩ := key'
  simp only [Named, addr, Prod.mk.injEq] at *
  have hdev := congrArg BitVec.toNat heq.1
  have hsector := congrArg BitVec.toNat heq.2
  simp only [BitVec.toNat_setWidth] at hdev hsector
  simp only [BitVec.lt_def] at h h'
  have htwo : (2 : BitVec 32).toNat = 2 := by decide
  have hpow : (0x10000000 : BitVec 32).toNat = 2 ^ 28 := by decide
  rw [Key.mk.injEq]
  constructor
  · apply BitVec.eq_of_toNat_eq
    omega
  · apply BitVec.eq_of_toNat_eq
    omega

/-! ## What is said of the buffers -/

/-- What is said of a buffer whose holder is at the given point, or that is free; the last argument
says whether it is in the queue of the disks. -/
abbrev Says := Fin nbuf → Hold → Buf → Prop → Prop

def Shared.driveOf (queue : List (Fin nbuf)) (bufs : Fin nbuf → Buf) : Option Command :=
  queue.head?.map fun b => (bufs b).command

/-- Busy buffers have one holder each, and the disks work on the head of their queue.  This holds
whatever is said of the buffers. -/
structure Tracks (say : Says) (w : World) : Prop where
  owner : Exclusive (fun b => (w.shared.bufs b).busy = true) fun p b => w.proc p b ≠ .none
  holds : ∀ {p b}, w.proc p b ≠ .none →
    say b (w.proc p b) (w.shared.bufs b) (b ∈ w.shared.idequeue)
  free : ∀ {b}, (w.shared.bufs b).busy = false →
    say b .none (w.shared.bufs b) (b ∈ w.shared.idequeue)
  nodup : w.shared.idequeue.Nodup
  drive : w.shared.drive = driveOf w.shared.idequeue w.shared.bufs

section Updates

variable {proc : ℕ → Proc} {pid : ℕ} {b : Fin nbuf}

theorem update_hold (hold : Hold) (q : ℕ) (c : Fin nbuf) :
    update proc pid (update (proc pid) b hold) q c =
      if q = pid ∧ c = b then hold else proc q c := by
  by_cases hq : q = pid <;> by_cases hc : c = b <;> simp [hq, hc]

theorem update_hold_of_ne (hold : Hold) (q : ℕ) {c : Fin nbuf} (hc : c ≠ b) :
    update proc pid (update (proc pid) b hold) q c = proc q c := by
  rw [update_hold, if_neg fun hand => hc hand.2]

theorem update_hold_eq_self {hold : Hold} (h : proc pid b = hold) :
    update proc pid (update (proc pid) b hold) = proc := by
  rw [← h, update_eq_self, update_eq_self]

theorem Shared.driveOf_update (queue : List (Fin nbuf)) (bufs : Fin nbuf → Buf) (buf : Buf)
    (hb : b ∉ queue) : driveOf queue (update bufs b buf) = driveOf queue bufs := by
  cases queue with
  | nil => rfl
  | cons c queue =>
    have hcb : c ≠ b := by
      rintro rfl
      exact hb List.mem_cons_self
    simp [driveOf, hcb]

end Updates

variable {w : World} {pid : ℕ} {b : Fin nbuf} {hold : Hold} {key : Key} {say say' : Says}

namespace Tracks

theorem others (h : Tracks say w) (hpid : w.proc pid b ≠ .none) {q : ℕ} (hq : q ≠ pid) :
    w.proc q b = .none := by
  by_contra hne
  exact hq (h.owner.unique hne hpid)

theorem busy (h : Tracks say w) (hpid : w.proc pid b ≠ .none) : (w.shared.bufs b).busy = true :=
  h.owner.flag_of_holds hpid

theorem not_held (h : Tracks say w) (hfree : (w.shared.bufs b).busy = false) (p : ℕ) :
    w.proc p b = .none := by
  by_contra hne
  have hbusy := h.busy hne
  rw [hfree] at hbusy
  cases hbusy

theorem at_hold (h : Tracks say w) (hheld : w.proc pid b = hold) (hne : hold ≠ .none) :
    say b hold (w.shared.bufs b) (b ∈ w.shared.idequeue) := by
  subst hheld
  exact h.holds hne

variable {s' : Shared} {buf : Buf}

/-- One buffer changes hands, or changes in the hands of its holder. -/
theorem change (h : Tracks say w) (hothers : ∀ q, q ≠ pid → w.proc q b = .none)
    (hbufs : s'.bufs = update w.shared.bufs b buf)
    (hqueue : ∀ c, c ≠ b → (c ∈ s'.idequeue ↔ c ∈ w.shared.idequeue))
    (hkeep : ∀ c hold queued, c ≠ b → say c hold (w.shared.bufs c) queued →
      say' c hold (w.shared.bufs c) queued)
    (hbusy : buf.busy = true ↔ hold ≠ .none) (hok : say' b hold buf (b ∈ s'.idequeue))
    (hnodup : s'.idequeue.Nodup) (hdrive : s'.drive = driveOf s'.idequeue s'.bufs) :
    Tracks say' ⟨s', update w.proc pid (update (w.proc pid) b hold)⟩ := by
  have hb : s'.bufs b = buf := by rw [hbufs, update_self]
  have hsame : ∀ c, c ≠ b → s'.bufs c = w.shared.bufs c :=
    fun c hc => by rw [hbufs, update_of_ne hc]
  have hheld : ∀ q, update w.proc pid (update (w.proc pid) b hold) q b ≠ .none ↔
      q = pid ∧ hold ≠ .none := by
    intro q
    rw [update_hold]
    by_cases hq : q = pid
    · simp [hq]
    · simp [hq, hothers q hq]
  refine ⟨⟨fun c => ?_, fun {p q c} hp hq => ?_⟩, fun {p c} hp => ?_, fun {c} hfree => ?_, hnodup,
    hdrive⟩ <;> by_cases hcb : c = b
  · subst hcb
    simp only [hb, hbusy, hheld]
    exact ⟨fun hhold => ⟨pid, rfl, hhold⟩, fun ⟨_, _, hhold⟩ => hhold⟩
  · simp only [hsame c hcb, update_hold_of_ne _ _ hcb]
    exact h.owner.flag_iff c
  · subst hcb
    exact ((hheld p).mp hp).1.trans ((hheld q).mp hq).1.symm
  · dsimp only at hp hq
    rw [update_hold_of_ne _ _ hcb] at hp hq
    exact h.owner.unique hp hq
  · subst hcb
    obtain ⟨rfl, -⟩ := (hheld p).mp hp
    dsimp only
    rw [update_hold, if_pos ⟨rfl, rfl⟩, hb]
    exact hok
  · dsimp only at hp ⊢
    rw [update_hold_of_ne _ p hcb] at hp ⊢
    rw [hsame c hcb, hqueue c hcb]
    exact hkeep c _ _ hcb (h.holds hp)
  · subst hcb
    dsimp only at hfree ⊢
    rw [hb] at hfree ⊢
    have hnone : hold = .none := by
      by_contra hhold
      rw [hbusy.mpr hhold] at hfree
      cases hfree
    exact hnone ▸ hok
  · dsimp only at hfree ⊢
    rw [hsame c hcb] at hfree ⊢
    rw [hqueue c hcb]
    exact hkeep c _ _ hcb (h.free hfree)

/-- The buffer that changes is not in the queue. -/
theorem set (h : Tracks say w) (hothers : ∀ q, q ≠ pid → w.proc q b = .none)
    (hqueued : b ∉ w.shared.idequeue) (hbufs : s'.bufs = update w.shared.bufs b buf)
    (hqueue : s'.idequeue = w.shared.idequeue) (hdrive : s'.drive = w.shared.drive)
    (hkeep : ∀ c hold queued, c ≠ b → say c hold (w.shared.bufs c) queued →
      say' c hold (w.shared.bufs c) queued)
    (hbusy : buf.busy = true ↔ hold ≠ .none) (hok : say' b hold buf (b ∈ w.shared.idequeue)) :
    Tracks say' ⟨s', update w.proc pid (update (w.proc pid) b hold)⟩ := by
  refine h.change hothers hbufs (fun c _ => by rw [hqueue]) hkeep hbusy (hqueue ▸ hok)
    (hqueue ▸ h.nodup) ?_
  rw [hdrive, hqueue, hbufs, driveOf_update _ _ _ hqueued]
  exact h.drive

/-- Only the point at which the holder is changes. -/
theorem move (h : Tracks say w) (hheld : w.proc pid b ≠ .none) (hne : hold ≠ .none)
    (hqueued : b ∉ w.shared.idequeue)
    (hok : say b hold (w.shared.bufs b) (b ∈ w.shared.idequeue)) :
    Tracks say ⟨w.shared, update w.proc pid (update (w.proc pid) b hold)⟩ :=
  h.set (fun _ hq => h.others hheld hq) hqueued (update_eq_self b _).symm rfl rfl
    (fun _ _ _ _ hc => hc) ⟨fun _ => hne, fun _ => h.busy hheld⟩ hok

theorem submit (h : Tracks say w) {wakes : List (Fin nbuf)} (hheld : w.proc pid b ≠ .none)
    (hqueued : b ∉ w.shared.idequeue) (hok : say b (.waiting key) (w.shared.bufs b) True)
    (heffect : w.shared.ideSubmit b = .done s' wakes ()) :
    Tracks say ⟨s', update w.proc pid (update (w.proc pid) b (.waiting key))⟩ ∧
      ∃ queue drive, s' = { w.shared with idequeue := queue, drive := drive } := by
  -- The two cases differ in the drive only.
  have hs' : ∃ drive, s' = { w.shared with
      idequeue := w.shared.idequeue ++ [b], drive := drive } ∧
      drive = driveOf (w.shared.idequeue ++ [b]) w.shared.bufs := by
    simp only [ideSubmit] at heffect
    split_ifs at heffect with hbusy hsynced hdisk hempty <;> cases heffect
    · exact ⟨_, rfl, by simp [driveOf, hempty]⟩
    · refine ⟨_, rfl, h.drive.trans ?_⟩
      simp [driveOf, List.head?_append_of_ne_nil _ hempty]
  obtain ⟨drive, rfl, hdrive⟩ := hs'
  refine ⟨h.change (fun _ hq => h.others hheld hq) (update_eq_self b _).symm (fun c hc => ?_)
    (fun _ _ _ _ hc => hc) ?_ ?_ ?_ hdrive, _, _, rfl⟩
  · simp [hc]
  · simp [h.busy hheld]
  · simpa using hok
  · simpa using List.Nodup.concat hqueued h.nodup

theorem waiting_of_queued (h : Tracks say w)
    (hwaits : ∀ hold, say b hold (w.shared.bufs b) True → ∃ key, hold = .waiting key)
    (hqueued : b ∈ w.shared.idequeue) :
    ∃ p key, w.proc p b = .waiting key ∧ say b (.waiting key) (w.shared.bufs b) True := by
  have hbusy : (w.shared.bufs b).busy = true := by
    by_contra hfree
    have hnone := h.free (by simpa using hfree)
    rw [eq_true hqueued] at hnone
    obtain ⟨key, heq⟩ := hwaits _ hnone
    cases heq
  obtain ⟨p, hp⟩ := (h.owner.flag_iff b).mp hbusy
  have hok := h.holds hp
  rw [eq_true hqueued] at hok
  obtain ⟨key, hkey⟩ := hwaits _ hok
  exact ⟨p, key, hkey, hkey ▸ hok⟩

end Tracks

/-! ## Completing a command -/

def Buf.answered (buf : Buf) (status : Status) (input : Block) : Buf :=
  { buf with
    data := if buf.dirty ∨ status = .error then buf.data else input
    valid := true
    dirty := false }

/-- The head of the queue after the command for it. -/
def Shared.answer (s : Shared) (b : Fin nbuf) (status : Status) : Buf :=
  (s.bufs b).answered status (s.disk (s.bufs b).addr)

section Complete

variable {s : Shared} (status : Status)

theorem Shared.complete_nil (hdrive : s.drive = driveOf s.idequeue s.bufs)
    (hqueue : s.idequeue = []) : (s.complete status).1 = s := by
  have hnone : s.drive = none := by
    rw [hdrive, hqueue]
    rfl
  simp [complete, finish, ideIntr, hnone, hqueue]

theorem Shared.complete_cons {rest : List (Fin nbuf)}
    (hdrive : s.drive = driveOf s.idequeue s.bufs) (hqueue : s.idequeue = b :: rest) :
    (s.complete status).1 = { s with
      idequeue := rest
      bufs := update s.bufs b (s.answer b status)
      drive := driveOf rest (update s.bufs b (s.answer b status))
      disk := if (s.bufs b).dirty then
        update s.disk (s.bufs b).addr (s.bufs b).data else s.disk } := by
  have hcommand : s.drive = some (s.bufs b).command := by
    rw [hdrive, hqueue]
    rfl
  cases hdirty : (s.bufs b).dirty <;> cases status <;> cases rest <;>
    simp [complete, finish, ideIntr, hcommand, hqueue, Buf.command, hdirty, setBuf, ideStart,
      answer, Buf.answered, driveOf]

theorem Tracks.complete (h : Tracks say w) {p : ℕ} {rest : List (Fin nbuf)}
    (hqueue : w.shared.idequeue = b :: rest) (hp : w.proc p b = .waiting key)
    (hkeep : ∀ c hold queued, c ≠ b → say c hold (w.shared.bufs c) queued →
      say' c hold (w.shared.bufs c) queued)
    (hok : say' b (.waiting key) (w.shared.answer b status) False) :
    Tracks say' ⟨(w.shared.complete status).1, w.proc⟩ := by
  have hne : w.proc p b ≠ .none := by simp [hp]
  obtain ⟨hnotMem, hnodup⟩ := List.nodup_cons.mp (hqueue ▸ h.nodup)
  rw [Shared.complete_cons status h.drive hqueue, ← update_hold_eq_self hp]
  refine h.change (fun _ hq => h.others hne hq) rfl (fun c hc => ?_) hkeep ?_ ?_ hnodup rfl
  · simp [hqueue, hc]
  · simp [answer, Buf.answered, h.busy hne]
  · simpa [hnotMem] using hok

end Complete

/-! ## Coherent buffers -/

structure Free (buf : Buf) (queued : Prop) (store : Key → Block) : Prop where
  not_queued : ¬ queued
  named : buf.valid = true → buf.Named
  data : buf.valid = true → buf.data = store buf.toKey
  clean : buf.valid = false → buf.dirty = false

def Hold.Ok (store : Key → Block) (buf : Buf) (queued : Prop) : Hold → Prop
  | .none => Free buf queued store
  | .checking key => buf.toKey = key ∧ key.Named ∧ ¬ queued ∧
      (buf.valid = true → buf.data = store key) ∧ (buf.valid = false → buf.dirty = false)
  | .fetching key => buf.toKey = key ∧ key.Named ∧ ¬ queued ∧
      buf.valid = false ∧ buf.dirty = false
  | .writing key => buf.toKey = key ∧ key.Named ∧ ¬ queued ∧
      buf.valid = true ∧ buf.dirty = true ∧ buf.data = store key
  | .waiting key => buf.toKey = key ∧ key.Named ∧
      (queued ∧ buf.valid = buf.dirty ∧ (buf.dirty = true → buf.data = store key) ∨
        ¬ queued ∧ buf.valid = true ∧ buf.dirty = false ∧ buf.data = store key)
  | .held key changed => buf.toKey = key ∧ key.Named ∧ ¬ queued ∧
      buf.valid = true ∧ (changed = false → buf.data = store key)

/-- A buffer holds what was last written to its sector, unless its holder has changed it since or
it is yet to be read. -/
def coherent (store : Key → Block) : Says := fun _ hold buf queued => hold.Ok store buf queued

section Ok

variable {buf : Buf} {queued : Prop} {store store' : Key → Block}

theorem Hold.Ok.congr (h : hold.Ok store buf queued)
    (hstore : buf.Named → store' buf.toKey = store buf.toKey) : hold.Ok store' buf queued := by
  cases hold with
  | none =>
    refine ⟨h.not_queued, h.named, fun hvalid => ?_, h.clean⟩
    rw [hstore (h.named hvalid)]
    exact h.data hvalid
  | _ =>
    obtain ⟨rfl, hnamed, hrest⟩ := h
    refine ⟨rfl, hnamed, ?_⟩
    simpa only [hstore hnamed] using hrest

theorem Hold.Ok.waiting (h : hold.Ok store buf True) : ∃ key, hold = .waiting key := by
  cases hold with
  | none => exact absurd trivial h.not_queued
  | waiting key => exact ⟨key, rfl⟩
  | _ => exact absurd trivial h.2.2.1

end Ok

/-! ## The invariant -/

def Shared.InCircle (links : RingLinks Node) : Prop :=
  ∃ xs : List (Fin nbuf), links.Circle none (xs.map some) ∧ ∀ b, b ∈ xs

/-- **The invariant of the buffer cache.** The list of buffers is a circle of all of them, no two
are for the same sector, and a sector without a dirty buffer is on disk as it was last written. -/
structure Inv (w : World) : Prop extends Tracks (coherent w.shared.store) w where
  circle : InCircle w.shared.links
  named : ∀ b, (w.shared.bufs b).dev ≠ -1 → (w.shared.bufs b).Named
  unique : ∀ b c, (w.shared.bufs b).Named → (w.shared.bufs b).toKey = (w.shared.bufs c).toKey →
    b = c
  clean : ∀ key : Key, key.Named →
    (∀ b, (w.shared.bufs b).toKey = key → (w.shared.bufs b).dirty = false) →
    w.shared.store key = w.shared.disk key.addr

/-! ## The steps -/

section Search

variable {s : Shared} {test : Buf → Bool}

theorem Shared.search_eq {xs : List (Fin nbuf)} (step : Node → Node)
    (hsearch : ∀ test,
      Links.search none step test nbuf (step none) = some ((xs.map some).find? test))
    (test : Buf → Bool) : s.search step test = xs.find? fun b => test (s.bufs b) := by
  simp only [search, hsearch, Option.getD_some]
  rw [List.find?_map]
  change (Option.map some (xs.find? fun b => test (s.bufs b))).join = _
  cases xs.find? fun b => test (s.bufs b) with
  | none => rfl
  | some b => rfl

theorem Shared.search_passes {step : Node → Node} (h : s.search step test = some b) :
    test (s.bufs b) = true := by
  unfold search at h
  cases hfound : Links.search none step (fun node => node.any fun b => test (s.bufs b)) nbuf
      (step none) with
  | none => simp [hfound] at h
  | some found =>
    cases found with
    | none => simp [hfound] at h
    | some node =>
      have hpasses := Links.search_passes hfound
      obtain rfl : node = some b := by simpa [hfound] using h
      simpa using hpasses

/-- The search takes the buffers in the order of the list. -/
theorem Shared.search_circle {xs : List (Fin nbuf)} (h : s.links.Circle none (xs.map some))
    (test : Buf → Bool) : s.search s.links.next test = xs.find? fun b => test (s.bufs b) := by
  have hnodup : xs.Nodup := (List.nodup_cons.mp h.nodup).2.of_map some
  have hlength : (xs.map some).length ≤ nbuf := by
    simpa using hnodup.length_le_card
  exact search_eq _ (fun test => h.search_next test hlength) test

theorem Shared.bufcacheGet_done {s' : Shared} {wakes : List (Fin nbuf)}
    (heffect : s.bufcacheGet key = .done s' wakes b) : (s.bufs b).busy = false ∧
      ((s.bufs b).toKey = key ∧ s' = s.setBuf b (fun buf => { buf with busy := true }) ∨
        s.search s.links.next (fun buf => buf.toKey = key) = none ∧ (s.bufs b).dirty = false ∧
          s' = s.setBuf b fun buf =>
            { buf with toKey := key, busy := true, valid := false, dirty := false }) := by
  unfold bufcacheGet at heffect
  split at heffect
  · next c hfind =>
    split at heffect
    · cases heffect
    · next hfree =>
      cases heffect
      exact ⟨by simpa using hfree, .inl ⟨by simpa using search_passes hfind, rfl⟩⟩
  · next hnone =>
    split at heffect
    · next c hfind =>
      cases heffect
      have hpasses := search_passes hfind
      simp only [Bool.and_eq_true, Bool.not_eq_true'] at hpasses
      exact ⟨hpasses.1, .inr ⟨hnone, hpasses.2, rfl⟩⟩
    · cases heffect

end Search

namespace Inv

theorem unique_ne (h : Inv w) {c : Fin nbuf} (hc : c ≠ b) (hnamed : (w.shared.bufs b).Named) :
    (w.shared.bufs c).toKey ≠ (w.shared.bufs b).toKey :=
  fun heq => hc (h.unique b c hnamed heq.symm).symm

variable {s' : Shared}

theorem of_keys (h : Inv w) {proc : ℕ → Proc} (htracks : Tracks (coherent s'.store) ⟨s', proc⟩)
    (hcircle : InCircle s'.links)
    (hkeys : ∀ c, (s'.bufs c).toKey = (w.shared.bufs c).toKey)
    (hclean : ∀ key : Key, key.Named →
      (∀ b, (w.shared.bufs b).toKey = key → (s'.bufs b).dirty = false) →
      s'.store key = s'.disk key.addr) : Inv ⟨s', proc⟩ where
  toTracks := htracks
  circle := hcircle
  named c := by
    have hnamed := h.named c
    rw [← hkeys c] at hnamed
    exact hnamed
  unique c d := by
    have hunique := h.unique c d
    rw [← hkeys c, ← hkeys d] at hunique
    exact hunique
  clean key hnamed hafter := hclean key hnamed fun c => by
    rw [← hkeys c]
    exact hafter c

/-- A buffer that is not in the queue changes in something else than its sector and `B_DIRTY`. -/
theorem set (h : Inv w) {f : Buf → Buf} {links : RingLinks Node} (hcircle : InCircle links)
    (hothers : ∀ q, q ≠ pid → w.proc q b = .none) (hqueued : b ∉ w.shared.idequeue)
    (hkey : (f (w.shared.bufs b)).toKey = (w.shared.bufs b).toKey)
    (hdirty : (f (w.shared.bufs b)).dirty = (w.shared.bufs b).dirty)
    (hbusy : (f (w.shared.bufs b)).busy = true ↔ hold ≠ .none)
    (hok : hold.Ok w.shared.store (f (w.shared.bufs b)) (b ∈ w.shared.idequeue)) :
    Inv ⟨{ w.shared.setBuf b f with links := links },
      update w.proc pid (update (w.proc pid) b hold)⟩ := by
  refine h.of_keys (h.toTracks.set hothers hqueued rfl rfl rfl (fun _ _ _ _ hc => hc) hbusy hok)
    hcircle (fun c => ?_) fun key hnamed hclean => ?_
  · by_cases hc : c = b
    · simp [setBuf, hc, hkey]
    · simp [setBuf, hc]
  · apply h.clean key hnamed
    intro c hc
    rw [← hclean c hc]
    by_cases hcb : c = b
    · simp [setBuf, hcb, hdirty]
    · simp [setBuf, hcb]

theorem move (h : Inv w) (hheld : w.proc pid b ≠ .none) (hne : hold ≠ .none)
    (hqueued : b ∉ w.shared.idequeue)
    (hok : hold.Ok w.shared.store (w.shared.bufs b) (b ∈ w.shared.idequeue)) :
    Inv ⟨w.shared, update w.proc pid (update (w.proc pid) b hold)⟩ :=
  h.of_keys (h.toTracks.move hheld hne hqueued hok) h.circle (fun _ => rfl) h.clean

theorem get_hit (h : Inv w) (hnamed : key.Named) (hkey : (w.shared.bufs b).toKey = key)
    (hfree : (w.shared.bufs b).busy = false) :
    Inv ⟨w.shared.setBuf b fun buf => { buf with busy := true },
      update w.proc pid (update (w.proc pid) b (.checking key))⟩ := by
  have hbuf : Free .. := h.free hfree
  refine h.set (f := fun buf => { buf with busy := true }) h.circle (fun q _ => h.not_held hfree q)
    hbuf.not_queued rfl rfl (by simp) ?_
  exact ⟨hkey, hnamed, hbuf.not_queued, fun hvalid => hkey ▸ hbuf.data hvalid, hbuf.clean⟩

theorem get_miss (h : Inv w) (hnamed : key.Named) (hnew : ∀ c, (w.shared.bufs c).toKey ≠ key)
    (hfree : (w.shared.bufs b).busy = false) (hclean : (w.shared.bufs b).dirty = false) :
    Inv ⟨w.shared.setBuf b fun buf =>
        { buf with toKey := key, busy := true, valid := false, dirty := false },
      update w.proc pid (update (w.proc pid) b (.checking key))⟩ := by
  have hbuf : Free .. := h.free hfree
  have hsame : ∀ {c}, c ≠ b → update w.shared.bufs b
      { w.shared.bufs b with toKey := key, busy := true, valid := false, dirty := false } c =
        w.shared.bufs c := fun hc => update_of_ne hc _ _
  refine ⟨h.toTracks.set (fun q _ => h.not_held hfree q) hbuf.not_queued rfl rfl rfl
    (fun _ _ _ _ hc => hc) (by simp) ?_, h.circle, fun c => ?_, fun c d => ?_,
    fun key' hnamed' hafter => ?_⟩
  · exact ⟨rfl, hnamed, hbuf.not_queued, by simp, by simp⟩
  · by_cases hcb : c = b
    · simp [setBuf, hcb, hnamed]
    · simpa [setBuf, hcb] using h.named c
  · by_cases hcb : c = b <;> by_cases hdb : d = b
    · simp [hcb, hdb]
    · simpa [setBuf, hcb, hdb] using fun _ heq => absurd heq.symm (hnew d)
    · simpa [setBuf, hcb, hdb] using fun _ heq => absurd heq (hnew c)
    · simpa [setBuf, hcb, hdb] using h.unique c d
  · -- The old sector of the buffer is on disk as well, since the buffer was clean.
    apply h.clean key' hnamed'
    intro c hc
    by_cases hcb : c = b
    · rw [hcb]
      exact hclean
    · have hc' := hafter c
      simp only [setBuf, hsame hcb] at hc'
      exact hc' hc

theorem setDirty (h : Inv w) {changed : Bool} (hheld : w.proc pid b = .held key changed)
    (hhold : hold = .writing key ∨ hold = .held key false) :
    Inv ⟨w.shared.setDirty b,
      update w.proc pid (update (w.proc pid) b hold)⟩ := by
  have hne : w.proc pid b ≠ .none := by simp [hheld]
  obtain ⟨hkey, hnamed, hqueued, hvalid, -⟩ : Hold.Ok .. := h.at_hold hheld (by simp)
  have hstore : (w.shared.setDirty b).store key = (w.shared.bufs b).data := by
    simp [Shared.setDirty, hkey]
  have hother : ∀ key', key' ≠ key → (w.shared.setDirty b).store key' = w.shared.store key' := by
    intro key' hkey'
    simp [Shared.setDirty, hkey, hkey']
  have hkeep : ∀ c hold queued, c ≠ b → coherent w.shared.store c hold (w.shared.bufs c) queued →
      coherent (w.shared.setDirty b).store c hold (w.shared.bufs c) queued := by
    intro c hold queued hc hok
    apply Hold.Ok.congr hok
    intro _
    apply hother
    rw [← hkey]
    exact h.unique_ne hc (hkey ▸ hnamed)
  have hok : hold.Ok (w.shared.setDirty b).store { w.shared.bufs b with dirty := true }
      (b ∈ w.shared.idequeue) := by
    obtain rfl | rfl := hhold
    · exact ⟨hkey, hnamed, hqueued, hvalid, rfl, hstore.symm⟩
    · exact ⟨hkey, hnamed, hqueued, hvalid, fun _ => hstore.symm⟩
  have hbusy : (w.shared.bufs b).busy = true ↔ hold ≠ .none := by
    obtain rfl | rfl := hhold <;> simp [h.busy hne]
  refine h.of_keys (h.toTracks.set (fun q hq => h.others hne hq) hqueued rfl rfl rfl hkeep hbusy
    hok) h.circle (fun c => ?_) fun key' hnamed' hclean => ?_
  · by_cases hc : c = b <;> simp [Shared.setDirty, setBuf, hc]
  · have hkey' : key' ≠ key := by
      rintro rfl
      have hdirty := hclean b hkey
      simp [Shared.setDirty, setBuf] at hdirty
    rw [hother key' hkey']
    apply h.clean key' hnamed'
    intro c hc
    by_cases hcb : c = b
    · subst hcb
      exact absurd (hc.symm.trans hkey) hkey'
    · simpa [Shared.setDirty, setBuf, hcb] using hclean c hc

end Inv

end MCertikos.BufCache
