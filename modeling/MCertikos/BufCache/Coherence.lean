/-
# Coherence of the buffer cache

The clients change only buffers they hold, and write a buffer they have changed before they
release it.
-/

import MCertikos.BufCache.Inv

namespace MCertikos.BufCache

open Math FS Function Shared

variable {w : World} {pid : ℕ} {b : Fin nbuf} {key : Key} {changed : Bool}

/-! ## Releasing and completing -/

theorem Shared.InCircle.moveFront {links : RingLinks Node} (h : InCircle links)
    (b : Fin nbuf) : InCircle ((links.unlink (some b)).insertFront none (some b)) := by
  obtain ⟨xs, hcircle, hall⟩ := h
  obtain ⟨ys, zs, rfl⟩ := List.append_of_mem (hall b)
  rw [List.map_append, List.map_cons] at hcircle
  refine ⟨b :: (ys ++ zs), ?_, fun c => ?_⟩
  · rw [List.map_cons, List.map_append]
    exact hcircle.moveFront
  · have hc := hall c
    simp only [List.mem_append, List.mem_cons] at hc ⊢
    tauto

namespace Inv

theorem release (h : Inv w) (hheld : w.proc pid b = .held key false) :
    Inv ⟨{ w.shared.setBuf b fun buf => { buf with busy := false } with
        links := (w.shared.links.unlink (some b)).insertFront none (some b) },
      update w.proc pid (update (w.proc pid) b .none)⟩ := by
  have hne : w.proc pid b ≠ .none := by simp [hheld]
  obtain ⟨hkey, hnamed, hqueued, hvalid, hdata⟩ : Hold.Ok .. := h.at_hold hheld (by simp)
  refine h.set (f := fun buf => { buf with busy := false }) (h.circle.moveFront b)
    (fun q hq => h.others hne hq) hqueued rfl rfl (by simp)
    ⟨hqueued, fun _ => hkey ▸ hnamed, fun _ => hkey ▸ hdata rfl, ?_⟩
  intro hinvalid
  rw [hvalid] at hinvalid
  cases hinvalid

theorem modify (h : Inv w) (f : Block → Block) (hheld : w.proc pid b = .held key changed) :
    Inv ⟨w.shared.setBuf b fun buf => { buf with data := f buf.data },
      update w.proc pid (update (w.proc pid) b (.held key true))⟩ := by
  have hne : w.proc pid b ≠ .none := by simp [hheld]
  obtain ⟨hkey, hnamed, hqueued, hvalid, -⟩ : Hold.Ok .. := h.at_hold hheld (by simp)
  refine h.set (f := fun buf => { buf with data := f buf.data }) h.circle
    (fun q hq => h.others hne hq) hqueued rfl rfl ?_
    ⟨hkey, hnamed, hqueued, hvalid, fun heq => by cases heq⟩
  simp [h.busy hne]

theorem complete (h : Inv w) : Inv ⟨(w.shared.complete .ready).1, w.proc⟩ := by
  cases hqueue : w.shared.idequeue with
  | nil =>
    rw [complete_nil .ready h.drive hqueue]
    exact h
  | cons b rest =>
    obtain ⟨p, key, hp, hkey, hnamed, hbuf⟩ := h.waiting_of_queued (b := b)
      (fun _ hok => Hold.Ok.waiting hok) (hqueue ▸ List.mem_cons_self)
    have hdata : (w.shared.bufs b).dirty = true →
        (w.shared.bufs b).data = w.shared.store key := (hbuf.resolve_right (by simp)).2.2
    -- A buffer that is read gets what was last written, since nothing for its sector is dirty.
    have hread : (w.shared.bufs b).dirty = false →
        w.shared.store key = w.shared.disk key.addr := by
      intro hclean
      apply h.clean key hnamed
      intro c hc
      rw [← h.unique b c (hkey ▸ hnamed) (hkey.trans hc.symm)]
      exact hclean
    have hanswer : (w.shared.answer b .ready).data = w.shared.store key := by
      cases hdirty : (w.shared.bufs b).dirty with
      | true => simp [answer, Buf.answered, hdirty, hdata hdirty]
      | false => simp [answer, Buf.answered, hdirty, hread hdirty, hkey]
    have htracks : Tracks (coherent w.shared.store) ⟨(w.shared.complete .ready).1, w.proc⟩ :=
      h.toTracks.complete .ready hqueue hp (fun _ _ _ _ hc => hc)
        ⟨hkey, hnamed, .inr ⟨id, rfl, rfl, hanswer⟩⟩
    rw [complete_cons .ready h.drive hqueue] at htracks ⊢
    refine h.of_keys htracks h.circle (fun c => ?_) fun key' hnamed' hclean => ?_
    · by_cases hc : c = b <;> simp [answer, Buf.answered, hc]
    · by_cases hkey' : key' = key
      · subst hkey'
        cases hdirty : (w.shared.bufs b).dirty with
        | true => simp [hkey, hdata hdirty]
        | false => simpa using hread hdirty
      · have hstore : w.shared.store key' = w.shared.disk key'.addr := by
          apply h.clean key' hnamed'
          intro c hc
          have hcb : c ≠ b := by
            rintro rfl
            exact hkey' (hc.symm.trans hkey)
          simpa [hcb] using hclean c hc
        have haddr : key'.addr ≠ (w.shared.bufs b).addr := by
          rw [hkey]
          exact fun heq => hkey' (Key.addr_injective hnamed' hnamed heq)
        cases hdirty : (w.shared.bufs b).dirty <;> simp [hstore, haddr]

end Inv

/-! ## The discipline -/

def Proc.Ok (l : Proc) : Act → Prop
  | .valid b => ∃ key, l b = .checking key
  | .write b => ∃ key changed, l b = .held key changed
  | .submit b => ∃ key, l b = .fetching key ∨ l b = .writing key
  | .wait b => ∃ key, l b = .waiting key
  | .release b => ∃ key, l b = .held key false
  | .modify b _ => ∃ key changed, l b = .held key changed
  | .pin b => ∃ key changed, l b = .held key changed
  | _ => True

def Proc.Allow (l : Proc) : (a : Act) → a.Res → Prop
  | .get _, b => l b = .none
  | _, _ => True

def discipline : Discipline iface Proc where
  ok := Proc.Ok
  allow := Proc.Allow
  next := Proc.after

def Act.request : Act → Option Key
  | .get wanted => some wanted
  | _ => none

def Act.Named (a : Act) : Prop := ∀ key ∈ a.request, key.Named

instance (a : Act) : Decidable a.Named := inferInstanceAs (Decidable (∀ key ∈ a.request, _))

namespace Inv

variable {wakes : List (Fin nbuf)} {s' : Shared}

theorem get (h : Inv w) (hnamed : key.Named)
    (heffect : w.shared.bufcacheGet key = .done s' wakes b) :
    Inv ⟨s', update w.proc pid (update (w.proc pid) b (.checking key))⟩ ∧
      w.proc pid b = .none := by
  obtain ⟨hfree, ⟨hkey, rfl⟩ | ⟨hnone, hclean, rfl⟩⟩ := bufcacheGet_done heffect
  · exact ⟨h.get_hit hnamed hkey hfree, h.not_held hfree pid⟩
  · obtain ⟨xs, hcircle, hall⟩ := h.circle
    rw [search_circle hcircle] at hnone
    refine ⟨h.get_miss hnamed (fun c => ?_) hfree hclean, h.not_held hfree pid⟩
    simpa using List.find?_eq_none.mp hnone c (hall c)

theorem valid (h : Inv w) (hheld : w.proc pid b = .checking key) :
    Inv ⟨w.shared, update w.proc pid (update (w.proc pid) b
      (if (w.shared.bufs b).valid then .held key false else .fetching key))⟩ := by
  have hne : w.proc pid b ≠ .none := by simp [hheld]
  obtain ⟨hkey, hnamed, hqueued, hdata, hclean⟩ : Hold.Ok .. := h.at_hold hheld (by simp)
  cases hvalid : (w.shared.bufs b).valid with
  | true =>
    exact h.move hne (by simp) hqueued ⟨hkey, hnamed, hqueued, hvalid, fun _ => hdata hvalid⟩
  | false => exact h.move hne (by simp) hqueued ⟨hkey, hnamed, hqueued, hvalid, hclean hvalid⟩

theorem submit (h : Inv w) (hheld : w.proc pid b = .fetching key ∨ w.proc pid b = .writing key)
    (heffect : w.shared.ideSubmit b = .done s' wakes ()) :
    Inv ⟨s', update w.proc pid (update (w.proc pid) b (.waiting key))⟩ := by
  have hne : w.proc pid b ≠ .none := by
    obtain hheld | hheld := hheld <;> simp [hheld]
  have hbuf : b ∉ w.shared.idequeue ∧
      (Hold.waiting key).Ok w.shared.store (w.shared.bufs b) True := by
    obtain hheld | hheld := hheld
    · obtain ⟨hkey, hnamed, hqueued, hvalid, hdirty⟩ : Hold.Ok .. := h.at_hold hheld (by simp)
      exact ⟨hqueued, hkey, hnamed, .inl ⟨trivial, by rw [hvalid, hdirty], by simp [hdirty]⟩⟩
    · obtain ⟨hkey, hnamed, hqueued, hvalid, hdirty, hdata⟩ : Hold.Ok .. :=
        h.at_hold hheld (by simp)
      exact ⟨hqueued, hkey, hnamed, .inl ⟨trivial, by rw [hvalid, hdirty], fun _ => hdata⟩⟩
  obtain ⟨htracks, queue, drive, rfl⟩ := h.toTracks.submit hne hbuf.1 hbuf.2 heffect
  exact h.of_keys htracks h.circle (fun _ => rfl) h.clean

theorem wait (h : Inv w) (hheld : w.proc pid b = .waiting key)
    (hvalid : (w.shared.bufs b).valid = true) (hclean : (w.shared.bufs b).dirty = false) :
    Inv ⟨w.shared, update w.proc pid (update (w.proc pid) b (.held key false))⟩ := by
  obtain ⟨hkey, hnamed, ⟨-, heq, -⟩ | ⟨hqueued, -, -, hdata⟩⟩ : Hold.Ok .. :=
    h.at_hold hheld (by simp)
  · rw [hvalid, hclean] at heq
    cases heq
  · exact h.move (by simp [hheld]) (by simp) hqueued
      ⟨hkey, hnamed, hqueued, hvalid, fun _ => hdata⟩

theorem effect {a : Act} {r : a.Res} (h : Inv w) (hok : (w.proc pid).Ok a)
    (hnamed : a.Named) (heffect : w.shared.effect a = .done s' wakes r) :
    Inv ⟨s', update w.proc pid ((w.proc pid).after a r)⟩ ∧ (w.proc pid).Allow a r := by
  cases a with
  | get key => exact h.get (hnamed key rfl) heffect
  | valid b =>
    obtain ⟨key, hb⟩ := hok
    cases heffect
    simpa only [Proc.after, hb] using ⟨h.valid hb, trivial⟩
  | write b =>
    obtain ⟨key, changed, hb⟩ := hok
    simp only [Shared.effect] at heffect
    split at heffect <;> cases heffect
    simpa only [Proc.after, hb] using ⟨h.setDirty hb (.inl rfl), trivial⟩
  | submit b =>
    obtain ⟨key, hb⟩ := hok
    have hsubmit := h.submit hb heffect
    obtain hb | hb := hb <;> simpa only [Proc.after, hb] using ⟨hsubmit, trivial⟩
  | wait b =>
    obtain ⟨key, hb⟩ := hok
    simp only [Shared.effect] at heffect
    split at heffect
    · next hsynced =>
      cases heffect
      simpa only [Proc.after, hb] using ⟨h.wait hb hsynced.1 hsynced.2, trivial⟩
    · cases heffect
  | release b =>
    obtain ⟨key, hb⟩ := hok
    simp only [Shared.effect, bufcacheRelease] at heffect
    split at heffect <;> cases heffect
    exact ⟨h.release hb, trivial⟩
  | modify b f =>
    obtain ⟨key, changed, hb⟩ := hok
    cases heffect
    simpa only [Proc.after, hb] using ⟨h.modify f hb, trivial⟩
  | pin b =>
    obtain ⟨key, changed, hb⟩ := hok
    cases heffect
    simpa only [Proc.after, hb] using ⟨h.setDirty hb (.inr rfl), trivial⟩
  | stop reason => cases heffect
  | _ =>
    cases heffect
    refine ⟨?_, trivial⟩
    simp only [Proc.after, update_eq_self]
    exact ⟨⟨h.owner, h.holds, h.free, h.nodup, h.drive⟩, h.circle, h.named, h.unique, h.clean⟩

end Inv

/-! ## The code of the clients -/

def Proc.Idle (l : Proc) : Prop := ∀ b, l b = .none ∨ ∃ key changed, l b = .held key changed

section Wp

variable {l : Proc} {Q : Unit → Proc → Prop} {key : Key}

theorem ideRw_wp (hb : l b = .fetching key ∨ l b = .writing key)
    (hpost : Q () (update l b (.held key false))) : (ideRw b).wp discipline Q l := by
  apply Task.wp_bind
  refine Task.wp_act ⟨key, hb⟩ fun _ _ => ?_
  have hsubmit : discipline.next l (.submit b) () = update l b (.waiting key) := by
    obtain hb | hb := hb <;> simp only [discipline, Proc.after, hb]
  rw [hsubmit]
  refine Task.wp_act ⟨key, update_self ..⟩ fun _ _ => ?_
  have hwait : discipline.next (update l b (.waiting key)) (.wait b) () =
      update l b (.held key false) := by
    simp [discipline, Proc.after]
  rw [hwait]
  exact hpost

theorem plain_wp {a : Act} {Q : a.Res → Proc → Prop} (hok : l.Ok a)
    (hafter : ∀ r, l.after a r = l) (hpost : ∀ r, Q r l) : (act a).wp discipline Q l := by
  refine Task.wp_act hok fun r _ => ?_
  have hnext : discipline.next l a r = l := hafter r
  rw [hnext]
  exact hpost r

theorem bufcacheRead_wp {Q : Fin nbuf → Proc → Prop} (key : Key)
    (hpost : ∀ b, l b = .none → Q b (update l b (.held key false))) :
    (bufcacheRead key).wp discipline Q l := by
  apply Task.wp_bind
  refine Task.wp_act trivial fun b hb => ?_
  have hget : discipline.next l (.get key) b = update l b (.checking key) := rfl
  rw [hget]
  apply Task.wp_bind
  refine Task.wp_act ⟨key, update_self ..⟩ fun valid _ => ?_
  have hvalid : discipline.next (update l b (.checking key)) (.valid b) valid =
      update l b (if valid then .held key false else .fetching key) := by
    simp [discipline, Proc.after]
  rw [hvalid]
  cases valid with
  | true => exact hpost b hb
  | false =>
    apply Task.wp_bind
    refine ideRw_wp (.inl (update_self ..)) ?_
    simpa [Task.wp] using hpost b hb

variable {changed : Bool}

theorem bufcacheWrite_wp (hb : l b = .held key changed)
    (hpost : Q () (update l b (.held key false))) : (bufcacheWrite b).wp discipline Q l := by
  apply Task.wp_bind
  refine Task.wp_act ⟨key, changed, hb⟩ fun _ _ => ?_
  have hafter : discipline.next l (.write b) () = update l b (.writing key) := by
    simp [discipline, Proc.after, hb]
  rw [hafter]
  refine ideRw_wp (.inr (update_self ..)) ?_
  simpa using hpost

theorem release_wp (hb : l b = .held key false) (hpost : Q () (update l b .none)) :
    (act (.release b)).wp discipline Q l :=
  Task.wp_act ⟨key, hb⟩ fun _ _ => hpost

theorem modify_wp (f : Block → Block) (hb : l b = .held key changed)
    (hpost : Q () (update l b (.held key true))) : (act (.modify b f)).wp discipline Q l := by
  refine Task.wp_act ⟨key, changed, hb⟩ fun _ _ => ?_
  simpa [Task.wp, discipline, Proc.after, hb, Hold.setChanged] using hpost

theorem logHeader_wp (f : LogHeader → LogHeader) (hpost : Q () l) :
    (logHeader f).wp discipline Q l := plain_wp trivial (fun _ => rfl) fun _ => hpost

theorem stop_wp {β : Type} {Q : β → Proc → Prop} (reason : Stop) :
    (stop reason : Code β).wp discipline Q l := Task.wp_act trivial fun r => nomatch r

theorem logWrite_wp (hb : l b = .held key changed)
    (hpost : Q () (update l b (.held key false))) : (logWrite b).wp discipline Q l := by
  apply Task.wp_bind
  refine plain_wp (a := .logGet) trivial (fun _ => rfl) fun log => ?_
  split_ifs
  · exact stop_wp _
  · exact stop_wp _
  · apply Task.wp_bind
    refine plain_wp (a := .key b) trivial (fun _ => rfl) fun key' => ?_
    apply Task.wp_bind
    apply logHeader_wp
    apply Task.wp_bind
    apply bufcacheRead_wp
    intro lbuf hlbuf
    have hne : b ≠ lbuf := by
      rintro rfl
      rw [hb] at hlbuf
      cases hlbuf
    apply Task.wp_bind
    refine plain_wp (a := .data b) trivial (fun _ => rfl) fun data => ?_
    apply Task.wp_bind
    apply modify_wp _ (update_self ..)
    rw [update_idem]
    apply Task.wp_bind
    apply bufcacheWrite_wp (update_self ..)
    rw [update_idem]
    apply Task.wp_bind
    apply release_wp (update_self ..)
    rw [update_idem, ← hlbuf, update_eq_self]
    apply Task.wp_bind
    apply logHeader_wp
    refine Task.wp_act ⟨key, changed, hb⟩ fun _ _ => ?_
    simpa [Task.wp, discipline, Proc.after, hb, Hold.setChanged] using hpost

end Wp

def contract : System.Contract ClientOp (Option (Fin nbuf)) Proc where
  pre
    | .write b, l => (l b).isHeld
    | .logWrite b, l => (l b).isHeld
    | .modify b _, l => (l b).isHeld
    | .release b, l => (l b).isClean
    | _, _ => True
  post
    | .read key, value, l => l.Idle ∧ ∃ b, value = some b ∧ l b = .held key false
    | _, _, l => l.Idle

variable {hold : Hold}

theorem Hold.eq_held (h : hold.isHeld = true) : ∃ key changed, hold = .held key changed := by
  cases hold with
  | held key changed => exact ⟨key, changed, rfl⟩
  | _ => cases h

theorem Hold.eq_clean (h : hold.isClean = true) : ∃ key, hold = .held key false := by
  cases hold with
  | held key changed =>
    cases changed with
    | false => exact ⟨key, rfl⟩
    | true => cases h
  | _ => cases h

theorem Proc.Idle.update {l : Proc} (hl : l.Idle)
    (hhold : hold = .none ∨ ∃ key changed, hold = .held key changed) :
    Proc.Idle (update l b hold) := by
  intro c
  by_cases hc : c = b
  · subst hc
    rw [update_self]
    exact hhold
  · rw [update_of_ne hc]
    exact hl c

theorem lawful_clients :
    System.Lawful system (fun _ => discipline) contract World.proc Proc.Idle Inv
      fun _ _ a _ => a.Named where
  start op l hl hpre := by
    have hheld : ∀ b key changed, Proc.Idle (update l b (.held key changed)) :=
      fun b key changed => hl.update (.inr ⟨key, changed, rfl⟩)
    cases op with
    | read key =>
      apply Task.wp_bind
      apply bufcacheRead_wp
      intro b _
      exact ⟨hheld b key false, b, rfl, update_self ..⟩
    | write b =>
      obtain ⟨key, changed, hb⟩ := Hold.eq_held hpre
      apply Task.wp_bind
      exact bufcacheWrite_wp hb (hheld b key false)
    | release b =>
      obtain ⟨key, hb⟩ := Hold.eq_clean hpre
      apply Task.wp_bind
      exact release_wp hb (hl.update (.inl rfl))
    | logWrite b =>
      obtain ⟨key, changed, hb⟩ := Hold.eq_held hpre
      apply Task.wp_bind
      exact logWrite_wp hb (hheld b key false)
    | modify b f =>
      obtain ⟨key, changed, hb⟩ := Hold.eq_held hpre
      apply Task.wp_bind
      exact modify_wp f hb (hheld b key true)
    | changeLog f =>
      apply Task.wp_bind
      exact plain_wp trivial (fun _ => rfl) fun _ => hl
  ret op value l hpost := by
    cases op with
    | read key => exact hpost.1
    | _ => exact hpost
  act {op s s' pid a wakes r} hinv hok hact hnamed := by
    change step pid a s = _ at hact
    unfold step at hact
    split at hact
    · next shared wakes' r' heffect =>
      cases hact
      obtain ⟨hinv', hallow⟩ := hinv.effect hok hnamed heffect
      exact ⟨hinv', hallow, rfl⟩
    · cases hact
    · cases hact
  intr hinv := ⟨hinv.complete, rfl⟩

/-! ## The start -/

theorem Shared.initBufs_frame (s : Shared) (bs : List (Fin nbuf)) :
    ∃ links, s.initBufs bs = { s with
      links := links
      bufs := fun b => if b ∈ bs then { s.bufs b with dev := -1 } else s.bufs b } := by
  induction bs generalizing s with
  | nil => exact ⟨s.links, by simp [initBufs]⟩
  | cons c bs ih =>
    obtain ⟨links, hinit⟩ := ih
      ({ s with links := s.links.insertFront none (some c) }.setBuf c
        fun buf => { buf with dev := -1 })
    refine ⟨links, ?_⟩
    rw [initBufs, hinit]
    congr 1
    funext b
    by_cases hb : b = c <;> by_cases hmem : b ∈ bs <;> simp [setBuf, hb, hmem]

theorem Shared.circle_initBufs {s : Shared} {xs bs : List (Fin nbuf)}
    (h : s.links.Circle none (xs.map some)) (hbs : bs.Nodup) (hnew : ∀ b ∈ bs, b ∉ xs) :
    (s.initBufs bs).links.Circle none ((bs.reverse ++ xs).map some) := by
  induction bs generalizing s xs with
  | nil => exact h
  | cons b bs ih =>
    obtain ⟨hb, hbs⟩ := List.nodup_cons.mp hbs
    rw [initBufs, List.reverse_cons, List.append_assoc, List.singleton_append]
    apply ih _ hbs
    · intro c hc hmem
      obtain rfl | hmem := List.mem_cons.mp hmem
      · exact hb hc
      · exact hnew c (List.mem_cons_of_mem b hc) hmem
    · rw [List.map_cons]
      exact h.insertFront (by simpa using hnew b List.mem_cons_self)

theorem Shared.boot_eq (havedisk1 : Bool) (disk : Addr → Block) (log : Log) :
    ∃ links, (World.boot havedisk1 disk log).shared =
        { zero havedisk1 disk log with
          links := links
          bufs := fun _ => ⟨⟨-1, 0⟩, false, false, false, fun _ => 0⟩ } ∧
      InCircle links := by
  obtain ⟨links, hframe⟩ := initBufs_frame
    { zero havedisk1 disk log with
      links := ⟨update (fun _ => none) none none,
        update (fun _ => none) none none⟩ }
    (List.finRange nbuf)
  have hshared : (World.boot havedisk1 disk log).shared =
      { zero havedisk1 disk log with
        links := links
        bufs := fun _ => ⟨⟨-1, 0⟩, false, false, false, fun _ => 0⟩ } := by
    refine hframe.trans ?_
    simp [zero]
  have hcircle : InCircle (World.boot havedisk1 disk log).shared.links := by
    refine ⟨(List.finRange nbuf).reverse ++ [], ?_, by simp⟩
    have hempty : RingLinks.Circle
        (⟨update (fun _ => none) none none, update (fun _ => none) none none⟩ :
          RingLinks Node) none (([] : List (Fin nbuf)).map some) :=
      RingLinks.circle_nil (by simp) (by simp)
    exact circle_initBufs hempty (List.nodup_finRange nbuf) (by simp)
  refine ⟨links, hshared, ?_⟩
  rw [hshared] at hcircle
  exact hcircle

theorem Inv.boot (havedisk1 : Bool) (disk : Addr → Block) (log : Log) :
    Inv (.boot havedisk1 disk log) := by
  obtain ⟨links, hshared, hcircle⟩ := boot_eq havedisk1 disk log
  rw [World.boot] at hshared ⊢
  dsimp only at hshared
  rw [hshared]
  have hdev : ¬ Key.Named ⟨-1, 0⟩ := by decide
  refine ⟨⟨⟨by simp, fun hp => absurd rfl hp⟩, fun hp => absurd rfl hp, fun _ => ?_,
    List.nodup_nil, rfl⟩, hcircle, fun b hb => absurd rfl hb, fun b c hb => absurd hb hdev,
    fun key _ _ => rfl⟩
  exact ⟨by simp [zero], by simp, by simp, fun _ => rfl⟩

/-! ## The properties -/

/-- The clients write, change and release only buffers they hold, and release only what they have
written. -/
def Disciplined (k : Threads iface ClientOp (Option (Fin nbuf)) World) :
    ThreadOp ClientOp Unit → Prop
  | .start pid op => contract.pre op (k.state.proc pid)
  | _ => True

instance (l : Proc) : (op : ClientOp) → Decidable (contract.pre op l)
  | .read _ | .changeLog _ => isTrue trivial
  | .write b | .logWrite b | .modify b _ => inferInstanceAs (Decidable ((l b).isHeld = true))
  | .release b => inferInstanceAs (Decidable ((l b).isClean = true))

instance (k : Threads iface ClientOp (Option (Fin nbuf)) World) :
    (op : ThreadOp ClientOp Unit) → Decidable (Disciplined k op)
  | .start pid op => inferInstanceAs (Decidable (contract.pre op (k.state.proc pid)))
  | .act _ | .intr _ => isTrue trivial

def NamesSectors (k : Threads iface ClientOp (Option (Fin nbuf)) World)
    (op : ThreadOp ClientOp Unit) : Prop :=
  Disciplined k op ∧ system.Admitted (fun _ _ a _ => a.Named) k op

instance (k : Threads iface ClientOp (Option (Fin nbuf)) World) (op : ThreadOp ClientOp Unit) :
    Decidable (NamesSectors k op) := inferInstanceAs (Decidable (_ ∧ _))

/-- **The buffer cache is coherent.** For clients that do as they should, the links through the
head form one circle with every buffer in it once; no two buffers are for the same sector;
`bufcache_read` returns a buffer of the sector it was asked for, with what was last written to
that sector; and a valid buffer that is neither busy nor dirty is as on disk. -/
theorem cache_coherent {havedisk1 : Bool} {disk : Addr → Block} {log : Log}
    {trace : List (ThreadOp ClientOp Unit × Option (Option (Fin nbuf)))}
    {k : Threads iface ClientOp (Option (Fin nbuf)) World}
    (run : system.machine.Run NamesSectors (.boot (.boot havedisk1 disk log)) trace k) :
    (∃ xs : List (Fin nbuf), k.state.shared.links.Circle none (xs.map some) ∧ ∀ b, b ∈ xs) ∧
    (∀ b c, (k.state.shared.bufs b).dev ≠ -1 →
      (k.state.shared.bufs b).toKey = (k.state.shared.bufs c).toKey → b = c) ∧
    (∀ p key value, k.running p = some (.read key, .ret value) →
      ∃ b, value = some b ∧ (k.state.shared.bufs b).toKey = key ∧
        (k.state.shared.bufs b).busy = true ∧ (k.state.shared.bufs b).valid = true ∧
        (k.state.shared.bufs b).data = k.state.shared.store key) ∧
    ∀ b, (k.state.shared.bufs b).valid = true → (k.state.shared.bufs b).busy = false →
      (k.state.shared.bufs b).dirty = false →
      (k.state.shared.bufs b).data = k.state.shared.disk (k.state.shared.bufs b).addr := by
  have hguard : ∀ k op, NamesSectors k op →
      system.Respects contract World.proc (fun _ _ a _ => a.Named) k op := by
    intro k op hop
    cases op with
    | start pid op => exact hop.1
    | act pid => exact hop.2
    | intr irq => trivial
  have horder := lawful_clients.inOrder_of_run run hguard (Inv.boot havedisk1 disk log)
    fun _ _ => .inl rfl
  have hinv := horder.state
  refine ⟨hinv.circle, fun b c hdev => hinv.unique b c (hinv.named b hdev), ?_, ?_⟩
  · intro p key value hrun
    obtain ⟨-, b, rfl, hb⟩ := horder.task p _ _ hrun
    obtain ⟨hkey, -, -, hvalid, hdata⟩ : Hold.Ok .. := hinv.at_hold hb (by simp)
    have hheld : k.state.proc p b ≠ .none := by simp [hb]
    exact ⟨b, rfl, hkey, hinv.busy hheld, hvalid, hdata rfl⟩
  · intro b hvalid hfree hclean
    have hbuf : Free .. := hinv.free hfree
    have hnamed := hbuf.named hvalid
    rw [hbuf.data hvalid]
    apply hinv.clean _ hnamed
    intro c hc
    rw [← hinv.unique b c hnamed hc.symm]
    exact hclean

def returning {σ : Type} (k : Threads iface ClientOp (Option (Fin nbuf)) σ) (p : ℕ) :
    Option (Key × Option (Fin nbuf)) :=
  match k.running p with
  | some (.read key, .ret value) => some (key, value)
  | _ => none

theorem running_of_returning {σ : Type} {k : Threads iface ClientOp (Option (Fin nbuf)) σ}
    {p : ℕ} {key : Key} {value : Option (Fin nbuf)} (h : returning k p = some (key, value)) :
    k.running p = some (.read key, .ret value) := by
  unfold returning at h
  split at h
  · next hrun =>
    cases h
    exact hrun
  · cases h

def fetch (p : ℕ) (key : Key) : List (ThreadOp ClientOp Unit) :=
  [.start p (.read key), .act p, .act p, .act p, .intr (), .act p, .act p]

def fill (p : ℕ) (b : Fin nbuf) (byte : BitVec 8) : List (ThreadOp ClientOp Unit) :=
  [.start p (.modify b fun _ _ => byte), .act p, .act p, .start p (.write b), .act p, .act p,
    .intr (), .act p, .act p, .start p (.release b), .act p, .act p]

theorem cache_coherent_of_write :
    ∃ (trace : List (ThreadOp ClientOp Unit × Option (Option (Fin nbuf))))
      (k : Threads iface ClientOp (Option (Fin nbuf)) World),
      system.machine.Run NamesSectors (.boot (.boot true (fun _ _ => 0) (.boot ⟨0, 0⟩))) trace k ∧
      k.running 2 = some (.read ⟨1, 5⟩, .ret (some 0)) ∧ k.state.shared.store ⟨1, 5⟩ 0 = 7 ∧
      (k.state.shared.bufs 0).data = k.state.shared.store ⟨1, 5⟩ := by
  have heval : ∃ x ∈ (system.machine.guarded NamesSectors).runAll
      (.boot (.boot true (fun _ _ => 0) (.boot ⟨0, 0⟩)))
      (fetch 1 ⟨1, 5⟩ ++ fill 1 0 7 ++ [.start 2 (.read ⟨1, 5⟩), .act 2, .act 2]),
      returning x.1 2 = some (⟨1, 5⟩, some 0) ∧ x.1.state.shared.store ⟨1, 5⟩ 0 = 7 := by
    decide +kernel
  obtain ⟨⟨k, outs⟩, hrunAll, hreturning, hstore⟩ := heval
  have hrun := Machine.run_of_guarded hrunAll
  have hreturns := running_of_returning hreturning
  obtain ⟨-, -, hread, -⟩ := cache_coherent hrun
  obtain ⟨b, hb, -, -, -, hdata⟩ := hread 2 _ _ hreturns
  cases hb
  exact ⟨_, k, hrun, hreturns, hstore, hdata⟩

/-- The devices 1 and 3 are the same disk.  A process reads a sector of device 1 and releases
it, then changes the sector through device 3: the clean buffer of device 1 is not as on disk. -/
theorem stale_through_another_device :
    ∃ (trace : List (ThreadOp ClientOp Unit × Option (Option (Fin nbuf))))
      (k : Threads iface ClientOp (Option (Fin nbuf)) World) (b : Fin nbuf),
      system.machine.Run Disciplined (.boot (.boot true (fun _ _ => 0) (.boot ⟨0, 0⟩))) trace k ∧
      (k.state.shared.bufs b).toKey = ⟨1, 5⟩ ∧ (k.state.shared.bufs b).valid = true ∧
      (k.state.shared.bufs b).busy = false ∧ (k.state.shared.bufs b).dirty = false ∧
      (k.state.shared.bufs b).data ≠ k.state.shared.disk (k.state.shared.bufs b).addr := by
  have heval : ∃ x ∈ (system.machine.guarded Disciplined).runAll
      (.boot (.boot true (fun _ _ => 0) (.boot ⟨0, 0⟩)))
      (fetch 1 ⟨1, 5⟩ ++ [.start 1 (.release 0), .act 1, .act 1] ++ fetch 1 ⟨3, 5⟩ ++ fill 1 1 7),
      (x.1.state.shared.bufs 0).toKey = ⟨1, 5⟩ ∧ (x.1.state.shared.bufs 0).valid = true ∧
      (x.1.state.shared.bufs 0).busy = false ∧ (x.1.state.shared.bufs 0).dirty = false ∧
      (x.1.state.shared.bufs 0).data 0 ≠
        x.1.state.shared.disk (x.1.state.shared.bufs 0).addr 0 := by
    decide +kernel
  obtain ⟨⟨k, outs⟩, hrunAll, hkey, hvalid, hfree, hclean, hdata⟩ := heval
  exact ⟨_, k, 0, Machine.run_of_guarded hrunAll, hkey, hvalid, hfree, hclean,
    fun heq => hdata (congrFun heq 0)⟩

end MCertikos.BufCache
