/-
# The inode cache is coherent

The callers keep to the rules that every caller in the kernel follows: a reference is held from
`inode_get` to `inode_put`, an inode is changed only while it is locked, and the numbers are those
of inodes of the disk.
-/

import MCertikos.FS.InodeUpdate
import MCertikos.FS.BlockOwnership

namespace MCertikos.FS

open Math

theorem Synced.of_elsewhere {g : Geometry} {s s' : Fs} {ip : Inode} {k : ℕ}
    (h : Synced g s ip) (helse : Elsewhere g k s s') (hne : ip.inum.toNat ≠ k) : Synced g s' ip :=
  ⟨h.inum_lt, (helse.dinode_eq _ h.inum_lt hne).trans h.dinode_eq, h.allocated⟩

theorem Synced.congr {g : Geometry} {s : Fs} {ip ip' : Inode} (h : Synced g s ip)
    (hinum : ip'.inum = ip.inum) (hdinode : ip'.toDinode = ip.toDinode) : Synced g s ip' :=
  ⟨hinum ▸ h.inum_lt, hinum ▸ hdinode ▸ h.dinode_eq, hdinode ▸ h.allocated⟩

/-! ## The rules and the property -/

namespace InodeCache

def Live (c : InodeCache) (i : ℕ) : Prop := 0 < (c.inode i).ref

def Held (c : InodeCache) (i : ℕ) : Prop :=
  c.Live i ∧ (c.inode i).busy = true ∧ (c.inode i).valid = true

instance (c : InodeCache) (i : ℕ) : Decidable (c.Live i) := by
  unfold Live
  infer_instance

instance (c : InodeCache) (i : ℕ) : Decidable (c.Held i) := by
  unfold Held
  infer_instance

def Called (g : Geometry) (c : InodeCache) : InodeOp → Prop
  | .alloc dev _ => dev = rootdev
  | .get dev inum => dev = rootdev ∧ inum.toNat < g.ninodes
  | .dup i | .put i => c.Live i
  | .write i _ _ _ | .update i | .initFields i _ _ | .incNlink i | .decNlink i => c.Held i
  | .begin | .commit | .lock _ | .unlock _ => True

def Roomy (g : Geometry) (c : InodeCache) : InodeOp → Prop
  | .write i _ off n => EnoughFree g c.fs (c.inode i).toInode off n
  | _ => True

instance (g : Geometry) (c : InodeCache) (op : InodeOp) : Decidable (Called g c op) := by
  unfold Called
  split <;> infer_instance

instance (g : Geometry) (c : InodeCache) (op : InodeOp) : Decidable (Roomy g c op) := by
  unfold Roomy
  split <;> infer_instance

def forget (c : InodeCache) (i : ℕ) (d : Dinode) : InodeCache :=
  c.setInode i { c.inode i with toDinode := d, valid := false }

structure Coherent (c : InodeCache) : Prop where
  unique : ∀ i j, c.Live i → c.Live j → (c.inode i).dev = (c.inode j).dev →
    (c.inode i).inum = (c.inode j).inum → i = j
  dinode_eq : ∀ i, c.Live i → (c.inode i).valid = true → (c.inode i).busy = false →
    c.fs.dinode (c.inode i).inum.toNat = (c.inode i).toDinode
  reload : ∀ i, c.Live i → (c.inode i).valid = true → (c.inode i).busy = false →
    ∀ d c', inodeLock i (c.forget i d) = .ok ((), c') → inodeLock i c = .ok ((), c')

/-! ## The invariant -/

structure Inv (g : Geometry) (c : InodeCache) : Prop where
  consistent : Consistent g c.fs
  lt_ninode : ∀ i, c.Live i → i < Sysfile.ninode
  dev_eq : ∀ i, c.Live i → (c.inode i).dev = rootdev
  inum_lt : ∀ i, c.Live i → (c.inode i).inum.toNat < g.ninodes
  unique : ∀ i j, c.Live i → c.Live j → (c.inode i).inum = (c.inode j).inum → i = j
  synced : ∀ i, c.Live i → (c.inode i).valid = true → Synced g c.fs (c.inode i).toInode

section Steps

variable {g : Geometry} {c c' : InodeCache} {i j : ℕ} {fs : Fs} {ip : Inode}

theorem inv_boot (h : Consistent g fs) : Inv g (boot fs) := by
  have hdead : ∀ i, ¬ (boot fs).Live i := fun i => Int.lt_irrefl 0
  exact ⟨h, fun i hi => absurd hi (hdead i), fun i hi => absurd hi (hdead i),
    fun i hi => absurd hi (hdead i), fun i j hi => absurd hi (hdead i),
    fun i hi => absurd hi (hdead i)⟩

theorem Inv.setFs (h : Inv g c) (hfs : Consistent g fs)
    (hdinode : ∀ i, c.Live i → (c.inode i).valid = true →
      fs.dinode (c.inode i).inum.toNat = c.fs.dinode (c.inode i).inum.toNat) :
    Inv g { c with fs := fs } where
  consistent := hfs
  __ := h
  synced i hi hvalid := by
    have hold := h.synced i hi hvalid
    exact ⟨hold.inum_lt, (hdinode i hi hvalid).trans hold.dinode_eq, hold.allocated⟩

theorem Inv.setInode (h : Inv g c) (hlive : c.Live i) (hfs : Consistent g fs)
    (helse : Elsewhere g (c.inode i).inum.toNat c.fs fs) (hinum : ip.inum = (c.inode i).inum)
    (hip : 0 < ip.ref → ip.valid = true → Synced g fs ip) :
    Inv g ({ c with fs := fs }.setInode i { c.inode i with toInode := ip }) := by
  have hself : ({ c with fs := fs }.setInode i { c.inode i with toInode := ip }).inode i =
      { c.inode i with toInode := ip } := setInode_self
  have hother : ∀ j, j ≠ i →
      ({ c with fs := fs }.setInode i { c.inode i with toInode := ip }).inode j = c.inode j :=
    fun j hj => setInode_of_ne hj
  generalize hc' : { c with fs := fs }.setInode i { c.inode i with toInode := ip } = c' at *
  have hfs' : c'.fs = fs := by rw [← hc']; rfl
  have hold : ∀ j, c'.Live j → c.Live j := by
    intro j hj
    by_cases hji : j = i
    · rwa [hji]
    · rwa [Live, hother j hji] at hj
  have hinum' : ∀ j, (c'.inode j).inum = (c.inode j).inum := by
    intro j
    by_cases hji : j = i
    · rw [hji, hself, hinum]
    · rw [hother j hji]
  have hdev : ∀ j, (c'.inode j).dev = (c.inode j).dev := by
    intro j
    by_cases hji : j = i
    · rw [hji, hself]
    · rw [hother j hji]
  refine ⟨hfs'.symm ▸ hfs, fun j hj => h.lt_ninode j (hold j hj),
    fun j hj => (hdev j).trans (h.dev_eq j (hold j hj)),
    fun j hj => (hinum' j).symm ▸ h.inum_lt j (hold j hj), ?_, ?_⟩
  · intro a b ha hb heq
    rw [hinum', hinum'] at heq
    exact h.unique a b (hold a ha) (hold b hb) heq
  · intro j hj hvalid
    rw [hfs']
    by_cases hji : j = i
    · rw [Live, hji, hself] at hj
      rw [hji, hself] at hvalid ⊢
      exact hip hj hvalid
    · have hlive' := hold j hj
      rw [hother j hji] at hvalid ⊢
      refine (h.synced j hlive' hvalid).of_elsewhere helse fun heq => hji ?_
      exact h.unique j i hlive' hlive (BitVec.eq_of_toNat_eq heq)

theorem Inv.setSlot (h : Inv g c) (hlive : c.Live i) (hinum : ip.inum = (c.inode i).inum)
    (hip : 0 < ip.ref → ip.valid = true → Synced g c.fs ip) :
    Inv g (c.setInode i { c.inode i with toInode := ip }) :=
  h.setInode hlive h.consistent ⟨fun _ _ _ => rfl, fun _ _ _ _ _ => rfl⟩ hinum hip

theorem Inv.recycle (h : Inv g c) {inum : BitVec 32} (hi : i < Sysfile.ninode)
    (hinum : inum.toNat < g.ninodes) (hnone : ∀ j, c.Live j → (c.inode j).inum ≠ inum) :
    Inv g (c.setInode i { c.inode i with
      dev := rootdev, inum := inum, ref := 1, busy := false, valid := false }) := by
  generalize hip : ({ c.inode i with
    dev := rootdev, inum := inum, ref := 1, busy := false, valid := false } : CachedInode) = ip
  have hself : (c.setInode i ip).inode i = ip := setInode_self
  have hother : ∀ j, j ≠ i → (c.setInode i ip).inode j = c.inode j := fun j hj =>
    setInode_of_ne hj
  have hold : ∀ j, j ≠ i → (c.setInode i ip).Live j → c.Live j := by
    intro j hj hlive
    rwa [Live, hother j hj] at hlive
  have hinum' : ip.inum = inum := by rw [← hip]
  refine ⟨h.consistent, fun j hj => ?_, fun j hj => ?_, fun j hj => ?_, fun a b ha hb heq => ?_,
    fun j hj hvalid => ?_⟩
  · by_cases hji : j = i
    · rwa [hji]
    · exact h.lt_ninode j (hold j hji hj)
  · by_cases hji : j = i
    · rw [hji, hself, ← hip]
    · rw [hother j hji]
      exact h.dev_eq j (hold j hji hj)
  · by_cases hji : j = i
    · rwa [hji, hself, hinum']
    · rw [hother j hji]
      exact h.inum_lt j (hold j hji hj)
  · by_cases hai : a = i
    · by_cases hbi : b = i
      · rw [hai, hbi]
      · rw [hai, hself, hother b hbi, hinum'] at heq
        exact absurd heq.symm (hnone b (hold b hbi hb))
    · by_cases hbi : b = i
      · rw [hbi, hself, hother a hai, hinum'] at heq
        exact absurd heq (hnone a (hold a hai ha))
      · rw [hother a hai, hother b hbi] at heq
        exact h.unique a b (hold a hai ha) (hold b hbi hb) heq
  · by_cases hji : j = i
    · rw [hji, hself, ← hip] at hvalid
      cases hvalid
    · rw [hother j hji] at hvalid ⊢
      exact h.synced j (hold j hji hj) hvalid

end Steps

end InodeCache

/-! ## The operations -/

section Operations

variable {g : Geometry} {c : InodeCache} {i : ℕ} {α : Type} {post : α → InodeCache → Prop}

theorem returns_runInode {f : Fs → Inode → Except Halt (α × Inode × Fs)}
    (h : ∀ value ip fs, f c.fs (c.inode i).toInode = .ok (value, ip, fs) →
      post value ({ c with fs := fs }.setInode i { c.inode i with toInode := ip })) :
    Returns post (runInode i f) c := by
  intro value c' hok
  unfold runInode at hok
  split at hok
  · next value' ip fs hf =>
    obtain ⟨rfl, rfl⟩ := Prod.mk.inj (Except.ok.inj hok)
    exact h value' ip fs hf
  · cases hok

theorem returns_runFs {f : Fs → Except Halt (α × Fs)}
    (h : ∀ value fs, f c.fs = .ok (value, fs) → post value { c with fs := fs }) :
    Returns post (runFs f) c := by
  intro value c' hok
  unfold runFs at hok
  split at hok
  · next value' fs hf =>
    obtain ⟨rfl, rfl⟩ := Prod.mk.inj (Except.ok.inj hok)
    exact h value' fs hf
  · cases hok

theorem returns_kernPanic {reason : Sysfile.Stop} : Returns post (kernPanic reason) c := by
  intro value c' hok
  cases hok

theorem map_eq_ok {β γ : Type} {m : Except Halt β} {f : β → γ} {value : γ}
    (h : m.map f = .ok value) : ∃ x, m = .ok x ∧ f x = value := by
  cases m with
  | ok x => exact ⟨x, rfl, Except.ok.inj h⟩
  | error e => cases h

def InodeCache.lockedInode (c : InodeCache) (i : ℕ) : Inode :=
  if (c.inode i).valid then { (c.inode i).toInode with busy := true }
  else { (c.inode i).toInode with
    toDinode := c.fs.dinode (c.inode i).inum.toNat, busy := true, valid := true }

structure Locked (c : InodeCache) (i : ℕ) (c' : InodeCache) : Prop where
  live : c.Live i
  idle : (c.inode i).busy = false
  eq : c' = c.setInode i { c.inode i with toInode := c.lockedInode i }
  type_ne : ¬ (c.inode i).valid = true → (c.lockedInode i).type ≠ 0

theorem Locked.inum_eq {c' : InodeCache} (_ : Locked c i c') :
    (c.lockedInode i).inum = (c.inode i).inum := by
  unfold InodeCache.lockedInode
  split <;> rfl

theorem loadInode_returns (c : InodeCache) (i : ℕ) :
    Returns (fun _ c' => c' = c.setInode i { c.inode i with
        toDinode := c.fs.dinode (c.inode i).inum.toNat, valid := true } ∧
      (c.fs.dinode (c.inode i).inum.toNat).type ≠ 0) (loadInode i) c := by
  have hload : Meets (Pinned c.fs)
      (fun r => r = ((), { (c.inode i).toInode with
        toDinode := c.fs.dinode (c.inode i).inum.toNat, valid := true }, c.fs))
      (c.fs.inodeLoad (c.inode i).toInode) := by
    refine Meets.bind (bufcacheRead_pinned _) ?_
    rintro _ rfl
    rfl
  have hread : Returns (fun _ c' => c' = c.setInode i { c.inode i with
      toDinode := c.fs.dinode (c.inode i).inum.toNat, valid := true })
      (runInode i fun s ip => s.inodeLoad ip) c := by
    refine returns_runInode fun _ ip fs hf => ?_
    obtain ⟨rfl, rfl⟩ := Prod.mk.inj (Prod.mk.inj (hload.of_ok hf)).2
    rfl
  refine hread.bind ?_
  rintro _ _ rfl
  apply Returns.get_bind
  rw [InodeCache.setInode_self]
  by_cases htype : (c.fs.dinode (c.inode i).inum.toNat).type = 0
  · rw [if_pos htype]
    exact returns_kernPanic
  · rw [if_neg htype]
    exact Returns.pure ⟨rfl, htype⟩

theorem inodeModify_returns (c : InodeCache) (i : ℕ) (f : Dinode → Dinode) :
    Returns (fun _ c' => c' = c.setInode i { c.inode i with
      toDinode := f (c.inode i).toDinode }) (inodeModify i f) c := by
  intro _ c' hok
  exact (Prod.mk.inj (Except.ok.inj hok)).2.symm

theorem inodeLock_returns (c : InodeCache) (i : ℕ) :
    Returns (fun _ c' => Locked c i c') (inodeLock i) c := by
  apply Returns.get_bind
  by_cases href : (c.inode i).ref < 1
  · rw [if_pos href]
    exact returns_kernPanic
  by_cases hbusy : (c.inode i).busy = true
  · rw [if_neg href, if_pos hbusy]
    exact Returns.throw
  rw [if_neg href, if_neg hbusy]
  apply Returns.set_bind
  have hlive : c.Live i := Int.not_lt.mp href
  have hidle : (c.inode i).busy = false := Bool.not_eq_true _ ▸ hbusy
  by_cases hvalid : (c.inode i).valid = true
  · rw [if_pos hvalid]
    refine Returns.pure ⟨hlive, hidle, ?_, fun hnot => absurd hvalid hnot⟩
    rw [InodeCache.lockedInode, if_pos hvalid]
  · rw [if_neg hvalid]
    refine (loadInode_returns _ i).mono fun _ c' hload => ?_
    obtain ⟨rfl, htype⟩ := hload
    rw [InodeCache.setInode_self] at htype
    refine ⟨hlive, hidle, ?_, fun _ => ?_⟩
    · rw [InodeCache.setInode_setInode, InodeCache.setInode_self, InodeCache.lockedInode,
        if_neg hvalid]
      rfl
    · rw [InodeCache.lockedInode, if_neg hvalid]
      exact htype

theorem inodeLock_of_valid (hlive : c.Live i) (hvalid : (c.inode i).valid = true)
    (hidle : (c.inode i).busy = false) :
    inodeLock i c = .ok ((), c.setInode i { c.inode i with busy := true }) := by
  have href : ¬ (c.inode i).ref < 1 := Int.not_lt.mpr hlive
  show (if (c.inode i).ref < 1 then _ else _ : CacheM Unit) c = _
  rw [if_neg href, hidle, if_neg Bool.false_ne_true]
  show (if (c.inode i).valid = true then _ else _ : CacheM Unit) _ = _
  rw [if_pos hvalid]
  rfl

namespace InodeCache

theorem Inv.beginTrans (h : Inv g c) : Returns (fun _ c' => Inv g c') beginTrans c := by
  intro _ c' hok
  unfold FS.beginTrans at hok
  split at hok
  · next fs hbegin =>
    obtain ⟨-, rfl⟩ := Prod.mk.inj (Except.ok.inj hok)
    obtain ⟨hfs, hcache⟩ := h.consistent.accounted.ok.begin hbegin
    refine h.setFs (h.consistent.transfer hfs fun _ _ => by rw [hcache]) fun i _ _ => ?_
    rw [Fs.dinode, hcache, Fs.dinode]
  · cases hok

theorem Inv.commitTrans (h : Inv g c) : Returns (fun _ c' => Inv g c') commitTrans c := by
  intro _ c' hok
  unfold FS.commitTrans at hok
  split at hok
  · next fs hcommit =>
    obtain ⟨-, rfl⟩ := Prod.mk.inj (Except.ok.inj hok)
    obtain ⟨hfs, hcache⟩ := h.consistent.accounted.ok.commit hcommit
    refine h.setFs (h.consistent.transfer hfs hcache) fun i hi _ => ?_
    rw [Fs.dinode, hcache _ (plain_iblock (h.inum_lt i hi)).not_contains, Fs.dinode]
  · cases hok

theorem Inv.inodeGet (h : Inv g c) {inum : BitVec 32} (hinum : inum.toNat < g.ninodes) :
    Returns (fun _ c' => Inv g c') (inodeGet rootdev inum) c := by
  intro i c' hok
  unfold FS.inodeGet at hok
  split at hok
  · next i' hfind =>
    obtain ⟨-, rfl⟩ := Prod.mk.inj (Except.ok.inj hok)
    have hlive : c.Live i' := by
      have hfound := List.find?_some hfind
      simp only [Bool.and_eq_true, decide_eq_true_eq] at hfound
      exact hfound.1.1
    refine h.setSlot hlive rfl fun _ hvalid => ?_
    exact (h.synced i' hlive hvalid).congr rfl rfl
  · next hfind =>
    split at hok
    · next i' hempty =>
      obtain ⟨-, rfl⟩ := Prod.mk.inj (Except.ok.inj hok)
      refine h.recycle (List.mem_range.mp (List.mem_of_find?_eq_some hempty)) hinum
        fun j hj heq => ?_
      have hnot := List.find?_eq_none.mp hfind j (List.mem_range.mpr (h.lt_ninode j hj))
      have hpos : 0 < (c.inode j).ref := hj
      simp [hpos, heq, h.dev_eq j hj] at hnot
    · cases hok

theorem Inv.take (h : Inv g c) {inum : ℕ} {d : Dinode} {fs : Fs}
    (htaken : InodeTaken g c.fs inum d fs) : Inv g { c with fs := fs } := by
  refine h.setFs htaken.consistent fun i hi hvalid => ?_
  have hold := h.synced i hi hvalid
  apply htaken.elsewhere.dinode_eq _ hold.inum_lt
  intro heq
  apply hold.allocated
  rw [← hold.dinode_eq, heq]
  exact htaken.free

theorem Inv.inodeAlloc (h : Inv g c) (type : BitVec 16) :
    Returns (fun _ c' => Inv g c') (inodeAlloc rootdev type) c := by
  have htake : Returns (fun r c' => ∀ inum, r = some inum → Inv g c' ∧ inum < g.ninodes)
      (runFs fun s => s.inodeAlloc type) c := by
    refine returns_runFs fun r fs hf inum hsome => ?_
    obtain ⟨-, htaken⟩ :=
      (inodeAlloc_meets h.consistent type).of_ok hf inum hsome
    exact ⟨h.take htaken, htaken.inum_lt⟩
  refine htake.bind fun r c' hr => ?_
  cases r with
  | none => exact returns_kernPanic
  | some inum =>
    obtain ⟨h', hlt⟩ := hr inum rfl
    refine h'.inodeGet (Nat.lt_of_le_of_lt ?_ hlt)
    rw [BitVec.toNat_ofNat]
    exact Nat.mod_le _ _

theorem Inv.inodeDup (h : Inv g c) (hlive : c.Live i) :
    Returns (fun _ c' => Inv g c') (inodeDup i) c := by
  intro _ c' hok
  obtain ⟨-, rfl⟩ := Prod.mk.inj (Except.ok.inj hok)
  refine h.setSlot hlive rfl fun _ hvalid => ?_
  exact (h.synced i hlive hvalid).congr rfl rfl

theorem Inv.inodeLock (h : Inv g c) : Returns (fun _ c' => Inv g c') (inodeLock i) c := by
  refine (inodeLock_returns c i).mono fun _ c' hlocked => ?_
  rw [hlocked.eq]
  refine h.setSlot hlocked.live hlocked.inum_eq fun _ _ => ?_
  by_cases hvalid : (c.inode i).valid = true
  · rw [lockedInode, if_pos hvalid]
    exact (h.synced i hlocked.live hvalid).congr rfl rfl
  · have htype := hlocked.type_ne hvalid
    rw [lockedInode, if_neg hvalid] at htype ⊢
    exact ⟨h.inum_lt i hlocked.live, rfl, htype⟩

theorem Inv.inodeUnlock (h : Inv g c) : Returns (fun _ c' => Inv g c') (inodeUnlock i) c := by
  apply Returns.get_bind
  by_cases hpanic : (c.inode i).busy = false ∨ (c.inode i).ref < 1
  · rw [if_pos hpanic]
    exact returns_kernPanic
  · rw [if_neg hpanic]
    have hlive : c.Live i := Int.not_lt.mp (not_or.mp hpanic).2
    refine Returns.set (h.setSlot hlive rfl fun _ hvalid => ?_)
    exact (h.synced i hlive hvalid).congr rfl rfl

theorem Inv.inodePut (h : Inv g c) (hlive : c.Live i) :
    Returns (fun _ c' => Inv g c') (inodePut i) c := by
  refine returns_runInode fun _ ip fs hf => ?_
  obtain ⟨⟨ip', fs'⟩, hput, heq⟩ := map_eq_ok hf
  obtain ⟨-, rfl, rfl⟩ : () = () ∧ ip' = ip ∧ fs' = fs := by simpa using heq
  by_cases hlast : (c.inode i).ref = 1 ∧ (c.inode i).valid = true ∧ (c.inode i).nlink = 0
  · have hvalid := hlast.2.1
    have hidle : (c.inode i).busy = false := by
      by_contra hbusy
      rw [Fs.inodePut, if_pos hlast, if_pos (Bool.not_eq_false _ ▸ hbusy)] at hput
      cases hput
    obtain ⟨⟨hfs, helse⟩, hinum, href'⟩ := (inodePut_meets h.consistent
      (h.synced i hlive hvalid) hidle).of_ok hput
    refine h.setInode hlive hfs helse hinum fun hpos => ?_
    have hpos' : 0 < ip'.ref := hpos
    have href' : ip'.ref = (c.inode i).ref - 1 := href'
    rw [href', hlast.1] at hpos'
    exact absurd hpos' (Int.lt_irrefl 0)
  · rw [Fs.inodePut, if_neg hlast] at hput
    obtain ⟨rfl, rfl⟩ := Prod.mk.inj (Except.ok.inj hput)
    refine h.setSlot hlive rfl fun _ hvalid => ?_
    exact (h.synced i hlive hvalid).congr rfl rfl

theorem Inv.inodeWrite (h : Inv g c) (hheld : c.Held i) {devsw : ℕ → Devsw}
    {src : ℕ → BitVec 8} {off n : BitVec 32} (hfree : EnoughFree g c.fs (c.inode i).toInode off n) :
    Returns (fun _ c' => Inv g c') (inodeWrite devsw i src off n) c := by
  obtain ⟨hlive, -, hvalid⟩ := hheld
  refine returns_runInode fun _ ip fs hf => ?_
  obtain ⟨⟨⟨hfs, helse, hsynced⟩, hslot⟩, -⟩ :=
    (inodeWrite_meets h.consistent (h.synced i hlive hvalid) fun _ => hfree).of_ok hf
  have hslot : Inode.SameSlot _ ip := hslot
  exact h.setInode hlive hfs helse (by rw [hslot]) fun _ _ => hsynced

theorem Inv.inodeUpdate (h : Inv g c) (hheld : c.Held i) :
    Returns (fun _ c' => Inv g c') (inodeUpdate i) c := by
  obtain ⟨hlive, -, hvalid⟩ := hheld
  refine returns_runInode fun _ ip fs hf => ?_
  obtain ⟨fs', hupdate, heq⟩ := map_eq_ok hf
  obtain ⟨rfl, rfl⟩ := Prod.mk.inj (Prod.mk.inj heq).2
  obtain ⟨hfs, helse, hsynced⟩ := (inodeUpdate_keeps h.consistent (h.synced i hlive hvalid)
    (c.inode i).toInode rfl ⟨rfl, rfl, rfl⟩).of_ok hupdate
  exact h.setInode hlive hfs helse rfl fun _ _ => hsynced

theorem Inv.modifyUpdate (h : Inv g c) (hheld : c.Held i) {f : Dinode → Dinode}
    (hsame : SameFile (c.inode i).toDinode (f (c.inode i).toDinode)) :
    Returns (fun _ c' => Inv g c') (do inodeModify i f; FS.inodeUpdate i) c := by
  obtain ⟨hlive, -, hvalid⟩ := hheld
  have hold := h.synced i hlive hvalid
  refine (inodeModify_returns c i f).bind ?_
  rintro _ _ rfl
  refine returns_runInode fun _ ip fs hf => ?_
  obtain ⟨fs', hupdate, heq⟩ := map_eq_ok hf
  obtain ⟨rfl, rfl⟩ := Prod.mk.inj (Prod.mk.inj heq).2
  rw [setInode_self] at hupdate ⊢
  rw [setInode_setFs]
  obtain ⟨hfs, helse, hsynced⟩ := (inodeUpdate_keeps h.consistent hold
    { (c.inode i).toInode with toDinode := f (c.inode i).toDinode } rfl hsame).of_ok
    hupdate
  exact h.setInode hlive hfs helse rfl fun _ _ => hsynced

theorem Inv.code (h : Inv g c) {op : InodeOp} (hcalled : Called g c op) (hroomy : Roomy g c op)
    (devsw : ℕ → Devsw) : Returns (fun _ c' => Inv g c') (op.code devsw) c := by
  have hdone : ∀ {β : Type} {m : CacheM β} {k : β → InodeOut},
      Returns (fun _ c' => Inv g c') m c →
      Returns (fun _ c' => Inv g c') (do let value ← m; return k value) c := fun hm =>
    hm.bind fun _ _ h' => Returns.pure h'
  cases op with
  | begin => exact hdone h.beginTrans
  | commit => exact hdone h.commitTrans
  | alloc dev type =>
    obtain rfl : dev = rootdev := hcalled
    exact hdone (h.inodeAlloc type)
  | get dev inum =>
    obtain ⟨rfl, hinum⟩ := hcalled
    exact hdone (h.inodeGet hinum)
  | dup i => exact hdone (h.inodeDup hcalled)
  | lock i => exact hdone h.inodeLock
  | unlock i => exact hdone h.inodeUnlock
  | put i => exact hdone (h.inodePut hcalled)
  | write i src off n => exact hdone (h.inodeWrite hcalled hroomy)
  | update i => exact hdone (h.inodeUpdate hcalled)
  | initFields i major minor => exact hdone (h.modifyUpdate hcalled ⟨rfl, rfl, rfl⟩)
  | incNlink i => exact hdone (h.modifyUpdate hcalled ⟨rfl, rfl, rfl⟩)
  | decNlink i => exact hdone (h.modifyUpdate hcalled ⟨rfl, rfl, rfl⟩)

theorem Inv.coherent (h : Inv g c) : c.Coherent where
  unique i j hi hj _ hinum := h.unique i j hi hj hinum
  dinode_eq i hi hvalid _ := (h.synced i hi hvalid).dinode_eq
  reload i hi hvalid hidle d c' hlock := by
    have hlocked := inodeLock_returns _ i _ _ hlock
    rw [inodeLock_of_valid hi hvalid hidle, hlocked.eq, lockedInode, forget, setInode_self,
      if_neg Bool.false_ne_true, setInode_setInode]
    simp only [setInode_fs, (h.synced i hi hvalid).dinode_eq, ← hvalid]

end InodeCache

open InodeCache in
/-- **The inode cache is coherent.** From every consistent file system and an empty cache, in
every run in which the callers keep to the rules and the blocks of every write are free, no
inode has two slots in use and every valid unlocked slot holds what is on the disk. -/
theorem inode_cache_coherent {fs : Fs} (hfs : Consistent g fs) {devsw : ℕ → Devsw}
    {trace : List (InodeOp × InodeOut)}
    (run : (inodeMachine devsw).Run (fun c op => Called g c op ∧ Roomy g c op) (boot fs) trace c) :
    c.Coherent := by
  refine InodeCache.Inv.coherent (run.invariant (InodeCache.inv_boot hfs) ?_)
  intro c c' op out h hop hexec
  obtain ⟨⟨out', c''⟩, hok, heq⟩ := Option.map_eq_some_iff.mp hexec
  obtain ⟨rfl, -⟩ := Prod.mk.inj heq
  exact h.code hop.1 hop.2 devsw _ _ (eq_ok_of_toOption hok)

end Operations

def openTwice : List InodeOp :=
  [.get rootdev 1, .lock 0, .write 0 (fun _ => 1) 0 600, .unlock 0, .get rootdev 1, .commit]

open InodeCache in
theorem inode_cache_coherent_of_write :
    ∃ (trace : List (InodeOp × InodeOut)) (c : InodeCache),
      (inodeMachine fun _ => ⟨none, none⟩).Run
        (fun c op => Called smallGeometry c op ∧ Roomy smallGeometry c op) (boot oneFileFs) trace
        c ∧
      (c.inode 0).ref = 2 ∧ (c.inode 0).size = 600 ∧ c.Coherent := by
  have heval : ∃ x ∈ ((inodeMachine fun _ => ⟨none, none⟩).guarded
      (fun c op => Called smallGeometry c op ∧ Roomy smallGeometry c op)).runAll
        (boot oneFileFs) openTwice,
      (x.1.inode 0).ref = 2 ∧ (x.1.inode 0).size = 600 := by
    decide +kernel
  obtain ⟨⟨c, outs⟩, hrunAll, href, hsize⟩ := heval
  have hrun := Machine.run_of_guarded hrunAll
  exact ⟨_, c, hrun, href, hsize, inode_cache_coherent consistent_oneFileFs hrun⟩

/-! ## A disk without free blocks -/

def tightGeometry : Geometry := ⟨15, 8, 9, by decide, by decide, by decide⟩

def rootDinode : Dinode := ⟨1, 0, 0, 1, 32, fun j => if j.val = 0 then 5 else 0⟩

def fullFs : Fs where
  cache sector :=
    if sector = 1 then Superblock.encode ⟨15, 1, 8, 9⟩
    else if sector = 2 then rootDinode.encode (fun _ => 0) 1
    else if sector = 4 then balloc 6
    else fun _ => 0
  log := Log.boot tightGeometry.region

theorem consistent_fullFs : Consistent tightGeometry fullFs :=
  consistent_of_check 1 1 (Superblock.decode_encode _) ⟨rfl, rfl, rfl⟩ rfl rfl (by decide +kernel)
    (by decide) (by decide) (by decide +kernel) (by decide +kernel) (by decide +kernel)
    (by decide +kernel)

/-- The operations of a caller that creates a file, writes two blocks to it and then the
second one again. -/
def writeOverLog : List InodeOp :=
  [.begin, .get rootdev 1, .lock 0, .unlock 0, .alloc rootdev 2, .lock 1, .initFields 1 0 0,
    .write 1 (fun _ => 7) 0 1024, .write 1 (fun _ => 7) 512 512, .commit]

open InodeCache in
/-- With no data block free, the file gets the first two blocks of the log, and the commit installs
its data over the inodes. -/
theorem inode_cache_stale_of_full_disk : Consistent tightGeometry fullFs ∧
    ∃ c : InodeCache,
      (inodeMachine fun _ => ⟨none, none⟩).Run (Called tightGeometry) (boot fullFs)
        (writeOverLog.zip [.done, .slot 0, .done, .done, .slot 1, .done, .done, .count 1024,
          .count 512, .done]) c ∧
      c.Live 0 ∧ (c.inode 0).inum = 1 ∧ (c.inode 0).type = 1 ∧
      (c.fs.dinode 1).type = 0x0707 ∧ ¬ c.Coherent := by
  have heval : ∃ x ∈ ((inodeMachine fun _ => ⟨none, none⟩).guarded
      (Called tightGeometry)).runAll (boot fullFs) writeOverLog,
      (x.2 = [.done, .slot 0, .done, .done, .slot 1, .done, .done, .count 1024, .count 512,
        .done] ∧ x.1.Live 0 ∧ (x.1.inode 0).valid = true ∧ (x.1.inode 0).busy = false) ∧
      (x.1.inode 0).inum = 1 ∧ (x.1.inode 0).type = 1 ∧ (x.1.fs.dinode 1).type = 0x0707 := by
    decide +kernel
  obtain ⟨⟨c, outs⟩, hrunAll, ⟨houts, hlive, hvalid, hidle⟩, hinum, htype, hdisk⟩ := heval
  have hrun := Machine.run_of_guarded hrunAll
  have houts : outs = _ := houts
  rw [houts] at hrun
  refine ⟨consistent_fullFs, c, hrun, hlive, hinum, htype, hdisk, fun hcoherent => ?_⟩
  have heq := congrArg Dinode.type (hcoherent.dinode_eq 0 hlive hvalid hidle)
  rw [hinum] at heq
  exact absurd (hdisk.symm.trans (heq.trans htype)) (by decide)

end MCertikos.FS
