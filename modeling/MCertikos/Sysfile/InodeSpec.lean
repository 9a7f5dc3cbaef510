/-
# Inodes, directories and paths keep to the discipline

Each function of `inode.c`, `dir.c` and `path.c`, and what it leaves with the process that calls
it: a lock, a reference, or nothing.
-/

import MCertikos.Sysfile.BlockSpec
import MCertikos.Sysfile.Inode

namespace MCertikos.Sysfile

open Math FS

namespace Proc

variable (l : Proc) (i j : ℕ)

def lock : Proc := { l with inodes := i :: l.inodes }

@[simp] theorem refs_gain_self : (l.gain i).refs i = l.refs i + 1 := by simp [gain]

theorem refs_le_gain : l.refs j ≤ (l.gain i).refs j := by
  by_cases hj : j = i
  · simp [hj]
  · simp [gain, hj]

@[simp] theorem gain_lose : (l.gain i).lose i = l := by simp [gain, lose]

theorem gain_gain_lose : ((l.gain i).gain j).lose i = l.gain j := by
  by_cases hij : i = j
  · simp [hij]
  · simp only [gain, lose, Proc.mk.injEq, true_and, and_true]
    funext k
    by_cases hki : k = i <;> by_cases hkj : k = j <;> simp_all [Function.update_of_ne]

end Proc

namespace Rules

variable {R : Rules} {l : Proc} {β γ : Type} {Q : β → Proc → Prop}

theorem MayWrite.gain (h : R.MayWrite l) (i : ℕ) : R.MayWrite (l.gain i) := ⟨h.bufLock, h.trans⟩

theorem MayWrite.lock (h : R.MayWrite l) (i : ℕ) : R.MayWrite (l.lock i) := ⟨h.bufLock, h.trans⟩

theorem keeps_each {f : γ → Code Unit} {xs : List γ} (hf : ∀ x, R.Keeps (f x) l) :
    R.Keeps (Task.each f xs) l := by
  apply Task.wp_each (· = l) rfl
  · rintro x - _ rfl
    exact hf x
  · exact fun _ hl => hl

/-! ## `inode.c` -/

theorem inodeGet_wp {Q : ℕ → Proc → Prop} {inum : BitVec 32} (hpost : ∀ i, Q i (l.gain i)) :
    (act (.inodeGet inum)).wp R.discipline Q l :=
  wp_act trivial trivial fun i _ _ => hpost i

theorem allocInode_wp {Q : ℕ → Proc → Prop} (hl : R.MayWrite l) (type : BitVec 16)
    (inums : List ℕ) (hpost : ∀ i, Q i (l.gain i)) :
    (allocInode type inums).wp R.discipline Q l := by
  induction inums with
  | nil => exact wp_stop (by decide)
  | cons inum rest ih =>
    apply bufcacheRead_bind hl.bufLock
    intro bp
    apply plain_bind rfl
    intro data
    split
    · apply plain_bind rfl
      intro _
      apply (keeps_logWrite (hl.hold _ _) bp _).bind
      intro _
      apply bufcacheRelease_bind
      intro _
      exact inodeGet_wp hpost
    · apply bufcacheRelease_bind
      intro _
      exact ih

theorem inodeAlloc_wp {Q : ℕ → Proc → Prop} (hl : R.MayWrite l) (type : BitVec 16)
    (hpost : ∀ i, Q i (l.gain i)) : (inodeAlloc type).wp R.discipline Q l := by
  apply (keeps_readSuperblock hl.bufLock).bind
  intro sb
  exact allocInode_wp hl type _ hpost

theorem keeps_inodeUpdate (hl : R.MayWrite l) (i : ℕ) : R.Keeps (inodeUpdate i) l := by
  apply plain_bind rfl
  intro ip
  apply bufcacheRead_bind hl.bufLock
  intro bp
  apply plain_bind rfl
  intro ip'
  apply plain_bind rfl
  intro _
  apply (keeps_logWrite (hl.hold _ _) bp _).bind
  intro _
  exact bufcacheRelease_wp fun _ => rfl

variable {i : ℕ}

theorem inodeLock_bind {f : Unit → Code β} (hl : l.bufLock = R.rw) (href : 1 ≤ l.refs i)
    (hf : ∀ v, (f v).wp R.discipline Q (l.lock i)) :
    (inodeLock i >>= f).wp R.discipline Q l := by
  apply Task.wp_bind
  refine act_bind href hl fun _ _ _ => ?_
  apply plain_bind rfl
  intro ip
  split
  · exact hf ()
  · apply bufcacheRead_bind (l := l.lock i) hl
    intro bp
    apply plain_bind rfl
    intro data
    apply plain_bind rfl
    intro _
    apply bufcacheRelease_bind
    intro _
    apply plain_bind rfl
    intro _
    split
    · exact wp_stop (by decide)
    · exact hf ()

theorem inodeUnlock_bind {f : Unit → Code β} (hf : ∀ v, (f v).wp R.discipline Q l) :
    (inodeUnlock i >>= f).wp R.discipline Q (l.lock i) := by
  refine act_bind List.mem_cons_self trivial fun v _ _ => ?_
  have hafter : (l.lock i).after (.inodeRelease i) v = l := by
    simp [Proc.after, Proc.lock]
  rw [hafter]
  exact hf v

theorem keeps_truncDirect (hl : R.MayWrite l) (i k : ℕ) : R.Keeps (truncDirect i k) l := by
  refine act_bind trivial trivial fun addr _ _ => ?_
  split
  · exact keeps_pure ()
  · apply (keeps_blockFree hl addr).bind
    intro _
    exact keeps_of_plain rfl

theorem keeps_truncEntry (hl : R.MayWrite l) (bp j : ℕ) : R.Keeps (truncEntry bp j) l := by
  refine act_bind trivial trivial fun addr _ _ => ?_
  split
  · exact keeps_pure ()
  · exact keeps_blockFree hl addr

theorem keeps_truncIndirect (hl : R.MayWrite l) (i : ℕ) : R.Keeps (truncIndirect i) l := by
  refine act_bind trivial trivial fun addr _ _ => ?_
  split
  · exact keeps_pure ()
  · apply bufcacheRead_bind hl.bufLock
    intro bp
    apply (keeps_each fun j => keeps_truncEntry (hl.hold _ _) bp j).bind
    intro _
    apply bufcacheRelease_bind
    intro _
    apply (keeps_blockFree hl addr).bind
    intro _
    exact keeps_of_plain rfl

theorem keeps_inodeTrunc (hl : R.MayWrite l) (i : ℕ) : R.Keeps (inodeTrunc i) l := by
  apply (keeps_each fun k => keeps_truncDirect hl i k).bind
  intro _
  apply (keeps_truncIndirect hl i).bind
  intro _
  apply plain_bind rfl
  intro _
  exact keeps_inodeUpdate hl i

theorem inodePut_wp {Q : Unit → Proc → Prop} (hl : l.bufLock = R.rw) (href : 1 ≤ l.refs i)
    (hheld : i ∈ l.inodes → 2 ≤ l.refs i) (hpost : ∀ v, Q v (l.lose i)) :
    (inodePut i).wp R.discipline Q l := by
  refine act_bind ⟨href, hheld⟩ trivial fun freed _ hfreed => ?_
  cases freed with
  | false => exact hpost ()
  | true =>
    have hwrite : R.MayWrite (l.lock i) := ⟨hl, fun hs => hfreed hs rfl⟩
    apply (keeps_inodeTrunc hwrite i).bind
    intro _
    apply plain_bind rfl
    intro _
    apply (keeps_inodeUpdate hwrite i).bind
    intro _
    refine wp_act ⟨List.mem_cons_self, href⟩ trivial fun v _ _ => ?_
    have hafter : (l.lock i).after (.inodePutFinish i) v = l.lose i := by
      simp [Proc.after, Proc.lock, Proc.lose]
    rw [hafter]
    exact hpost v

theorem inodeUnlockput_wp {Q : Unit → Proc → Prop} (hl : l.bufLock = R.rw) (href : 1 ≤ l.refs i)
    (hheld : i ∈ l.inodes → 2 ≤ l.refs i) (hpost : ∀ v, Q v (l.lose i)) :
    (inodeUnlockput i).wp R.discipline Q (l.lock i) := by
  apply inodeUnlock_bind
  intro _
  exact inodePut_wp hl href hheld hpost

theorem keeps_addrAlloc (hl : l.bufLock = R.rw) (i k : ℕ) : R.Keeps (addrAlloc i k) l := by
  refine act_bind trivial trivial fun addr _ haddr => ?_
  split
  · next hzero =>
    apply (keeps_blockAlloc ⟨hl, fun hs => haddr hs (decide_eq_true hzero)⟩).bind
    intro addr
    apply plain_bind rfl
    intro _
    exact keeps_pure addr
  · exact keeps_pure addr

theorem keeps_entryAlloc (hl : l.bufLock = R.rw) (ind : Sector) (j : ℕ) :
    R.Keeps (entryAlloc ind j) l := by
  apply bufcacheRead_bind hl
  intro bp
  refine act_bind trivial trivial fun addr _ haddr => ?_
  change Task.wp _ _ _ (l.hold bp ind)
  split
  · next hzero =>
    have hwrite : R.MayWrite (l.hold bp ind) :=
      ⟨hl, fun hs => haddr hs (decide_eq_true hzero)⟩
    apply (keeps_blockAlloc hwrite).bind
    intro addr
    apply plain_bind rfl
    intro _
    apply (keeps_logWrite hwrite bp ind).bind
    intro _
    apply bufcacheRelease_bind
    intro _
    exact keeps_pure addr
  · apply bufcacheRelease_bind
    intro _
    exact keeps_pure addr

theorem keeps_bmap (hl : l.bufLock = R.rw) (i bn : ℕ) : R.Keeps (bmap i bn) l := by
  unfold bmap
  split_ifs
  · exact keeps_addrAlloc hl i bn
  · apply (keeps_addrAlloc hl i ndirect).bind
    intro ind
    exact keeps_entryAlloc hl ind _
  · exact wp_stop (by decide)

theorem keeps_readLoop (hl : l.bufLock = R.rw) (i n fuel tot off : ℕ) :
    R.Keeps (readLoop i n fuel tot off) l := by
  induction fuel generalizing tot off with
  | zero => exact keeps_pure []
  | succ fuel ih =>
    unfold readLoop
    split
    · apply (keeps_bmap hl i _).bind
      intro addr
      apply bufcacheRead_bind hl
      intro bp
      apply plain_bind rfl
      intro data
      apply bufcacheRelease_bind
      intro _
      apply (ih _ _).bind
      intro rest
      exact keeps_pure _
    · exact keeps_pure []

theorem keeps_deviceAccess (ip : Inode) (refused : β) : R.Keeps (deviceAccess ip refused) l := by
  unfold deviceAccess
  split
  · exact keeps_pure refused
  · exact wp_stop (by decide)

theorem keeps_inodeRead (hl : l.bufLock = R.rw) (i : ℕ) (off n : BitVec 32) :
    R.Keeps (inodeRead i off n) l := by
  apply plain_bind rfl
  intro ip
  split_ifs
  · exact keeps_deviceAccess ip _
  · exact keeps_pure _
  · apply (keeps_readLoop hl i _ _ _ _).bind
    intro data
    exact keeps_pure _
  · apply (keeps_readLoop hl i _ _ _ _).bind
    intro data
    exact keeps_pure _

theorem keeps_writeLoop (hl : R.MayWrite l) (i n : ℕ) (src : ℕ → Byte) (fuel tot off : ℕ) :
    R.Keeps (writeLoop i n src fuel tot off) l := by
  induction fuel generalizing tot off with
  | zero => exact keeps_pure off
  | succ fuel ih =>
    unfold writeLoop
    split
    · apply (keeps_bmap hl.bufLock i _).bind
      intro addr
      apply bufcacheRead_bind hl.bufLock
      intro bp
      apply plain_bind rfl
      intro _
      apply (keeps_logWrite (hl.hold _ _) bp addr).bind
      intro _
      apply bufcacheRelease_bind
      intro _
      exact ih _ _
    · exact keeps_pure off

theorem keeps_inodeWrite (hl : R.MayWrite l) (i : ℕ) (src : ℕ → Byte) (off n : BitVec 32) :
    R.Keeps (inodeWrite i src off n) l := by
  apply plain_bind rfl
  intro ip
  split_ifs
  · exact keeps_deviceAccess ip _
  · exact keeps_pure _
  · exact keeps_pure _
  · apply (keeps_writeLoop hl i _ src _ _ _).bind
    intro off
    apply plain_bind rfl
    intro ip
    split
    · apply plain_bind rfl
      intro _
      apply (keeps_inodeUpdate hl i).bind
      intro _
      exact keeps_pure _
    · exact keeps_pure _

/-! ## `dir.c` -/

theorem keeps_readDirent (hl : l.bufLock = R.rw) (dp off : ℕ) : R.Keeps (readDirent dp off) l := by
  apply (keeps_inodeRead hl dp _ _).bind
  rintro ⟨r, data⟩
  dsimp only
  split
  · exact keeps_pure _
  · exact wp_stop (by decide)

theorem keeps_scanDir (hl : l.bufLock = R.rw) (dp : ℕ) (found : Dirent → Bool) (fuel off : ℕ) :
    R.Keeps (scanDir dp found fuel off) l := by
  induction fuel generalizing off with
  | zero => exact wp_stop (by decide)
  | succ fuel ih =>
    apply plain_bind rfl
    intro d
    split
    · apply (keeps_readDirent hl dp off).bind
      intro de
      split
      · exact keeps_pure _
      · exact ih _
    · exact keeps_pure _

theorem dirLookup_wp {Q : Option (ℕ × ℕ) → Proc → Prop} {dp : ℕ} {name : List Byte}
    (hl : l.bufLock = R.rw) (hnone : Q none l) (hsome : ∀ ip off, Q (some (ip, off)) (l.gain ip)) :
    (dirLookup dp name).wp R.discipline Q l := by
  apply plain_bind rfl
  intro d
  split
  · apply (keeps_scanDir hl dp _ _ _).bind
    rintro ⟨de, off⟩
    cases de with
    | none => exact hnone
    | some de =>
      apply Task.wp_bind
      apply inodeGet_wp
      intro ip
      exact hsome ip off
  · exact wp_stop (by decide)

theorem keeps_writeDirent (hl : R.MayWrite l) (dp : ℕ) (de : Dirent) (off : ℕ) :
    R.Keeps (writeDirent dp de off) l := by
  apply (keeps_inodeWrite hl dp _ _ _).bind
  intro r
  split
  · exact keeps_pure ()
  · exact wp_stop (by decide)

theorem keeps_dirLink (hl : R.MayWrite l) (hheld : ∀ i ∈ l.inodes, 1 ≤ l.refs i) (dp : ℕ)
    (name : List Byte) (inum : BitVec 32) : R.Keeps (dirLink dp name inum) l := by
  apply Task.wp_bind
  apply dirLookup_wp hl.bufLock
  · apply (keeps_scanDir hl.bufLock dp _ _ _).bind
    rintro ⟨de, off⟩
    apply (keeps_writeDirent hl dp _ off).bind
    intro _
    exact keeps_pure true
  · intro ip off
    apply Task.wp_bind
    apply inodePut_wp (hl.gain ip).bufLock
    · simp
    · intro hmem
      rw [Proc.refs_gain_self]
      exact Nat.succ_le_succ (hheld ip hmem)
    · intro _
      rw [Proc.gain_lose]
      exact keeps_pure false

/-! ## `path.c` -/

structure Calm (R : Rules) (l : Proc) : Prop where
  bufLock : l.bufLock = R.rw
  inodes : l.inodes = []

theorem Calm.gain (h : R.Calm l) (i : ℕ) : R.Calm (l.gain i) := ⟨h.bufLock, h.inodes⟩

theorem Calm.not_mem (h : R.Calm l) {p : Prop} (hi : i ∈ l.inodes) : p := by
  rw [h.inodes] at hi
  cases hi

theorem Calm.inodeUnlockput_wp {Q : Unit → Proc → Prop} (hl : R.Calm l) (href : 1 ≤ l.refs i)
    (hpost : ∀ v, Q v (l.lose i)) : (inodeUnlockput i).wp R.discipline Q (l.lock i) :=
  Rules.inodeUnlockput_wp hl.bufLock href (fun hi => hl.not_mem hi) hpost

theorem Calm.drop_bind {f : Unit → Code β} (hl : R.Calm l) (i : ℕ)
    (hf : ∀ v, (f v).wp R.discipline Q l) :
    (inodeUnlockput i >>= f).wp R.discipline Q ((l.gain i).lock i) := by
  apply Task.wp_bind
  apply (hl.gain i).inodeUnlockput_wp (by simp)
  intro v
  rw [Proc.gain_lose]
  exact hf v

theorem Calm.inodePut_wp {Q : Unit → Proc → Prop} (hl : R.Calm l) (href : 1 ≤ l.refs i)
    (hpost : ∀ v, Q v (l.lose i)) : (inodePut i).wp R.discipline Q l :=
  Rules.inodePut_wp hl.bufLock href (fun hi => hl.not_mem hi) hpost

theorem namexLoop_wp {Q : Option (ℕ × List Byte) → Proc → Prop} {parent : Bool}
    (hl : R.Calm l) (hnone : Q none l) (hsome : ∀ ip name, Q (some (ip, name)) (l.gain ip))
    (fuel ip : ℕ) (path name : List Byte) :
    (namexLoop parent fuel ip path name).wp R.discipline Q (l.gain ip) := by
  induction fuel generalizing ip path name with
  | zero => exact wp_stop (by decide)
  | succ fuel ih =>
    have href : 1 ≤ (l.gain ip).refs ip := by simp
    have hdrop : ∀ t : Option (ℕ × List Byte), t = none →
        (inodeUnlockput ip >>= fun _ => (pure t : Code _)).wp R.discipline Q
          ((l.gain ip).lock ip) := by
      rintro _ rfl
      exact hl.drop_bind ip fun _ => hnone
    unfold namexLoop
    split
    · split
      · apply Task.wp_bind
        apply (hl.gain ip).inodePut_wp href
        intro _
        rw [Proc.gain_lose]
        exact hnone
      · exact hsome ip name
    · next name path _ =>
      apply inodeLock_bind (hl.gain ip).bufLock href
      intro _
      apply plain_bind rfl
      intro d
      split_ifs
      · exact hdrop none rfl
      · apply inodeUnlock_bind
        intro _
        exact hsome ip name
      · apply Task.wp_bind
        apply dirLookup_wp (l := (l.gain ip).lock ip) hl.bufLock
        · exact hdrop none rfl
        · intro subdir off
          apply Task.wp_bind
          apply ((hl.gain ip).gain subdir).inodeUnlockput_wp
          · exact href.trans (Proc.refs_le_gain _ _ _)
          · intro _
            rw [Proc.gain_gain_lose]
            exact ih subdir path name

variable {path : List Byte}

theorem startInode_wp {Q : ℕ → Proc → Prop} (hpost : ∀ ip, Q ip (l.gain ip)) :
    (startInode path).wp R.discipline Q l := by
  unfold startInode
  split
  · exact inodeGet_wp hpost
  · refine act_bind trivial trivial fun cwd _ _ => ?_
    cases cwd with
    | none => exact wp_stop (by decide)
    | some ip =>
      apply Task.wp_bind
      exact wp_act trivial trivial fun _ _ _ => hpost ip

theorem namex_wp {Q : Option (ℕ × List Byte) → Proc → Prop} {parent : Bool} (hl : R.Calm l)
    (hnone : Q none l) (hsome : ∀ ip name, Q (some (ip, name)) (l.gain ip)) :
    (namex path parent).wp R.discipline Q l := by
  apply Task.wp_bind
  apply startInode_wp
  intro ip
  exact namexLoop_wp hl hnone hsome _ ip path []

theorem namei_wp {Q : Option ℕ → Proc → Prop} (hl : R.Calm l) (hnone : Q none l)
    (hsome : ∀ ip, Q (some ip) (l.gain ip)) : (namei path).wp R.discipline Q l := by
  apply Task.wp_bind
  apply namex_wp hl
  · exact hnone
  · intro ip name
    exact hsome ip

end Rules

end MCertikos.Sysfile
