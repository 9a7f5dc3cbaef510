/-
# Paths are resolved component by component

The components of a path are its segments between slashes, each cut to thirteen bytes.
-/

import MCertikos.FS.DirMap
import MCertikos.Math.Segments

namespace MCertikos.FS

open Math InodeCache
open Sysfile (Byte dirsiz direntSize tDir skipelem slash)

/-! ## `skipelem` -/

def components (path : List Byte) : List (List Byte) :=
  (segments (fun a => decide (a = slash)) path).map fun seg => seg.take (dirsiz - 1)

section Skipelem

variable {path name rest : List Byte}

theorem dropWhile_slash_cons {a : Byte}
    (h : path.dropWhile (fun a => decide (a = slash)) = a :: rest) :
    decide (a = slash) = false := by
  have hhead := List.head?_dropWhile_not (fun a => decide (a = slash)) path
  rw [h] at hhead
  exact hhead

theorem components_dropWhile (path : List Byte) :
    components (path.dropWhile fun a => decide (a = slash)) = components path := by
  rw [components, segments_dropWhile, components]

theorem components_eq_nil_of_dropWhile :
    components (path.dropWhile fun a => decide (a = slash)) = [] ↔
      path.dropWhile (fun a => decide (a = slash)) = [] := by
  cases hstart : path.dropWhile (fun a => decide (a = slash)) with
  | nil => exact ⟨fun _ => rfl, fun _ => rfl⟩
  | cons a start =>
    rw [components, segments_eq_cons (fun a => decide (a = slash))
      (dropWhile_slash_cons hstart), List.map_cons]
    exact ⟨fun heq => absurd heq (List.cons_ne_nil _ _),
      fun heq => absurd heq (List.cons_ne_nil _ _)⟩

theorem skipelem_eq_none : skipelem path = none ↔ components path = [] := by
  rw [← components_dropWhile, components_eq_nil_of_dropWhile]
  unfold skipelem
  simp only [ite_eq_left_iff, reduceCtorEq, imp_false, not_not]

theorem components_of_skipelem (h : skipelem path = some (name, rest)) :
    components path = name :: components rest := by
  obtain ⟨hne, hsome⟩ := Option.ite_none_left_eq_some.mp h
  obtain ⟨rfl, rfl⟩ := Prod.mk.inj (Option.some.inj hsome)
  rw [← components_dropWhile path]
  cases hstart : path.dropWhile (fun a => decide (a = slash)) with
  | nil => exact absurd hstart hne
  | cons a start =>
    rw [components_dropWhile, components, segments_eq_cons (fun a => decide (a = slash))
      (dropWhile_slash_cons hstart), List.map_cons, components]
    simp only [ne_eq, decide_not]

theorem rest_eq_nil_iff (h : skipelem path = some (name, rest)) :
    rest = [] ↔ components rest = [] := by
  obtain ⟨-, hsome⟩ := Option.ite_none_left_eq_some.mp h
  obtain ⟨-, rfl⟩ := Prod.mk.inj (Option.some.inj hsome)
  exact components_eq_nil_of_dropWhile.symm

theorem length_rest_lt (h : skipelem path = some (name, rest)) : rest.length < path.length := by
  obtain ⟨hne, hsome⟩ := Option.ite_none_left_eq_some.mp h
  obtain ⟨-, rfl⟩ := Prod.mk.inj (Option.some.inj hsome)
  have hpath := (List.dropWhile_suffix (l := path) fun a => decide (a = slash)).length_le
  refine Nat.lt_of_le_of_lt (List.dropWhile_suffix _).length_le ?_
  cases hstart : path.dropWhile (fun a => decide (a = slash)) with
  | nil => exact absurd hstart hne
  | cons a start =>
    have ha := dropWhile_slash_cons hstart
    rw [List.dropWhile_cons_of_pos (by simpa using ha)]
    have htail := (List.dropWhile_suffix (l := start) fun a => decide (a ≠ slash)).length_le
    rw [hstart, List.length_cons] at hpath
    omega

theorem nameOk_of_skipelem (hnull : 0 ∉ path) (h : skipelem path = some (name, rest)) :
    NameOk dirsiz name ∧ 0 ∉ rest := by
  obtain ⟨hne, hsome⟩ := Option.ite_none_left_eq_some.mp h
  obtain ⟨rfl, rfl⟩ := Prod.mk.inj (Option.some.inj hsome)
  have hstart := List.dropWhile_suffix (l := path) fun a => decide (a = slash)
  refine ⟨⟨?_, ?_, fun hmem => hnull ?_⟩, fun hmem => hnull ?_⟩
  · cases hcons : path.dropWhile (fun a => decide (a = slash)) with
    | nil => exact absurd hcons hne
    | cons a start =>
      have ha := dropWhile_slash_cons hcons
      rw [List.takeWhile_cons_of_pos (by simpa using ha), List.length_take, List.length_cons]
      exact Nat.lt_min.mpr ⟨by decide, Nat.succ_pos _⟩
  · exact (List.length_take_le _ _).trans (by decide)
  · exact hstart.subset ((List.takeWhile_prefix _).subset (List.mem_of_mem_take hmem))
  · exact hstart.subset ((List.dropWhile_suffix _).subset ((List.dropWhile_suffix _).subset hmem))

/-- The elements that `skipelem` yields if it is applied again and again, each with the path
that is left. -/
def elements (path : List Byte) : List (List Byte × List Byte) :=
  match _hskip : skipelem path with
  | none => []
  | some (name, rest) => (name, rest) :: elements rest
termination_by path.length
decreasing_by exact length_rest_lt _hskip

theorem elements_of_none (h : skipelem path = none) : elements path = [] := by
  rw [elements]
  split
  · rfl
  · next heq => exact absurd (h.symm.trans heq) (Option.some_ne_none _).symm

theorem elements_of_some (h : skipelem path = some (name, rest)) :
    elements path = (name, rest) :: elements rest := by
  rw [elements]
  split
  · next heq => exact absurd (h.symm.trans heq) (Option.some_ne_none _)
  · next heq =>
    obtain ⟨rfl, rfl⟩ := Prod.mk.inj (Option.some.inj (h.symm.trans heq))
    rfl

/-- **`skipelem` yields the components of a path**, and the path that is left is empty after
the last one only. -/
theorem elements_eq (path : List Byte) : (elements path).map Prod.fst = components path ∧
      ∀ k name rest, (elements path)[k]? = some (name, rest) →
        (rest = [] ↔ k + 1 = (components path).length) := by
  induction path using elements.induct with
  | case1 path h =>
    rw [elements_of_none h, skipelem_eq_none.mp h]
    exact ⟨rfl, fun k name rest hk => by cases hk⟩
  | case2 path name rest h ih =>
    rw [elements_of_some h, components_of_skipelem h]
    refine ⟨by rw [List.map_cons, ih.1], fun k name' rest' hk => ?_⟩
    cases k with
    | zero =>
      obtain ⟨-, rfl⟩ := Prod.mk.inj (Option.some.inj hk)
      rw [rest_eq_nil_iff h, List.length_cons, Nat.add_right_cancel_iff,
        eq_comm (a := 0), List.length_eq_zero_iff]
    | succ k =>
      rw [ih.2 k name' rest' hk, List.length_cons, Nat.add_right_cancel_iff]

end Skipelem

/-! ## References and locks on the way -/

def one (i : ℕ) : ℕ → ℤ := fun j => if j = i then 1 else 0

/-- The cache `c'` is `c` with `held j` more references to each slot `j` and with the lock on
the slot `locked`. -/
structure Borrowed (g : Geometry) (c : InodeCache) (held : ℕ → ℤ) (locked : Option ℕ)
    (c' : InodeCache) : Prop where
  inv : c'.Inv g
  fs_eq : c'.fs = c.fs
  ref_eq : ∀ j, (c'.inode j).ref = (c.inode j).ref + held j
  inum_eq : ∀ j, c.Live j → (c'.inode j).inum = (c.inode j).inum
  busy_iff : ∀ j, c'.Live j → ((c'.inode j).busy = true ↔ locked = some j)

/-- An inode that is allocated and has a link or is in use, so that dropping a reference to it
does not free it. -/
structure Linked (g : Geometry) (c : InodeCache) (inum : ℕ) : Prop where
  allocated : InodeAllocated g c.fs inum
  kept : (c.fs.dinode inum).nlink ≠ 0 ∨ ∃ j, c.Live j ∧ (c.inode j).inum.toNat = inum

namespace Borrowed

variable {g : Geometry} {c c' c'' : InodeCache} {held held' : ℕ → ℤ} {locked : Option ℕ} {i : ℕ}

theorem congr (h : Borrowed g c held locked c') (heq : ∀ j, held' j = held j) :
    Borrowed g c held' locked c' :=
  ⟨h.inv, h.fs_eq, fun j => by rw [heq, h.ref_eq], h.inum_eq, h.busy_iff⟩

theorem start (h : c.Inv g) (hunlocked : ∀ j, c.Live j → (c.inode j).busy = false) :
    Borrowed g c (fun _ => 0) none c := by
  refine ⟨h, rfl, fun j => (Int.add_zero _).symm, fun _ _ => rfl, fun j hj => ?_⟩
  rw [hunlocked j hj]
  exact ⟨fun heq => absurd heq Bool.false_ne_true, fun heq => by cases heq⟩

theorem dinodeOf_eq (h : Borrowed g c held locked c') (i : ℕ) :
    c'.dinodeOf i = c.fs.dinode (c'.inode i).inum.toNat := by
  rw [dinodeOf, h.fs_eq]

theorem live_of_linked (h : Borrowed g c held locked c') (hheld : ∀ j, 0 ≤ held j)
    (hlive : c'.Live i) {j : ℕ} (hj : c.Live j)
    (hinum : (c.inode j).inum.toNat = (c'.inode i).inum.toNat) : j = i := by
  have hj' : c'.Live j := by
    have hpos : 0 < (c.inode j).ref := hj
    have hnonneg := hheld j
    rw [Live, h.ref_eq]
    omega
  refine h.inv.unique j i hj' hlive (BitVec.eq_of_toNat_eq ?_)
  rw [h.inum_eq j hj, hinum]

theorem setSlot {locked' : Option ℕ} (h : Borrowed g c held locked c') (ip : CachedInode)
    (hinv : (c'.setInode i ip).Inv g) (href : ∀ j, held' j = held j +
      if j = i then ip.ref - (c'.inode i).ref else 0)
    (hinum : c.Live i → ip.inum = (c.inode i).inum)
    (hbusy : 0 < ip.ref → (ip.busy = true ↔ locked' = some i))
    (hlocked : ∀ j, j ≠ i → (locked' = some j ↔ locked = some j)) :
    Borrowed g c held' locked' (c'.setInode i ip) := by
  have hother : ∀ j, j ≠ i → (c'.setInode i ip).inode j = c'.inode j := fun j hj =>
    setInode_of_ne hj
  refine ⟨hinv, h.fs_eq, fun j => ?_, fun j hj => ?_, fun j hj => ?_⟩
  · have hold := h.ref_eq j
    rw [href]
    by_cases hji : j = i
    · rw [hji] at hold ⊢
      rw [setInode_self, if_pos rfl]
      omega
    · rw [hother j hji, if_neg hji, Int.add_zero]
      exact hold
  · by_cases hji : j = i
    · rw [hji] at hj ⊢
      rw [setInode_self]
      exact hinum hj
    · rw [hother j hji]
      exact h.inum_eq j hj
  · by_cases hji : j = i
    · rw [hji] at hj ⊢
      rw [Live, setInode_self] at hj
      rw [setInode_self]
      exact hbusy hj
    · rw [Live, hother j hji] at hj
      rw [hother j hji, hlocked j hji]
      exact h.busy_iff j hj

theorem inum_setInode {ip : CachedInode} (hinum : ip.inum = (c.inode i).inum) (j : ℕ) :
    ((c.setInode i ip).inode j).inum = (c.inode j).inum := by
  by_cases hji : j = i
  · rw [hji, setInode_self, hinum]
  · rw [setInode_of_ne hji]

theorem some_ne_iff {j : ℕ} (hne : j ≠ i) : some i = some j ↔ (none : Option ℕ) = some j :=
  ⟨fun heq => absurd (Option.some.inj heq).symm hne, fun heq => by cases heq⟩

theorem lock (h : Borrowed g c held none c') (hlive : c'.Live i)
    (halloc : InodeAllocated g c.fs (c'.inode i).inum.toNat) : Meets (Stuck.Halts (Pinned c.fs))
      (fun r => Borrowed g c held (some i) r.2 ∧
        r.2.inode i = { c'.inode i with
          toDinode := c.fs.dinode (c'.inode i).inum.toNat, busy := true, valid := true })
      (inodeLock i c') := by
  have hidle : (c'.inode i).busy = false := by
    rw [Bool.eq_false_iff]
    intro hbusy
    have hnone := (h.busy_iff i hlive).mp hbusy
    cases hnone
  have htype : (c'.fs.dinode (c'.inode i).inum.toNat).type ≠ 0 := by
    rw [h.fs_eq]
    exact halloc.2
  have hlock := (inodeLock_meets hlive hidle fun _ => htype).and_eq
  rw [h.fs_eq] at hlock
  refine hlock.mono (fun _ he => he) ?_
  rintro _ ⟨hok, rfl⟩
  have hinv : Inv g (c'.setInode i _) := h.inv.inodeLock _ _ hok
  have hslot := h.inv.lockedInode_eq hlive
  rw [h.dinodeOf_eq] at hslot
  rw [hslot] at hinv ⊢
  refine ⟨h.setSlot _ hinv (fun j => ?_) (fun hi => h.inum_eq i hi) (fun _ => ?_)
    (fun j hj => some_ne_iff hj), setInode_self⟩
  · simp
  · exact ⟨fun _ => rfl, fun _ => rfl⟩

theorem unlock (h : Borrowed g c held (some i) c') (hlive : c'.Live i) :
    ∃ c'', inodeUnlock i c' = .ok ((), c'') ∧ Borrowed g c held none c'' ∧
      c''.inode i = { c'.inode i with busy := false } ∧
      ∀ j, (c''.inode j).inum = (c'.inode j).inum := by
  have hbusy := (h.busy_iff i hlive).mpr rfl
  have hok := inodeUnlock_of_busy hlive hbusy
  have hinv : Inv g (c'.setInode i _) := h.inv.inodeUnlock _ _ hok
  refine ⟨_, hok, h.setSlot _ hinv (fun j => ?_) (fun hi => h.inum_eq i hi) (fun _ => ?_)
    (fun j hj => (some_ne_iff hj).symm), setInode_self, inum_setInode rfl⟩
  · simp
  · exact ⟨fun heq => absurd heq Bool.false_ne_true, fun heq => by cases heq⟩

theorem put (h : Borrowed g c held none c') (hheld : ∀ j, 0 ≤ held j) (hone : 0 < held i)
    (hlive : c'.Live i) (hlinked : Linked g c (c'.inode i).inum.toNat) :
    ∃ c'', inodePut i c' = .ok ((), c'') ∧
      Borrowed g c (fun j => held j - one i j) none c'' ∧
      ∀ j, (c''.inode j).inum = (c'.inode j).inum := by
  have hnot : ¬ ((c'.inode i).ref = 1 ∧ (c'.inode i).valid = true ∧ (c'.inode i).nlink = 0) := by
    rintro ⟨href, hvalid, hnlink⟩
    obtain hlinks | ⟨j, hj, hinum⟩ := hlinked.kept
    · have hsynced := h.inv.synced i hlive hvalid
      apply hlinks
      rw [← h.fs_eq, hsynced.dinode_eq]
      exact hnlink
    · obtain rfl := h.live_of_linked hheld hlive hj hinum
      have hpos : 0 < (c.inode j).ref := hj
      have hold := h.ref_eq j
      omega
  have hok := inodePut_of_not_last hnot
  have hinv : Inv g (c'.setInode i _) := h.inv.inodePut hlive _ _ hok
  refine ⟨_, hok, h.setSlot _ hinv (fun j => ?_) (fun hi => h.inum_eq i hi) (fun _ => ?_)
    (fun _ _ => Iff.rfl), inum_setInode rfl⟩
  · unfold one
    dsimp only
    split <;> omega
  · exact h.busy_iff i hlive

theorem get (h : Borrowed g c held locked c') (hheld : ∀ j, 0 ≤ held j)
    (hlocked : ∀ j, locked = some j → c'.Live j) {inum : BitVec 32}
    (hlt : inum.toNat < g.ninodes) (hok : inodeGet rootdev inum c' = .ok (i, c'')) :
    Borrowed g c (fun j => held j + one i j) locked c'' ∧ c''.Live i ∧
      (c''.inode i).inum = inum := by
  have hinv := h.inv.inodeGet hlt i c'' hok
  have hgot : Got c' rootdev inum i c'' := (inodeGet_meets c' rootdev inum).of_ok hok
  refine ⟨?_, hgot.inode.1, hgot.inode.2.2⟩
  cases hgot with
  | cached live dev_eq inum_eq =>
    refine h.setSlot _ hinv (fun j => ?_) (fun hi => h.inum_eq i hi) (fun _ => ?_)
      fun _ _ => Iff.rfl
    · unfold one
      dsimp only
      split <;> omega
    · exact h.busy_iff i live
  | recycled free =>
    refine h.setSlot _ hinv (fun j => ?_) (fun hi => ?_) (fun _ => ?_) fun _ _ => Iff.rfl
    · unfold one
      split <;> simp [free]
    · have hpos : 0 < (c.inode i).ref := hi
      have hold := h.ref_eq i
      have hnonneg := hheld i
      omega
    · refine ⟨fun heq => absurd heq Bool.false_ne_true, fun heq => ?_⟩
      have hlive := hlocked i heq
      rw [Live, free] at hlive
      exact absurd hlive (Int.lt_irrefl 0)

theorem live_of_get {j : ℕ} {inum : BitVec 32} (hok : inodeGet rootdev inum c' = .ok (i, c''))
    (hj : c'.Live j) : c''.Live j ∧ (c''.inode j).inum = (c'.inode j).inum := by
  have hgot : Got c' rootdev inum i c'' := (inodeGet_meets c' rootdev inum).of_ok hok
  obtain ⟨ref, hpos, hslot⟩ := hgot.kept hj
  rw [Live, hslot]
  exact ⟨hpos, rfl⟩

theorem unlockput (h : Borrowed g c held (some i) c') (hheld : ∀ j, 0 ≤ held j)
    (hone : 0 < held i) (hlive : c'.Live i) (hlinked : Linked g c (c'.inode i).inum.toNat) :
    ∃ c'', inodeUnlockput i c' = .ok ((), c'') ∧
      Borrowed g c (fun j => held j - one i j) none c'' ∧
      ∀ j, (c''.inode j).inum = (c'.inode j).inum := by
  obtain ⟨c₁, hunlock, hborrowed, hslot, hinum⟩ := h.unlock hlive
  obtain ⟨c'', hput, hdone, hinum'⟩ := hborrowed.put hheld hone
    (by rw [Live, hslot]; exact hlive) (by rw [hslot]; exact hlinked)
  refine ⟨c'', ?_, hdone, fun j => (hinum' j).trans (hinum j)⟩
  unfold inodeUnlockput
  simp only [bind, StateT.bind, hunlock, Except.bind]
  exact hput

end Borrowed

/-! ## Directory trees -/

def Fs.lookupIn (s : Fs) (inum : ℕ) (name : List Byte) : Option ℕ :=
  if (s.dinode inum).type = tDir then
    ((dirTable s (s.dinode inum)).lookup name).map BitVec.toNat
  else none

def Fs.walk (s : Fs) (inum : ℕ) (names : List (List Byte)) : Option ℕ :=
  names.foldlM s.lookupIn inum

def Fs.walkParent (s : Fs) (inum : ℕ) (names : List (List Byte)) : Option ℕ :=
  if names = [] then none
  else (s.walk inum names.dropLast).filter fun dir => (s.dinode dir).type = tDir

def Fs.target (s : Fs) (parent : Bool) (inum : ℕ) (names : List (List Byte)) : Option ℕ :=
  if parent then s.walkParent inum names else s.walk inum names

def rootInum : ℕ := 1

/-- A tree of directories with no inode locked: directories have whole entries, which name inodes
that are allocated and have a link or are in use. -/
structure Tree (g : Geometry) (c : InodeCache) : Prop where
  inv : c.Inv g
  unlocked : ∀ i, c.Live i → (c.inode i).busy = false
  root : Linked g c rootInum
  whole : ∀ i, InodeAllocated g c.fs i → (c.fs.dinode i).type = tDir →
    direntSize ∣ (c.fs.dinode i).size.toNat
  linked : ∀ i, InodeAllocated g c.fs i → (c.fs.dinode i).type = tDir → ∀ name inum,
    (dirTable c.fs (c.fs.dinode i)).lookup name = some inum → Linked g c inum.toNat

section Target

variable {s : Fs} {parent : Bool} {inum : ℕ} {name : List Byte} {names : List (List Byte)}

theorem target_nil : s.target parent inum [] = if parent then none else some inum := by
  cases parent <;> rfl

theorem target_parent (hne : names ≠ []) : s.target true inum names =
    (s.walk inum names.dropLast).filter fun dir => (s.dinode dir).type = tDir := by
  rw [Fs.target, if_pos rfl, Fs.walkParent, if_neg hne]

theorem target_last : s.target true inum [name] =
    if (s.dinode inum).type = tDir then some inum else none := by
  rw [target_parent (List.cons_ne_nil _ _)]
  show Option.filter _ (some inum) = _
  rw [Option.filter_some]
  by_cases htype : (s.dinode inum).type = tDir <;> simp [htype]

theorem target_cons (hmore : ¬ (parent = true ∧ names = [])) :
    s.target parent inum (name :: names) =
      (s.lookupIn inum name).bind fun next => s.target parent next names := by
  cases parent with
  | false => rfl
  | true =>
    have hne : names ≠ [] := fun hnil => hmore ⟨rfl, hnil⟩
    simp only [target_parent hne, target_parent (List.cons_ne_nil name names)]
    rw [List.dropLast_cons_of_ne_nil hne, Fs.walk, List.foldlM_cons]
    cases s.lookupIn inum name <;> rfl

theorem target_eq_none (hmore : ¬ (parent = true ∧ names = []))
    (hnone : s.lookupIn inum name = none) : s.target parent inum (name :: names) = none := by
  rw [target_cons hmore, hnone, Option.bind_none]

end Target

/-! ## `namex` -/

/-- What can stop the resolution of a path: all buffers are pinned, or the inode cache has
one free slot at most. -/
def Exhausted (c : InodeCache) : Stuck → Prop
  | .halt reason => Pinned c.fs reason
  | .panic reason => reason = .noInodeSlot ∧
      ∃ i, ∀ j < Sysfile.ninode, j ≠ i → (c.inode j).ref ≠ 0
  | .sleep => False

structure Walk (g : Geometry) (c : InodeCache) (ip inum : ℕ) (c' : InodeCache) : Prop where
  borrowed : Borrowed g c (one ip) none c'
  live : c'.Live ip
  inum_eq : (c'.inode ip).inum.toNat = inum
  linked : Linked g c inum

/-- The outcome of `namex`: the slot `r` of the target, with one more reference than before. -/
structure Resolved (g : Geometry) (c : InodeCache) (target r : Option ℕ) (c' : InodeCache) :
    Prop where
  borrowed : Borrowed g c (r.elim (fun _ => 0) one) none c'
  target_eq : r.map (fun i => (c'.inode i).inum.toNat) = target

section Resolve

variable {g : Geometry} {c c' : InodeCache} {ip inum : ℕ} {devsw : ℕ → Devsw}

theorem Exhausted.of_halts {e : Stuck} (h : Stuck.Halts (Pinned c.fs) e) : Exhausted c e := by
  cases e with
  | halt reason => exact h
  | panic reason => cases h
  | sleep => cases h

theorem Exhausted.of_unreadable {held : ℕ → ℤ} {locked : Option ℕ} {e : Stuck}
    (h : Borrowed g c held locked c') (hheld : ∀ j, j ≠ ip → held j = 0)
    (he : Unreadable c' e) : Exhausted c e := by
  cases e with
  | halt reason =>
    have hpinned : Pinned c'.fs reason := he
    rwa [h.fs_eq] at hpinned
  | panic reason =>
    obtain ⟨hreason, hfull⟩ := he
    refine ⟨hreason, ip, fun j hj hne => ?_⟩
    have href := h.ref_eq j
    rw [hheld j hne, Int.add_zero] at href
    exact href ▸ hfull j hj
  | sleep => exact he

theorem one_nonneg (i j : ℕ) : 0 ≤ one i j := by
  unfold one
  split <;> decide

theorem one_self (i : ℕ) : one i i = 1 := if_pos rfl

theorem one_of_ne {i j : ℕ} (hne : j ≠ i) : one i j = 0 := if_neg hne

structure Walk.Locked (g : Geometry) (c : InodeCache) (ip inum : ℕ) (c' : InodeCache) : Prop where
  borrowed : Borrowed g c (one ip) (some ip) c'
  live : c'.Live ip
  inum_eq : (c'.inode ip).inum.toNat = inum
  dinode_eq : (c'.inode ip).toDinode = c.fs.dinode inum
  linked : Linked g c inum

theorem Walk.lock (h : Walk g c ip inum c') :
    Meets (Exhausted c) (fun r => Walk.Locked g c ip inum r.2) (inodeLock ip c') := by
  have halloc : InodeAllocated g c.fs (c'.inode ip).inum.toNat :=
    h.inum_eq.symm ▸ h.linked.allocated
  refine (h.borrowed.lock h.live halloc).mono (fun _ => .of_halts) ?_
  rintro r ⟨hborrowed, hslot⟩
  refine ⟨hborrowed, ?_, ?_, ?_, h.linked⟩
  · rw [Live, hslot]
    exact h.live
  · rw [hslot]
    exact h.inum_eq
  · rw [hslot, ← h.inum_eq]

namespace Walk.Locked

theorem type_eq (h : Walk.Locked g c ip inum c') :
    (c'.inode ip).type = (c.fs.dinode inum).type := by rw [h.dinode_eq]

theorem unlock (h : Walk.Locked g c ip inum c') :
    ∃ c'', inodeUnlock ip c' = .ok ((), c'') ∧ Walk g c ip inum c'' := by
  obtain ⟨c'', hok, hborrowed, hslot, -⟩ := h.borrowed.unlock h.live
  refine ⟨c'', hok, hborrowed, ?_, ?_, h.linked⟩
  · rw [Live, hslot]
    exact h.live
  · rw [hslot]
    exact h.inum_eq

theorem unlockput (h : Walk.Locked g c ip inum c') :
    ∃ c'', inodeUnlockput ip c' = .ok ((), c'') ∧ Resolved g c none none c'' := by
  obtain ⟨c'', hok, hborrowed, -⟩ := h.borrowed.unlockput (one_nonneg ip)
    (by rw [one_self]; exact Int.one_pos) h.live (h.inum_eq.symm ▸ h.linked)
  exact ⟨c'', hok, hborrowed.congr fun j => (Int.sub_self _).symm, rfl⟩

theorem readable (ht : Tree g c) (h : Walk.Locked g c ip inum c')
    (htype : (c.fs.dinode inum).type = tDir) : Readable c' ip := by
  refine ⟨h.type_eq.trans htype, ?_, ?_⟩
  · rw [h.dinode_eq]
    exact ht.whole inum h.linked.allocated htype
  · rw [h.dinode_eq, h.borrowed.fs_eq]
    exact ht.inv.consistent.shaped inum h.linked.allocated

theorem table_eq (h : Walk.Locked g c ip inum c') :
    c'.table ip = dirTable c.fs (c.fs.dinode inum) := by
  rw [table, h.dinode_eq, h.borrowed.fs_eq]

/-- **One look-up on the way**: `namex` moves on to the inode the directory names. -/
theorem next (ht : Tree g c) (h : Walk.Locked g c ip inum c')
    (htype : (c.fs.dinode inum).type = tDir) {name : List Byte} {number : BitVec 16} {sub : ℕ}
    {c'' : InodeCache} (hlookup : (dirTable c.fs (c.fs.dinode inum)).lookup name = some number)
    (hget : inodeGet (c'.inode ip).dev (number.setWidth 32) c' = .ok (sub, c'')) :
    ∃ c₁, inodeUnlockput ip c'' = .ok ((), c₁) ∧ Walk g c sub number.toNat c₁ := by
  have hlinked := ht.linked inum h.linked.allocated htype name number hlookup
  have hwide : (number.setWidth 32).toNat = number.toNat := by
    rw [BitVec.toNat_setWidth, Nat.mod_eq_of_lt (by have := number.isLt; omega)]
  rw [h.borrowed.inv.dev_eq ip h.live] at hget
  obtain ⟨hborrowed, hsub, hinum⟩ := h.borrowed.get (one_nonneg ip)
    (fun j hj => by obtain rfl := Option.some.inj hj; exact h.live)
    (by rw [hwide]; exact hlinked.allocated.1) hget
  obtain ⟨hlive, hip⟩ := Borrowed.live_of_get hget h.live
  obtain ⟨c₁, hok, hdone, hkept⟩ := hborrowed.unlockput
    (fun j => Int.add_nonneg (one_nonneg ip j) (one_nonneg sub j))
    (by have := one_nonneg sub ip; rw [one_self]; omega) hlive
    (by rw [hip, h.inum_eq]; exact h.linked)
  have hwalk : Borrowed g c (one sub) none c₁ := hdone.congr fun j => by omega
  refine ⟨c₁, hok, hwalk, ?_, ?_, hlinked⟩
  · have href := hwalk.ref_eq sub
    have href' := hborrowed.ref_eq sub
    have hold := h.borrowed.ref_eq sub
    rw [one_self] at href href'
    rw [Live, href]
    by_cases hsame : sub = ip
    · have hpos : 0 < (c'.inode ip).ref := h.live
      rw [hsame, one_self] at hold
      rw [hsame]
      omega
    · have hpos : 0 < (c''.inode sub).ref := hsub
      rw [one, if_neg hsame] at href'
      omega
  · rw [hkept, hinum, hwide]

end Walk.Locked

theorem Walk.put (h : Walk g c ip inum c') :
    ∃ c'', inodePut ip c' = .ok ((), c'') ∧ Resolved g c none none c'' := by
  obtain ⟨c'', hok, hborrowed, -⟩ := h.borrowed.put (one_nonneg ip)
    (by rw [one_self]; exact Int.one_pos) h.live (h.inum_eq.symm ▸ h.linked)
  exact ⟨c'', hok, hborrowed.congr fun j => (Int.sub_self _).symm, rfl⟩

theorem Walk.resolved (h : Walk g c ip inum c') : Resolved g c (some inum) (some ip) c' :=
  ⟨h.borrowed, congrArg some h.inum_eq⟩

def Returned (g : Geometry) (c : InodeCache) (parent : Bool) (inum : ℕ)
    (names : List (List Byte)) (r : Option (ℕ × List Byte) × InodeCache) : Prop :=
  Resolved g c (c.fs.target parent inum names) (r.1.map Prod.fst) r.2 ∧
    (parent = true → ∀ found, r.1 = some found → names.getLast? = some found.2)

theorem Resolved.returned {parent : Bool} {names : List (List Byte)}
    (h : Resolved g c none none c') (htarget : c.fs.target parent inum names = none) :
    Returned g c parent inum names (none, c') :=
  ⟨htarget.symm ▸ h, fun _ found heq => by cases heq⟩

theorem lookupIn_of_dir {s : Fs} {name : List Byte} (htype : (s.dinode inum).type = tDir) :
    s.lookupIn inum name = ((dirTable s (s.dinode inum)).lookup name).map BitVec.toNat :=
  if_pos htype

theorem namexLoop_meets (ht : Tree g c) (parent : Bool) {fuel : ℕ} {path name : List Byte}
    (hfuel : path.length < fuel) (hnull : 0 ∉ path) (h : Walk g c ip inum c') :
    Meets (Exhausted c) (Returned g c parent inum (components path))
      (namexLoop devsw parent fuel ip path name c') := by
  induction fuel generalizing ip inum path name c' with
  | zero => exact absurd hfuel (Nat.not_lt_zero _)
  | succ fuel ih =>
    unfold namexLoop
    cases hskip : skipelem path with
    | none =>
      rw [skipelem_eq_none.mp hskip]
      cases parent with
      | true =>
        obtain ⟨c'', hput, hresolved⟩ := h.put
        exact Meets.bind_of_ok hput (hresolved.returned target_nil)
      | false => exact ⟨h.resolved, fun hparent => by cases hparent⟩
    | some next =>
      obtain ⟨name', rest⟩ := next
      obtain ⟨hname, hnull'⟩ := nameOk_of_skipelem hnull hskip
      have hrest := rest_eq_nil_iff hskip
      rw [components_of_skipelem hskip]
      refine Meets.bind_state h.lock fun _ c₁ hlocked => ?_
      have hlocked : Walk.Locked g c ip inum c₁ := hlocked
      apply Meets.get_bind
      rw [hlocked.type_eq]
      by_cases htype : (c.fs.dinode inum).type = tDir
      · rw [if_neg (not_not.mpr htype)]
        by_cases hlast : parent = true ∧ rest = []
        · obtain ⟨rfl, hnil⟩ := hlast
          obtain ⟨c₂, hunlock, hwalk⟩ := hlocked.unlock
          rw [if_pos ⟨rfl, hnil⟩, hrest.mp hnil]
          refine Meets.bind_of_ok hunlock ⟨?_, fun _ found heq => ?_⟩
          · rw [target_last, if_pos htype]
            exact hwalk.resolved
          · obtain rfl := Option.some.inj heq
            rfl
        · have hmore : ¬ (parent = true ∧ components rest = []) := fun hboth =>
            hlast ⟨hboth.1, hrest.mpr hboth.2⟩
          rw [if_neg hlast]
          refine Meets.bind_state ((dirLookup_searched (hlocked.readable ht htype)
            hname).mono (fun _ => .of_unreadable hlocked.borrowed fun j => one_of_ne)
              fun _ h => h) ?_
          rintro found c₂ hfound
          cases hfound with
          | absent lookup_eq =>
            rw [hlocked.table_eq] at lookup_eq
            obtain ⟨c₂, hput, hresolved⟩ := hlocked.unlockput
            refine Meets.bind_of_ok hput (hresolved.returned (target_eq_none hmore ?_))
            rw [lookupIn_of_dir htype, lookup_eq, Option.map_none]
          | present index_eq lookup_eq get_eq =>
            rw [hlocked.table_eq] at lookup_eq
            obtain ⟨c₃, hput, hwalk⟩ := hlocked.next ht htype lookup_eq get_eq
            have hlength := length_rest_lt hskip
            refine Meets.bind_of_ok hput ((ih (by omega) hnull' hwalk).mono
              (fun _ he => he) ?_)
            rintro r ⟨hresolved, hlast⟩
            refine ⟨?_, fun hparent found hsome => ?_⟩
            · rw [target_cons hmore, lookupIn_of_dir htype, lookup_eq]
              exact hresolved
            · have hne : components rest ≠ [] := fun hnil => hmore ⟨hparent, hnil⟩
              rw [List.getLast?_cons_of_ne_nil hne]
              exact hlast hparent found hsome
      · rw [if_pos htype]
        obtain ⟨c₂, hput, hresolved⟩ := hlocked.unlockput
        refine Meets.bind_of_ok hput (hresolved.returned ?_)
        by_cases hlast : parent = true ∧ components rest = []
        · rw [hlast.1, hlast.2, target_last, if_neg htype]
        · exact target_eq_none hlast (if_neg htype)

def Starts (g : Geometry) (c : InodeCache) (cwd : Option ℕ) (path : List Byte) (inum : ℕ) : Prop :=
  if path.head? = some slash then inum = rootInum
  else ∃ ip, cwd = some ip ∧ c.Live ip ∧ (c.inode ip).inum.toNat = inum ∧
    InodeAllocated g c.fs inum

theorem startInode_meets (ht : Tree g c) {cwd : Option ℕ} {path : List Byte}
    (hstart : Starts g c cwd path inum) :
    Meets (Exhausted c) (fun r => Walk g c r.1 inum r.2) (startInode cwd path c) := by
  have hborrowed := Borrowed.start ht.inv ht.unlocked
  unfold Starts at hstart
  unfold startInode
  by_cases hslash : path.head? = some slash
  · rw [if_pos hslash] at hstart ⊢
    refine (inodeGet_meets c rootdev 1).and_eq.mono (fun e he => ?_) ?_
    · cases e with
      | halt reason => exact he
      | panic reason => exact ⟨he.1, 0, fun j hj _ => he.2 j hj⟩
      | sleep => exact he
    · rintro ⟨ip, c'⟩ ⟨hget, -⟩
      have hlt : (1 : BitVec 32).toNat < g.ninodes := ht.root.allocated.1
      obtain ⟨hgot, hlive, hinum⟩ := hborrowed.get (fun _ => Int.le_refl 0)
        (fun j hj => by cases hj) hlt hget
      refine ⟨hgot.congr fun j => (Int.zero_add _).symm, hlive, ?_, hstart ▸ ht.root⟩
      rw [hinum, hstart]
      rfl
  · rw [if_neg hslash] at hstart ⊢
    obtain ⟨ip, rfl, hlive, hinum, halloc⟩ := hstart
    have hdup : inodeDup ip c =
      .ok ((), c.setInode ip { c.inode ip with ref := (c.inode ip).ref + 1 }) := rfl
    refine Meets.bind_of_ok hdup ?_
    have hinv : Inv g (c.setInode ip _) := ht.inv.inodeDup hlive _ _ hdup
    refine ⟨hborrowed.setSlot _ hinv (fun j => ?_) (fun _ => rfl) (fun _ => ?_)
      fun _ _ => Iff.rfl, ?_, ?_, halloc, Or.inr ⟨ip, hlive, hinum⟩⟩
    · unfold one
      dsimp only
      split <;> omega
    · exact hborrowed.busy_iff ip hlive
    · have hpos : 0 < (c.inode ip).ref := hlive
      rw [Live, setInode_self]
      show 0 < (c.inode ip).ref + 1
      omega
    · rw [setInode_self]
      exact hinum

/-- **Paths are resolved component by component.** `skipelem` yields the components of a path
one after the other.  `namex` returns the inode that the look-ups of the components lead to, or
of all but the last one if the parent is asked for, or none if they lead nowhere.  No inode is
locked afterwards, and the only additional reference is the one to the result.  The call stops
only if all buffers are pinned or the inode cache has one free slot at most. -/
theorem paths_fold_lookups (devsw : ℕ → Devsw) (ht : Tree g c) {cwd : Option ℕ}
    {path : List Byte} (hnull : 0 ∉ path) (hstart : Starts g c cwd path inum) :
    ((elements path).map Prod.fst = components path ∧
      ∀ k name rest, (elements path)[k]? = some (name, rest) →
        (rest = [] ↔ k + 1 = (components path).length)) ∧
    Meets (Exhausted c)
      (fun r => Resolved g c (c.fs.walk inum (components path)) (r.1.map Prod.fst) r.2)
      (namex devsw cwd path false c) ∧
    Meets (Exhausted c)
      (fun r => Resolved g c (c.fs.walkParent inum (components path)) (r.1.map Prod.fst) r.2 ∧
        ∀ found, r.1 = some found → (components path).getLast? = some found.2)
      (namex devsw cwd path true c) := by
  have hloop : ∀ parent, Meets (Exhausted c) (Returned g c parent inum (components path))
      (namex devsw cwd path parent c) := fun parent =>
    Meets.bind_state (startInode_meets ht hstart) fun ip c' hwalk =>
      namexLoop_meets ht parent (Nat.lt_succ_self _) hnull hwalk
  refine ⟨elements_eq path, (hloop false).mono (fun _ he => he) fun r hr => hr.1,
    (hloop true).mono (fun _ he => he) fun r hr => ⟨hr.1, hr.2 rfl⟩⟩

end Resolve

/-! ## A disk with the root directory only -/

def dotBlock : Block := fun j =>
  (Sysfile.Dirent.encode ⟨1, [0x2e]⟩ ++ Sysfile.Dirent.encode ⟨1, [0x2e, 0x2e]⟩).getD j 0

def rootFs : Fs := ⟨fun sector => if sector = 5 then dotBlock else fullFs.cache sector, fullFs.log⟩

theorem consistent_rootFs : Consistent tightGeometry rootFs :=
  consistent_of_check 1 1 (Superblock.decode_encode _) ⟨rfl, rfl, rfl⟩ rfl rfl (by decide +kernel)
    (by decide) (by decide) (by decide +kernel) (by decide +kernel) (by decide +kernel)
    (by decide +kernel)

theorem tree_rootFs : Tree tightGeometry (boot rootFs) := by
  have halloc : ∀ i < 8, (rootFs.dinode i).type ≠ 0 ↔ i = 1 := by decide +kernel
  have hdinode : rootFs.dinode 1 = rootDinode := Dinode.decode_encode (by decide)
  have hentries : ∀ k < 2, ∀ b ∈ (dirTable rootFs rootDinode).slot k, b.2 = 1 := by decide +kernel
  have hroot : Linked tightGeometry (boot rootFs) 1 := by
    refine ⟨⟨by decide, (halloc 1 (by decide)).mpr rfl⟩, Or.inl ?_⟩
    rw [show (boot rootFs).fs.dinode 1 = rootDinode from hdinode]
    decide
  refine ⟨inv_boot consistent_rootFs, fun i hi => absurd hi (Int.lt_irrefl 0), hroot,
    fun i hi _ => ?_, fun i hi _ name inum hlookup => ?_⟩
  · obtain rfl := (halloc i hi.1).mp hi.2
    rw [show (boot rootFs).fs.dinode 1 = rootDinode from hdinode]
    decide
  · obtain rfl := (halloc i hi.1).mp hi.2
    rw [show (boot rootFs).fs.dinode 1 = rootDinode from hdinode] at hlookup
    obtain ⟨k, hindex, hslot⟩ := Option.bind_eq_some_iff.mp hlookup
    obtain ⟨hk, -⟩ := SlotTable.index_eq_some hindex
    obtain ⟨binding, hbinding, rfl⟩ := Option.map_eq_some_iff.mp hslot
    rw [hentries k hk binding hbinding]
    exact hroot

theorem not_exhausted_boot {s : Fs} (hfew : s.log.sectors.card < nbuf) (e : Stuck) :
    ¬ Exhausted (boot s) e := by
  intro he
  cases e with
  | halt reason => exact absurd he.2 (Nat.not_le_of_lt hfew)
  | panic reason =>
    obtain ⟨-, i, hfull⟩ := he
    by_cases hi : i = 0
    · exact hfull 1 (by decide) (by omega) rfl
    · exact hfull 0 (by decide) (Ne.symm hi) rfl
  | sleep => exact he

theorem paths_fold_lookups_of_root :
    (∃ i name c', namex (fun _ => ⟨none, none⟩) none [slash, slash, 0x2e, slash] false
        (boot rootFs) = .ok (some (i, name), c') ∧
      (c'.inode i).inum = 1 ∧ (c'.inode i).ref = 1) ∧
    ∃ i c', namex (fun _ => ⟨none, none⟩) none [slash, slash, 0x2e, slash] true
        (boot rootFs) = .ok (some (i, [0x2e]), c') ∧ (c'.inode i).ref = 1 := by
  have hstart : Starts tightGeometry (boot rootFs) none [slash, slash, 0x2e, slash] 1 :=
    rfl
  obtain ⟨-, hnamei, hparent⟩ :=
    paths_fold_lookups (fun _ => ⟨none, none⟩) tree_rootFs (by decide) hstart
  have hwalk : rootFs.walk 1 (components [slash, slash, 0x2e, slash]) = some 1 := by
    decide +kernel
  have hwalk' : rootFs.walkParent 1 (components [slash, slash, 0x2e, slash]) = some 1 := by
    decide +kernel
  constructor
  · obtain ⟨⟨r, c'⟩, hok, hresolved⟩ := hnamei.exists_ok (not_exhausted_boot (by decide))
    cases r with
    | none => exact absurd (hresolved.target_eq.trans hwalk) (Option.some_ne_none 1).symm
    | some found =>
      obtain ⟨i, name⟩ := found
      have hinum := Option.some.inj (hresolved.target_eq.trans hwalk)
      have href : (c'.inode i).ref = 0 + one i i := hresolved.borrowed.ref_eq i
      rw [one_self] at href
      exact ⟨i, name, c', hok, BitVec.eq_of_toNat_eq hinum, href⟩
  · obtain ⟨⟨r, c'⟩, hok, hresolved, hname⟩ := hparent.exists_ok (not_exhausted_boot (by decide))
    cases r with
    | none => exact absurd (hresolved.target_eq.trans hwalk') (Option.some_ne_none 1).symm
    | some found =>
      obtain ⟨i, name⟩ := found
      have href : (c'.inode i).ref = 0 + one i i := hresolved.borrowed.ref_eq i
      rw [one_self] at href
      have hlast : (components [slash, slash, 0x2e, slash]).getLast? = some [0x2e] := by
        decide +kernel
      obtain rfl : [0x2e] = name := Option.some.inj (hlast.symm.trans (hname (i, name) rfl))
      exact ⟨i, c', hok, href⟩

end MCertikos.FS
