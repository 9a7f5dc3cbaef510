/-
# Process ids form a tree

A process id is the index of a container, and `container_split` does not look for a free one: it
computes the index of the child from the index of the parent and the number of children so far.
-/

import MCertikos.Pmm.Quota
import Mathlib.Tactic.MkIffOfInductiveProp

namespace MCertikos.Pmm

open Math Thread Books

structure SplitOp where
  id : ℕ
  quota : BitVec 32
  deriving DecidableEq

def splitMachine : Machine Mem SplitOp ℕ where
  exec s op :=
    let (child, s) := s.containerSplit op.id op.quota
    some (s, child)

/-- The container is used, and the structural checks of `sys_spawn` pass for it. -/
@[mk_iff] structure Spawnable (s : Mem) (op : SplitOp) : Prop where
  lt : op.id < numIds
  used : (s.container op.id).used = true
  room : op.id * maxChildren + 1 + maxChildren ≤ numIds
  few : (s.container op.id).nchildren ≠ BitVec.ofNat 32 maxChildren

instance (s : Mem) (op : SplitOp) : Decidable (Spawnable s op) :=
  decidable_of_iff _ (spawnable_iff s op).symm

section Split

variable {s s' : Mem} {op : SplitOp} {out : ℕ}

theorem split_of_exec (hexec : splitMachine.exec s op = some (s', out)) :
    s' = (s.containerSplit op.id op.quota).2 ∧ out = s.nextChild op.id := by
  obtain ⟨rfl, rfl⟩ := Prod.mk.inj (Option.some.inj hexec)
  exact ⟨rfl, rfl⟩

theorem used_split_iff (hop : Spawnable s op) (c : ℕ) :
    ((s.containerSplit op.id op.quota).2.container c).used = true ↔
      (s.container c).used = true ∨ c = s.nextChild op.id := by
  rw [containerSplit_container (s := ⟨s, fun _ => ∅⟩)]
  by_cases hc : c = op.id
  · rw [if_pos hc, hc]
    exact iff_of_true hop.used (Or.inl hop.used)
  · rw [if_neg hc]
    by_cases hc' : c = s.nextChild op.id
    · rw [if_pos hc']
      exact iff_of_true rfl (Or.inr hc')
    · rw [if_neg hc']
      simp [hc']

theorem parent_split {c : ℕ} (hc : c ≠ s.nextChild op.id) :
    ((s.containerSplit op.id op.quota).2.container c).parent = (s.container c).parent := by
  rw [containerSplit_container (s := ⟨s, fun _ => ∅⟩)]
  by_cases heq : c = op.id
  · rw [if_pos heq, heq, charged]
  · rw [if_neg heq, if_neg hc]

theorem parent_child : ((s.containerSplit op.id op.quota).2.container (s.nextChild op.id)).parent =
      BitVec.ofNat 32 op.id := by
  have hne : s.nextChild op.id ≠ op.id := by
    unfold Mem.nextChild maxChildren
    omega
  rw [containerSplit_container (s := ⟨s, fun _ => ∅⟩), if_neg hne, if_pos rfl]

end Split

def Below (s : Mem) (c id : ℕ) : Prop :=
  c ≠ 0 ∧ (s.container c).used = true ∧ (s.container c).parent = BitVec.ofNat 32 id

/-- The used containers are a tree rooted at 0, in which every container counts its
children. -/
structure ProcessTree (s : Mem) : Prop where
  root : (s.container 0).used = true
  /-- The parent of a used container is used, and has a smaller index. -/
  parent : ∀ c < numIds, c ≠ 0 → (s.container c).used = true →
    ∃ id < c, Below s c id ∧ (s.container id).used = true
  /-- The parents of a used container lead to container 0. -/
  rooted : ∀ c < numIds, (s.container c).used = true → Relation.ReflTransGen (Below s) c 0
  counted : ∀ id < numIds, (s.container id).nchildren.toNat = (children s id).card
  position : ∀ id < numIds, ∀ c ∈ children s id, (c - 1) / maxChildren = id

/-- A position below a container is used exactly if the container has reached it. -/
structure TreeInv (s : Mem) : Prop where
  root : (s.container 0).used = true
  few : ∀ id < numIds, (s.container id).nchildren.toNat ≤ maxChildren
  room : ∀ id < numIds, (s.container id).nchildren ≠ 0 →
    id * maxChildren + 1 + maxChildren ≤ numIds
  used_iff : ∀ c < numIds, c ≠ 0 → ((s.container c).used = true ↔
    (c - 1) % maxChildren < (s.container ((c - 1) / maxChildren)).nchildren.toNat)
  parent : ∀ c < numIds, c ≠ 0 → (s.container c).used = true →
    (s.container c).parent = BitVec.ofNat 32 ((c - 1) / maxChildren)
  childless : ∀ c < numIds, (s.container c).used = false → (s.container c).nchildren = 0

theorem treeInv_init (t : AllocTable) (mm : List MemRange) : TreeInv (Mem.containerInit t mm) := by
  have hother : ∀ c, c ≠ 0 → (Mem.containerInit t mm).container c = ⟨0, 0, 0, 0, false⟩ :=
    fun c hc => by simp [Mem.containerInit, hc]
  have hzero : ∀ c, ((Mem.containerInit t mm).container c).nchildren = 0 := by
    intro c
    by_cases hc : c = 0
    · rw [hc]
      rfl
    · rw [hother c hc]
  refine ⟨rfl, fun id _ => ?_, fun id _ hne => absurd (hzero id) hne, fun c _ hc => ?_,
    fun c _ hc hused => ?_, fun c _ _ => hzero c⟩
  · rw [hzero]
    exact Nat.zero_le _
  · rw [hother c hc, hzero]
    exact iff_of_false (by decide) (Nat.not_lt_zero _)
  · rw [hother c hc] at hused
    cases hused

namespace TreeInv

variable {s s' : Mem} {op : SplitOp} {out id : ℕ}

theorem parent_used (h : TreeInv s) {c : ℕ} (hc : c < numIds) (hne : c ≠ 0)
    (hused : (s.container c).used = true) : (s.container ((c - 1) / maxChildren)).used = true := by
  have hreached := (h.used_iff c hc hne).mp hused
  have hlt : (c - 1) / maxChildren < numIds := by
    unfold maxChildren
    omega
  by_contra hnot
  rw [h.childless _ hlt (Bool.eq_false_iff.mpr hnot)] at hreached
  exact Nat.not_lt_zero _ hreached

theorem below (h : TreeInv s) {c : ℕ} (hc : c < numIds) (hne : c ≠ 0)
    (hused : (s.container c).used = true) : Below s c ((c - 1) / maxChildren) :=
  ⟨hne, hused, h.parent c hc hne hused⟩

theorem rooted (h : TreeInv s) (c : ℕ) (hc : c < numIds) (hused : (s.container c).used = true) :
    Relation.ReflTransGen (Below s) c 0 := by
  -- Parents have smaller indices.
  induction c using Nat.strong_induction_on with
  | _ c ih =>
    by_cases hne : c = 0
    · rw [hne]
    · have hlt : (c - 1) / maxChildren < c := by
        unfold maxChildren
        omega
      exact .head (h.below hc hne hused)
        (ih _ hlt (hlt.trans hc) (h.parent_used hc hne hused))

theorem mem_children_iff (h : TreeInv s) (hid : id < numIds) (c : ℕ) : c ∈ children s id ↔
      ∃ k < (s.container id).nchildren.toNat, id * maxChildren + 1 + k = c := by
  have hfew := h.few id hid
  rw [children, Finset.mem_filter, Finset.mem_range]
  constructor
  · rintro ⟨hc, hne, hused, hparent⟩
    rw [h.parent c hc hne hused] at hparent
    have heq : (c - 1) / maxChildren = id := by
      have hnat := congrArg BitVec.toNat hparent
      unfold maxChildren numIds at *
      rwa [BitVec.toNat_ofNat, BitVec.toNat_ofNat, Nat.mod_eq_of_lt (by omega),
        Nat.mod_eq_of_lt (by omega)] at hnat
    have hreached := (h.used_iff c hc hne).mp hused
    rw [heq] at hreached
    refine ⟨_, hreached, ?_⟩
    unfold maxChildren at *
    omega
  · rintro ⟨k, hk, rfl⟩
    have hroom := h.room id hid fun hzero => by
      rw [hzero] at hk
      exact Nat.not_lt_zero _ hk
    have hparent : (id * maxChildren + 1 + k - 1) / maxChildren = id := by
      unfold maxChildren at *
      omega
    have hposition : (id * maxChildren + 1 + k - 1) % maxChildren = k := by
      unfold maxChildren at *
      omega
    have hlt : id * maxChildren + 1 + k < numIds := by omega
    have hused := (h.used_iff _ hlt (by omega)).mpr (by rw [hparent, hposition]; exact hk)
    refine ⟨hlt, by omega, hused, ?_⟩
    rw [h.parent _ hlt (by omega) hused, hparent]

theorem card_children (h : TreeInv s) (hid : id < numIds) :
    (children s id).card = (s.container id).nchildren.toNat := by
  have himage : children s id = (Finset.range (s.container id).nchildren.toNat).image
      fun k => id * maxChildren + 1 + k := by
    ext c
    rw [h.mem_children_iff hid, Finset.mem_image]
    simp only [Finset.mem_range]
  rw [himage, Finset.card_image_of_injective, Finset.card_range]
  exact fun k k' heq => Nat.add_left_cancel heq

theorem processTree (h : TreeInv s) : ProcessTree s where
  root := h.root
  parent c hc hne hused := by
    refine ⟨(c - 1) / maxChildren, ?_, h.below hc hne hused, h.parent_used hc hne hused⟩
    unfold maxChildren
    omega
  rooted := h.rooted
  counted id hid := (h.card_children hid).symm
  position id hid c hc := by
    obtain ⟨k, hk, rfl⟩ := (h.mem_children_iff hid c).mp hc
    have hfew := h.few id hid
    unfold maxChildren at *
    omega

section Split

variable (h : TreeInv s) (hop : Spawnable s op)

include h hop

theorem nchildren_lt : (s.container op.id).nchildren.toNat < maxChildren := by
  refine Nat.lt_of_le_of_ne (h.few _ hop.lt) fun heq => hop.few ?_
  exact BitVec.eq_of_toNat_eq heq

theorem child_fresh : 1 ≤ s.nextChild op.id ∧ s.nextChild op.id < numIds ∧
    (s.container (s.nextChild op.id)).used = false := by
  have hfew := h.nchildren_lt hop
  have hroom := hop.room
  obtain ⟨hne, hparent, hposition⟩ := nextChild_pos (s := ⟨s, fun _ => ∅⟩) hfew
  have hlt : s.nextChild op.id < numIds := by
    unfold Mem.nextChild
    omega
  refine ⟨Nat.one_le_iff_ne_zero.mpr hne, hlt, Bool.eq_false_iff.mpr fun hused => ?_⟩
  have hreached := (h.used_iff _ hlt hne).mp hused
  rw [hparent, hposition] at hreached
  exact Nat.lt_irrefl _ hreached

theorem nchildren_split {c : ℕ} (hc : c < numIds) :
    ((s.containerSplit op.id op.quota).2.container c).nchildren.toNat =
      (s.container c).nchildren.toNat + if c = op.id then 1 else 0 := by
  have hfew := h.nchildren_lt hop
  rw [containerSplit_container (s := ⟨s, fun _ => ∅⟩)]
  by_cases heq : c = op.id
  · rw [if_pos heq, if_pos heq, heq]
    unfold maxChildren at hfew
    have hone : (1 : BitVec 32).toNat = 1 := rfl
    have hlt : (s.container op.id).nchildren.toNat + 1 < 2 ^ 32 := by omega
    rw [charged, BitVec.toNat_add, hone]
    exact Nat.mod_eq_of_lt hlt
  · rw [if_neg heq, if_neg heq]
    by_cases hchild : c = s.nextChild op.id
    · have hfresh := (h.child_fresh hop).2.2
      rw [← hchild] at hfresh
      rw [if_pos hchild, h.childless c hc hfresh]
      rfl
    · rw [if_neg hchild, Nat.add_zero]

theorem split : TreeInv (s.containerSplit op.id op.quota).2 := by
  have hlt := h.nchildren_lt hop
  obtain ⟨hpos, hparent, hposition⟩ := nextChild_pos (s := ⟨s, fun _ => ∅⟩) hlt
  refine ⟨?_, fun c hc => ?_, fun c hc hne => ?_, fun c hc hne => ?_, fun c hc hne hused => ?_,
    fun c hc hused => ?_⟩
  · exact (used_split_iff hop 0).mpr (Or.inl h.root)
  · rw [h.nchildren_split hop hc]
    by_cases heq : c = op.id
    · rw [if_pos heq, heq]
      exact hlt
    · rw [if_neg heq]
      exact h.few c hc
  · by_cases heq : c = op.id
    · rw [heq]
      exact hop.room
    · refine h.room c hc fun hzero => hne (BitVec.eq_of_toNat_eq ?_)
      rw [h.nchildren_split hop hc, if_neg heq, hzero]
      rfl
  · have hup : (c - 1) / maxChildren < numIds := by
      unfold maxChildren
      omega
    rw [used_split_iff hop, h.used_iff c hc hne, h.nchildren_split hop hup]
    -- The child is the one position that the split reaches.
    have hchild : c = s.nextChild op.id ↔ (c - 1) / maxChildren = op.id ∧
        (c - 1) % maxChildren = (s.container op.id).nchildren.toNat := by
      constructor
      · rintro rfl
        exact ⟨hparent, hposition⟩
      · rintro ⟨hdiv, hmod⟩
        unfold Mem.nextChild maxChildren at *
        omega
    rw [hchild]
    by_cases heq : (c - 1) / maxChildren = op.id
    · rw [if_pos heq, heq]
      omega
    · rw [if_neg heq]
      omega
  · by_cases hchild : c = s.nextChild op.id
    · rw [hchild, parent_child, hparent]
    · have hold := ((used_split_iff hop c).mp hused).resolve_right hchild
      rw [parent_split hchild, h.parent c hc hne hold]
  · have hnot := mt (used_split_iff hop c).mpr (Bool.eq_false_iff.mp hused)
    have hold : (s.container c).used = false :=
      Bool.eq_false_iff.mpr fun htrue => hnot (Or.inl htrue)
    have hne : c ≠ op.id := by
      rintro rfl
      exact hnot (Or.inl hop.used)
    apply BitVec.eq_of_toNat_eq
    rw [h.nchildren_split hop hc, if_neg hne, h.childless c hc hold]
    rfl

end Split

theorem step (h : TreeInv s) (hop : Spawnable s op)
    (hexec : splitMachine.exec s op = some (s', out)) : TreeInv s' := by
  obtain ⟨rfl, -⟩ := split_of_exec hexec
  exact h.split hop

end TreeInv

/-- **Process ids form a tree with unique nodes.** After splits that pass the structural checks,
the used containers are a tree rooted at container 0; and the next split returns an index inside
the table that no container uses, gives it the split container as its parent, and leaves every
other container used as it was. -/
theorem split_ids_form_tree {t : AllocTable} {mm : List MemRange}
    {trace : List (SplitOp × ℕ)} {s : Mem}
    (hrun : splitMachine.Run Spawnable (.containerInit t mm) trace s) : ProcessTree s ∧
    ∀ op s' child, Spawnable s op → splitMachine.exec s op = some (s', child) →
      1 ≤ child ∧ child < numIds ∧ (s.container child).used = false ∧
      (s'.container child).used = true ∧
      (s'.container child).parent = BitVec.ofNat 32 op.id ∧
      (∀ c, c ≠ child → (s'.container c).used = (s.container c).used ∧
        (s'.container c).parent = (s.container c).parent) ∧
      ProcessTree s' := by
  have h : TreeInv s := hrun.invariant (treeInv_init t mm) TreeInv.step
  refine ⟨h.processTree, fun op s' child hop hexec => ?_⟩
  have hnext := h.step hop hexec
  obtain ⟨rfl, rfl⟩ := split_of_exec hexec
  obtain ⟨hpos, hlt, hfresh⟩ := h.child_fresh hop
  refine ⟨hpos, hlt, hfresh, (used_split_iff hop _).mpr (Or.inr rfl), parent_child,
    fun c hc => ⟨?_, parent_split hc⟩, hnext.processTree⟩
  rw [Bool.eq_iff_iff, used_split_iff hop]
  exact or_iff_left hc

theorem split_ids_form_tree_of_three :
    ∃ s, splitMachine.Run Spawnable (.containerInit staticTable twoPages)
        [(⟨0, 1⟩, 1), (⟨0, 1⟩, 2), (⟨2, 0⟩, 7)] s ∧ ProcessTree s ∧
      (s.container 7).parent = 2 := by
  have heval : ∃ r ∈ (splitMachine.guarded Spawnable).runAll
      (.containerInit staticTable twoPages) [⟨0, 1⟩, ⟨0, 1⟩, ⟨2, 0⟩],
      r.2 = [1, 2, 7] ∧ (r.1.container 7).parent = 2 := by
    decide +kernel
  obtain ⟨⟨s, _⟩, hrunAll, rfl, hparent⟩ := heval
  have hrun := Machine.run_of_guarded hrunAll
  exact ⟨s, hrun, (split_ids_form_tree hrun).1, hparent⟩

end MCertikos.Pmm
