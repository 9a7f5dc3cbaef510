/-
# What an operation on an inode leaves alone

An operation on one inode writes the bitmap, the blocks it owns or takes from the free ones, and
its own entry of an inode block.
-/

import MCertikos.FS.Bmap

namespace MCertikos.FS

open Math

/-! ## The sectors of the other inodes -/

/-- A sector that an operation on inode `i` does not write: an inode block, or a data
block that another inode owns. -/
structure Foreign (g : Geometry) (i : ℕ) (owner : ℕ × ℕ → Option ℕ) (sector : Sector) :
    Prop where
  plain : Plain g sector
  ne_zero : sector ≠ 0
  owned : ∀ b, g.InData b → sector = BitVec.ofNat 32 b → ∃ k, k.1 ≠ i ∧ owner k = some b

def Kept (g : Geometry) (i : ℕ) (owner : ℕ × ℕ → Option ℕ) (s s' : Fs) : Prop :=
  ∀ sector, Foreign g i owner sector → s'.cache sector = s.cache sector

section Frames

variable {g : Geometry} {s s₁ s' : Fs} {ip ip' : Inode} {d : Dinode}
  {owner : ℕ × ℕ → Option ℕ} {mine : ℕ → Option ℕ} {charge : Charge} {i : ℕ}

theorem Kept.trans (h : Kept g i owner s s₁) (h' : Kept g i owner s₁ s') :
    Kept g i owner s s' := fun sector hsector =>
  (h' sector hsector).trans (h sector hsector)

variable {j : ℕ}

theorem foreign_iblock (hj : j < g.ninodes) : Foreign g i owner (iblock j)  where
  plain := plain_iblock hj
  ne_zero := by
    have hlt := iblock_lt hj
    have hmeta := ninodes_lt_dataStart (g := g)
    have hsize := g.dataStart_le_size
    have hlt' := g.size_lt
    intro heq
    have hzero := Geometry.ofNat_inj (c := 0) (by omega) (by omega) heq
    cases hzero
  owned b hb heq := absurd heq (iblock_ne_ofNat hj hb)

theorem foreign_of_owned {b : ℕ} {k : ℕ × ℕ} (hb : g.InData b) (hk : k.1 ≠ i)
    (howner : owner k = some b) : Foreign g i owner (BitVec.ofNat 32 b) where
  plain := hb.plain
  ne_zero := hb.ofNat_ne_zero
  owned c hc heq := by
    have hb' := hb.lt_size
    have hc' := hc.lt_size
    have hsize := g.size_lt
    obtain rfl := Geometry.ofNat_inj (by omega) (by omega) heq
    exact ⟨k, hk, howner⟩

theorem Accounted.ne_of_foreign (h : Accounted g (withFile i owner (d.refs s.cache)) s)
    {sector : Sector} (hsector : Foreign g i owner sector) (p : ℕ) :
    sector ≠ d.blockAt s.cache p := by
  intro heq
  have hne : d.blockAt s.cache p ≠ 0 := heq ▸ hsector.ne_zero
  obtain ⟨b, hb, hmine, hused⟩ := h.exists_block hne
  obtain ⟨k, hk, howner⟩ := hsector.owned b hused.1 (heq.trans hb)
  have hfirst : withFile i owner (d.refs s.cache) k = some b := (if_neg hk).trans howner
  have hsecond : withFile i owner (d.refs s.cache) (i, p) = some b := (if_pos rfl).trans hmine
  exact hk (congrArg Prod.fst (h.owns.inj hfirst hsecond))

theorem Accounted.blockAt_inj (h : Accounted g (withFile i owner (d.refs s.cache)) s) {p q : ℕ}
    (hp : d.blockAt s.cache p ≠ 0) (heq : d.blockAt s.cache p = d.blockAt s.cache q) : p = q := by
  obtain ⟨b, hb, hmine, -⟩ := h.exists_block hp
  have hfirst : withFile i owner (d.refs s.cache) (i, p) = some b := (if_pos rfl).trans hmine
  have hsecond : withFile i owner (d.refs s.cache) (i, q) = some b := by
    rw [withFile, if_pos rfl, Dinode.refs, ← heq]
    exact hmine
  exact congrArg Prod.snd (h.owns.inj hfirst hsecond)

theorem Mapped.kept {count bn : ℕ} {addr : Sector} (hmax : bn < maxfile)
    (h : Mapped g i owner count s ip bn addr ip' s') : Kept g i owner s s' := by
  intro sector hsector
  apply h.frame sector hsector.plain
  · have hne := h.accounted.ne_of_foreign hsector bn
    rwa [h.blockAt_addr hmax] at hne
  · have hne := h.accounted.ne_of_foreign hsector maxfile
    rwa [Dinode.blockAt_maxfile] at hne

/-! ## Writing back the inode -/

structure Elsewhere (g : Geometry) (i : ℕ) (s s' : Fs) : Prop where
  dinode_eq : ∀ j < g.ninodes, j ≠ i → s'.dinode j = s.dinode j
  block_eq : ∀ j p b, j ≠ i → refs g s (j, p) = some b →
    s'.cache (BitVec.ofNat 32 b) = s.cache (BitVec.ofNat 32 b)

theorem Elsewhere.allocated_iff (h : Elsewhere g i s s') (hj : j ≠ i) :
    InodeAllocated g s' j ↔ InodeAllocated g s j := by
  refine and_congr_right fun hlt => ?_
  rw [h.dinode_eq j hlt hj]

theorem Elsewhere.blockAt_eq (h : Elsewhere g i s s') (hj : j ≠ i) (halloc : InodeAllocated g s j) :
    (s'.dinode j).blockAt s'.cache = (s.dinode j).blockAt s.cache := by
  rw [h.dinode_eq j halloc.1 hj]
  refine Dinode.blockAt_congr (fun _ => rfl) fun hind => ?_
  obtain ⟨b, hb⟩ := Option.ne_none_iff_exists'.mp (blockNumber_eq_none.not.mpr hind)
  have href : refs g s (j, maxfile) = some b := by
    rw [refs, if_pos halloc, Dinode.refs, Dinode.blockAt_maxfile]
    exact hb
  rw [blockNumber_eq_some hb]
  exact h.block_eq j maxfile b hj href

theorem Elsewhere.refs_eq (h : Elsewhere g i s s') (hj : j ≠ i) (p : ℕ) :
    refs g s' (j, p) = refs g s (j, p) := by
  unfold refs
  by_cases halloc : InodeAllocated g s j
  · rw [if_pos halloc, if_pos ((h.allocated_iff hj).mpr halloc), Dinode.refs, Dinode.refs,
      h.blockAt_eq hj halloc]
  · rw [if_neg halloc, if_neg ((h.allocated_iff hj).not.mpr halloc)]

theorem Elsewhere.trans (h : Elsewhere g i s s₁) (h' : Elsewhere g i s₁ s') :
    Elsewhere g i s s' where
  dinode_eq j hlt hj := (h'.dinode_eq j hlt hj).trans (h.dinode_eq j hlt hj)
  block_eq j p b hj hb :=
    (h'.block_eq j p b hj ((h.refs_eq hj p).trans hb)).trans (h.block_eq j p b hj hb)

theorem Kept.dinode_eq (h : Kept g i owner s s') (hj : j < g.ninodes) :
    s'.dinode j = s.dinode j := by
  rw [Fs.dinode, h _ (foreign_iblock hj), Fs.dinode]

theorem Kept.elsewhere (h : Kept g i (refs g s) s s') (hacc : Accounted g (refs g s) s) :
    Elsewhere g i s s' where
  dinode_eq _ hlt _ := h.dinode_eq hlt
  block_eq j p _ hj hb := h _ (foreign_of_owned (k := (j, p)) (hacc.inData hb) hj hb)

/-- **The end of an operation.** If the table of owners agrees with the inodes again and inode `i`
is shaped, the file system is consistent. -/
theorem Consistent.of_elsewhere (h : Consistent g s) (helse : Elsewhere g i s s')
    (hacc : Accounted g (withFile i (refs g s) mine) s') (hmine : ∀ p, refs g s' (i, p) = mine p)
    (hshaped : InodeAllocated g s' i →
      Shaped (s'.dinode i) s'.cache (fileSlots (s'.dinode i).size.toNat)) :
    Consistent g s' where
  accounted := by
    have howner : refs g s' = withFile i (refs g s) mine := by
      funext ⟨j, p⟩
      by_cases hj : j = i
      · subst hj
        rw [hmine, withFile, if_pos rfl]
      · rw [helse.refs_eq hj, withFile, if_neg hj]
    rw [howner]
    exact hacc
  shaped j halloc := by
    by_cases hj : j = i
    · subst hj
      exact hshaped halloc
    · have halloc' := (helse.allocated_iff hj).mp halloc
      obtain ⟨hle, hslots, hind⟩ := h.shaped j halloc'
      have hblockAt := helse.blockAt_eq hj halloc'
      rw [helse.dinode_eq j halloc.1 hj] at hblockAt ⊢
      refine ⟨hle, ?_, hind⟩
      rw [hblockAt]
      exact hslots

structure Synced (g : Geometry) (s : Fs) (ip : Inode) : Prop where
  inum_lt : ip.inum.toNat < g.ninodes
  dinode_eq : s.dinode ip.inum.toNat = ip.toDinode
  allocated : ip.type ≠ 0

theorem Synced.inodeAllocated (h : Synced g s ip) : InodeAllocated g s ip.inum.toNat :=
  ⟨h.inum_lt, h.dinode_eq.symm ▸ h.allocated⟩

theorem Consistent.start (h : Consistent g s) (hip : Synced g s ip) :
    Accounted g (withFile ip.inum.toNat (refs g s) (ip.refs s.cache)) s := by
  have howner : withFile ip.inum.toNat (refs g s) (ip.refs s.cache) = refs g s := by
    funext ⟨j, p⟩
    by_cases hj : j = ip.inum.toNat
    · rw [withFile, if_pos hj, hj, refs, if_pos hip.inodeAllocated, hip.dinode_eq]
    · rw [withFile, if_neg hj]
  rw [howner]
  exact h.accounted

theorem Consistent.shaped_inode (h : Consistent g s) (hip : Synced g s ip) :
    Shaped ip.toDinode s.cache (fileSlots ip.size.toNat) := by
  have hshaped := h.shaped _ hip.inodeAllocated
  rwa [hip.dinode_eq] at hshaped

theorem inodeUpdate_meets (h : Accounted g owner s) (hi : ip.inum.toNat < g.ninodes)
    (hlog : s.log.sectors.card ≤ charge.log)
    (hbuffers : (insert (iblock ip.inum.toNat) s.log.sectors).card ≤ charge.buffers) :
    Meets (Allowed s.log charge)
      (s.Wrote (iblock ip.inum.toNat)
        (ip.encode (s.cache (iblock ip.inum.toNat)) (ip.inum.toNat % ipb)))
      (s.inodeUpdate ip) := by
  refine Meets.bind (Fs.bufcacheRead_nil_meets
    ((Finset.card_le_card (Finset.subset_insert _ _)).trans hbuffers)) ?_
  rintro _ rfl
  exact h.ok.logWrite_single_meets (plain_iblock hi).not_contains hlog hbuffers _

theorem iblock_eq_iff (hi : i < g.ninodes) (hj : j < g.ninodes) :
    iblock j = iblock i ↔ j / ipb = i / ipb := by
  have hlt := iblock_lt hi
  have hlt' := iblock_lt hj
  have hmeta := ninodes_lt_dataStart (g := g)
  have hdata := g.dataStart_le_size
  have hsize := g.size_lt
  constructor
  · intro heq
    have hnat := Geometry.ofNat_inj (by omega) (by omega) heq
    omega
  · intro heq
    rw [iblock, heq, iblock]

theorem FsOk.dinode_of_wrote (h : FsOk g s) (hi : i < g.ninodes)
    (hwrote : s.Wrote (iblock i) (d.encode (s.cache (iblock i)) (i % ipb)) s') :
    s'.dinode i = d := by
  rw [Fs.dinode, h.cache_self hwrote (plain_iblock hi).not_contains]
  exact Dinode.decode_encode (Nat.mod_lt _ (by decide))

/-- Writing the on-disk inode `i` back changes nothing else. -/
theorem Kept.elsewhere_of_encode (hkept : Kept g i (refs g s) s s₁)
    (hacc : Accounted g (refs g s) s) (hi : i < g.ninodes)
    (hself : s'.cache (iblock i) = d.encode (s₁.cache (iblock i)) (i % ipb))
    (hother : ∀ sec, Plain g sec → sec ≠ iblock i → s'.cache sec = s₁.cache sec) :
    Elsewhere g i s s' where
  dinode_eq j hj hne := by
    rw [← hkept.dinode_eq hj, Fs.dinode, Fs.dinode]
    by_cases hblock : j / ipb = i / ipb
    · have hmod : j % ipb ≠ i % ipb := by
        intro hmod
        rw [← Nat.div_add_mod j ipb, hblock, hmod, Nat.div_add_mod] at hne
        exact hne rfl
      rw [(iblock_eq_iff hi hj).mpr hblock, hself, Dinode.decode_encode_of_ne hmod]
    · rw [hother _ (plain_iblock hj) ((iblock_eq_iff hi hj).not.mpr hblock)]
  block_eq j p b hj hb := by
    have hdata := hacc.inData hb
    rw [hother _ hdata.plain (iblock_ne_ofNat hi hdata).symm]
    exact (hkept.elsewhere hacc).block_eq j p b hj hb

theorem Kept.elsewhere_of_wrote (hkept : Kept g i (refs g s) s s₁)
    (hacc : Accounted g (refs g s) s) (h : FsOk g s₁) (hi : i < g.ninodes)
    (hwrote : s₁.Wrote (iblock i) (d.encode (s₁.cache (iblock i)) (i % ipb)) s') :
    Elsewhere g i s s' :=
  hkept.elsewhere_of_encode hacc hi (h.cache_self hwrote (plain_iblock hi).not_contains)
    fun _ hplain hne => h.cache_of_wrote hwrote hplain.not_contains hne

end Frames

end MCertikos.FS
