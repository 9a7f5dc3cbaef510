/-
# Truncating and freeing an inode

`inode_trunc` frees the direct blocks, then the blocks of the indirect block, and then the
indirect block itself, whose addresses it never clears.
-/

import MCertikos.FS.InodeFrame

namespace MCertikos.FS

open Math Function

section Truncation

variable {g : Geometry} {s₀ s s' : Fs} {ip : Inode} {owner : ℕ × ℕ → Option ℕ}
  {mine : ℕ → Option ℕ} {base : Finset Sector} {charge : Charge} {i : ℕ}

/-- A state on the way of `inode_trunc` from `s₀`: inode `i` still owns the blocks `mine`,
and only the bitmap has been written.  The bits of the file blocks are in `base`. -/
structure Truncating (g : Geometry) (i : ℕ) (owner : ℕ × ℕ → Option ℕ) (base : Finset Sector)
    (s₀ : Fs) (mine : ℕ → Option ℕ) (s : Fs) : Prop where
  accounted : Accounted g (withFile i owner mine) s
  region_eq : s₀.log.toRegion = g.region
  plain_eq : ∀ sector, Plain g sector → s.cache sector = s₀.cache sector
  busy_eq : s.log.busy = s₀.log.busy
  sectors : s.log.sectors ⊆ base
  bits : ∀ p b, p ≠ maxfile → mine p = some b → g.bitmapSector b ∈ base

theorem Truncating.allowed_eq (h : Truncating g i owner base s₀ mine s) :
    Allowed s.log charge = Allowed s₀.log charge :=
  Allowed.congr (h.accounted.ok.region_eq.trans h.region_eq.symm) h.busy_eq

theorem Truncating.kept (h : Truncating g i owner base s₀ mine s) : Kept g i owner s₀ s :=
  fun sector hsector => h.plain_eq sector hsector.plain

theorem Truncating.blockFree_meets (h : Truncating g i owner base s₀ mine s) {p b : ℕ}
    (hp : mine p = some b) (hbit : g.bitmapSector b ∈ base) {held : List Sector}
    (hheld : HeldOk g s held) (hlog : base.card ≤ charge.log)
    (hbuffers : (base ∪ held.toFinset).card ≤ charge.buffers) :
    Meets (Allowed s₀.log charge) (Truncating g i owner base s₀ (update mine p none))
      (s.blockFree held (BitVec.ofNat 32 b)) := by
  obtain ⟨hdata, hused⟩ := h.accounted.dataUsed hp
  have hinsert := Finset.insert_subset hbit h.sectors
  refine (FS.blockFree_meets h.accounted.ok hdata.lt_size hheld
    ((Finset.card_le_card h.sectors).trans hlog)
    ((Finset.card_le_card (Finset.union_subset_union_left hinsert)).trans hbuffers)).mono ?_ ?_
  · rintro e (hallowed | ⟨-, hfree⟩)
    · rwa [h.allowed_eq] at hallowed
    · exact absurd (hfree.symm.trans hused) (by decide)
  · intro s' hfreed
    refine ⟨h.accounted.detach hfreed hp, h.region_eq, ?_, ?_, ?_, fun q c hq hc => ?_⟩
    · intro sector hplain
      rw [hfreed.frame sector hplain.not_contains (hplain.ne_bitmap b hdata.lt_size).symm,
        h.plain_eq sector hplain]
    · rw [hfreed.busy_eq, h.busy_eq]
    · rw [hfreed.sectors_eq]
      exact hinsert
    · by_cases hqp : q = p
      · rw [hqp, update_self] at hc
        cases hc
      · rw [update_of_ne hqp] at hc
        exact h.bits q c hq hc

structure DirectFreed (g : Geometry) (i : ℕ) (owner : ℕ × ℕ → Option ℕ) (base : Finset Sector)
    (s₀ : Fs) (ip : Inode) (k : ℕ) (r : Inode × Fs) : Prop where
  truncating : Truncating g i owner base s₀ (r.1.refs r.2.cache) r.2
  fields : r.1 = ip.setAddrs r.1.addrs
  addr_eq : ∀ j, r.1.addr j = if j < k then 0 else ip.addr j

theorem truncDirect_meets {k : ℕ} {r : Inode × Fs} (h : DirectFreed g i owner base s₀ ip k r)
    (hlog : base.card ≤ charge.log) (hbuffers : base.card ≤ charge.buffers) (hk : k < ndirect) :
    Meets (Allowed s₀.log charge) (DirectFreed g i owner base s₀ ip (k + 1))
      (Fs.truncDirect r k) := by
  obtain ⟨ip', s⟩ := r
  obtain ⟨htrunc, hfields, haddr⟩ := h
  have hnext : ∀ j, (if j = k then 0 else ip'.addr j) = if j < k + 1 then 0 else ip.addr j := by
    intro j
    rw [haddr j]
    by_cases hj : j = k
    · rw [if_pos hj, if_pos (by omega)]
    · rw [if_neg hj]
      exact if_congr (by omega) rfl rfl
  unfold Fs.truncDirect
  by_cases hzero : ip'.addr k = 0
  · simp only [if_pos hzero]
    refine ⟨htrunc, hfields, fun j => ?_⟩
    rw [← hnext j]
    by_cases hj : j = k
    · rw [if_pos hj, hj, hzero]
    · rw [if_neg hj]
  · simp only [if_neg hzero]
    have hblock : ip'.blockAt s.cache k = ip'.addr k := Dinode.blockAt_of_lt hk
    obtain ⟨b, hb, hmine, -⟩ := htrunc.accounted.exists_block (hblock.symm ▸ hzero)
    rw [← hblock, hb]
    have hbit := htrunc.bits k b (by unfold maxfile; omega) hmine
    refine Meets.bind (htrunc.blockFree_meets hmine hbit heldOk_nil hlog
      (by rwa [List.toFinset_nil, Finset.union_empty])) fun s' htrunc' => ?_
    have hrefs : (ip'.setAddr k 0).refs s'.cache =
        update (ip'.refs s.cache) k none := by
      refine Dinode.refs_update (Dinode.blockAt_setAddr hk 0 fun hind => ?_)
      obtain ⟨c, hc, hused⟩ := htrunc.accounted.indirect hind
      rw [hc, htrunc'.plain_eq _ hused.1.plain, htrunc.plain_eq _ hused.1.plain]
    refine ⟨hrefs ▸ htrunc', ?_, fun j => ?_⟩
    · exact congrArg (Inode.setAddr · k 0) hfields
    · rw [← hnext j]
      exact Dinode.addr_setAddr (Nat.le_of_lt hk) 0 j

def unvisited (refs : ℕ → Option ℕ) (j p : ℕ) : Option ℕ :=
  if ndirect ≤ p ∧ p < ndirect + j then none else refs p

theorem unvisited_succ (refs : ℕ → Option ℕ) (j : ℕ) :
    unvisited refs (j + 1) = update (unvisited refs j) (ndirect + j) none := by
  funext p
  by_cases hp : p = ndirect + j
  · rw [hp, update_self, unvisited, if_pos (by omega)]
  · rw [update_of_ne hp, unvisited, unvisited]
    exact if_congr (by omega) rfl rfl

theorem truncEntries_meets (h : Truncating g i owner base s₀ (ip.refs s.cache) s)
    (hind : ip.addr ndirect ≠ 0) (hlog : base.card ≤ charge.log)
    (hbuffers : (insert (ip.addr ndirect) base).card ≤ charge.buffers) :
    Meets (Allowed s₀.log charge)
      (Truncating g i owner base s₀ (unvisited (ip.refs s.cache) nindirect))
      ((List.range nindirect).foldlM
        (Fs.truncEntry (ip.addr ndirect) (s.cache (ip.addr ndirect))) s) := by
  have hinit : unvisited (ip.refs s.cache) 0 = ip.refs s.cache := by
    funext p
    rw [unvisited, if_neg (by omega)]
  refine Meets.foldlM_range (fun j => Truncating g i owner base s₀
    (unvisited (ip.refs s.cache) j)) (hinit.symm ▸ h) ?_
  intro j hj s₁ h₁
  have hmax : ndirect + j < maxfile := Nat.add_lt_add_left hj ndirect
  have hentry : ip.blockAt s.cache (ndirect + j) = (s.cache (ip.addr ndirect)).word j := by
    rw [Dinode.blockAt_entry (Nat.le_add_right _ _) hmax, Dinode.entry, if_neg hind,
      Nat.add_sub_cancel_left]
  have howned : unvisited (ip.refs s.cache) j (ndirect + j) = ip.refs s.cache (ndirect + j) :=
    if_neg (by omega)
  rw [unvisited_succ, Fs.truncEntry, ← hentry]
  by_cases hzero : ip.blockAt s.cache (ndirect + j) = 0
  · have hnone : unvisited (ip.refs s.cache) j (ndirect + j) = none :=
      howned.trans (blockNumber_eq_none.mpr hzero)
    rw [if_pos hzero, ← hnone, update_eq_self]
    exact h₁
  · rw [if_neg hzero]
    obtain ⟨b, hb, hmine, -⟩ := h.accounted.exists_block hzero
    rw [hb]
    have howned := howned.trans hmine
    refine h₁.blockFree_meets howned (h₁.bits _ b (Nat.ne_of_lt hmax) howned) ?_ hlog ?_
    swap
    · rwa [List.toFinset_cons, List.toFinset_nil, Finset.union_insert, Finset.union_empty]
    intro sector hsector
    obtain rfl := List.mem_singleton.mp hsector
    obtain ⟨c, hc, hmine', -⟩ := h.accounted.exists_block (p := maxfile)
      (by rwa [Dinode.blockAt_maxfile])
    rw [Dinode.blockAt_maxfile] at hc
    have hused := h₁.accounted.dataUsed (p := maxfile) ((if_neg (by omega)).trans hmine')
    exact ⟨c, hc, hused.1, hused.2⟩

variable {cache : Disk}

theorem update_unvisited (haddr : ∀ j, j < ndirect → ip.addr j = 0) :
    update (unvisited (ip.refs cache) nindirect) maxfile none = fun _ => none := by
  funext p
  by_cases hmax : p = maxfile
  · rw [hmax, update_self]
  · rw [update_of_ne hmax, unvisited]
    by_cases hentry : ndirect ≤ p ∧ p < ndirect + nindirect
    · exact if_pos hentry
    · rw [if_neg hentry, Dinode.refs, blockNumber_eq_none, Dinode.blockAt]
      by_cases hp : p < ndirect
      · rw [if_pos hp, haddr p hp]
      · rw [if_neg hp, if_neg (by unfold maxfile; omega), if_neg hmax]

theorem Truncating.mono {base' : Finset Sector} (h : Truncating g i owner base s₀ mine s)
    (hsubset : base ⊆ base') : Truncating g i owner base' s₀ mine s :=
  { h with
    sectors := h.sectors.trans hsubset
    bits := fun p b hp hb => hsubset (h.bits p b hp hb) }

theorem truncIndirect_meets {base' : Finset Sector}
    (h : Truncating g i owner base s₀ (ip.refs s.cache) s)
    (haddr : ∀ j, j < ndirect → ip.addr j = 0) (hlog : base'.card ≤ charge.log)
    (hbuffers : base'.card ≤ charge.buffers) (hsubset : base ⊆ base')
    (hheld : ip.addr ndirect ≠ 0 → (insert (ip.addr ndirect) base).card ≤ charge.buffers)
    (hbit : ip.addr ndirect ≠ 0 → g.bitmapSector (ip.addr ndirect).toNat ∈ base') :
    Meets (Allowed s₀.log charge)
      (fun r => Truncating g i owner base' s₀ (fun _ => none) r.2 ∧
        r.1 = ip.setAddrs r.1.addrs ∧ ∀ j, r.1.addr j = 0)
      (s.truncIndirect ip) := by
  have hout : ∀ j, ndirect < j → ip.addr j = 0 := fun j hj => dif_neg (by omega)
  unfold Fs.truncIndirect
  by_cases hzero : ip.addr ndirect = 0
  · rw [if_pos hzero]
    have hall : ∀ j, ip.addr j = 0 := by
      intro j
      obtain hj | rfl | hj := Nat.lt_trichotomy j ndirect
      · exact haddr j hj
      · exact hzero
      · exact hout j hj
    have hnone : ip.refs s.cache = fun _ => none := by
      funext p
      rw [Dinode.refs, Dinode.blockAt_of_addr_zero hall]
      rfl
    exact ⟨(hnone ▸ h).mono hsubset, rfl, hall⟩
  · rw [if_neg hzero]
    have hcard := Finset.card_le_card (h.sectors.trans hsubset)
    have hread : Meets (Allowed s.log charge) _ (s.bufcacheRead [] (ip.addr ndirect)) :=
      Fs.bufcacheRead_nil_meets (hcard.trans hbuffers)
    rw [h.allowed_eq] at hread
    refine Meets.bind hread ?_
    rintro _ rfl
    refine Meets.bind (truncEntries_meets h hzero ((Finset.card_le_card hsubset).trans hlog)
      (hheld hzero)) fun s₁ h₁ => ?_
    obtain ⟨c, hc, hmine, hused⟩ := h.accounted.exists_block (p := maxfile)
      (by rwa [Dinode.blockAt_maxfile])
    rw [Dinode.blockAt_maxfile] at hc
    have hnumber : c = (ip.addr ndirect).toNat := by
      have hsize := hused.1.lt_size
      have hlt := g.size_lt
      rw [hc, BitVec.toNat_ofNat, Nat.mod_eq_of_lt (by omega)]
    have hbit := hbit hzero
    rw [← hnumber] at hbit
    rw [hc]
    refine Meets.bind ((h₁.mono hsubset).blockFree_meets (p := maxfile)
      ((if_neg (by decide)).trans hmine) hbit heldOk_nil hlog
      (by rwa [List.toFinset_nil, Finset.union_empty])) fun s₂ h₂ => ?_
    refine ⟨update_unvisited haddr ▸ h₂, rfl, fun j => ?_⟩
    have hset := Dinode.addr_setAddr (d := ip.toDinode) (Nat.le_refl ndirect) 0 j
    obtain hj | rfl | hj := Nat.lt_trichotomy j ndirect
    · exact hset.trans ((if_neg (by omega)).trans (haddr j hj))
    · exact hset.trans (if_pos rfl)
    · exact hset.trans ((if_neg (by omega)).trans (hout j hj))

/-! ## `inode_trunc` and `inode_put` -/

/-- The blocks of the bitmap with the bits of the first `n` positions of an inode. -/
def bitSectors (g : Geometry) (s : Fs) (d : Dinode) (n : ℕ) : Finset Sector :=
  ((Finset.range n).filter fun p => d.blockAt s.cache p ≠ 0).image fun p =>
    g.bitmapSector (d.blockAt s.cache p).toNat

theorem mem_bitSectors {d : Dinode} {n p : ℕ} (hp : p < n) (hne : d.blockAt s.cache p ≠ 0) :
    g.bitmapSector (d.blockAt s.cache p).toNat ∈ bitSectors g s d n :=
  Finset.mem_image_of_mem _ (Finset.mem_filter.mpr ⟨Finset.mem_range.mpr hp, hne⟩)

theorem bitSectors_mono {d : Dinode} {n n' : ℕ} (h : n ≤ n') :
    bitSectors g s d n ⊆ bitSectors g s d n' :=
  Finset.image_subset_image (Finset.filter_subset_filter _ (Finset.range_mono h))

/-- What is logged before `inode_trunc` writes back the inode: the bits of its blocks. -/
def truncSectors (g : Geometry) (s : Fs) (ip : Inode) : Finset Sector :=
  s.log.sectors ∪ bitSectors g s ip.toDinode (maxfile + 1)

/-- While the entries of the indirect block are freed, it is in use but not logged. -/
def truncCharge (g : Geometry) (s : Fs) (ip : Inode) : Charge where
  log := (truncSectors g s ip).card
  buffers := max (insert (iblock ip.inum.toNat) (truncSectors g s ip)).card
    (if ip.addr ndirect = 0 then 0
      else (insert (ip.addr ndirect) (s.log.sectors ∪ bitSectors g s ip.toDinode maxfile)).card)

/-- `inode_put` writes back the inode once more. -/
def putCharge (g : Geometry) (s : Fs) (ip : Inode) : Charge :=
  { truncCharge g s ip with
    log := (insert (iblock ip.inum.toNat) (truncSectors g s ip)).card }

structure Truncated (g : Geometry) (s : Fs) (ip ip' : Inode) (s' : Fs) : Prop where
  consistent : Consistent g s'
  elsewhere : Elsewhere g ip.inum.toNat s s'
  synced : Synced g s' ip'
  inum_eq : ip'.inum = ip.inum
  addr_eq : ∀ j, ip'.addr j = 0
  busy_eq : s'.log.busy = s.log.busy
  sectors : s'.log.sectors ⊆ insert (iblock ip.inum.toNat) (truncSectors g s ip)

variable {d : Dinode}

theorem Dinode.refs_of_addr_zero (haddr : ∀ j, d.addr j = 0) : d.refs cache = fun _ => none := by
  funext p
  rw [refs, blockAt_of_addr_zero haddr, blockNumber_zero]

theorem shaped_of_addr_zero (haddr : ∀ j, d.addr j = 0) : Shaped d cache 0  where
  count_le := Nat.zero_le _
  slots p _ := iff_of_false (not_not.mpr (Dinode.blockAt_of_addr_zero haddr p))
    (Nat.not_lt_zero p)
  indirect := iff_of_false (not_not.mpr (haddr ndirect)) (Nat.not_lt_zero _)

theorem Truncating.truncated (h : Consistent g s) (hip : Synced g s ip)
    (htrunc : Truncating g ip.inum.toNat (refs g s) (truncSectors g s ip) s (fun _ => none) s')
    (ip' : Inode) (hinum : ip'.inum = ip.inum) (htype : ip'.type = ip.type)
    (hsize : ip'.size = 0) (haddr : ∀ j, ip'.addr j = 0) {s'' : Fs}
    (hwrote : s'.Wrote (iblock ip.inum.toNat)
      (ip'.encode (s'.cache (iblock ip.inum.toNat)) (ip.inum.toNat % ipb)) s'') :
    Truncated g s ip ip' s'' := by
  have hok := htrunc.accounted.ok
  have hdinode := hok.dinode_of_wrote hip.inum_lt hwrote
  have helse := htrunc.kept.elsewhere_of_wrote h.accounted hok hip.inum_lt hwrote
  refine ⟨h.of_elsewhere helse (htrunc.accounted.wrote hwrote (plain_iblock hip.inum_lt)) ?_ ?_,
    helse, ⟨hinum ▸ hip.inum_lt, hinum ▸ hdinode, htype ▸ hip.allocated⟩, hinum, haddr,
    hwrote.busy_eq.trans htrunc.busy_eq, ?_⟩
  · intro p
    rw [refs, hdinode, Dinode.refs_of_addr_zero haddr, ite_self]
  · intro _
    rw [hdinode, hsize]
    exact shaped_of_addr_zero haddr
  · rw [hwrote.sectors_eq]
    exact Finset.insert_subset_insert _ htrunc.sectors

theorem inodeTrunc_meets (h : Consistent g s) (hip : Synced g s ip) :
    Meets (Allowed s.log (truncCharge g s ip))
      (fun r => Truncated g s ip r.1 r.2 ∧ ip.SameSlot r.1) (s.inodeTrunc ip) := by
  have hfiles : bitSectors g s ip.toDinode maxfile ⊆ bitSectors g s ip.toDinode (maxfile + 1) :=
    bitSectors_mono (Nat.le_succ maxfile)
  have hsubset : s.log.sectors ∪ bitSectors g s ip.toDinode maxfile ⊆ truncSectors g s ip :=
    Finset.union_subset_union_right hfiles
  have hbase := Finset.card_le_card hsubset
  have hinsert : (truncSectors g s ip).card ≤ (truncCharge g s ip).buffers :=
    (Finset.card_le_card (Finset.subset_insert _ _)).trans (Nat.le_max_left _ _)
  have hstart : DirectFreed g ip.inum.toNat (refs g s)
      (s.log.sectors ∪ bitSectors g s ip.toDinode maxfile) s ip 0 (ip, s) := by
    refine ⟨⟨h.start hip, h.accounted.ok.region_eq, fun _ _ => rfl, rfl,
      Finset.subset_union_left, fun p b hp hb => Finset.mem_union_right _ ?_⟩, rfl,
      fun j => (if_neg (Nat.not_lt_zero j)).symm⟩
    obtain ⟨hne, hnumber⟩ := Option.ite_none_left_eq_some.mp hb
    rw [← Option.some.inj hnumber]
    refine mem_bitSectors ?_ hne
    by_contra hge
    exact hne (by rw [Dinode.blockAt, if_neg (by unfold maxfile at hge; omega), if_neg hge,
      if_neg hp])
  refine Meets.bind (Meets.foldlM_range _ hstart fun k hk r hr =>
    truncDirect_meets hr hbase (hbase.trans hinsert) hk) ?_
  rintro ⟨ip₁, s₁⟩ ⟨h₁, (hfields₁ : ip₁ = _), haddr₁⟩
  have hind : ip₁.addr ndirect = ip.addr ndirect :=
    (haddr₁ ndirect).trans (if_neg (Nat.lt_irrefl _))
  refine Meets.bind (truncIndirect_meets h₁ (fun j hj => (haddr₁ j).trans (if_pos hj))
    (Nat.le_refl _) hinsert hsubset ?_ ?_) ?_
  · intro hne
    rw [hind] at hne ⊢
    refine le_trans ?_ (Nat.le_max_right _ _)
    rw [if_neg hne]
  · intro hne
    rw [hind, ← Dinode.blockAt_maxfile ip.toDinode s.cache] at hne ⊢
    exact Finset.mem_union_right _ (mem_bitSectors (Nat.lt_succ_self maxfile) hne)
  rintro ⟨ip₂, s₂⟩ ⟨h₂, (hfields₂ : ip₂ = _), haddr₂⟩
  have hfields := Inode.setAddrs_trans hfields₁ hfields₂
  have hinum : ip₂.inum = ip.inum := by rw [hfields, Inode.setAddrs]
  have htype : ip₂.type = ip.type := by rw [hfields, Inode.setAddrs]
  have hi : ip₂.inum.toNat < g.ninodes := hinum ▸ hip.inum_lt
  have hiblock : insert (iblock ip₂.inum.toNat) s₂.log.sectors ⊆
      insert (iblock ip.inum.toNat) (truncSectors g s ip) := by
    rw [hinum]
    exact Finset.insert_subset_insert _ h₂.sectors
  have hupdate : Meets (Allowed s₂.log (truncCharge g s ip)) _
      (s₂.inodeUpdate { ip₂ with size := 0 }) :=
    inodeUpdate_meets h₂.accounted hi (Finset.card_le_card h₂.sectors)
      ((Finset.card_le_card hiblock).trans (Nat.le_max_left _ _))
  rw [h₂.allowed_eq] at hupdate
  refine Meets.bind hupdate fun s₃ hwrote => ?_
  refine ⟨Truncating.truncated h hip h₂ { ip₂ with size := 0 } hinum htype rfl haddr₂ ?_, ?_⟩
  · rw [← hinum]
    exact hwrote
  · rw [Inode.SameSlot, Inode.sameSlot_of_setAddrs hfields]

theorem Truncated.free {ip' : Inode} (h : Truncated g s ip ip' s') (hi : ip.inum.toNat < g.ninodes)
    (htype : d.type = 0) {s'' : Fs}
    (hwrote : s'.Wrote (iblock ip.inum.toNat)
      (d.encode (s'.cache (iblock ip.inum.toNat)) (ip.inum.toNat % ipb)) s'') :
    Consistent g s'' ∧ Elsewhere g ip.inum.toNat s s'' := by
  have hacc := h.consistent.accounted
  have hkept : Kept g ip.inum.toNat (refs g s') s' s' := fun _ _ => rfl
  have helse := hkept.elsewhere_of_wrote hacc hacc.ok hi hwrote
  have hfree : ¬ InodeAllocated g s'' ip.inum.toNat := by
    rintro ⟨-, hne⟩
    rw [hacc.ok.dinode_of_wrote hi hwrote] at hne
    exact hne htype
  have hstart := h.consistent.start h.synced
  rw [h.inum_eq, Dinode.refs_of_addr_zero h.addr_eq] at hstart
  refine ⟨h.consistent.of_elsewhere helse (hstart.wrote hwrote (plain_iblock hi)) ?_ ?_,
    h.elsewhere.trans helse⟩
  · intro p
    rw [refs, if_neg hfree]
  · intro halloc
    exact absurd halloc hfree

/-- **`inode_put`** frees an inode with its last reference if it has no links. -/
theorem inodePut_meets (h : Consistent g s) (hip : Synced g s ip) (hidle : ip.busy = false) :
    Meets (fun e => (ip.ref = 1 ∧ ip.valid = true ∧ ip.nlink = 0) ∧
        Allowed s.log (putCharge g s ip) e)
      (fun r => (Consistent g r.2 ∧ Elsewhere g ip.inum.toNat s r.2) ∧
        r.1.inum = ip.inum ∧ r.1.ref = ip.ref - 1) (s.inodePut ip) := by
  unfold Fs.inodePut
  by_cases hlast : ip.ref = 1 ∧ ip.valid = true ∧ ip.nlink = 0
  · rw [if_pos hlast, if_neg (by rw [hidle]; exact Bool.false_ne_true)]
    have hip' : Synced g s { ip with busy := true } :=
      ⟨hip.inum_lt, hip.dinode_eq, hip.allocated⟩
    have hlog : (truncCharge g s ip).log ≤ (putCharge g s ip).log :=
      Finset.card_le_card (Finset.subset_insert (iblock ip.inum.toNat) (truncSectors g s ip))
    refine Meets.bind ((inodeTrunc_meets h hip').mono
      (fun e he => ⟨hlast, he.mono hlog (Nat.le_refl _)⟩) fun _ h => h) ?_
    rintro ⟨ip₁, s₁⟩ ⟨(htrunc : Truncated g s _ ip₁ s₁), (hslot : Inode.SameSlot _ ip₁)⟩
    have hacc := htrunc.consistent.accounted
    have hinum : ip₁.inum = ip.inum := htrunc.inum_eq
    have hi : ip₁.inum.toNat < g.ninodes := hinum ▸ hip.inum_lt
    have hiblock : insert (iblock ip₁.inum.toNat) s₁.log.sectors ⊆
        insert (iblock ip.inum.toNat) (truncSectors g s ip) := by
      rw [hinum]
      exact Finset.insert_subset (Finset.mem_insert_self _ _) htrunc.sectors
    have hupdate : Meets (Allowed s₁.log (putCharge g s ip)) _
        (s₁.inodeUpdate { ip₁ with type := 0 }) :=
      inodeUpdate_meets hacc hi (Finset.card_le_card htrunc.sectors)
        ((Finset.card_le_card hiblock).trans (Nat.le_max_left _ _))
    rw [h.accounted.ok.allowed_eq hacc.ok htrunc.busy_eq] at hupdate
    refine Meets.bind (hupdate.mono (fun _ he => ⟨hlast, he⟩) fun _ h => h) fun s₂ hwrote => ?_
    have hwrote' : s₁.Wrote (iblock ip.inum.toNat) ({ ip₁ with type := 0 }.encode
        (s₁.cache (iblock ip.inum.toNat)) (ip.inum.toNat % ipb)) s₂ := by
      rw [← hinum]
      exact hwrote
    have href : ip₁.ref = ip.ref := by rw [hslot]
    exact ⟨htrunc.free hip.inum_lt rfl hwrote', hinum, by rw [← href]⟩
  · rw [if_neg hlast]
    exact ⟨⟨h, fun _ _ _ => rfl, fun _ _ _ _ _ => rfl⟩, rfl, rfl⟩

end Truncation

end MCertikos.FS
