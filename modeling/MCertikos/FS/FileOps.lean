/-
# `file_write`

`file_write` cuts its data into pieces and writes each of them in a transaction of its own.
-/

import MCertikos.FS.FileContent
import MCertikos.FS.Commit
import MCertikos.FS.Dir
import MCertikos.Sysfile.Calls

namespace MCertikos.FS

open Math InodeCache

def commitTransBuf : CacheM Unit := runFs fun s => s.commitTransBuf.map fun s => ((), s)

def advance (f : Sysfile.File) (r : ℤ) : Sysfile.File :=
  if 0 < r then { f with off := f.off + BitVec.ofInt 32 r } else f

/-- One turn of the loop of `file_write`, with the sectors the transaction has logged. -/
def writeOne (devsw : ℕ → Devsw) (f : Sysfile.File) (src : ℕ → BitVec 8) (n1 : ℕ) :
    CacheM (ℤ × Sysfile.File × Finset Sector) := do
  beginTrans
  inodeLock f.ip
  let r ← inodeWrite devsw f.ip src f.off (BitVec.ofNat 32 n1)
  let f' := advance f r
  inodeUnlock f.ip
  let c ← get
  commitTransBuf
  return (r, f', c.fs.log.sectors)

structure LoopEnd where
  /-- The bytes written. -/
  count : ℕ
  /-- The last turn wrote another number of bytes than it was given. -/
  short : Bool
  file : Sysfile.File
  /-- The sectors of each transaction. -/
  chunks : List (Finset Sector)

def fileWriteLoop (devsw : ℕ → Devsw) (src : ℕ → BitVec 8) (n : ℕ) :
    ℕ → ℕ → Sysfile.File → List (Finset Sector) → CacheM LoopEnd
  | 0, i, f, chunks => return ⟨i, false, f, chunks⟩
  | fuel + 1, i, f, chunks =>
    if i < n then do
      let n1 := min (n - i) Sysfile.writeChunk
      let (r, f, sectors) ← writeOne devsw f (fun j => src (i + j)) n1
      if r < 0 then return ⟨i, false, f, sectors :: chunks⟩
      else if r ≠ n1 then return ⟨i, true, f, sectors :: chunks⟩
      else fileWriteLoop devsw src n fuel (i + n1) f (sectors :: chunks)
    else return ⟨i, false, f, chunks⟩

def fileWrite (devsw : ℕ → Devsw) (f : Sysfile.File) (src : ℕ → BitVec 8) (n : ℤ) :
    CacheM (ℤ × Sysfile.File) :=
  if f.writable = false then return (-1, f)
  else if f.type = .inode then do
    let w ← fileWriteLoop devsw src n.toNat n.toNat 0 f []
    if w.short then kernPanic .shortWrite
    else return (if (w.count : ℤ) = n then n else -1, w.file)
  else kernPanic .fileWrite

/-! ## Transactions -/

section Transactions

variable {g : Geometry} {s s' : Fs} {j : ℕ}

def Fs.begun (s : Fs) : Fs := ⟨s.cache, s.log.beginTrans⟩

theorem Consistent.begun (h : Consistent g s) : Consistent g s.begun := by
  have hok := h.accounted.ok
  exact h.transfer ⟨hok.superblock, hok.region_eq, hok.log⟩ fun _ _ => rfl

theorem Consistent.content_of_outside (h : Consistent g s)
    (hcache : ∀ sector, ¬ g.region.Contains sector → s'.cache sector = s.cache sector)
    (halloc : InodeAllocated g s j) : s'.content (s'.dinode j) = s.content (s.dinode j) :=
  (h.elsewhere_of_outside hcache).content_eq h halloc (Nat.succ_ne_self j).symm

theorem freeBlocks_of_outside
    (hcache : ∀ sector, ¬ g.region.Contains sector → s'.cache sector = s.cache sector) :
    freeBlocks g s' = freeBlocks g s := by
  refine Finset.filter_congr fun b hb => ?_
  rw [used_of_outside hcache (Finset.mem_range.mp hb)]

end Transactions

namespace InodeCache

def contentOf (c : InodeCache) (i : ℕ) : List (BitVec 8) := c.fs.content (c.dinodeOf i)

/-- A turn of the loop may begin: no transaction is in progress, and the inode is neither
locked nor free. -/
structure Ready (c : InodeCache) (i : ℕ) : Prop where
  idle : c.fs.log.busy = false
  unlocked : (c.inode i).busy = false
  allocated : (c.dinodeOf i).type ≠ 0

variable {g : Geometry} {c : InodeCache} {i : ℕ} {ip : Inode} {fs : Fs}

theorem inodeUnlock_withInode (hbusy : ip.busy = true) (href : 0 < ip.ref) :
    inodeUnlock i (c.withInode i ip fs) = .ok ((), c.withInode i { ip with busy := false } fs) := by
  rw [inodeUnlock_of_busy (by rw [Live, withInode_inode]; exact href)
    (by rw [withInode_inode]; exact hbusy), withInode_inode, withInode, setInode_setInode]
  rfl

end InodeCache

/-! ## One turn -/

def Fits (d : Dinode) (off len : ℕ) : Prop :=
  off ≤ d.size.toNat ∧ off + len ≤ maxfile * bsize

/-- What transactions that write to one inode keep: the blocks it gets are no longer free. -/
structure Steady (g : Geometry) (i : ℕ) (c c' : InodeCache) : Prop where
  inv : c'.Inv g
  ref_eq : (c'.inode i).ref = (c.inode i).ref
  inum_eq : (c'.inode i).inum = (c.inode i).inum
  type_eq : (c'.dinodeOf i).type = (c.dinodeOf i).type
  free : blocksFor (fileSlots (c'.dinodeOf i).size.toNat) + (freeBlocks g c'.fs).card =
    blocksFor (fileSlots (c.dinodeOf i).size.toNat) + (freeBlocks g c.fs).card

theorem Steady.trans {g : Geometry} {i : ℕ} {c c' c'' : InodeCache} (h : Steady g i c c')
    (h' : Steady g i c' c'') : Steady g i c c'' where
  inv := h'.inv
  ref_eq := h'.ref_eq.trans h.ref_eq
  inum_eq := h'.inum_eq.trans h.inum_eq
  type_eq := h'.type_eq.trans h.type_eq
  free := h'.free.trans h.free

/-- What one turn leaves when its write returns `r`: all the bytes are in the file, or none. -/
structure Turned (g : Geometry) (devsw : ℕ → Devsw) (c : InodeCache) (f : Sysfile.File)
    (src : ℕ → BitVec 8) (len : ℕ) (r : ℤ) (sectors : Finset Sector) (c' : InodeCache) : Prop
    extends Steady g f.ip c c' where
  ready : c'.Ready f.ip
  empty : c'.fs.log.sectors = ∅
  card_le : sectors.card ≤
    (writeCharge g c.fs (c.lockedInode f.ip) f.off (BitVec.ofNat 32 len)).buffers
  wrote : (c.dinodeOf f.ip).type ≠ tDev → Fits (c.dinodeOf f.ip) f.off.toNat len →
    r = len ∧ c'.contentOf f.ip =
      splice (c.contentOf f.ip) ((List.range len).map src) f.off.toNat
  refused : (c.dinodeOf f.ip).type ≠ tDev → ¬ Fits (c.dinodeOf f.ip) f.off.toNat len →
    r = -1 ∧ c'.contentOf f.ip = c.contentOf f.ip
  device : (c.dinodeOf f.ip).type = tDev → c'.contentOf f.ip = c.contentOf f.ip ∧
    ((∀ major, (devsw major).write = none) → r = -1)

section Turn

variable {g : Geometry} {devsw : ℕ → Devsw} {c : InodeCache} {f : Sysfile.File}
  {src : ℕ → BitVec 8} {len : ℕ}

theorem beginTrans_of_idle (hidle : c.fs.log.busy = false) :
    beginTrans c = .ok ((), { c with fs := c.fs.begun }) := by
  unfold beginTrans Fs.beginTrans
  rw [hidle]
  rfl

theorem writeOne_ready (h : c.Inv g) :
    Returns (fun _ _ => c.Ready f.ip) (writeOne devsw f src len) c := by
  have hbegin : Returns (fun _ c' => c.fs.log.busy = false ∧ c' = { c with fs := c.fs.begun })
      beginTrans c := by
    intro _ c' hok
    unfold beginTrans Fs.beginTrans at hok
    cases hidle : c.fs.log.busy with
    | true =>
      rw [hidle] at hok
      cases hok
    | false =>
      rw [hidle] at hok
      exact ⟨rfl, (Prod.mk.inj (Except.ok.inj hok)).2.symm⟩
  refine hbegin.bind ?_
  rintro _ _ ⟨hidle, rfl⟩
  refine (inodeLock_returns _ f.ip).bind fun _ _ hlocked => ?_
  have hready : c.Ready f.ip := by
    refine ⟨hidle, hlocked.idle, ?_⟩
    have hbegun : ({ c with fs := c.fs.begun } : InodeCache).Inv g :=
      h.setFs h.consistent.begun fun _ _ _ => rfl
    by_cases hvalid : (c.inode f.ip).valid = true
    · have hsynced := h.synced f.ip hlocked.live hvalid
      rw [dinodeOf, hsynced.dinode_eq]
      exact hsynced.allocated
    · have htype := hlocked.type_ne hvalid
      rw [hbegun.lockedInode_eq hlocked.live] at htype
      exact htype
  intro _ _ _
  exact hready

/-- The inode and the log after a commit: the write of `ip` to `s` has reached the disk. -/
structure Landed (g : Geometry) (c : InodeCache) (i : ℕ) (ip : Inode) (s : Fs)
    (c' : InodeCache) : Prop where
  inv : c'.Inv g
  inode_eq : c'.inode i = { c.inode i with toInode := { ip with busy := false } }
  idle : c'.fs.log.busy = false
  empty : c'.fs.log.sectors = ∅
  dinode_eq : c'.dinodeOf i = ip.toDinode
  content_eq : c'.contentOf i = s.content ip.toDinode
  free_eq : freeBlocks g c'.fs = freeBlocks g s

theorem Landed.of_commit {i : ℕ} {ip : Inode} {s s' : Fs} (h : c.Inv g) (hlive : c.Live i)
    (hcons : Consistent g s) (helse : Elsewhere g (c.inode i).inum.toNat c.fs s)
    (hip : Synced g s ip) (hinum : ip.inum = (c.inode i).inum)
    (hcommit : s.commitTrans = some s') :
    Landed g c i ip s (c.withInode i { ip with busy := false } s') := by
  have hok := hcons.accounted.ok
  obtain ⟨hok', hcache⟩ := hok.commit hcommit
  obtain ⟨hidle, hempty⟩ := commitTrans_log hok.log hcommit
  have hdinode : s'.dinode ip.inum.toNat = ip.toDinode := by
    rw [Fs.dinode, hcache _ (plain_iblock hip.inum_lt).not_contains]
    exact hip.dinode_eq
  have hcontent := hcons.content_of_outside hcache hip.inodeAllocated
  rw [hdinode, hip.dinode_eq] at hcontent
  have hself : (c.withInode i { ip with busy := false } s').inode i =
      { c.inode i with toInode := { ip with busy := false } } := withInode_inode
  have hdinodeOf : (c.withInode i { ip with busy := false } s').dinodeOf i = ip.toDinode := by
    rw [dinodeOf, hself]
    exact hdinode
  refine ⟨?_, hself, hidle, hempty, hdinodeOf, ?_, freeBlocks_of_outside hcache⟩
  · have helse' := helse.trans (hcons.elsewhere_of_outside hcache)
    exact h.setInode hlive (hcons.transfer hok' hcache) helse' hinum
      fun _ _ => ⟨hip.inum_lt, hdinode, hip.allocated⟩
  · rw [contentOf, hdinodeOf]
    exact hcontent

theorem runFs_meets {α : Type} {m : Fs → Except Halt (α × Fs)} {fail : Halt → Prop}
    {post : α × Fs → Prop} (h : Meets fail post (m c.fs)) :
    Meets (Stuck.Halts fail) (fun r => ∃ fs, post (r.1, fs) ∧ r.2 = { c with fs := fs })
      (runFs m c) := by
  unfold runFs
  cases hm : m c.fs with
  | error e =>
    rw [hm] at h
    exact h
  | ok r =>
    rw [hm] at h
    exact ⟨r.2, h, rfl⟩

/-- A turn asks for what the write asks for, and for two buffers more in the commit. -/
def turnCharge (g : Geometry) (c : InodeCache) (f : Sysfile.File) (len : ℕ) : Charge where
  log := (writeCharge g c.fs (c.lockedInode f.ip) f.off (BitVec.ofNat 32 len)).log
  buffers := (writeCharge g c.fs (c.lockedInode f.ip) f.off (BitVec.ofNat 32 len)).buffers + 2

def Crowded (g : Geometry) (c : InodeCache) (f : Sysfile.File) (len : ℕ) : Halt → Prop :=
  Allowed c.fs.begun.log (turnCharge g c f len)

theorem Crowded.of_pinned {e : Halt} (h : Pinned c.fs.begun e) : Crowded g c f len e := by
  obtain ⟨rfl, hfull⟩ := h
  exact hfull.trans (card_sectors_le_writeCharge.trans (Nat.le_add_right _ 2))

variable (h : c.Inv g) (hlive : c.Live f.ip)
  (hfree : (c.dinodeOf f.ip).type ≠ tDev → f.off.toNat ≤ (c.dinodeOf f.ip).size.toNat →
      EnoughFree g c.fs (c.lockedInode f.ip) f.off (BitVec.ofNat 32 len))

include h hlive hfree

theorem Turned.of_write {r : ℤ} {ip' : Inode} {s₁ s₂ : Fs} (hready : c.Ready f.ip)
    (hlen : len < 2 ^ 32)
    (hwrite : c.fs.begun.inodeWrite devsw (c.lockedInode f.ip) src f.off (BitVec.ofNat 32 len) =
      .ok (r, ip', s₁))
    (hcommit : s₁.commitTrans = some s₂) : Turned g devsw c f src len r s₁.log.sectors
      (c.withInode f.ip { ip' with busy := false } s₂) := by
  have hlocked := h.lockedInode_eq hlive
  have hip := h.synced_locked hlive hready.allocated
  have hdinode : (c.lockedInode f.ip).toDinode = c.dinodeOf f.ip := by rw [hlocked]
  have hinum : (c.lockedInode f.ip).inum = (c.inode f.ip).inum := by rw [hlocked]
  have hlen' : (BitVec.ofNat 32 len).toNat = len := by
    rw [BitVec.toNat_ofNat, Nat.mod_eq_of_lt hlen]
  obtain ⟨⟨⟨hcons, helse, hsynced⟩, hslot⟩, houtcome, hcard⟩ :=
    (inodeWrite_bounded devsw src h.consistent.begun ⟨hip.1, hip.2, hip.3⟩ fun hdev hfits =>
      hfree (hdinode ▸ hdev) (hdinode ▸ hfits.1)).of_ok hwrite
  have hslot : ip' = { c.lockedInode f.ip with toDinode := ip'.toDinode } := hslot
  have hinum' : ip'.inum = (c.inode f.ip).inum := by rw [hslot, hlocked]
  rw [hinum] at helse
  have hland := Landed.of_commit h hlive hcons ⟨helse.dinode_eq, helse.block_eq⟩ hsynced hinum'
    hcommit
  generalize c.withInode f.ip { ip' with busy := false } s₂ = c' at hland ⊢
  have hcontent : c.contentOf f.ip = c.fs.begun.content (c.lockedInode f.ip).toDinode := by
    rw [hdinode]
    rfl
  have hfits : WriteFits (c.lockedInode f.ip) f.off (BitVec.ofNat 32 len) ↔
      Fits (c.dinodeOf f.ip) f.off.toNat len := by
    rw [WriteFits, hdinode, hlen', Fits]
  have hsame : ∀ {r'}, (r, ip', s₁) = (r', c.lockedInode f.ip, c.fs.begun) →
      c'.contentOf f.ip = c.contentOf f.ip := by
    intro r' heq
    obtain ⟨-, hstate⟩ := Prod.mk.inj heq
    obtain ⟨hip', hs₁⟩ := Prod.mk.inj hstate
    rw [hland.content_eq, hcontent, hip', hs₁]
  have hsteady : Steady g f.ip c c' := by
    refine ⟨hland.inv, ?_, by rw [hland.inode_eq]; exact hinum', ?_, ?_⟩
    · rw [hland.inode_eq]
      show ip'.ref = _
      rw [hslot, hlocked]
    · rw [hland.dinode_eq, ← hdinode]
      exact houtcome.type_eq
    · rw [hland.dinode_eq, hland.free_eq, ← hdinode]
      exact houtcome.free
  refine ⟨hsteady, ⟨hland.idle, by rw [hland.inode_eq], ?_⟩, hland.empty, hcard,
    fun hdev hfit => ?_, fun hdev hnot => ?_, fun hdev => ?_⟩
  · rw [hland.dinode_eq]
    exact hsynced.allocated
  · rw [← hdinode] at hdev
    obtain ⟨hnot, -⟩ | ⟨hvalue, hover⟩ := houtcome.cases hdev
    · exact absurd (hfits.mpr hfit) hnot
    · have hvalue' := hvalue.trans (hfits.mpr hfit).toInt_eq
      have hover' := hover.content_eq (hfits.mpr hfit).1
      rw [hlen'] at hvalue' hover'
      exact ⟨hvalue', by rw [hland.content_eq, hcontent]; exact hover'⟩
  · rw [← hdinode] at hdev
    have heq := Except.ok.inj (hwrite.symm.trans
      (inodeWrite_refused devsw src c.fs.begun hdev (hfits.not.mpr hnot)))
    exact ⟨(Prod.mk.inj heq).1, hsame heq⟩
  · rw [← hdinode] at hdev
    obtain ⟨r', hdevice, hnone⟩ := inodeWrite_of_device devsw src c.fs.begun f.off
      (BitVec.ofNat 32 len) hdev
    have heq := Except.ok.inj (hwrite.symm.trans hdevice)
    exact ⟨hsame heq, fun hdriver => (Prod.mk.inj heq).1.trans (hnone hdriver)⟩

theorem inodeWrite_begun (devsw : ℕ → Devsw) (src : ℕ → BitVec 8) (hready : c.Ready f.ip) :
    Meets (Crowded g c f len)
      (fun r => c.fs.begun.inodeWrite devsw (c.lockedInode f.ip) src f.off
          (BitVec.ofNat 32 len) = .ok r ∧
        Consistent g r.2.2 ∧ (c.lockedInode f.ip).SameSlot r.2.1 ∧
        r.2.2.log.sectors.card ≤
          (writeCharge g c.fs (c.lockedInode f.ip) f.off (BitVec.ofNat 32 len)).buffers)
      (c.fs.begun.inodeWrite devsw (c.lockedInode f.ip) src f.off (BitVec.ofNat 32 len)) := by
  have hip := h.synced_locked hlive hready.allocated
  have hdinode : (c.lockedInode f.ip).toDinode = c.dinodeOf f.ip := by
    rw [h.lockedInode_eq hlive]
  have hwrite := (inodeWrite_bounded (g := g) devsw src h.consistent.begun
    ⟨hip.1, hip.2, hip.3⟩ fun hdev hfits => hfree (hdinode ▸ hdev) (hdinode ▸ hfits.1)).and_eq
  refine hwrite.mono (fun e he => he.2.mono (Nat.le_refl _) (Nat.le_add_right _ 2)) ?_
  rintro r ⟨hok, ⟨⟨hcons, -, -⟩, hslot⟩, -, hcard⟩
  exact ⟨hok, hcons, hslot, hcard⟩

theorem writeOne_meets (hready : c.Ready f.ip) (hlen : len < 2 ^ 32) :
    Meets (Stuck.Halts (Crowded g c f len))
      (fun r => r.1.2.1 = advance f r.1.1 ∧ Turned g devsw c f src len r.1.1 r.1.2.2 r.2)
      (writeOne devsw f src len c) := by
  have hmono : ∀ {fail : Halt → Prop}, (∀ e, fail e → Crowded g c f len e) →
      ∀ e, Stuck.Halts fail e → Stuck.Halts (Crowded g c f len) e := by
    intro fail hfail e he
    cases e with
    | halt reason => exact hfail reason he
    | panic reason => exact he
    | sleep => exact he
  refine Meets.bind_of_ok (beginTrans_of_idle hready.idle) ?_
  refine Meets.bind_state ((inodeLock_meets (c := { c with fs := c.fs.begun }) hlive
    hready.unlocked fun _ => hready.allocated).mono
      (hmono fun _ => Crowded.of_pinned) fun _ h => h) ?_
  rintro _ _ ⟨⟩
  have hrun : Meets (Stuck.Halts (Crowded g c f len)) _
      (inodeWrite devsw f.ip src f.off (BitVec.ofNat 32 len)
        (c.withInode f.ip (c.lockedInode f.ip) c.fs.begun)) :=
    runInode_meets (by
      rw [withInode_inode]
      exact inodeWrite_begun h hlive hfree devsw src hready)
  refine Meets.bind_state hrun ?_
  rintro r c₁ ⟨ip', s₁, ⟨hok, hcons, hslot, hcard⟩, hstate⟩
  obtain rfl : c₁ = c.withInode f.ip ip' s₁ := hstate.trans withInode_withInode
  have hslot : ip' = { c.lockedInode f.ip with toDinode := ip'.toDinode } := hslot
  have hheld : ip'.busy = true ∧ 0 < ip'.ref := by
    rw [hslot, h.lockedInode_eq hlive]
    exact ⟨rfl, hlive⟩
  have hcommit : Meets (Crowded g c f len) (fun r => s₁.commitTrans = some r.2)
      (s₁.commitTransBuf.map fun s => ((), s)) := by
    refine Meets.map ((commitTransBuf_meets hcons.accounted.ok.log).mono ?_ fun _ h => h)
    rintro _ ⟨rfl, hfull⟩
    have hcard : s₁.log.sectors.card ≤ _ := hcard
    show nbuf ≤ _ + 2
    omega
  refine Meets.bind_of_ok (inodeUnlock_withInode hheld.1 hheld.2) ?_
  apply Meets.get_bind
  refine Meets.bind_state (runFs_meets hcommit) ?_
  rintro _ c' ⟨s₂, hcommit, hc'⟩
  obtain rfl : c' = c.withInode f.ip { ip' with busy := false } s₂ := hc'
  exact ⟨rfl, Turned.of_write h hlive hfree hready hlen hok hcommit⟩

theorem writeOne_delayed (hlen : len < 2 ^ 32) :
    Meets (fun e => c.Ready f.ip → Stuck.Halts (Crowded g c f len) e)
      (fun r => r.1.2.1 = advance f r.1.1 ∧ Turned g devsw c f src len r.1.1 r.1.2.2 r.2)
      (writeOne devsw f src len c) := by
  by_cases hready : c.Ready f.ip
  · exact (writeOne_meets h hlive hfree hready hlen).mono (fun _ he _ => he) fun _ h => h
  · cases hturn : writeOne devsw f src len c with
    | ok r => exact absurd (writeOne_ready h r.1 r.2 hturn) hready
    | error e => exact fun h => absurd h hready

end Turn

/-! ## The loop -/

/-- The blocks are free that a write of `n` bytes needs, as far as the largest file has room
for it. -/
def BlocksFree (g : Geometry) (c : InodeCache) (f : Sysfile.File) (n : ℕ) : Prop :=
  f.off.toNat ≤ (c.dinodeOf f.ip).size.toNat →
    blocksFor (max (fileSlots (c.dinodeOf f.ip).size.toNat)
      (fileSlots (min (f.off.toNat + n) (maxfile * bsize)))) ≤
      blocksFor (fileSlots (c.dinodeOf f.ip).size.toNat) + (freeBlocks g c.fs).card

/-- After `i` of `n` bytes: the file has the bytes from its offset on, and the offset is
behind them. -/
structure Progress (g : Geometry) (devsw : ℕ → Devsw) (c : InodeCache) (f : Sysfile.File)
    (src : ℕ → BitVec 8) (n i : ℕ) (c' : InodeCache) (f' : Sysfile.File) : Prop
    extends Steady g f.ip c c' where
  ready : c.Ready f.ip → c'.Ready f.ip
  empty : c.fs.log.sectors = ∅ → c'.fs.log.sectors = ∅
  file_eq : f' = { f with off := f.off + BitVec.ofNat 32 i }
  le : i ≤ n
  first : 0 < i → min n Sysfile.writeChunk ≤ i
  content_eq : (c.dinodeOf f.ip).type ≠ tDev → c'.contentOf f.ip =
    splice (c.contentOf f.ip) ((List.range i).map src) f.off.toNat
  fits : (c.dinodeOf f.ip).type ≠ tDev → 0 < i → Fits (c.dinodeOf f.ip) f.off.toNat i
  device : (c.dinodeOf f.ip).type = tDev → c'.contentOf f.ip = c.contentOf f.ip ∧
    ((∀ major, (devsw major).write = none) → i = 0)

namespace Progress

variable {g : Geometry} {devsw : ℕ → Devsw} {c c' c'' : InodeCache} {f f' : Sysfile.File}
  {src : ℕ → BitVec 8} {n i : ℕ}

theorem start (h : c.Inv g) : Progress g devsw c f src n 0 c f where
  toSteady := ⟨h, rfl, rfl, rfl, rfl⟩
  ready := id
  empty := id
  file_eq := by simp
  le := Nat.zero_le n
  first hpos := absurd hpos (Nat.lt_irrefl 0)
  content_eq _ := by simp
  fits _ hpos := absurd hpos (Nat.lt_irrefl 0)
  device _ := ⟨rfl, fun _ => rfl⟩

variable (h : Progress g devsw c f src n i c' f')

include h

theorem ip_eq : f'.ip = f.ip := by rw [h.file_eq]

theorem not_device (hdev : (c.dinodeOf f.ip).type ≠ tDev) : (c'.dinodeOf f.ip).type ≠ tDev := by
  rw [h.type_eq]
  exact hdev

theorem live (hlive : c.Live f.ip) : c'.Live f'.ip := by
  rw [Live, h.ip_eq, h.ref_eq]
  exact hlive

theorem off_toNat (hdev : (c.dinodeOf f.ip).type ≠ tDev) : f'.off.toNat = f.off.toNat + i := by
  rw [h.file_eq]
  obtain rfl | hpos := Nat.eq_zero_or_pos i
  · simp
  · have hmax : maxfile * bsize < 2 ^ 32 := by decide
    have hfits := (h.fits hdev hpos).2
    rw [BitVec.toNat_add, BitVec.toNat_ofNat, Nat.mod_eq_of_lt (a := i) (by omega),
      Nat.mod_eq_of_lt (by omega)]

theorem size_eq (hdev : (c.dinodeOf f.ip).type ≠ tDev)
    (hoff : f.off.toNat ≤ (c.dinodeOf f.ip).size.toNat) :
    (c'.dinodeOf f.ip).size.toNat = max (c.dinodeOf f.ip).size.toNat (f.off.toNat + i) := by
  have hlength := congrArg List.length (h.content_eq hdev)
  rw [length_splice (by rw [contentOf, length_content]; exact hoff), List.length_map,
    List.length_range, contentOf, contentOf, length_content,
    length_content] at hlength
  exact hlength

theorem off_le (hdev : (c.dinodeOf f.ip).type ≠ tDev)
    (hoff : f'.off.toNat ≤ (c'.dinodeOf f.ip).size.toNat) :
    f.off.toNat ≤ (c.dinodeOf f.ip).size.toNat := by
  obtain rfl | hpos := Nat.eq_zero_or_pos i
  · have hcontent := h.content_eq hdev
    have hlength : (c'.contentOf f.ip).length = (c.contentOf f.ip).length := by
      rw [hcontent, List.range_zero, List.map_nil, splice_nil]
    rw [contentOf, contentOf, length_content, length_content] at hlength
    rwa [h.off_toNat hdev, hlength] at hoff
  · exact (h.fits hdev hpos).1

theorem enoughFree (hlive : c.Live f.ip)
    (hfree : BlocksFree g c f n) {len : ℕ} (hlen : i + len ≤ n) (hlt : len < 2 ^ 32)
    (hdev : (c'.dinodeOf f'.ip).type ≠ tDev)
    (hoff : f'.off.toNat ≤ (c'.dinodeOf f'.ip).size.toNat) :
    EnoughFree g c'.fs (c'.lockedInode f'.ip) f'.off (BitVec.ofNat 32 len) := by
  intro hmax
  have hdinode : (c'.lockedInode f'.ip).toDinode = c'.dinodeOf f'.ip := by
    rw [h.inv.lockedInode_eq (h.live hlive)]
  rw [h.ip_eq] at hdev hoff hdinode ⊢
  rw [h.type_eq] at hdev
  have hbefore := h.off_le hdev hoff
  have hsize := h.size_eq hdev hbefore
  rw [BitVec.toNat_ofNat, Nat.mod_eq_of_lt hlt, h.off_toNat hdev] at hmax ⊢
  rw [hdinode, h.free]
  refine (blocksFor_mono ?_).trans (hfree hbefore)
  have hmono : ∀ {a b : ℕ}, a ≤ b → fileSlots a ≤ fileSlots b := fun hab =>
    fileSlots_le.mpr (hab.trans (fileSlots_le.mp (Nat.le_refl _)))
  have hend : f.off.toNat + i + len ≤ min (f.off.toNat + n) (maxfile * bsize) :=
    Nat.le_min.mpr ⟨by omega, hmax⟩
  have hold := hmono (Nat.le_trans (Nat.le_add_right _ len) hend)
  have hnew := hmono hend
  have hmax' : fileSlots (c'.dinodeOf f.ip).size.toNat ≤
      max (fileSlots (c.dinodeOf f.ip).size.toNat) (fileSlots (f.off.toNat + i)) := by
    rw [hsize]
    obtain hle | hle := Nat.le_total (c.dinodeOf f.ip).size.toNat (f.off.toNat + i)
    · rw [Nat.max_eq_right hle]
      exact Nat.le_max_right _ _
    · rw [Nat.max_eq_left hle]
      exact Nat.le_max_left _ _
  omega

section Step

variable {len : ℕ} {r : ℤ} {sectors : Finset Sector}

theorem wrote (hlen : len = min (n - i) Sysfile.writeChunk)
    (hi : i < n) (hturn : Turned g devsw c' f' (fun j => src (i + j)) len r sectors c'')
    (hr : r = len) : Progress g devsw c f src n (i + len) c'' (advance f' r) := by
  have hchunk : 0 < Sysfile.writeChunk := by decide
  have hpos : 0 < len := by omega
  have hip := h.ip_eq
  obtain ⟨hsteady, hready, hempty, -, hwrote, hrefused, hdevice⟩ := hturn
  rw [hip] at hsteady hready hwrote hrefused hdevice
  have hfits : (c.dinodeOf f.ip).type ≠ tDev → Fits (c'.dinodeOf f.ip) f'.off.toNat len := by
    intro hdev
    by_contra hnot
    have hfail := (hrefused (h.not_device hdev) hnot).1
    omega
  refine ⟨h.toSteady.trans hsteady, fun _ => hready, fun _ => hempty, ?_, by omega, fun _ => ?_,
    fun hdev => ?_, fun hdev _ => ?_, fun hdev => ?_⟩
  · rw [advance, if_pos (by omega), h.file_eq, hr, BitVec.ofInt_natCast, BitVec.ofNat_add,
      BitVec.add_assoc]
  · by_cases hzero : i = 0
    · omega
    · have hfirst := h.first (Nat.pos_of_ne_zero hzero)
      omega
  · have hoff := h.off_le hdev (hfits hdev).1
    rw [(hwrote (h.not_device hdev) (hfits hdev)).2, h.content_eq hdev, h.off_toNat hdev]
    have hlength : ((List.range i).map src).length = i := by simp
    have hsplice : splice (splice (c.contentOf f.ip) ((List.range i).map src) f.off.toNat)
        ((List.range len).map fun j => src (i + j))
        (f.off.toNat + ((List.range i).map src).length) = _ :=
      splice_splice (by rw [contentOf, length_content]; exact hoff)
    rw [hlength] at hsplice
    rw [hsplice, List.range_add, List.map_append, List.map_map]
    rfl
  · refine ⟨h.off_le hdev (hfits hdev).1, ?_⟩
    have hend := (hfits hdev).2
    rw [h.off_toNat hdev] at hend
    omega
  · obtain ⟨hcontent, hnone⟩ := hdevice (h.type_eq.trans hdev)
    refine ⟨hcontent.trans (h.device hdev).1, fun hdriver => ?_⟩
    have hfail := hnone hdriver
    omega

theorem refused (hturn : Turned g devsw c' f' (fun j => src (i + j)) len r sectors c'')
    (hr : r < 0) : Progress g devsw c f src n i c'' (advance f' r) ∧
      ((c.dinodeOf f.ip).type ≠ tDev → ¬ Fits (c''.dinodeOf f.ip) (f.off.toNat + i) len) := by
  have hip := h.ip_eq
  obtain ⟨hsteady, hready, hempty, -, hwrote, hrefused, hdevice⟩ := hturn
  rw [hip] at hsteady hready hwrote hrefused hdevice
  have hnot : (c.dinodeOf f.ip).type ≠ tDev → ¬ Fits (c'.dinodeOf f.ip) f'.off.toNat len := by
    intro hdev hfits
    have hdone := (hwrote (h.not_device hdev) hfits).1
    omega
  have hcontent : c''.contentOf f.ip = c'.contentOf f.ip := by
    by_cases hdev : (c.dinodeOf f.ip).type = tDev
    · exact (hdevice (h.type_eq.trans hdev)).1
    · exact (hrefused (h.not_device hdev) (hnot hdev)).2
  refine ⟨⟨h.toSteady.trans hsteady, fun _ => hready, fun _ => hempty, ?_, h.le, h.first,
    fun hdev => hcontent.trans (h.content_eq hdev), h.fits,
    fun hdev => ⟨hcontent.trans (h.device hdev).1, (h.device hdev).2⟩⟩, fun hdev => ?_⟩
  · rw [advance, if_neg (by omega), h.file_eq]
  · have hsize : (c''.dinodeOf f.ip).size.toNat = (c'.dinodeOf f.ip).size.toNat := by
      rw [← length_content c''.fs, ← length_content c'.fs]
      exact congrArg List.length hcontent
    have hfits := hnot hdev
    rw [h.off_toNat hdev] at hfits
    rwa [Fits, hsize]

theorem device_of_short (hturn : Turned g devsw c' f' (fun j => src (i + j)) len r sectors c'')
    (hr : ¬ r < 0) (hne : r ≠ len) : (c.dinodeOf f.ip).type = tDev := by
  have hip := h.ip_eq
  by_contra hdev
  have hdev' : (c'.dinodeOf f'.ip).type ≠ tDev := by
    rw [hip]
    exact h.not_device hdev
  by_cases hfits : Fits (c'.dinodeOf f'.ip) f'.off.toNat len
  · exact hne (hturn.wrote hdev' hfits).1
  · have hfail := (hturn.refused hdev' hfits).1
    omega

end Step

end Progress

structure Ended (g : Geometry) (devsw : ℕ → Devsw) (c : InodeCache) (f : Sysfile.File)
    (src : ℕ → BitVec 8) (n : ℕ) (w : LoopEnd) (c' : InodeCache) : Prop where
  short : w.short = true → (c.dinodeOf f.ip).type = tDev
  progress : w.short = false → Progress g devsw c f src n w.count c' w.file
  refused : w.short = false → w.count < n → (c.dinodeOf f.ip).type ≠ tDev →
    ¬ Fits (c'.dinodeOf f.ip) (f.off.toNat + w.count) (min (n - w.count) Sysfile.writeChunk)

theorem Progress.ended {g : Geometry} {devsw : ℕ → Devsw} {c c' : InodeCache}
    {f f' : Sysfile.File} {src : ℕ → BitVec 8} {n i : ℕ} (h : Progress g devsw c f src n i c' f')
    (hrefused : i < n → (c.dinodeOf f.ip).type ≠ tDev →
      ¬ Fits (c'.dinodeOf f.ip) (f.off.toNat + i) (min (n - i) Sysfile.writeChunk))
    (chunks : List (Finset Sector)) : Ended g devsw c f src n ⟨i, false, f', chunks⟩ c' where
  short hshort := by cases hshort
  progress _ := h
  refused _ := hrefused

section Loop

variable {g : Geometry} {devsw : ℕ → Devsw} {c : InodeCache} {f : Sysfile.File}
  {src : ℕ → BitVec 8} {n : ℕ} {fail : Stuck → Prop} {fits : Finset Sector → Prop}

/-- **The loop of `file_write`.** -/
theorem fileWriteLoop_meets (hlive : c.Live f.ip) (hfree : BlocksFree g c f n)
    (hfail : ∀ i c' f', Progress g devsw c f src n i c' f' → i < n → ∀ e,
      (c'.Ready f'.ip → Stuck.Halts (Crowded g c' f' (min (n - i) Sysfile.writeChunk)) e) → fail e)
    (hfits : ∀ i c' f', Progress g devsw c f src n i c' f' → i < n → ∀ sectors : Finset Sector,
      sectors.card ≤ (writeCharge g c'.fs (c'.lockedInode f'.ip) f'.off
        (BitVec.ofNat 32 (min (n - i) Sysfile.writeChunk))).buffers → fits sectors)
    {fuel i : ℕ} {c' : InodeCache} {f' : Sysfile.File} {chunks : List (Finset Sector)}
    (h : Progress g devsw c f src n i c' f') (hfuel : n ≤ i + fuel)
    (hchunks : ∀ sectors ∈ chunks, fits sectors) :
    Meets fail (fun r => Ended g devsw c f src n r.1 r.2 ∧ ∀ sectors ∈ r.1.chunks, fits sectors)
      (fileWriteLoop devsw src n fuel i f' chunks c') := by
  induction fuel generalizing i c' f' chunks with
  | zero =>
    have hle := h.le
    exact ⟨h.ended (fun hlt => absurd hlt (by omega)) chunks, hchunks⟩
  | succ fuel ih =>
    unfold fileWriteLoop
    by_cases hi : i < n
    · rw [if_pos hi]
      have hchunk : Sysfile.writeChunk < 2 ^ 32 := by decide
      have hpos : 0 < Sysfile.writeChunk := by decide
      have hlen : min (n - i) Sysfile.writeChunk < 2 ^ 32 := by omega
      refine Meets.bind_state ((writeOne_delayed h.inv (h.live hlive)
        (h.enoughFree hlive hfree (by omega) hlen) hlen).mono (hfail i c' f' h hi) fun _ h => h) ?_
      rintro ⟨r, f'', sectors⟩ c'' ⟨hadvance, hturn⟩
      obtain rfl : f'' = advance f' r := hadvance
      have hturn : Turned g devsw c' f' (fun j => src (i + j))
        (min (n - i) Sysfile.writeChunk) r sectors c'' := hturn
      have hchunks' : ∀ s ∈ sectors :: chunks, fits s :=
        List.forall_mem_cons.mpr ⟨hfits i c' f' h hi sectors hturn.card_le, hchunks⟩
      by_cases hneg : r < 0
      · obtain ⟨hprogress, hrefused⟩ := h.refused hturn hneg
        simp only [if_pos hneg]
        exact ⟨hprogress.ended (fun _ => hrefused) _, hchunks'⟩
      by_cases hshort : r ≠ (min (n - i) Sysfile.writeChunk : ℕ)
      · simp only [if_neg hneg, if_pos hshort]
        refine ⟨⟨fun _ => h.device_of_short hturn hneg hshort, fun hfalse => ?_,
          fun hfalse => ?_⟩, hchunks'⟩
        · cases hfalse
        · cases hfalse
      · simp only [if_neg hneg, if_neg hshort]
        exact ih (h.wrote rfl hi hturn (not_not.mp hshort)) (by omega) hchunks'
    · rw [if_neg hi]
      exact ⟨h.ended (fun hlt => absurd hlt hi) chunks, hchunks⟩

theorem fileWriteLoop_ended (h : c.Inv g) (hlive : c.Live f.ip) (hfree : BlocksFree g c f n)
    {w : LoopEnd} {c' : InodeCache} (hok : fileWriteLoop devsw src n n 0 f [] c = .ok (w, c')) :
    Ended g devsw c f src n w c' := by
  have hloop : Meets (fun _ => True) (fun r => Ended g devsw c f src n r.1 r.2 ∧
      ∀ sectors ∈ r.1.chunks, (fun _ => True) sectors) (fileWriteLoop devsw src n n 0 f [] c) :=
    fileWriteLoop_meets hlive hfree (fun _ _ _ _ _ _ _ => trivial)
      (fun _ _ _ _ _ _ _ => trivial) (Progress.start h) (Nat.le_of_eq (Nat.zero_add n).symm)
      fun _ _ => trivial
  exact (hloop.of_ok hok).1

end Loop

/-! ## Transactions fit -/

section Room

variable {g : Geometry} {devsw : ℕ → Devsw} {c : InodeCache} {f : Sysfile.File}
  {src : ℕ → BitVec 8}

theorem card_bits_le_one {s : Fs} {k : ℕ} (hsize : g.size ≤ 4096) :
    ((lowestFree g s k).image g.bitmapSector).card ≤ 1 := by
  refine Finset.card_le_one.mpr fun x hx y hy => ?_
  obtain ⟨b, hb, rfl⟩ := Finset.mem_image.mp hx
  obtain ⟨c, hc, rfl⟩ := Finset.mem_image.mp hy
  have hb := (mem_freeBlocks.mp (mem_lowestFree.mp hb).1).1.lt_size
  have hc := (mem_freeBlocks.mp (mem_lowestFree.mp hc).1).1.lt_size
  rw [Geometry.bitmapSector_eq_iff hb hc]
  unfold bpb
  omega

/-- On a disk with one bitmap block, the blocks between two others are logged with at most two
sectors more: the bitmap and the indirect block. -/
theorem card_writeSectors_le {s : Fs} {ip : Inode} {first last : ℕ} (hsize : g.size ≤ 4096)
    (hempty : s.log.sectors = ∅) (hfirst : first ≤ last) :
    (writeSectors g s ip first last).card ≤ last - min first (fileSlots ip.size.toNat) + 2 := by
  have halloc : (allocSectors g s (blocksFor last - blocksFor (fileSlots ip.size.toNat))).card ≤
      blocksFor last - blocksFor (fileSlots ip.size.toNat) + 1 :=
    (Finset.card_union_le _ _).trans (Nat.add_le_add
      (Finset.card_image_le.trans (card_lowestFree_le g s _)) (card_bits_le_one hsize))
  have hplace := Finset.card_image_le (f := ip.blockAt s.cache)
    (s := Finset.Ico first (min last (fileSlots ip.size.toNat)))
  rw [Nat.card_Ico] at hplace
  have hind : (if ndirect < fileSlots ip.size.toNat ∧ fileSlots ip.size.toNat < last
      then {ip.addr ndirect} else ∅ : Finset Sector).card ≤
      if ndirect < fileSlots ip.size.toNat then 1 else 0 := by
    split
    · next hboth => rw [Finset.card_singleton, if_pos hboth.1]
    · exact Nat.zero_le _
  rw [writeSectors, hempty, Finset.empty_union]
  refine (Finset.card_union_le _ _).trans ((Nat.add_le_add
    ((Finset.card_union_le _ _).trans (Nat.add_le_add hplace halloc)) hind).trans ?_)
  unfold blocksFor
  split <;> split <;> omega

theorem writeCharge_le_seven {s : Fs} {ip : Inode} {off len : BitVec 32} (hsize : g.size ≤ 4096)
    (hempty : s.log.sectors = ∅) (hlen : len.toNat ≤ Sysfile.writeChunk) :
    (writeCharge g s ip off len).log ≤ 7 ∧ (writeCharge g s ip off len).buffers ≤ 7 := by
  unfold writeCharge
  dsimp only
  by_cases hlogs : WriteLogs ip off len
  · rw [if_neg (not_not.mpr hlogs)]
    have hchunk : Sysfile.writeChunk = 1536 := rfl
    have hslots : off.toNat / bsize ≤ fileSlots ip.size.toNat :=
      Nat.div_le_of_le_mul (Nat.mul_comm _ _ ▸
        hlogs.2.1.1.trans (fileSlots_le.mp (Nat.le_refl _)))
    have hblocks : fileSlots (off.toNat + len.toNat) - off.toNat / bsize ≤ 4 ∧
        off.toNat / bsize ≤ fileSlots (off.toNat + len.toNat) := by
      unfold fileSlots bsize
      omega
    have hsix : (writeSectors g s ip _ _).card ≤ _ := card_writeSectors_le hsize hempty hblocks.2
    rw [Nat.min_eq_left hslots] at hsix
    have hbefore : (writeSectors g s ip (off.toNat / bsize) _).card ≤ _ :=
      Finset.card_le_card (writeSectors_mono (Nat.sub_le (fileSlots (off.toNat + len.toNat)) 1))
    have hinsert := Finset.card_insert_le (iblock ip.inum.toNat)
      (writeSectors g s ip (off.toNat / bsize) (fileSlots (off.toNat + len.toNat)))
    split
    · exact ⟨hsix.trans (by omega), hinsert.trans (by omega)⟩
    · exact ⟨hbefore.trans (hsix.trans (by omega)), hsix.trans (by omega)⟩
  · rw [if_pos hlogs, hempty]
    exact ⟨Nat.zero_le 7, Nat.zero_le 7⟩

/-- The disk has one bitmap block and a log of the usual size, no transaction is in progress
and the blocks for the write are free. -/
structure Quiet (g : Geometry) (c : InodeCache) (f : Sysfile.File) (n : ℕ) : Prop where
  inv : c.Inv g
  size_le : g.size ≤ 4096
  nlog_eq : g.nlog = logsize
  live : c.Live f.ip
  ready : c.Ready f.ip
  empty : c.fs.log.sectors = ∅
  free : BlocksFree g c f n

theorem Consistent.capacity_eq {s : Fs} (h : Consistent g s) (hnlog : g.nlog = logsize) :
    s.log.capacity = 9 := by
  have hregion := h.accounted.ok.region_eq
  rw [Log.capacity, hregion, Geometry.region, hnlog]
  show min logsize (BitVec.ofNat 32 logsize - 1).toInt.toNat = 9
  decide

theorem Quiet.writeCharge_le {n i : ℕ} {c' : InodeCache} {f' : Sysfile.File}
    (h : Quiet g c f n) (hp : Progress g devsw c f src n i c' f') :
    let charge := writeCharge g c'.fs (c'.lockedInode f'.ip) f'.off
      (BitVec.ofNat 32 (min (n - i) Sysfile.writeChunk))
    charge.log ≤ 7 ∧ charge.buffers ≤ 7 := by
  refine writeCharge_le_seven h.size_le (hp.empty h.empty) ?_
  rw [BitVec.toNat_ofNat]
  exact (Nat.mod_le _ _).trans (Nat.min_le_right _ _)

theorem Quiet.not_crowded {n i : ℕ} {c' : InodeCache} {f' : Sysfile.File}
    (h : Quiet g c f n) (hp : Progress g devsw c f src n i c' f') (e : Stuck) :
    ¬ (c'.Ready f'.ip → Stuck.Halts (Crowded g c' f' (min (n - i) Sysfile.writeChunk)) e) := by
  intro he
  have hready : c'.Ready f'.ip := by
    rw [hp.ip_eq]
    exact hp.ready h.ready
  obtain ⟨hlog, hbuffers⟩ := h.writeCharge_le hp
  have hcapacity := hp.inv.consistent.begun.capacity_eq h.nlog_eq
  have hnine : 7 < c'.fs.begun.log.capacity := by
    rw [hcapacity]
    decide
  have hroom : HasRoom c'.fs.begun (turnCharge g c' f' (min (n - i) Sysfile.writeChunk)) :=
    ⟨rfl, Nat.lt_of_le_of_lt hlog hnine,
      Nat.lt_of_le_of_lt (Nat.add_le_add_right hbuffers 2) (by decide : 7 + 2 < nbuf)⟩
  cases e with
  | halt reason => exact hroom.not_allowed reason (he hready)
  | panic reason => exact he hready
  | sleep => exact he hready

theorem Quiet.loop (devsw : ℕ → Devsw) (src : ℕ → BitVec 8) {n : ℕ} (h : Quiet g c f n) :
    ∃ w c', fileWriteLoop devsw src n n 0 f [] c = .ok (w, c') ∧
      Ended g devsw c f src n w c' ∧ ∀ sectors ∈ w.chunks, sectors.card ≤ 7 := by
  have hloop : Meets (fun _ => False) (fun r => Ended g devsw c f src n r.1 r.2 ∧
      ∀ sectors ∈ r.1.chunks, sectors.card ≤ 7) (fileWriteLoop devsw src n n 0 f [] c) :=
    fileWriteLoop_meets h.live h.free (fun i c' f' hp _ e he => h.not_crowded hp e he)
      (fun i c' f' hp _ sectors hcard => hcard.trans (h.writeCharge_le hp).2)
      (Progress.start h.inv) (Nat.le_of_eq (Nat.zero_add n).symm)
      fun sectors hmem => absurd hmem List.not_mem_nil
  obtain ⟨⟨w, c'⟩, hok, hended, hcard⟩ := hloop.exists_ok fun _ he => he
  exact ⟨w, c', hok, hended, hcard⟩

theorem fileWrite_eq {n : ℤ} (hwritable : f.writable = true) (htype : f.type = .inode) :
    fileWrite devsw f src n c = (fileWriteLoop devsw src n.toNat n.toNat 0 f [] c >>= fun r =>
      if r.1.short then .error (.panic .shortWrite)
      else .ok ((if (r.1.count : ℤ) = n then n else -1, r.1.file), r.2)) := by
  unfold fileWrite
  rw [hwritable, if_neg Bool.true_eq_false.mp, if_pos htype]
  show (fileWriteLoop devsw src n.toNat n.toNat 0 f [] c >>= fun r => _) = _
  congr 1
  funext r
  split <;> rfl

/-- **A transaction of `file_write` fits.** On a disk with one bitmap block, enough blocks free
and no transaction in progress, every transaction of the loop logs seven sectors at most, and
the loop ends.  Neither the log nor the buffers stop `file_write`; only a device that writes
fewer bytes than it was given does. -/
theorem file_write_transactions_fit (devsw : ℕ → Devsw) (src : ℕ → BitVec 8) (n : ℤ)
    (h : Quiet g c f n.toNat) :
    ∃ w c', fileWriteLoop devsw src n.toNat n.toNat 0 f [] c = .ok (w, c') ∧
      (∀ sectors ∈ w.chunks, sectors.card ≤ 7) ∧
      (w.short = true → (c.dinodeOf f.ip).type = tDev) ∧
      ∀ reason, fileWrite devsw f src n c ≠ .error (.halt reason) := by
  obtain ⟨w, c', hloop, hended, hcard⟩ := h.loop devsw src
  refine ⟨w, c', hloop, hcard, hended.short, fun reason heq => ?_⟩
  cases hwritable : f.writable with
  | false =>
    rw [fileWrite, if_pos hwritable] at heq
    cases heq
  | true =>
    by_cases htype : f.type = .inode
    · rw [fileWrite_eq hwritable htype, hloop] at heq
      have heq : (if w.short then _ else _) = _ := heq
      split at heq <;> cases heq
    · rw [fileWrite, if_neg (by rw [hwritable]; decide), if_neg htype] at heq
      cases heq

end Room

/-! ## What `file_write` reports -/

section Report

variable {g : Geometry} {devsw : ℕ → Devsw} {c c' : InodeCache} {f f' : Sysfile.File}
  {src : ℕ → BitVec 8} {n : ℤ}

def CutShort (d : Dinode) (off n : ℕ) : Prop :=
  d.type ≠ tDev ∧ off ≤ d.size.toNat ∧ off + Sysfile.writeChunk ≤ maxfile * bsize ∧
    maxfile * bsize < off + n

variable {w : LoopEnd}

theorem Ended.count_eq_zero {n : ℕ} (h : Ended g devsw c f src n w c') (hshort : w.short = false)
    (hlt : w.count < n)
    (hdriver : (c.dinodeOf f.ip).type = tDev → ∀ major, (devsw major).write = none)
    (hwhole : ¬ CutShort (c.dinodeOf f.ip) f.off.toNat n) : w.count = 0 := by
  have hp := h.progress hshort
  by_cases hdev : (c.dinodeOf f.ip).type = tDev
  · exact (hp.device hdev).2 (hdriver hdev)
  by_contra hne
  have hpos := Nat.pos_of_ne_zero hne
  obtain ⟨hoff, hfits⟩ := hp.fits hdev hpos
  have hfirst := hp.first hpos
  have hsize := hp.size_eq hdev hoff
  have hrefused := h.refused hshort hlt hdev
  refine hwhole ⟨hdev, hoff, by omega, ?_⟩
  by_contra hroom
  exact hrefused ⟨by omega, by omega⟩

theorem Progress.content_of_whole {n i : ℕ} (h : Progress g devsw c f src n i c' f')
    (hdriver : (c.dinodeOf f.ip).type = tDev → ∀ major, (devsw major).write = none) :
    c'.contentOf f.ip = splice (c.contentOf f.ip) ((List.range i).map src) f.off.toNat := by
  by_cases hdev : (c.dinodeOf f.ip).type = tDev
  · obtain ⟨hcontent, hzero⟩ := h.device hdev
    rw [hzero (hdriver hdev), hcontent, List.range_zero, List.map_nil, splice_nil]
  · exact h.content_eq hdev

theorem fileWrite_returns {r : ℤ} (hok : fileWrite devsw f src n c = .ok ((r, f'), c')) :
    f.writable = false ∧ r = -1 ∧ f' = f ∧ c' = c ∨
    ∃ w, f.writable = true ∧ fileWriteLoop devsw src n.toNat n.toNat 0 f [] c = .ok (w, c') ∧
      w.short = false ∧ f' = w.file ∧ r = if (w.count : ℤ) = n then n else -1 := by
  cases hwritable : f.writable with
  | false =>
    rw [fileWrite, if_pos hwritable] at hok
    cases hok
    exact Or.inl ⟨rfl, rfl, rfl, rfl⟩
  | true =>
    by_cases htype : f.type = .inode
    · rw [fileWrite_eq hwritable htype] at hok
      cases hloop : fileWriteLoop devsw src n.toNat n.toNat 0 f [] c with
      | error e =>
        rw [hloop] at hok
        cases hok
      | ok finish =>
        rw [hloop] at hok
        have hok : (if finish.1.short then _ else _) = _ := hok
        cases hshort : finish.1.short with
        | true =>
          rw [hshort] at hok
          cases hok
        | false =>
          rw [hshort, if_neg Bool.false_ne_true] at hok
          cases hok
          exact Or.inr ⟨finish.1, rfl, rfl, hshort, rfl, rfl⟩
    · rw [fileWrite, if_neg (by rw [hwritable]; decide), if_neg htype] at hok
      cases hok

/-- The first pieces are written, and then the largest file has no room for the next one. -/
theorem Ended.cut_short {n : ℕ} (h : Ended g devsw c f src n w c')
    (hcut : CutShort (c.dinodeOf f.ip) f.off.toNat n) :
    w.short = false ∧ 0 < w.count ∧ w.count < n := by
  obtain ⟨hdev, hoff, hfirst, hmax⟩ := hcut
  have hshort : w.short = false := Bool.eq_false_iff.mpr fun htrue => hdev (h.short htrue)
  have hp := h.progress hshort
  have hsize := hp.size_eq hdev hoff
  have hchunk : 0 < Sysfile.writeChunk := by decide
  have hn : Sysfile.writeChunk < n :=
    Nat.lt_of_add_lt_add_left (Nat.lt_of_le_of_lt hfirst hmax)
  have hlt : w.count < n := by
    by_contra hge
    have hpos := Nat.zero_lt_of_lt (Nat.lt_of_lt_of_le hn (Nat.not_lt.mp hge))
    have hend := (hp.fits hdev hpos).2
    exact Nat.not_le_of_lt hmax
      ((Nat.add_le_add_left (Nat.not_lt.mp hge) f.off.toNat).trans hend)
  refine ⟨hshort, ?_, hlt⟩
  by_contra hzero
  exact h.refused hshort hlt hdev ⟨by omega, by omega⟩

/-- The value `r` of `file_write` says what it did: all of the `n` bytes, or nothing. -/
def Reports (c : InodeCache) (f : Sysfile.File) (src : ℕ → BitVec 8) (n r : ℤ) (c' : InodeCache)
    (f' : Sysfile.File) : Prop :=
  (r = n ∨ r = -1) ∧
  (r = n → c'.contentOf f.ip =
      splice (c.contentOf f.ip) ((List.range n.toNat).map src) f.off.toNat ∧
    f' = { f with off := f.off + BitVec.ofInt 32 n }) ∧
  (r = -1 → c'.contentOf f.ip = c.contentOf f.ip ∧
    (c'.dinodeOf f.ip).size = (c.dinodeOf f.ip).size ∧ f' = f)

/-- **What `file_write` reports.** Let enough blocks be free, and let no device have a driver.
A call that returns says what it did exactly if the descriptor is not open for writing, or the
largest file has room for all of the write or not even for its first piece. -/
theorem file_write_reports (hn : 0 ≤ n) (h : c.Inv g) (hlive : c.Live f.ip)
    (hfree : BlocksFree g c f n.toNat)
    (hdriver : (c.dinodeOf f.ip).type = tDev → ∀ major, (devsw major).write = none) {r : ℤ}
    (hok : fileWrite devsw f src n c = .ok ((r, f'), c')) : Reports c f src n r c' f' ↔
      ¬ (f.writable = true ∧ CutShort (c.dinodeOf f.ip) f.off.toNat n.toNat) := by
  obtain ⟨hclosed, rfl, rfl, rfl⟩ | ⟨w, hwritable, hloop, hshort, rfl, rfl⟩ := fileWrite_returns hok
  · refine iff_of_true ⟨Or.inr rfl, fun heq => by omega, fun _ => ⟨rfl, rfl, rfl⟩⟩ fun hwrite => ?_
    rw [hclosed] at hwrite
    cases hwrite.1
  have hended := fileWriteLoop_ended h hlive hfree hloop
  have hp := hended.progress hshort
  refine ⟨fun hreports hcut => ?_, fun hwhole => ?_⟩
  · -- The call returns -1, and the offset has moved.
    obtain ⟨-, hpos, hlt⟩ := hended.cut_short hcut.2
    have hfile := (hreports.2.2 (if_neg (by omega))).2.2
    have hoff := hp.off_toNat hcut.2.1
    rw [hfile] at hoff
    omega
  have hcontent := hp.content_of_whole hdriver
  by_cases hall : (w.count : ℤ) = n
  · have hcount : w.count = n.toNat := by omega
    rw [if_pos hall]
    refine ⟨Or.inl rfl, fun _ => ⟨hcount ▸ hcontent, ?_⟩, fun heq => by omega⟩
    rw [hp.file_eq, ← hall, BitVec.ofInt_natCast]
  · have hlt : w.count < n.toNat := by
      have hle := hp.le
      omega
    have hzero := hended.count_eq_zero hshort hlt hdriver fun hcut => hwhole ⟨hwritable, hcut⟩
    rw [hzero, List.range_zero, List.map_nil, splice_nil] at hcontent
    rw [if_neg hall]
    refine ⟨Or.inr rfl, fun heq => by omega, fun _ => ⟨hcontent, ?_, ?_⟩⟩
    · apply BitVec.eq_of_toNat_eq
      rw [← length_content c'.fs, ← length_content c.fs]
      exact congrArg List.length hcontent
    · rw [hp.file_eq, hzero]
      simp

theorem Ended.all_written {n : ℕ} (h : Ended g devsw c f src n w c')
    (hdev : (c.dinodeOf f.ip).type ≠ tDev) (hfits : Fits (c.dinodeOf f.ip) f.off.toNat n) :
    w.short = false ∧ w.count = n := by
  have hshort : w.short = false := Bool.eq_false_iff.mpr fun htrue => hdev (h.short htrue)
  have hp := h.progress hshort
  refine ⟨hshort, ?_⟩
  by_contra hne
  have hle := hp.le
  have hsize := hp.size_eq hdev hfits.1
  have hend := hfits.2
  exact h.refused hshort (by omega) hdev ⟨by omega, by omega⟩

theorem Quiet.returns (devsw : ℕ → Devsw) (src : ℕ → BitVec 8) (h : Quiet g c f n.toNat)
    (htype : f.type = .inode) (hdev : (c.dinodeOf f.ip).type ≠ tDev) :
    ∃ r, fileWrite devsw f src n c = .ok r := by
  cases hwritable : f.writable with
  | false => exact ⟨_, by rw [fileWrite, if_pos hwritable]; rfl⟩
  | true =>
    obtain ⟨w, c', hloop, hended, -⟩ := h.loop devsw src
    have hshort : w.short = false := Bool.eq_false_iff.mpr fun htrue => hdev (hended.short htrue)
    refine ⟨((if (w.count : ℤ) = n then n else -1, w.file), c'), ?_⟩
    rw [fileWrite_eq hwritable htype, hloop]
    show (if w.short then _ else _) = _
    rw [hshort, if_neg Bool.false_ne_true]

theorem Quiet.all_written (devsw : ℕ → Devsw) (src : ℕ → BitVec 8) (hn : 0 ≤ n)
    (h : Quiet g c f n.toNat) (hwritable : f.writable = true) (htype : f.type = .inode)
    (hdev : (c.dinodeOf f.ip).type ≠ tDev) (hfits : Fits (c.dinodeOf f.ip) f.off.toNat n.toNat) :
    ∃ f' c', fileWrite devsw f src n c = .ok ((n, f'), c') ∧
      Progress g devsw c f src n.toNat n.toNat c' f' := by
  obtain ⟨w, c', hloop, hended, -⟩ := h.loop devsw src
  obtain ⟨hshort, hcount⟩ := hended.all_written hdev hfits
  have hp := hended.progress hshort
  have hvalue : (w.count : ℤ) = n := by omega
  refine ⟨w.file, c', ?_, hcount ▸ hp⟩
  rw [fileWrite_eq hwritable htype, hloop]
  show (if w.short then _ else _) = _
  rw [hshort, if_neg Bool.false_ne_true, if_pos hvalue]

/-- **A write that is cut short is reported as failed.** Its first pieces are in the file,
and the offset is behind them. -/
theorem Quiet.cut_short (devsw : ℕ → Devsw) (src : ℕ → BitVec 8) (h : Quiet g c f n.toNat)
    (hwritable : f.writable = true) (htype : f.type = .inode)
    (hcut : CutShort (c.dinodeOf f.ip) f.off.toNat n.toNat) :
    ∃ count f' c', 0 < count ∧ fileWrite devsw f src n c = .ok ((-1, f'), c') ∧
      Progress g devsw c f src n.toNat count c' f' := by
  obtain ⟨w, c', hloop, hended, -⟩ := h.loop devsw src
  obtain ⟨hshort, hpos, hlt⟩ := hended.cut_short hcut
  have hvalue : ¬ (w.count : ℤ) = n := by omega
  refine ⟨w.count, w.file, c', hpos, ?_, hended.progress hshort⟩
  rw [fileWrite_eq hwritable htype, hloop]
  show (if w.short then _ else _) = _
  rw [hshort, if_neg Bool.false_ne_true, if_neg hvalue]

theorem Quiet.next {n i m : ℕ} (h : Quiet g c f n) (hp : Progress g devsw c f src n i c' f')
    (hfree : BlocksFree g c' f' m) : Quiet g c' f' m where
  inv := hp.inv
  size_le := h.size_le
  nlog_eq := h.nlog_eq
  live := hp.live h.live
  ready := hp.ip_eq ▸ hp.ready h.ready
  empty := hp.empty h.empty
  free := hfree

end Report

/-! ## A disk with room for the largest file -/

def wideGeometry : Geometry := ⟨256, 8, 10, by decide, Nat.succ_pos 9, by decide⟩

def wideFs : Fs where
  cache sector :=
    if sector = 1 then Superblock.encode ⟨256, 241, 8, 10⟩
    else if sector = 2 then emptyFile.encode (fun _ => 0) 1
    else if sector = 4 then balloc 5
    else fun _ => 0
  log := Log.boot wideGeometry.region

def wideCache : InodeCache :=
  ⟨wideFs, fun i => if i = 0 then ⟨oneFile, rootdev⟩ else zeroInode⟩

def wideFile : Sysfile.File := ⟨.inode, 1, false, true, 0, 0⟩

theorem consistent_wideFs : Consistent wideGeometry wideFs :=
  consistent_of_check 0 0 (Superblock.decode_encode _) ⟨rfl, rfl, rfl⟩ rfl rfl (by decide +kernel)
    (by decide) (by decide) (by decide +kernel) (fun h => absurd h (Nat.lt_irrefl 0))
    (by decide +kernel) (by decide +kernel)

theorem inv_wideCache : wideCache.Inv wideGeometry := by
  have hzero : ∀ i, wideCache.Live i → i = 0 := by
    intro i hi
    by_contra hne
    have hslot : wideCache.inode i = zeroInode := if_neg hne
    rw [Live, hslot] at hi
    exact Int.lt_irrefl 0 hi
  refine ⟨consistent_wideFs, fun i hi => ?_, fun i hi => ?_, fun i hi => ?_, fun i j hi hj _ => ?_,
    fun i hi _ => ?_⟩
  · rw [hzero i hi]
    decide
  · rw [hzero i hi]
    rfl
  · rw [hzero i hi]
    decide
  · rw [hzero i hi, hzero j hj]
  · rw [hzero i hi]
    exact ⟨by decide, Dinode.decode_encode (by decide), by decide⟩

theorem dinodeOf_wideCache : wideCache.dinodeOf 0 = emptyFile := Dinode.decode_encode (by decide)

theorem quiet_wideCache (n : ℕ) : Quiet wideGeometry wideCache wideFile n where
  inv := inv_wideCache
  size_le := by decide
  nlog_eq := rfl
  live := Int.one_pos
  ready := ⟨rfl, rfl, by rw [wideFile, dinodeOf_wideCache]; decide⟩
  empty := rfl
  free _ := by
    have hcard : (freeBlocks wideGeometry wideCache.fs).card = 241 := by decide +kernel
    rw [hcard, wideFile, dinodeOf_wideCache]
    have hslots : fileSlots (min ((0 : BitVec 32).toNat + n) (maxfile * bsize)) ≤ maxfile :=
      fileSlots_le.mpr (Nat.min_le_right _ _)
    have hsize : fileSlots emptyFile.size.toNat = 0 := by decide
    rw [hsize]
    refine (blocksFor_mono (Nat.max_le.mpr ⟨Nat.zero_le maxfile, hslots⟩)).trans ?_
    decide

def noDrivers : ℕ → Devsw := fun _ => ⟨none, none⟩

theorem file_write_transactions_fit_of_wide :
    ∃ w c', fileWriteLoop noDrivers (fun _ => 1) 5000 5000 0 wideFile [] wideCache = .ok (w, c') ∧
      ∀ sectors ∈ w.chunks, sectors.card ≤ 7 := by
  obtain ⟨w, c', hloop, hcard, -⟩ :=
    file_write_transactions_fit noDrivers (fun _ => 1) 5000 (quiet_wideCache 5000)
  exact ⟨w, c', hloop, hcard⟩

theorem file_write_reports_of_wide :
    ∃ f' c', fileWrite noDrivers wideFile (fun _ => 1) 5000 wideCache = .ok ((5000, f'), c') ∧
      c'.contentOf 0 = List.replicate 5000 1 ∧ f' = { wideFile with off := 5000 } := by
  have hquiet := quiet_wideCache 5000
  have hdev : (wideCache.dinodeOf wideFile.ip).type ≠ tDev := by
    rw [wideFile, dinodeOf_wideCache]
    decide
  obtain ⟨f', c', hok, -⟩ := hquiet.all_written (n := 5000) noDrivers (fun _ => 1) (by decide) rfl
    rfl hdev ⟨Nat.zero_le _, by decide⟩
  obtain ⟨-, hall, -⟩ := (file_write_reports (n := 5000) (by decide) hquiet.inv hquiet.live
    hquiet.free (fun heq => absurd heq hdev) hok).mpr fun hcut => absurd hcut.2.2.2.2 (by decide)
  obtain ⟨hcontent, hfile⟩ := hall rfl
  refine ⟨f', c', hok, hcontent.trans ?_, hfile⟩
  have hempty : wideCache.contentOf 0 = [] := by
    rw [contentOf, dinodeOf_wideCache]
    rfl
  have hones : (List.range (5000 : ℤ).toNat).map (fun _ => (1 : BitVec 8)) =
      List.replicate 5000 1 := by
    rw [List.map_const', List.length_range]
    rfl
  show splice (wideCache.contentOf 0) _ _ = _
  rw [hempty, hones, splice, List.take_nil, List.drop_nil, List.nil_append, List.append_nil]

/-- **A failed write has changed the file.** The first piece of 1536 bytes fills the largest file
and is committed, the second one is refused, and `file_write` returns -1. -/
theorem file_write_fails_after_writing :
    ∃ c f c' f', c.Inv wideGeometry ∧ c.Live f.ip ∧ BlocksFree wideGeometry c f 2000 ∧
      f.off = 70144 ∧ (c.dinodeOf f.ip).size = 70144 ∧
      fileWrite noDrivers f (fun _ => 1) 2000 c = .ok ((-1, f'), c') ∧
      f'.off = 71680 ∧ (c'.dinodeOf f.ip).size = 71680 := by
  have hquiet := quiet_wideCache 70144
  have hdev : (wideCache.dinodeOf wideFile.ip).type ≠ tDev := by
    rw [wideFile, dinodeOf_wideCache]
    decide
  obtain ⟨f, c, -, hp⟩ := hquiet.all_written (n := 70144) noDrivers (fun _ => 1) (by decide) rfl
    rfl hdev ⟨Nat.zero_le _, by decide⟩
  have hip : f.ip = 0 := by rw [hp.file_eq]; rfl
  have hoff : f.off = 70144 := by rw [hp.file_eq]; rfl
  have hoff' : f.off.toNat = 70144 := by rw [hoff]; rfl
  have hsize : (c.dinodeOf f.ip).size.toNat = 70144 := by
    have hzero : (wideCache.dinodeOf wideFile.ip).size.toNat = 0 := by
      rw [wideFile, dinodeOf_wideCache]
      rfl
    have hmax := hp.size_eq hdev (Nat.zero_le _)
    rw [hzero, Nat.zero_max] at hmax
    rw [hip]
    exact hmax.trans (Nat.zero_add _)
  have hfree : BlocksFree wideGeometry c f 2000 := by
    intro _
    have hkept : blocksFor (fileSlots (c.dinodeOf f.ip).size.toNat) +
        (freeBlocks wideGeometry c.fs).card = 241 := by
      rw [hip]
      refine hp.free.trans ?_
      rw [wideFile, dinodeOf_wideCache]
      decide +kernel
    rw [hkept, hsize, hoff']
    decide
  have hdev' : (c.dinodeOf f.ip).type ≠ tDev := by
    rw [hip]
    exact hp.not_device hdev
  obtain ⟨count, f', c', hpos, hok, hp'⟩ := (hquiet.next hp hfree).cut_short (n := 2000) noDrivers
    (fun _ => 1) (by rw [hp.file_eq]; rfl) (by rw [hp.file_eq]; rfl)
    ⟨hdev', Nat.le_of_eq (hoff'.trans hsize.symm), by rw [hoff']; decide, by rw [hoff']; decide⟩
  have hcount : count = 1536 := by
    have hfirst : 1536 ≤ count := hp'.first hpos
    have hend := (hp'.fits hdev' hpos).2
    rw [hoff'] at hend
    exact Nat.le_antisymm (Nat.le_of_add_le_add_left hend) hfirst
  have hsize' := hp'.size_eq hdev' (Nat.le_of_eq (hoff'.trans hsize.symm))
  rw [hsize, hoff', hcount] at hsize'
  refine ⟨c, f, c', f', hp.inv, hp.live hquiet.live, hfree, hoff, BitVec.eq_of_toNat_eq hsize, hok,
    ?_, BitVec.eq_of_toNat_eq hsize'⟩
  rw [hp'.file_eq, hoff, hcount]
  rfl

end MCertikos.FS
