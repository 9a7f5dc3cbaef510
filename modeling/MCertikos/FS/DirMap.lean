/-
# A directory is a finite map

The entries of a directory are the slots of a table: an entry in use binds its name to an inode
number.
-/

import MCertikos.FS.Dir
import MCertikos.Math.SlotTable
import Mathlib.Data.List.Find

namespace MCertikos.FS

open Math Function
open Sysfile (Byte Dirent cstring dirNamecmp dirTurns direntSize dirsiz tDir)

def dirTable (s : Fs) (d : Dinode) : SlotTable (List Byte) (BitVec 16) :=
  ⟨d.entries, fun k => if k < d.entries then (s.direntAt d (direntSize * k)).binding else none⟩

def InodeCache.table (c : InodeCache) (dp : ℕ) : SlotTable (List Byte) (BitVec 16) :=
  dirTable c.fs (c.inode dp).toDinode

/-! ## The loops over a directory -/

section Loops

variable {s : Fs} {d : Dinode} {name : List Byte}

theorem slot_dirTable {k : ℕ} (hk : k < d.entries) :
    (dirTable s d).slot k = (s.direntAt d (direntSize * k)).binding := if_pos hk

theorem take_name_direntAt (off : ℕ) :
    (s.direntAt d off).name.take dirsiz = (s.direntAt d off).name :=
  List.take_of_length_le (List.length_take_le _ _)

theorem namecmp_eq_any (h : NameOk dirsiz name) (off : ℕ) :
    ((s.direntAt d off).inum ≠ 0 && dirNamecmp (s.direntAt d off).name name = 0) =
      (s.direntAt d off).binding.any fun x => x.1 = name := by
  have hname : cstring (name.take dirsiz) = name := by
    rw [List.take_of_length_le h.le]
    simpa using cstring_append_zeros h.no_null 0
  unfold Dirent.binding dirNamecmp
  simp only [strncmp_eq_zero_iff, take_name_direntAt, hname]
  by_cases hinum : (s.direntAt d off).inum = 0
  · simp [hinum]
  · rw [if_neg hinum, decide_eq_true hinum, Bool.true_and, Option.any_some]

theorem scanned_lookup (h : NameOk dirsiz name) :
    s.scanned d (fun de => de.inum ≠ 0 && dirNamecmp de.name name = 0) 0 =
      match (dirTable s d).index name with
      | some k => (some (s.direntAt d (direntSize * k)), direntSize * k)
      | none => (none, direntSize * d.entries) := by
  have hfind : ((List.range d.entries).find? fun k =>
      (s.direntAt d (direntSize * k)).inum ≠ 0 &&
        dirNamecmp (s.direntAt d (direntSize * k)).name name = 0) =
      (dirTable s d).index name := by
    refine List.find?_congr fun k hk => ?_
    rw [namecmp_eq_any h, slot_dirTable (List.mem_range.mp hk)]
  unfold Fs.scanned
  cases hindex : (dirTable s d).index name <;>
    simp only [Nat.sub_zero, ← List.range_eq_range', hfind, hindex]

theorem scanned_free :
    (s.scanned d (fun de => de.inum = 0) 0).2 = direntSize * (dirTable s d).firstFree := by
  have hfind : ((List.range d.entries).find? fun k =>
      decide ((s.direntAt d (direntSize * k)).inum = 0)) =
      (List.range d.entries).find? fun k => ((dirTable s d).slot k).isNone := by
    refine List.find?_congr fun k hk => ?_
    rw [slot_dirTable (List.mem_range.mp hk), Dirent.binding]
    by_cases hinum : (s.direntAt d (direntSize * k)).inum = 0
    · rw [if_pos hinum, decide_eq_true hinum, Option.isNone_none]
    · rw [if_neg hinum, decide_eq_false hinum, Option.isNone_some]
  rw [Fs.scanned, Nat.sub_zero, ← List.range_eq_range', hfind]
  have hlength : (dirTable s d).length = d.entries := rfl
  rw [SlotTable.firstFree, hlength]
  cases (List.range d.entries).find? fun k => ((dirTable s d).slot k).isNone <;> rfl

def DistinctNames (s : Fs) (d : Dinode) : Prop :=
  ∀ i < d.entries, ∀ j < d.entries,
    (s.direntAt d (direntSize * i)).inum ≠ 0 → (s.direntAt d (direntSize * j)).inum ≠ 0 →
    dirNamecmp (s.direntAt d (direntSize * i)).name (s.direntAt d (direntSize * j)).name = 0 →
    i = j

theorem unique_dirTable (h : DistinctNames s d) : (dirTable s d).Unique := by
  intro i hi j hj x y hx hy hxy
  rw [slot_dirTable hi] at hx
  rw [slot_dirTable hj] at hy
  obtain ⟨hused, hx⟩ := Option.ite_none_left_eq_some.mp hx
  obtain ⟨hused', hy⟩ := Option.ite_none_left_eq_some.mp hy
  cases hx
  cases hy
  refine h i hi j hj hused hused' ?_
  rw [dirNamecmp, strncmp_eq_zero_iff, take_name_direntAt, take_name_direntAt]
  exact hxy

theorem distinctNames_of_unique (h : (dirTable s d).Unique) : DistinctNames s d := by
  intro i hi j hj hused hused' hcmp
  rw [dirNamecmp, strncmp_eq_zero_iff, take_name_direntAt, take_name_direntAt] at hcmp
  have hslot := (slot_dirTable hi).trans (if_neg hused)
  have hslot' := (slot_dirTable hj).trans (if_neg hused')
  exact h i hi j hj _ _ hslot hslot' hcmp

end Loops

/-! ## `dir_lookup` -/

inductive LookedUp (c : InodeCache) (dp : ℕ) (name : List Byte) :
    Option (ℕ × ℕ) × InodeCache → Prop
  | absent (lookup_eq : (c.table dp).lookup name = none) : LookedUp c dp name (none, c)
  | present {k ip : ℕ} {inum : BitVec 16} {c' : InodeCache}
      (index_eq : (c.table dp).index name = some k)
      (lookup_eq : (c.table dp).lookup name = some inum)
      (got : Got c (c.inode dp).dev (inum.setWidth 32) ip c') :
      LookedUp c dp name (some (ip, direntSize * k), c')

section Lookup

variable {g : Geometry} {c : InodeCache} {dp : ℕ} {name : List Byte} {devsw : ℕ → Devsw}

theorem Readable.entries_lt (h : Readable c dp) : (c.inode dp).entries < dirTurns := by
  have hsize := h.size_le
  have hmax : maxfile * bsize / direntSize < dirTurns := by decide
  exact Nat.lt_of_le_of_lt (Nat.div_le_div_right hsize) hmax

theorem Readable.scanDir (h : Readable c dp) (found : Dirent → Bool) :
    Meets (Unreadable c) (fun r => r = (c.fs.scanned (c.inode dp).toDinode found 0, c))
      (scanDir devsw dp found dirTurns 0 c) :=
  scanDir_meets h found dirTurns 0 (Nat.zero_le _) (by rw [Nat.zero_add]; exact h.entries_lt)

/-- What `dir_lookup` does: it asks `inode_get` for the inode that the map gives the name. -/
inductive Searched (c : InodeCache) (dp : ℕ) (name : List Byte) :
    Option (ℕ × ℕ) × InodeCache → Prop
  | absent (lookup_eq : (c.table dp).lookup name = none) : Searched c dp name (none, c)
  | present {k ip : ℕ} {inum : BitVec 16} {c' : InodeCache}
      (index_eq : (c.table dp).index name = some k)
      (lookup_eq : (c.table dp).lookup name = some inum)
      (get_eq : inodeGet (c.inode dp).dev (inum.setWidth 32) c = .ok (ip, c')) :
      Searched c dp name (some (ip, direntSize * k), c')

theorem dirLookup_searched (h : Readable c dp) (hname : NameOk dirsiz name) :
    Meets (Unreadable c) (Searched c dp name) (dirLookup devsw dp name c) := by
  unfold dirLookup
  apply Meets.get_bind
  rw [if_pos h.type_eq]
  refine Meets.bind_state (h.scanDir _) ?_
  rw [scanned_lookup hname]
  cases hindex : (dirTable c.fs (c.inode dp).toDinode).index name with
  | none =>
    rintro _ _ ⟨⟩
    refine Searched.absent ?_
    exact SlotTable.lookup_eq_none.mpr (SlotTable.index_eq_none.mp hindex)
  | some k =>
    rintro _ _ ⟨⟩
    refine Meets.bind_state (inodeGet_meets c _ _).and_eq ?_
    rintro ip c' ⟨hget, -⟩
    refine Searched.present hindex ?_ hget
    obtain ⟨hk, inum, hslot⟩ := SlotTable.index_eq_some hindex
    have hinum : inum = (c.fs.direntAt (c.inode dp).toDinode (direntSize * k)).inum := by
      rw [slot_dirTable hk] at hslot
      exact Dirent.inum_of_binding hslot
    rw [SlotTable.lookup, InodeCache.table, hindex, Option.bind_some, hslot, hinum]
    rfl

theorem dirLookup_meets (h : Readable c dp) (hname : NameOk dirsiz name) :
    Meets (Unreadable c) (LookedUp c dp name) (dirLookup devsw dp name c) := by
  refine (dirLookup_searched h hname).mono (fun _ he => he) fun r hr => ?_
  cases hr with
  | absent lookup_eq => exact .absent lookup_eq
  | present index_eq lookup_eq get_eq =>
    exact .present index_eq lookup_eq ((inodeGet_meets c _ _).of_ok get_eq)

end Lookup

/-! ## Writing an entry -/

/-- A directory in a consistent file system, with whole entries and no name twice. -/
structure DirOk (g : Geometry) (c : InodeCache) (dp : ℕ) : Prop where
  consistent : Consistent g c.fs
  live : c.Live dp
  synced : Synced g c.fs (c.inode dp).toInode
  type_eq : (c.inode dp).type = tDir
  whole : direntSize ∣ (c.inode dp).size.toNat
  distinct : DistinctNames c.fs (c.inode dp).toDinode

/-- There is room for entry `k` of a directory: the file may be that long, and the data blocks
that it needs are free. -/
def CanHold (g : Geometry) (c : InodeCache) (dp k : ℕ) : Prop :=
  direntSize * k + direntSize ≤ maxfile * bsize ∧
    EnoughFree g c.fs (c.inode dp).toInode (BitVec.ofNat 32 (direntSize * k))
      (BitVec.ofNat 32 direntSize)

def entryCharge (g : Geometry) (c : InodeCache) (dp k : ℕ) : Charge :=
  writeCharge g c.fs (c.inode dp).toInode (BitVec.ofNat 32 (direntSize * k))
    (BitVec.ofNat 32 direntSize)

/-- The write of entry `k`. -/
structure EntryWritten (g : Geometry) (c : InodeCache) (dp k : ℕ) (de : Dirent)
    (c' : InodeCache) : Prop where
  consistent : Consistent g c'.fs
  elsewhere : Elsewhere g (c.inode dp).inum.toNat c.fs c'.fs
  synced : Synced g c'.fs (c'.inode dp).toInode
  inode_eq : ∀ i, i ≠ dp → c'.inode i = c.inode i
  slot_eq : ∃ d, c'.inode dp = { c.inode dp with toDinode := d } ∧ d.type = (c.inode dp).type
  size_eq : (c'.inode dp).size.toNat =
    max (c.inode dp).size.toNat (direntSize * k + direntSize)
  table_eq : c'.table dp = (c.table dp).store k (Dirent.decode de.encode).binding

section Write

variable {g : Geometry} {c : InodeCache} {dp k : ℕ} {devsw : ℕ → Devsw} {de : Dirent}

theorem DirOk.unique (h : DirOk g c dp) : (c.table dp).Unique := unique_dirTable h.distinct

theorem DirOk.readable (h : DirOk g c dp) : Readable c dp :=
  ⟨h.type_eq, h.whole, h.consistent.shaped_inode h.synced⟩

theorem map_getD_encode (de : Dirent) :
    (List.range direntSize).map (fun j => de.encode.getD j 0) = de.encode := by
  refine List.ext_getElem (by simp [Dirent.length_encode]) fun j hj hj' => ?_
  simp [hj']

theorem Overwritten.direntAt {s s' : Fs} {ip ip' : Inode}
    (h : Overwritten g s ip (fun j => de.encode.getD j 0) (direntSize * k) direntSize ip' s')
    {i : ℕ} (hi : direntSize * i + direntSize ≤ ip'.size.toNat) :
    s'.direntAt ip'.toDinode (direntSize * i) =
      if i = k then Dirent.decode de.encode else s.direntAt ip.toDinode (direntSize * i) := by
  have hbyte : ∀ j < direntSize, s'.fileByte ip'.toDinode (direntSize * i + j) =
      if i = k then de.encode.getD j 0 else s.fileByte ip.toDinode (direntSize * i + j) := by
    intro j hj
    rw [h.bytes _ (by omega)]
    by_cases hik : i = k
    · subst hik
      rw [if_pos rfl, if_pos ⟨Nat.le_add_right _ _, by omega⟩, Nat.add_sub_cancel_left]
    · have hout : ¬ (direntSize * k ≤ direntSize * i + j ∧
          direntSize * i + j < direntSize * k + direntSize) := by
        unfold direntSize at *
        omega
      rw [if_neg hout, if_neg hik]
  rw [Fs.direntAt, List.map_congr_left fun j hj => hbyte j (List.mem_range.mp hj)]
  split
  · rw [map_getD_encode]
  · rfl

theorem Overwritten.dirTable {s s' : Fs} {ip ip' : Inode}
    (h : Overwritten g s ip (fun j => de.encode.getD j 0) (direntSize * k) direntSize ip' s')
    (hwhole : direntSize ∣ ip.size.toNat) (hk : k ≤ ip.entries) : FS.dirTable s' ip'.toDinode =
      (FS.dirTable s ip.toDinode).store k (Dirent.decode de.encode).binding := by
  have hsize := h.size_eq
  have hentries : ip'.entries = max ip.entries (k + 1) := by
    unfold Dinode.entries direntSize at *
    omega
  refine SlotTable.ext hentries (funext fun i => ?_)
  rw [SlotTable.slot_store]
  have hslot : ∀ (s : Fs) (d : Dinode), (FS.dirTable s d).slot i =
      if i < d.entries then (s.direntAt d (direntSize * i)).binding else none := fun _ _ => rfl
  rw [hslot, hslot, hentries]
  by_cases hi : i < max ip.entries (k + 1)
  · have hend : direntSize * i + direntSize ≤ ip'.size.toNat := by
      unfold Dinode.entries direntSize at *
      omega
    rw [if_pos hi, h.direntAt hend]
    by_cases hik : i = k
    · rw [if_pos hik, if_pos hik]
    · rw [if_neg hik, if_neg hik, if_pos (by omega)]
  · rw [if_neg hi, if_neg (by omega), if_neg (by omega)]

theorem writeDirent_meets (h : DirOk g c dp) (hk : k ≤ (c.inode dp).entries)
    (hroom : CanHold g c dp k) : Meets (Stuck.Halts (Allowed c.fs.log (entryCharge g c dp k)))
      (fun r => EntryWritten g c dp k de r.2) (writeDirent devsw dp de (direntSize * k) c) := by
  obtain ⟨hmax, hfree⟩ := hroom
  have hlt : maxfile * bsize < 2 ^ 32 := by decide
  have hoff : (BitVec.ofNat 32 (direntSize * k)).toNat = direntSize * k := by
    rw [BitVec.toNat_ofNat, Nat.mod_eq_of_lt (by omega)]
  have hlen : (BitVec.ofNat 32 direntSize).toNat = direntSize := rfl
  have hfits : WriteFits (c.inode dp).toInode (BitVec.ofNat 32 (direntSize * k))
      (BitVec.ofNat 32 direntSize) := by
    refine ⟨?_, by rw [hoff, hlen]; exact hmax⟩
    rw [hoff, h.readable.size_eq]
    exact Nat.mul_le_mul_left _ hk
  have hdev : (c.inode dp).type ≠ tDev := by
    rw [h.type_eq]
    decide
  refine Meets.bind_state (runInode_meets ((inodeWrite_meets h.consistent h.synced
    fun _ => hfree).mono (fun _ he => he.2) fun _ h => h)) ?_
  rintro r c' ⟨ip, fs, ⟨⟨⟨hconsistent, helse, hsynced⟩, hslot⟩, houtcome⟩, rfl⟩
  obtain ⟨-, hrefused⟩ | ⟨rfl, hwritten⟩ := houtcome
  · exact absurd hfits (hrefused hdev).2
  rw [hoff, hlen] at hwritten
  have hself : ({ c with fs := fs }.setInode dp { c.inode dp with toInode := ip }).inode dp =
      { c.inode dp with toInode := ip } := InodeCache.setInode_self
  refine ⟨hconsistent, helse, ?_, fun i hi => InodeCache.setInode_of_ne hi, ⟨ip.toDinode, ?_, ?_⟩,
    ?_, ?_⟩
  · rw [hself]
    exact hsynced
  · rw [hself]
    exact congrArg (fun ip => ({ c.inode dp with toInode := ip } : CachedInode)) hslot
  · rw [hwritten.fields]
  · rw [hself]
    exact hwritten.size_eq
  · rw [InodeCache.table, hself]
    exact hwritten.dirTable h.whole hk

theorem EntryWritten.dirOk {c' : InodeCache} (hwritten : EntryWritten g c dp k de c')
    (h : DirOk g c dp) (hunique : ((c.table dp).store k (Dirent.decode de.encode).binding).Unique) :
    DirOk g c' dp := by
  obtain ⟨d, hslot, htype⟩ := hwritten.slot_eq
  rw [← hwritten.table_eq] at hunique
  refine ⟨hwritten.consistent, ?_, hwritten.synced, ?_, ?_, distinctNames_of_unique hunique⟩
  · rw [InodeCache.Live, hslot]
    exact h.live
  · rw [hslot]
    exact htype.trans h.type_eq
  · rw [hwritten.size_eq]
    obtain hmax | hmax := max_choice (c.inode dp).size.toNat (direntSize * k + direntSize)
    · rw [hmax]
      exact h.whole
    · rw [hmax]
      exact ⟨k + 1, rfl⟩

end Write

/-! ## `dir_link` and `sys_unlink` -/

/-- The directory `dp` is as it was but for its table. -/
structure DirChanged (g : Geometry) (c : InodeCache) (dp : ℕ)
    (map : List Byte → Option (BitVec 16)) (size : ℕ) (c' : InodeCache) : Prop where
  dirOk : DirOk g c' dp
  lookup_eq : (c'.table dp).lookup = map
  size_eq : (c'.inode dp).size.toNat = size
  elsewhere : Elsewhere g (c.inode dp).inum.toNat c.fs c'.fs
  inode_eq : ∀ i, i ≠ dp → c'.inode i = c.inode i

/-- What can stop the write of entry `k`, beside what can stop a call that only looks at the
directory: the log or the buffers are full. -/
def Unwritable (g : Geometry) (c : InodeCache) (dp k : ℕ) (e : Stuck) : Prop :=
  Unreadable c e ∨ Stuck.Halts (Allowed c.fs.log (entryCharge g c dp k)) e

section Operations

variable {g : Geometry} {c : InodeCache} {dp k : ℕ} {name : List Byte} {inum : BitVec 32}
  {devsw : ℕ → Devsw}

theorem dirLink_of_present (h : DirOk g c dp) (hname : NameOk dirsiz name)
    (hpresent : (c.table dp).lookup name ≠ none) :
    Meets (Unreadable c) (fun r => r.1 = false ∧ SameLive c r.2)
      (dirLink devsw dp name inum c) := by
  unfold dirLink
  refine Meets.bind_state (dirLookup_meets h.readable hname) ?_
  rintro _ c' (hnone | @⟨_, ip, _, _, hindex, hlookup, hgot⟩)
  · exact absurd hnone hpresent
  · obtain ⟨c'', hput, hsame⟩ := hgot.inodePut
    have hmeets : Meets (Unreadable c) (fun r => r = ((), c'')) (inodePut ip c') := by
      rw [hput]
      rfl
    refine Meets.bind_state hmeets ?_
    rintro _ _ ⟨⟩
    exact ⟨rfl, hsame⟩

theorem dirLink_of_absent (h : DirOk g c dp) (hname : NameOk dirsiz name)
    (hinum : inum.setWidth 16 ≠ 0#16) (habsent : (c.table dp).lookup name = none)
    (hroom : CanHold g c dp (c.table dp).firstFree) :
    Meets (Unwritable g c dp (c.table dp).firstFree)
      (fun r => r.1 = true ∧ DirChanged g c dp
        (update (c.table dp).lookup name (some (inum.setWidth 16)))
        (max (c.inode dp).size.toNat (direntSize * (c.table dp).firstFree + direntSize)) r.2)
      (dirLink devsw dp name inum c) := by
  unfold dirLink
  refine Meets.bind_state ((dirLookup_meets h.readable hname).mono (fun _ => .inl)
    fun _ h => h) ?_
  rintro _ _ (hnone | ⟨hindex, hlookup, hgot⟩)
  · refine Meets.bind_state ((h.readable.scanDir _).mono (fun _ => .inl) fun _ h => h) ?_
    rintro ⟨found, off⟩ c₁ hscan
    obtain ⟨hfound, hsame⟩ := Prod.mk.inj hscan
    rw [hsame]
    obtain rfl : off = direntSize * (c.table dp).firstFree := by
      rw [InodeCache.table, ← scanned_free, ← hfound]
    have hfirst := (c.table dp).firstFree_le
    refine Meets.bind_state ((writeDirent_meets h hfirst hroom).mono (fun _ => .inr)
      fun _ h => h) ?_
    rintro _ c' hwritten
    have hunique : ((c.table dp).store (c.table dp).firstFree
        (some (name, inum.setWidth 16))).Unique := h.unique.store habsent hfirst
    have htable := hwritten.table_eq
    rw [Dirent.binding_decode_encode hname hinum] at htable
    refine ⟨rfl, hwritten.dirOk h ?_, ?_, hwritten.size_eq, hwritten.elsewhere,
      hwritten.inode_eq⟩
    · rw [Dirent.binding_decode_encode hname hinum]
      exact hunique
    · rw [htable]
      exact SlotTable.lookup_store h.unique habsent hfirst SlotTable.slot_firstFree
  · rw [habsent] at hlookup
    cases hlookup

theorem clearDirent_meets (h : DirOk g c dp) (hindex : (c.table dp).index name = some k) :
    Meets (Stuck.Halts (Allowed c.fs.log (entryCharge g c dp k)))
      (fun r => DirChanged g c dp (update (c.table dp).lookup name none)
        (c.inode dp).size.toNat r.2)
      (clearDirent devsw dp (direntSize * k) c) := by
  obtain ⟨hk, inum, hslot⟩ := SlotTable.index_eq_some hindex
  have hk : k < (c.inode dp).entries := hk
  have hsize := h.readable.size_le
  have hend : direntSize * k + direntSize ≤ (c.inode dp).size.toNat := by
    rw [h.readable.size_eq]
    exact Nat.mul_le_mul_left direntSize hk
  have hroom : CanHold g c dp k := by
    refine ⟨by omega, fun _ => ?_⟩
    have hoff : (BitVec.ofNat 32 (direntSize * k)).toNat = direntSize * k := by
      have hlt : maxfile * bsize < 2 ^ 32 := by decide
      rw [BitVec.toNat_ofNat, Nat.mod_eq_of_lt (by omega)]
    have hlen : (BitVec.ofNat 32 direntSize).toNat = direntSize := rfl
    have hslots : fileSlots (direntSize * k + direntSize) ≤
        fileSlots (c.inode dp).size.toNat :=
      fileSlots_le.mpr (hend.trans (fileSlots_le.mp (Nat.le_refl _)))
    rw [hoff, hlen, Nat.max_eq_left hslots]
    exact Nat.le_add_right _ _
  refine (writeDirent_meets h (Nat.le_of_lt hk) hroom).mono (fun _ h => h) ?_
  rintro ⟨_, c'⟩ hwritten
  have htable := hwritten.table_eq
  have hwhole := hwritten.size_eq
  rw [Dirent.binding_decode_clear] at htable
  rw [Nat.max_eq_left hend] at hwhole
  refine ⟨hwritten.dirOk h ?_, ?_, hwhole, hwritten.elsewhere, hwritten.inode_eq⟩
  · rw [Dirent.binding_decode_clear]
    exact h.unique.erase hk
  · rw [htable]
    exact SlotTable.lookup_erase h.unique hindex

theorem Got.dirOk {dev number : BitVec 32} {i : ℕ} {c' : InodeCache} (hgot : Got c dev number i c')
    (h : DirOk g c dp) : DirOk g c' dp ∧ c'.table dp = c.table dp := by
  obtain ⟨ref, href, hslot⟩ := hgot.kept h.live
  have hfs := hgot.fs_eq
  have hinode : (c'.inode dp).toDinode = (c.inode dp).toDinode := by rw [hslot]
  refine ⟨⟨?_, ?_, ?_, ?_, ?_, ?_⟩, ?_⟩
  · rw [hfs]
    exact h.consistent
  · rw [InodeCache.Live, hslot]
    exact href
  · rw [hfs, hslot]
    exact ⟨h.synced.inum_lt, h.synced.dinode_eq, h.synced.allocated⟩
  · rw [hinode]
    exact h.type_eq
  · rw [hinode]
    exact h.whole
  · rw [hfs, hinode]
    exact h.distinct
  · rw [InodeCache.table, hfs, hinode]
    rfl

theorem LookedUp.dirOk {r : Option (ℕ × ℕ) × InodeCache} (hr : LookedUp c dp name r)
    (h : DirOk g c dp) : DirOk g r.2 dp ∧ r.2.table dp = c.table dp := by
  cases hr with
  | absent => exact ⟨h, rfl⟩
  | present hindex hlookup hgot => exact hgot.dirOk h

theorem DirOk.size_of_link (h : DirOk g c dp) :
    ((∃ i < (c.table dp).length, (c.table dp).slot i = none) →
      max (c.inode dp).size.toNat (direntSize * (c.table dp).firstFree + direntSize) =
        (c.inode dp).size.toNat) ∧
    ((∀ i < (c.table dp).length, (c.table dp).slot i ≠ none) →
      max (c.inode dp).size.toNat (direntSize * (c.table dp).firstFree + direntSize) =
        (c.inode dp).size.toNat + direntSize) := by
  have hsize := h.readable.size_eq
  constructor
  · rintro ⟨i, hi, hfree⟩
    have hlt : (c.table dp).firstFree < (c.inode dp).entries := SlotTable.firstFree_lt hi hfree
    have hmul := Nat.mul_le_mul_left direntSize (Nat.succ_le_of_lt hlt)
    rw [Nat.mul_succ] at hmul
    omega
  · intro hused
    have hend : (c.table dp).firstFree = (c.inode dp).entries :=
      SlotTable.firstFree_eq_length hused
    rw [hend]
    omega

end Operations

/-- **A directory is a finite map.** In a directory of whole entries without a double name,
`dir_lookup` returns the inode and the offset of the binding of a name; `dir_link` refuses a
name that is bound, and else extends the map by the binding, in a free slot if there is one and
in a new one otherwise; clearing the entry of a name takes its binding out of the map.  After
each of them the names are again distinct. -/
theorem directory_is_finite_map {g : Geometry} {c : InodeCache} {dp : ℕ} (h : DirOk g c dp)
    (devsw : ℕ → Devsw) {name : List Byte} (hname : NameOk (dirsiz - 1) name) (inum : BitVec 32)
    (hpos : 1 ≤ inum.toNat) (hmax : inum.toNat ≤ 65535) : Meets (Unreadable c)
      (fun r => LookedUp c dp name r ∧ DirOk g r.2 dp ∧ r.2.table dp = c.table dp)
      (dirLookup devsw dp name c) ∧
    ((c.table dp).lookup name ≠ none →
      Meets (Unreadable c) (fun r => r.1 = false ∧ SameLive c r.2)
        (dirLink devsw dp name inum c)) ∧
    ((c.table dp).lookup name = none → CanHold g c dp (c.table dp).firstFree →
      Meets (Unwritable g c dp (c.table dp).firstFree)
        (fun r => r.1 = true ∧ ∃ size, DirChanged g c dp
            (update (c.table dp).lookup name (some (inum.setWidth 16))) size r.2 ∧
          ((∃ i < (c.table dp).length, (c.table dp).slot i = none) →
            size = (c.inode dp).size.toNat) ∧
          ((∀ i < (c.table dp).length, (c.table dp).slot i ≠ none) →
            size = (c.inode dp).size.toNat + direntSize))
        (dirLink devsw dp name inum c)) ∧
    (∀ k, (c.table dp).index name = some k →
      Meets (Stuck.Halts (Allowed c.fs.log (entryCharge g c dp k)))
        (fun r => DirChanged g c dp (update (c.table dp).lookup name none)
          (c.inode dp).size.toNat r.2)
        (clearDirent devsw dp (direntSize * k) c)) := by
  have hname : NameOk dirsiz name := ⟨hname.pos, hname.le.trans (Nat.sub_le _ _), hname.no_null⟩
  have hinum : inum.setWidth 16 ≠ 0#16 := by
    intro hzero
    have hnat := congrArg BitVec.toNat hzero
    rw [BitVec.toNat_setWidth, Nat.mod_eq_of_lt (by omega), BitVec.toNat_zero] at hnat
    omega
  refine ⟨?_, fun hpresent => dirLink_of_present h hname hpresent, fun habsent hroom => ?_,
    fun k hindex => clearDirent_meets h hindex⟩
  · refine (dirLookup_meets h.readable hname).mono (fun _ h => h) fun r hr => ?_
    exact ⟨hr, hr.dirOk h⟩
  · refine (dirLink_of_absent h hname hinum habsent hroom).mono (fun _ h => h) ?_
    rintro r ⟨htrue, hchanged⟩
    exact ⟨htrue, _, hchanged, h.size_of_link.1, h.size_of_link.2⟩

/-! ## A directory with a freed entry -/

def gapBlock : Block := fun j =>
  (Dirent.encode ⟨1, [0x2e]⟩ ++ Dirent.encode ⟨0, [97]⟩ ++ Dirent.encode ⟨2, [98]⟩).getD j 0

def gapDir : Dinode := ⟨1, 0, 0, 1, 48, fun i => if i = 0 then 5 else 0⟩

/-- Inode 1 is a directory with the entries `.` and `b`, and between them the entry of a file
that was removed. -/
def gapCache : InodeCache where
  fs :=
    { cache := fun sector =>
        if sector = 2 then gapDir.encode (fun _ => 0) 1
        else if sector = 5 then gapBlock else smallDisk 6 sector
      log := (Log.boot smallGeometry.region).beginTrans }
  inode i :=
    if i = 0 then { gapDir with inum := 1, ref := 1, busy := true, valid := true, dev := 0 }
    else { gapDir with inum := 0, ref := 0, busy := false, valid := false, dev := 0 }

theorem dirOk_gapCache : DirOk smallGeometry gapCache 0 where
  consistent := consistent_of_check 1 1 (Superblock.decode_encode _) ⟨rfl, rfl, rfl⟩ rfl rfl
    (by decide +kernel) (by decide) (by decide) (by decide +kernel) (by decide +kernel)
    (by decide +kernel) (by decide +kernel)
  live := by decide
  synced := ⟨by decide, Dinode.decode_encode (by decide), by decide⟩
  type_eq := rfl
  whole := by decide
  distinct := by
    have hall : ∀ i < 3, ∀ j < 3,
        (gapCache.fs.direntAt gapDir (direntSize * i)).inum ≠ 0 →
        (gapCache.fs.direntAt gapDir (direntSize * j)).inum ≠ 0 →
        dirNamecmp (gapCache.fs.direntAt gapDir (direntSize * i)).name
          (gapCache.fs.direntAt gapDir (direntSize * j)).name = 0 → i = j := by
      decide +kernel
    exact hall

theorem exists_ok_of_value {α : Type} {m : Except Stuck (α × InodeCache)} {a : α}
    (h : m.toOption.map Prod.fst = some a) : ∃ c, m = .ok (a, c) := by
  obtain ⟨⟨_, c⟩, hc, rfl⟩ := Option.map_eq_some_iff.mp h
  exact ⟨c, eq_ok_of_toOption hc⟩

/-- `dir_lookup` finds `b` behind the free entry, `dir_link` puts `a` into the free entry, and
without `b` only `.` is left. -/
theorem directory_with_gap_is_finite_map :
    (∃ c, dirLookup (fun _ => ⟨none, none⟩) 0 [98] gapCache = .ok (some (1, 32), c) ∧
      LookedUp gapCache 0 [98] (some (1, 32), c)) ∧
    (∃ c, dirLink (fun _ => ⟨none, none⟩) 0 [97] 3 gapCache = .ok (true, c) ∧
      DirOk smallGeometry c 0 ∧
      (c.table 0).lookup = update (gapCache.table 0).lookup [97] (some 3) ∧
      (c.inode 0).size.toNat = 48) ∧
    ∃ c, clearDirent (fun _ => ⟨none, none⟩) 0 32 gapCache = .ok ((), c) ∧
      DirOk smallGeometry c 0 ∧
      (c.table 0).lookup = update (gapCache.table 0).lookup [98] none := by
  have ha : NameOk (dirsiz - 1) [97] := ⟨by decide, by decide, by decide⟩
  have hb : NameOk (dirsiz - 1) [98] := ⟨by decide, by decide, by decide⟩
  obtain ⟨-, -, hlink, -⟩ := directory_is_finite_map dirOk_gapCache
    (fun _ => ⟨none, none⟩) ha 3 (by decide) (by decide)
  obtain ⟨hlookup, -, -, hclear⟩ := directory_is_finite_map dirOk_gapCache
    (fun _ => ⟨none, none⟩) hb 3 (by decide) (by decide)
  refine ⟨?_, ?_, ?_⟩
  · obtain ⟨c, hok⟩ := exists_ok_of_value (a := some (1, 32))
      (m := dirLookup (fun _ => ⟨none, none⟩) 0 [98] gapCache) (by decide +kernel)
    exact ⟨c, hok, (hlookup.of_ok hok).1⟩
  · obtain ⟨c, hok⟩ := exists_ok_of_value (a := true)
      (m := dirLink (fun _ => ⟨none, none⟩) 0 [97] 3 gapCache) (by decide +kernel)
    have hfree : (gapCache.table 0).slot 1 = none := by decide +kernel
    obtain ⟨-, size, hchanged, hsize, -⟩ :=
      (hlink (by decide +kernel) ⟨by decide +kernel, by decide +kernel⟩).of_ok hok
    refine ⟨c, hok, hchanged.dirOk, hchanged.lookup_eq, ?_⟩
    rw [hchanged.size_eq, hsize ⟨1, by decide, hfree⟩]
    rfl
  · obtain ⟨c, hok⟩ := exists_ok_of_value (a := ())
      (m := clearDirent (fun _ => ⟨none, none⟩) 0 32 gapCache) (by decide +kernel)
    have hchanged := (hclear 2 (by decide +kernel)).of_ok hok
    exact ⟨c, hok, hchanged.dirOk, hchanged.lookup_eq⟩

end MCertikos.FS
