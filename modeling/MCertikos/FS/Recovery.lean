/-
# Crash atomicity of the redo log

A disk is recoverable to some contents of the home sectors if installing what its header lists
gives those contents.
-/

import MCertikos.FS.Log
import Mathlib.Data.Finset.Card

namespace MCertikos.FS

open Math Function

def applyWrites (home : Disk) (writes : List (Sector × Block)) : Disk :=
  writes.foldl (fun home write => update home write.1 write.2) home

namespace Region

variable {r : Region} {lh : LogHeader} {home disk : Disk}

/-! ## The log region -/

def Contains (r : Region) (sector : Sector) : Prop := (sector - r.start).toNat < r.size.toNat

instance (r : Region) (sector : Sector) : Decidable (r.Contains sector) := by
  unfold Contains
  infer_instance

theorem contains_start (hsize : 0 < r.size.toNat) : r.Contains r.start := by
  simpa [Contains] using hsize

variable {i : ℕ}

theorem contains_slotAddr (hi : i + 1 < r.size.toNat) : r.Contains (r.slotAddr i) := by
  have hlt := r.size.isLt
  unfold Contains slotAddr
  bv_omega

theorem slotAddr_ne_start (hi : i + 1 < 2 ^ 32) : r.slotAddr i ≠ r.start := by
  unfold slotAddr
  bv_omega

theorem slotAddr_inj {i j : ℕ} (hi : i < 2 ^ 32) (hj : j < 2 ^ 32)
    (heq : r.slotAddr i = r.slotAddr j) : i = j := by
  unfold slotAddr at heq
  bv_omega

variable {sector : Sector}

theorem ne_start_of_not_contains (hsize : 0 < r.size.toNat) (hsector : ¬ r.Contains sector) :
    sector ≠ r.start := by
  rintro rfl
  exact hsector (contains_start hsize)

/-! ## What a disk is recoverable to -/

structure Clean (r : Region) (home disk : Disk) : Prop where
  home_eq : ∀ sector, ¬ r.Contains sector → disk sector = home sector
  empty : (disk r.start).word 0 = 0

structure Logged (r : Region) (lh : LogHeader) (home disk : Disk) : Prop where
  n_toInt : lh.n.toInt = lh.count
  count_le : lh.count ≤ logsize
  room : lh.count < r.size.toNat
  distinct : ∀ i j, i < lh.count → j < lh.count → lh.sector i = lh.sector j → i = j
  outside : ∀ i < lh.count, ¬ r.Contains (lh.sector i)
  slots : ∀ i < lh.count, disk (r.slotAddr i) = home (lh.sector i)
  rest : ∀ sector, ¬ r.Contains sector → (∀ i < lh.count, lh.sector i ≠ sector) →
    disk sector = home sector

structure OnDisk (r : Region) (lh : LogHeader) (disk : Disk) : Prop where
  n_eq : (disk r.start).word 0 = lh.n
  sector_eq : ∀ i < lh.count, (disk r.start).word (i + 1) = lh.sector i

def Recoverable (r : Region) (home disk : Disk) : Prop :=
  ∃ lh, r.Logged lh home disk ∧ r.OnDisk lh disk

theorem Clean.logged (h : r.Clean home disk) (hsize : 0 < r.size.toNat) (hn : lh.n = 0) :
    r.Logged lh home disk := by
  have hcount : lh.count = 0 := by rw [LogHeader.count, hn]; rfl
  refine ⟨?_, by omega, by omega, by omega, by omega, by omega, fun sector hsector _ =>
    h.home_eq sector hsector⟩
  rw [hn, hcount]
  rfl

theorem Clean.recoverable (h : r.Clean home disk) (hsize : 0 < r.size.toNat) :
    r.Recoverable home disk :=
  ⟨⟨0, fun _ => 0⟩, h.logged hsize rfl, h.empty, fun _ hi => absurd hi (Nat.not_lt_zero _)⟩

/-! ## Writing the header -/

def headed (r : Region) (lh : LogHeader) (disk : Disk) : Disk :=
  update disk r.start
    (((disk r.start).setWord 0 lh.n).setWords 1 lh.sector lh.count)

theorem headed_of_ne (hne : sector ≠ r.start) : r.headed lh disk sector = disk sector :=
  update_of_ne hne _ _

theorem onDisk_headed (hcount : lh.count ≤ logsize) (disk : Disk) :
    r.OnDisk lh (r.headed lh disk) where
  n_eq := by
    rw [headed, update_self, Bytes.word_setWords_of_lt (by omega),
      Bytes.word_setWord (by decide)]
  sector_eq i hi := by
    have hfits : 4 * (1 + lh.count) ≤ bsize := by
      simp only [logsize, bsize] at *
      omega
    rw [headed, update_self, Nat.add_comm, Bytes.word_setWords hi hfits]

theorem Logged.headed (h : r.Logged lh home disk) : r.Logged lh home (r.headed lh disk) where
  __ := h
  slots i hi := by
    have hroom := h.room
    have hlt := r.size.isLt
    rw [headed_of_ne (slotAddr_ne_start (by omega)), h.slots i hi]
  rest sector hsector hother := by
    have hne := ne_start_of_not_contains (Nat.zero_lt_of_lt h.room) hsector
    rw [headed_of_ne hne, h.rest sector hsector hother]

theorem clean_headed (hsize : 0 < r.size.toNat) (hn : lh.n = 0)
    (hhome : ∀ sector, ¬ r.Contains sector → disk sector = home sector) :
    r.Clean home (r.headed lh disk) where
  home_eq sector hsector := by
    rw [headed_of_ne (ne_start_of_not_contains hsize hsector), hhome sector hsector]
  empty := by
    have hcount : lh.count = 0 := by rw [LogHeader.count, hn]; rfl
    rw [(onDisk_headed (by omega) disk).n_eq, hn]

/-! ## Installing a block -/

theorem Logged.write (h : r.Logged lh home disk) (hsector : ¬ r.Contains sector) :
    r.Logged lh home (update disk sector (home sector))  where
  __ := h
  slots i hi := by
    have hroom := h.room
    have hne : r.slotAddr i ≠ sector := by
      rintro rfl
      exact hsector (contains_slotAddr (by omega))
    rw [update_of_ne hne, h.slots i hi]
  rest other houtside hother := by
    by_cases heq : other = sector
    · rw [heq, update_self]
    · rw [update_of_ne heq, h.rest other houtside hother]

theorem Logged.congr_home {home' : Disk} (h : r.Logged lh home disk)
    (hhome : ∀ sector, ¬ r.Contains sector → home' sector = home sector) : r.Logged lh home' disk :=
  ⟨h.n_toInt, h.count_le, h.room, h.distinct, h.outside,
    fun i hi => by rw [h.slots i hi, hhome _ (h.outside i hi)],
    fun sector hsector hother => by rw [h.rest sector hsector hother, hhome sector hsector]⟩

theorem Logged.install (h : r.Logged lh home disk) (hi : i < lh.count) :
    r.Logged lh home (update disk (lh.sector i) (disk (r.slotAddr i))) := by
  rw [h.slots i hi]
  exact h.write (h.outside i hi)

theorem OnDisk.install (h : r.OnDisk lh disk) (hlogged : r.Logged lh home disk) (hi : i < lh.count)
    (block : Block) : r.OnDisk lh (update disk (lh.sector i) block) := by
  have hne := (ne_start_of_not_contains (Nat.zero_lt_of_lt hlogged.room)
    (hlogged.outside i hi)).symm
  exact ⟨by rw [update_of_ne hne, h.n_eq],
    fun j hj => by rw [update_of_ne hne, h.sector_eq j hj]⟩

theorem Logged.replace (h : r.Logged lh home disk) (hi : i < lh.count) (data : Block) :
    r.Logged lh (update home (lh.sector i) data) (update disk (r.slotAddr i) data)  where
  __ := h
  slots j hj := by
    have hroom := h.room
    have hlt := r.size.isLt
    by_cases heq : j = i
    · rw [heq, update_self, update_self]
    · have haddr : r.slotAddr j ≠ r.slotAddr i := fun haddr =>
        heq (slotAddr_inj (by omega) (by omega) haddr)
      have hsector : lh.sector j ≠ lh.sector i := fun hsector =>
        heq (h.distinct j i hj hi hsector)
      rw [update_of_ne haddr, update_of_ne hsector, h.slots j hj]
  rest sector hsector hother := by
    have hroom := h.room
    have haddr : sector ≠ r.slotAddr i := by
      rintro rfl
      exact hsector (contains_slotAddr (by omega))
    rw [update_of_ne haddr, update_of_ne (hother i hi).symm,
      h.rest sector hsector hother]

theorem Logged.append {lh' : LogHeader} (h : r.Logged lh home disk)
    (hn : lh'.n.toInt = (lh.count + 1 : ℕ)) (hcount : lh'.count = lh.count + 1)
    (hold : ∀ i < lh.count, lh'.sector i = lh.sector i) (hlast : lh'.sector lh.count = sector)
    (hnew : ∀ i < lh.count, lh.sector i ≠ sector) (hsector : ¬ r.Contains sector)
    (hroom : lh.count + 1 ≤ logsize) (hregion : lh.count + 1 < r.size.toNat) (data : Block) :
    r.Logged lh' (update home sector data) (update disk (r.slotAddr lh.count) data) := by
  have hlt := r.size.isLt
  -- an index of the new header is an old one or the last
  have hcases : ∀ i < lh'.count, i < lh.count ∨ i = lh.count := by omega
  refine ⟨by rw [hn, hcount], by omega, by omega, ?_, ?_, ?_, ?_⟩
  · intro i j hi hj heq
    obtain hi | rfl := hcases i hi <;> obtain hj | rfl := hcases j hj
    · rw [hold i hi, hold j hj] at heq
      exact h.distinct i j hi hj heq
    · rw [hold i hi, hlast] at heq
      exact absurd heq (hnew i hi)
    · rw [hold j hj, hlast] at heq
      exact absurd heq.symm (hnew j hj)
    · rfl
  · intro i hi
    obtain hi | rfl := hcases i hi
    · rw [hold i hi]
      exact h.outside i hi
    · rwa [hlast]
  · intro i hi
    obtain hi | rfl := hcases i hi
    · have haddr : r.slotAddr i ≠ r.slotAddr lh.count := fun haddr =>
        absurd (slotAddr_inj (by omega) (by omega) haddr) (by omega)
      rw [hold i hi, update_of_ne haddr, update_of_ne (hnew i hi),
        h.slots i hi]
    · rw [hlast, update_self, update_self]
  · intro other houtside hother
    have haddr : other ≠ r.slotAddr lh.count := by
      rintro rfl
      exact houtside (contains_slotAddr hregion)
    have hne : other ≠ sector := by
      rintro rfl
      exact hother lh.count (by omega) hlast
    rw [update_of_ne haddr, update_of_ne hne]
    apply h.rest other houtside
    intro i hi
    rw [← hold i hi]
    exact hother i (by omega)

theorem Logged.congr {lh' : LogHeader} (h : r.Logged lh home disk) (hn : lh'.n = lh.n)
    (hsector : ∀ i < lh.count, lh'.sector i = lh.sector i) : r.Logged lh' home disk := by
  have hcount : lh'.count = lh.count := by rw [LogHeader.count, hn]; rfl
  rw [← hcount] at hsector
  refine ⟨?_, ?_, ?_, ?_, ?_, ?_, ?_⟩
  · rw [hn, hcount]
    exact h.n_toInt
  · rw [hcount]
    exact h.count_le
  · rw [hcount]
    exact h.room
  · intro i j hi hj heq
    rw [hsector i hi, hsector j hj] at heq
    exact h.distinct i j (hcount ▸ hi) (hcount ▸ hj) heq
  · intro i hi
    rw [hsector i hi]
    exact h.outside i (hcount ▸ hi)
  · intro i hi
    rw [hsector i hi]
    exact h.slots i (hcount ▸ hi)
  · intro sector houtside hother
    apply h.rest sector houtside
    intro i hi
    rw [← hcount] at hi
    rw [← hsector i hi]
    exact hother i hi

end Region

namespace Log

variable {log : Log} {home disk : Disk} {stuck : Prop} {crash : Disk → Prop}

/-! ## Recovering -/

theorem wp_writeHead {post : Unit → Disk → Prop} (hbefore : crash disk)
    (hafter : crash (log.headed log.lh disk)) (hpost : post () (log.headed log.lh disk)) :
    log.writeHead.wp stuck crash post disk :=
  ⟨hbefore, hafter, hpost⟩

theorem wp_installTrans (hlogged : log.Logged log.lh home disk) (hdisk : log.OnDisk log.lh disk) :
    log.installTrans.wp stuck (log.Recoverable home)
      (fun _ disk => log.Recoverable home disk ∧
        ∀ sector, ¬ log.Contains sector → disk sector = home sector) disk := by
  have hbody : ∀ tail disk, 0 ≤ tail → tail < 0 + log.lh.count →
      (log.Logged log.lh home disk ∧ log.OnDisk log.lh disk) ∧
        (∀ i < tail, disk (log.lh.sector i) = home (log.lh.sector i)) →
      (log.installOne tail).wp stuck (log.Recoverable home) (fun _ disk =>
        (log.Logged log.lh home disk ∧ log.OnDisk log.lh disk) ∧
        ∀ i < tail + 1, disk (log.lh.sector i) = home (log.lh.sector i)) disk := by
    intro tail disk _ htail hinv
    have hi : tail < log.lh.count := by omega
    have hafter := And.intro (hinv.1.1.install hi)
      (hinv.1.2.install hinv.1.1 hi (disk (log.slotAddr tail)))
    refine ⟨⟨log.lh, hinv.1⟩, ⟨log.lh, hafter⟩, hafter, ?_⟩
    intro i hle
    by_cases heq : log.lh.sector i = log.lh.sector tail
    · rw [heq, update_self, hinv.1.1.slots tail hi]
    · have hne : i ≠ tail := fun h => heq (h ▸ rfl)
      rw [update_of_ne heq, hinv.2 i (by omega)]
  refine Prog.wp_mono (Prog.wp_loop _ ⟨⟨hlogged, hdisk⟩, by omega⟩
    (fun _ disk hinv => ⟨log.lh, hinv.1⟩) hbody) (fun _ h => h) ?_
  rintro _ last ⟨hlast, hinstalled⟩
  refine ⟨⟨log.lh, hlast⟩, fun sector hsector => ?_⟩
  by_cases hlisted : ∃ i < log.lh.count, log.lh.sector i = sector
  · obtain ⟨i, hi, rfl⟩ := hlisted
    exact hinstalled i (by omega)
  · exact hlast.1.rest sector hsector fun i hi heq => hlisted ⟨i, hi, heq⟩

theorem wp_install_erase (log : Log) (hlogged : log.Logged log.lh home disk)
    (hdisk : log.OnDisk log.lh disk) (value : Log) :
    (do log.installTrans; log.erase.writeHead; return value : DiskProg Log).wp stuck
      (log.Recoverable home) (fun result disk => result = value ∧ log.Clean home disk) disk := by
  have hsize := Nat.zero_lt_of_lt hlogged.room
  apply Prog.wp_bind
  refine Prog.wp_mono (wp_installTrans hlogged hdisk) (fun _ h => h) ?_
  rintro _ last ⟨hlast, hhome⟩
  have herased : log.Clean home (log.erase.headed log.erase.lh last) :=
    Region.clean_headed hsize rfl hhome
  apply Prog.wp_bind
  exact wp_writeHead hlast (herased.recoverable hsize)
    ⟨herased.recoverable hsize, rfl, herased⟩

def reread (log : Log) (disk : Disk) : Log :=
  { log with
    lh := ⟨(disk log.start).word 0, fun i =>
      if i < ((disk log.start).word 0).toInt.toNat then (disk log.start).word (i + 1)
      else log.lh.sector i⟩ }

theorem onDisk_reread (log : Log) (disk : Disk) : log.OnDisk (log.reread disk).lh disk :=
  ⟨rfl, fun _ hi => (if_pos hi).symm⟩

/-- **Recovery** keeps the disk recoverable and ends with the contents in place and an empty log.
-/
theorem wp_recoverFromLog {r : Region} (log : Log) (hregion : log.toRegion = r)
    (h : r.Recoverable home disk) :
    log.recoverFromLog.wp stuck (r.Recoverable home) (fun log' disk =>
      (log'.toRegion = r ∧ log'.busy = log.busy ∧ log'.lh.n = 0) ∧ r.Clean home disk) disk := by
  subst hregion
  obtain ⟨lh, hlogged, hdisk⟩ := h
  have hreread : log.Logged (log.reread disk).lh home disk := by
    apply hlogged.congr hdisk.n_eq
    intro i hi
    have hlt : i < ((disk log.start).word 0).toInt.toNat := by
      rw [hdisk.n_eq]
      exact hi
    rw [← hdisk.sector_eq i hi]
    exact if_pos hlt
  refine Prog.wp_mono (wp_install_erase (log.reread disk) hreread (log.onDisk_reread disk)
    (log.reread disk).erase) (fun _ h => h) ?_
  rintro _ last ⟨rfl, hclean⟩
  exact ⟨⟨rfl, rfl, rfl⟩, hclean⟩

/-! ## Logging -/

theorem slot_cases (log : Log) (sector : Sector) :
    (log.slot sector < log.lh.count ∧ log.lh.sector (log.slot sector) = sector) ∨
      (log.slot sector = log.lh.count ∧ ∀ i < log.lh.count, log.lh.sector i ≠ sector) := by
  unfold slot
  cases hfind : (List.range log.lh.count).find? fun i => log.lh.sector i = sector with
  | some i =>
    have hmem := List.mem_range.mp (List.mem_of_find?_eq_some hfind)
    have hsector := List.find?_some hfind
    exact Or.inl ⟨hmem, of_decide_eq_true hsector⟩
  | none =>
    refine Or.inr ⟨rfl, fun i hi heq => ?_⟩
    have hnone := List.find?_eq_none.mp hfind i (List.mem_range.mpr hi)
    exact hnone (decide_eq_true heq)

def capacity (log : Log) : ℕ := min logsize (log.size - 1).toInt.toNat

theorem full_iff (h : log.Logged log.lh home disk) : log.Full ↔ log.capacity ≤ log.lh.count := by
  have hn := h.n_toInt
  unfold Full capacity
  omega

theorem room_of_not_full (h : log.Logged log.lh home disk) (hfull : ¬ log.Full) :
    log.lh.count + 1 ≤ logsize ∧ log.lh.count + 1 < log.size.toNat := by
  have hn := h.n_toInt
  have hroom := h.room
  unfold Full at hfull
  have hsub : (log.size - 1).toNat = log.size.toNat - 1 := by bv_omega
  have hint := BitVec.toInt_eq_toNat_cond (log.size - 1)
  omega

theorem toInt_succ {n : BitVec 32} {count : ℕ} (hn : n.toInt = count) (hcount : count < logsize) :
    (n + 1).toInt = (count + 1 : ℕ) := by
  have hint := BitVec.toInt_eq_toNat_cond n
  have hint' := BitVec.toInt_eq_toNat_cond (n + 1)
  have hadd : (n + 1).toNat = (n.toNat + 1) % 2 ^ 32 := by simp [BitVec.toNat_add]
  have hlt := n.isLt
  simp only [logsize] at hcount
  omega

variable {sector : Sector}

theorem record_of_slot_lt (h : log.Logged log.lh home disk) (hslot : log.slot sector < log.lh.count)
    (hsector : log.lh.sector (log.slot sector) = sector) : log.record sector = log := by
  have hn : ((log.slot sector : ℕ) : ℤ) ≠ log.lh.n.toInt := by
    rw [h.n_toInt]
    omega
  have hsame : update log.lh.sector (log.slot sector) sector = log.lh.sector := by
    rw [update_eq_iff]
    exact ⟨hsector.symm, fun _ _ => rfl⟩
  simp only [record, hn, if_false, hsame]

theorem count_record_of_new (h : log.Logged log.lh home disk)
    (hslot : log.slot sector = log.lh.count) (hfull : ¬ log.Full) :
    (log.record sector).lh.n.toInt = (log.lh.count + 1 : ℕ) ∧
      (log.record sector).lh.count = log.lh.count + 1 := by
  have hroom := (room_of_not_full h hfull).1
  have hn : (log.record sector).lh.n = log.lh.n + 1 := by
    simp only [record, hslot, h.n_toInt, if_true]
  have hint : (log.record sector).lh.n.toInt = (log.lh.count + 1 : ℕ) := by
    rw [hn, toInt_succ h.n_toInt (by omega)]
  refine ⟨hint, ?_⟩
  rw [LogHeader.count, hint]
  rfl

theorem logged_record (h : log.Logged log.lh home disk) (hfull : ¬ log.Full)
    (hsector : ¬ log.Contains sector) (data : Block) :
    log.Logged (log.record sector).lh (update home sector data)
      (update disk (log.slotAddr (log.slot sector)) data) := by
  obtain ⟨hslot, hown⟩ | ⟨hslot, hnew⟩ := log.slot_cases sector
  · have hreplace := h.replace hslot data
    rw [hown] at hreplace
    rwa [record_of_slot_lt h hslot hown]
  · obtain ⟨hroom, hregion⟩ := room_of_not_full h hfull
    obtain ⟨hn, hcount⟩ := count_record_of_new h hslot hfull
    have hold : ∀ i < log.lh.count, (log.record sector).lh.sector i = log.lh.sector i := by
      intro i hi
      exact update_of_ne (by omega) _ _
    have hlast : (log.record sector).lh.sector log.lh.count = sector := by
      rw [← hslot]
      exact update_self _ _ _
    rw [hslot]
    exact h.append hn hcount hold hlast hnew hsector hroom hregion data

theorem slot_contains (sector : Sector) (h : log.Logged log.lh home disk) (hfull : ¬ log.Full) :
    log.Contains (log.slotAddr (log.slot sector)) ∧
      log.slotAddr (log.slot sector) ≠ log.start := by
  obtain ⟨-, hregion⟩ := room_of_not_full h hfull
  have hlt := log.size.isLt
  have hslot : log.slot sector ≤ log.lh.count := by
    obtain ⟨hslot, -⟩ | ⟨hslot, -⟩ := log.slot_cases sector <;> omega
  exact ⟨Region.contains_slotAddr (by omega), Region.slotAddr_ne_start (by omega)⟩

def sectors (log : Log) : Finset Sector := (Finset.range log.lh.count).image log.lh.sector

theorem card_sectors (h : log.Logged log.lh home disk) : log.sectors.card = log.lh.count := by
  rw [sectors, Finset.card_image_of_injOn, Finset.card_range]
  intro i hi j hj heq
  exact h.distinct i j (by simpa using hi) (by simpa using hj) heq

theorem sectors_record (h : log.Logged log.lh home disk) (hfull : ¬ log.Full) :
    (log.record sector).sectors = insert sector log.sectors := by
  obtain ⟨hslot, hown⟩ | ⟨hslot, hnew⟩ := log.slot_cases sector
  · rw [record_of_slot_lt h hslot hown, Finset.insert_eq_of_mem]
    exact Finset.mem_image.mpr ⟨_, Finset.mem_range.mpr hslot, hown⟩
  · have hlast : (log.record sector).lh.sector log.lh.count = sector := by
      rw [← hslot]
      exact update_self _ _ _
    rw [sectors, (count_record_of_new h hslot hfull).2, Finset.range_add_one,
      Finset.image_insert, hlast]
    congr 1
    apply Finset.image_congr
    intro i hi
    have hne : i ≠ log.slot sector := by
      rw [hslot]
      exact Nat.ne_of_lt (by simpa using hi)
    exact update_of_ne hne _ _

/-- A transaction in progress: the disk is as before it, and the log holds the blocks
that turn it into `home`. -/
structure InTrans (log : Log) (before home disk : Disk) : Prop where
  busy : log.busy = true
  clean : log.Clean before disk
  logged : log.Logged log.lh home disk

variable {before : Disk}

theorem InTrans.size_pos (h : log.InTrans before home disk) : 0 < log.size.toNat :=
  Nat.zero_lt_of_lt h.logged.room

theorem InTrans.record (h : log.InTrans before home disk) (hfull : ¬ log.Full)
    (hsector : ¬ log.Contains sector) (data : Block) :
    (log.record sector).InTrans before (update home sector data)
      (update disk (log.slotAddr (log.slot sector)) data)  where
  busy := h.busy
  logged := logged_record h.logged hfull hsector data
  clean := by
    obtain ⟨hcontains, hne⟩ := slot_contains sector h.logged hfull
    constructor
    · intro other hother
      have hne : other ≠ log.slotAddr (log.slot sector) := by
        rintro rfl
        exact hother hcontains
      rw [update_of_ne hne]
      exact h.clean.home_eq other hother
    · rw [show (log.record sector).start = log.start from rfl, update_of_ne hne.symm]
      exact h.clean.empty

theorem wp_logWrite {data : Block} (h : log.InTrans before home disk)
    (hsector : ¬ log.Contains sector) (hstuck : log.Full → stuck) :
    (log.logWrite sector data).wp stuck (log.Recoverable before)
      (fun log' disk => log' = log.record sector ∧
        log'.InTrans before (update home sector data) disk ∧ ¬ log.Full) disk := by
  have hcrash := h.clean.recoverable h.size_pos
  unfold logWrite
  by_cases hfull : log.Full
  · rw [if_pos hfull]
    exact ⟨hcrash, hstuck hfull⟩
  · rw [if_neg hfull, if_neg (by simp [h.busy])]
    have hnext := h.record hfull hsector data
    exact ⟨hcrash, hnext.clean.recoverable hnext.size_pos, rfl, hnext, hfull⟩

def sectorsOf (writes : List (Sector × Block)) : Finset Sector :=
  (writes.map Prod.fst).toFinset

variable {writes : List (Sector × Block)}

theorem wp_logWrites (h : log.InTrans before home disk)
    (hsectors : ∀ write ∈ writes, ¬ log.Contains write.1)
    (hstuck : ∀ past write rest, writes = past ++ write :: rest →
      log.capacity ≤ (log.sectors ∪ sectorsOf past).card → stuck) :
    (log.logWrites writes).wp stuck (log.Recoverable before)
      (fun log' disk => log'.toRegion = log.toRegion ∧
        log'.InTrans before (applyWrites home writes) disk) disk := by
  induction writes generalizing log home disk with
  | nil => exact ⟨h.clean.recoverable h.size_pos, rfl, h⟩
  | cons write writes ih =>
    obtain ⟨sector, data⟩ := write
    apply Prog.wp_bind
    have hfull : log.Full → stuck := by
      intro hfull
      apply hstuck [] (sector, data) writes rfl
      rw [full_iff h.logged] at hfull
      simpa [sectorsOf, card_sectors h.logged] using hfull
    refine Prog.wp_mono (wp_logWrite h (hsectors _ List.mem_cons_self) hfull)
      (fun _ h => h) ?_
    rintro _ last ⟨rfl, hnext, hroom⟩
    apply ih hnext fun write hwrite => hsectors write (List.mem_cons_of_mem _ hwrite)
    intro past write rest hsplit hcard
    rw [show (log.record sector).capacity = log.capacity from rfl] at hcard
    apply hstuck ((sector, data) :: past) write rest (by rw [hsplit, List.cons_append])
    rw [sectors_record h.logged hroom] at hcard
    simpa [sectorsOf, Finset.insert_union] using hcard

theorem wp_commitTrans (hclean : log.Clean before disk) (hlogged : log.Logged log.lh home disk) :
    log.commitTrans.wp stuck (fun disk => log.Recoverable before disk ∨ log.Recoverable home disk)
      (fun log' disk => (log'.toRegion = log.toRegion ∧ log'.busy = false ∧ log'.lh.n = 0) ∧
        log.Clean home disk) disk := by
  have hbefore := hclean.recoverable (Nat.zero_lt_of_lt hlogged.room)
  unfold commitTrans
  by_cases hn : 0 < log.lh.n.toInt
  · rw [if_pos hn]
    have hheaded := hlogged.headed
    have hdisk : log.OnDisk log.lh (log.headed log.lh disk) :=
      Region.onDisk_headed hlogged.count_le disk
    apply Prog.wp_bind
    refine wp_writeHead (Or.inl hbefore) (Or.inr ⟨log.lh, hheaded, hdisk⟩) ?_
    refine Prog.wp_mono (wp_install_erase log hheaded hdisk _) (fun _ h => Or.inr h) ?_
    rintro _ last ⟨rfl, hlast⟩
    exact ⟨⟨rfl, rfl, rfl⟩, hlast⟩
  · rw [if_neg hn]
    -- nothing was logged, so what the transaction wrote is what the disk holds
    have hint := hlogged.n_toInt
    have hcount : log.lh.count = 0 := by omega
    have hzero : log.lh.n = 0 := by
      rw [← BitVec.toInt_inj, hint, hcount]
      rfl
    refine ⟨Or.inl hbefore, ⟨rfl, rfl, hzero⟩, ?_, hclean.empty⟩
    intro sector hsector
    exact hlogged.rest sector hsector (by omega)

def Fits (log : Log) (writes : List (Sector × Block)) : Prop :=
  ∀ past write rest, writes = past ++ write :: rest → (sectorsOf past).card < log.capacity

theorem fits_of_length_le (hlength : writes.length ≤ log.capacity) : log.Fits writes := by
  rintro past write rest rfl
  have hcard : (sectorsOf past).card ≤ past.length := by
    simpa [sectorsOf] using (past.map Prod.fst).toFinset_card_le
  simp only [List.length_append, List.length_cons] at hlength
  omega

theorem wp_transaction (h : log.InTrans before before disk) (hempty : log.lh.n = 0)
    (hsectors : ∀ write ∈ writes, ¬ log.Contains write.1) :
    (log.transaction writes).wp (¬ log.Fits writes)
      (fun disk => log.Recoverable before disk ∨
        log.Recoverable (applyWrites before writes) disk)
      (fun _ => log.Clean (applyWrites before writes)) disk := by
  apply Prog.wp_bind
  have hstuck : ∀ past write rest, writes = past ++ write :: rest →
      log.capacity ≤ (log.sectors ∪ sectorsOf past).card → ¬ log.Fits writes := by
    intro past write rest hsplit hcard hfits
    have hnone : log.sectors = ∅ := by
      rw [sectors, LogHeader.count, hempty]
      rfl
    rw [hnone, Finset.empty_union] at hcard
    exact absurd (hfits past write rest hsplit) (by omega)
  refine Prog.wp_mono (wp_logWrites h hsectors hstuck) (fun _ h => Or.inl h) ?_
  rintro log' last ⟨hregion, hlast⟩
  rw [← hregion]
  exact Prog.wp_mono (wp_commitTrans hlast.clean hlast.logged) (fun _ h => h) fun _ _ h => h.2

/-- **Crash atomicity.** Wherever power fails in a transaction, and however often it fails
during recovery, recovery ends with the home sectors as they were before the transaction or as
the transaction wrote them, and with an empty log.  If the commit completes, they are as the
transaction wrote them, also after a later recovery; and it completes if the log has room. -/
theorem transaction_atomic {log : Log} {before : Disk} {writes : List (Sector × Block)}
    (hbusy : log.busy = true) (hmemory : log.lh.n = 0) (hsize : 0 < log.size.toNat)
    (hdisk : (before log.start).word 0 = 0) (hsectors : ∀ write ∈ writes, ¬ log.Contains write.1) :
    (∀ left last, (log.transaction writes).CrashesTo before left →
      (Log.boot log.toRegion).recoverFromLog.RecoversTo left last →
      log.Clean before last ∨ log.Clean (applyWrites before writes) last) ∧
    (∀ left, (log.transaction writes).CrashesTo before left →
      ∃ value last, (Log.boot log.toRegion).recoverFromLog.run left = some (value, last)) ∧
    (∀ value last, (log.transaction writes).run before = some (value, last) →
      log.Clean (applyWrites before writes) last ∧
      ∀ later, (Log.boot log.toRegion).recoverFromLog.RecoversTo last later →
        log.Clean (applyWrites before writes) later) ∧
    (log.Fits writes →
      ∃ value last, (log.transaction writes).run before = some (value, last)) := by
  have hclean : log.Clean before before := ⟨fun _ _ => rfl, hdisk⟩
  have htrans : log.InTrans before before before :=
    ⟨hbusy, hclean, hclean.logged hsize hmemory⟩
  have hwp := wp_transaction htrans hmemory hsectors
  have hrecover : ∀ home disk, log.Recoverable home disk →
      (Log.boot log.toRegion).recoverFromLog.wp False (log.Recoverable home)
        (fun _ => log.Clean home) disk :=
    fun home disk h => Prog.wp_mono (wp_recoverFromLog (Log.boot log.toRegion) rfl h)
      (fun _ h => h) fun _ _ h => h.2
  refine ⟨?_, ?_, ?_, ?_⟩
  · intro left last hcrash hrecovers
    obtain hleft | hleft := Prog.crash_of_crashesTo hwp hcrash
    · exact Or.inl (Prog.post_of_recoversTo hrecovers (hrecover before) hleft)
    · exact Or.inr (Prog.post_of_recoversTo hrecovers (hrecover _) hleft)
  · intro left hcrash
    obtain hleft | hleft := Prog.crash_of_crashesTo hwp hcrash
    · exact Prog.run_of_not_stuck (hrecover _ left hleft) id
    · exact Prog.run_of_not_stuck (hrecover _ left hleft) id
  · intro value last hrun
    have hlast := Prog.post_of_run hwp hrun
    refine ⟨hlast, fun later hrecovers => ?_⟩
    exact Prog.post_of_recoversTo hrecovers (hrecover _) (hlast.recoverable hsize)
  · intro hfits
    exact Prog.run_of_not_stuck hwp (not_not_intro hfits)

def tenBlocks : Log := ⟨⟨100, 10⟩, true, ⟨0, fun _ => 0⟩⟩

def absorbed : List (Sector × Block) := [(5, fun _ => 1), (6, fun _ => 2), (5, fun _ => 3)]

theorem transaction_atomic_absorbed :
    (∃ value last, (tenBlocks.transaction absorbed).run (fun _ _ => 0) = some (value, last) ∧
      last 5 0 = 3 ∧ last 6 0 = 2 ∧ last 7 0 = 0) ∧
    ∀ left last, (tenBlocks.transaction absorbed).CrashesTo (fun _ _ => 0) left →
      (Log.boot tenBlocks.toRegion).recoverFromLog.RecoversTo left last →
      (last 5 0 = 0 ∧ last 6 0 = 0) ∨ (last 5 0 = 3 ∧ last 6 0 = 2) := by
  have houtside : ∀ sector : Sector, sector.toNat < 100 → ¬ tenBlocks.Contains sector := by
    intro sector hsector
    simp only [Region.Contains, tenBlocks]
    bv_omega
  have hsectors : ∀ write ∈ absorbed, ¬ tenBlocks.Contains write.1 := by
    simp [absorbed, houtside]
  have hempty : Bytes.word (fun _ => 0 : Block) 0 = 0 := by decide
  obtain ⟨hcrash, -, hrun, hfits⟩ :=
    @transaction_atomic tenBlocks (fun _ _ => 0) absorbed rfl rfl (by decide) hempty hsectors
  obtain ⟨value, last, hlast⟩ := hfits (fits_of_length_le (by decide))
  have hhome := (hrun value last hlast).1.home_eq
  refine ⟨⟨value, last, hlast, ?_, ?_, ?_⟩, ?_⟩
  · rw [hhome 5 (houtside 5 (by decide))]
    decide
  · rw [hhome 6 (houtside 6 (by decide))]
    decide
  · rw [hhome 7 (houtside 7 (by decide))]
    decide
  · intro left last hleft hlast
    obtain hclean | hclean := hcrash left last hleft hlast
    · left
      rw [hclean.home_eq 5 (houtside 5 (by decide)), hclean.home_eq 6 (houtside 6 (by decide))]
      decide
    · right
      rw [hclean.home_eq 5 (houtside 5 (by decide)), hclean.home_eq 6 (houtside 6 (by decide))]
      decide

end Log

end MCertikos.FS
