/-
# Processes between their calls

How the record of a process changes over a whole call: it enters and leaves a transaction, takes
and gives up entries of the file table, descriptors and a working directory.
-/

import MCertikos.Sysfile.InodeSpec

namespace MCertikos.Sysfile

open Math Function

namespace Proc

variable {l : Proc} {i j f fd : ℕ}

def enter (l : Proc) : Proc := { l with trans := true }

def leave (l : Proc) : Proc := { l with trans := false }

def setFile (l : Proc) (f : ℕ) (ip : Option (Option ℕ)) : Proc :=
  { l with files := update l.files f ip }

def setOpenfile (l : Proc) (fd : ℕ) (f : Option ℕ) : Proc :=
  { l with openfiles := update l.openfiles fd f }

def setCwd (l : Proc) (i : ℕ) : Proc := { l with cwd := some i }

theorem leave_of_trans (h : l.trans = false) : l.leave = l := by
  cases l
  cases h
  rfl

theorem lock_lock_after_inodeRelease (l : Proc) (i j : ℕ) (r : Unit) :
    ((l.lock i).lock j).after (.inodeRelease i) r = l.lock j := by
  by_cases hij : j = i
  · simp [after, lock, hij]
  · simp [after, lock, hij]

theorem setFile_setFile_none (hf : l.files f = none) (ip : Option (Option ℕ)) :
    (l.setFile f ip).setFile f none = l := by
  have hsame : update l.files f none = l.files := by
    rw [← hf]
    exact update_eq_self f l.files
  simp only [setFile, update_idem, hsame]

theorem lock_lose (l : Proc) (i j : ℕ) : (l.lock i).lose j = (l.lose j).lock i := rfl

theorem needs_cwd (h : l.cwd = some i) : 1 ≤ l.needs i := by
  simp [needs, h]

theorem needs_files (hlt : f < nfile) (h : l.files f = some (some i)) : 1 ≤ l.needs i := by
  rw [needs, ← Finset.add_sum_erase _ _ (Finset.mem_range.mpr hlt)]
  simp only [h, if_true]
  omega

theorem needs_setFile (hlt : f < nfile) (ip : Option (Option ℕ)) (i : ℕ) :
    (l.setFile f ip).needs i + (if l.files f = some (some i) then 1 else 0) =
      l.needs i + if ip = some (some i) then 1 else 0 := by
  have hsum := sum_update_add (fun f => if l.files f = some (some i) then 1 else 0)
    (Finset.mem_range.mpr hlt) (if ip = some (some i) then 1 else 0)
  have hafter : ∀ g, (if (l.setFile f ip).files g = some (some i) then 1 else 0) =
      update (fun f => if l.files f = some (some i) then 1 else 0) f
        (if ip = some (some i) then 1 else 0) g := by
    intro g
    by_cases hg : g = f <;> simp [setFile, hg]
  have hcwd : (l.setFile f ip).cwd = l.cwd := rfl
  unfold needs
  simp only [hafter, hcwd]
  omega

theorem needs_setCwd (i j : ℕ) : (l.setCwd i).needs j + (if l.cwd = some j then 1 else 0) =
      l.needs j + if i = j then 1 else 0 := by
  have hcwd : (l.setCwd i).cwd = some i := rfl
  have hfiles : (l.setCwd i).files = l.files := rfl
  unfold needs
  simp only [hcwd, hfiles, Option.some.injEq]
  omega

theorem refs_gain (l : Proc) (i j : ℕ) : (l.gain i).refs j = l.refs j + if i = j then 1 else 0 := by
  by_cases hj : j = i
  · simp [gain, hj]
  · simp [gain, hj, Ne.symm hj]

theorem refs_lose (l : Proc) (i j : ℕ) : (l.lose i).refs j = l.refs j - if i = j then 1 else 0 := by
  by_cases hj : j = i
  · simp [lose, hj]
  · simp [lose, hj, Ne.symm hj]

def SameSurplus (l l' : Proc) : Prop := ∀ j, l'.refs j + l.needs j = l.refs j + l'.needs j

theorem sameSurplus_opened (hlt : f < nfile) (hf : l.files f = none) (fd i : ℕ) :
    l.SameSurplus (((l.gain i).setOpenfile fd (some f)).setFile f (some (some i))) := by
  intro j
  have hneeds := needs_setFile (l := (l.gain i).setOpenfile fd (some f)) hlt (some (some i)) j
  have hsame : ((l.gain i).setOpenfile fd (some f)).needs j = l.needs j := rfl
  have hfile : ((l.gain i).setOpenfile fd (some f)).files f = none := hf
  have hrefs : (((l.gain i).setOpenfile fd (some f)).setFile f (some (some i))).refs j =
      l.refs j + if i = j then 1 else 0 := refs_gain l i j
  rw [hfile, hsame] at hneeds
  simp only [reduceCtorEq, if_false, Option.some.injEq] at hneeds
  omega

theorem sameSurplus_closed (hlt : f < nfile) (hf : l.files f = some (some i))
    (href : 1 ≤ l.refs i) (fd : ℕ) :
    l.SameSurplus (((l.setFile f none).lose i).setOpenfile fd none) := by
  intro j
  have hneeds := needs_setFile (l := l) hlt none j
  have hsame : (((l.setFile f none).lose i).setOpenfile fd none).needs j =
      (l.setFile f none).needs j := rfl
  have hrefs : (((l.setFile f none).lose i).setOpenfile fd none).refs j =
      l.refs j - if i = j then 1 else 0 := refs_lose (l.setFile f none) i j
  rw [hf] at hneeds
  simp only [reduceCtorEq, if_false, Option.some.injEq] at hneeds
  by_cases hj : i = j
  · subst hj
    simp only [if_true] at hneeds hrefs
    omega
  · simp only [hj, if_false] at hneeds hrefs
    omega

theorem sameSurplus_chdir (hcwd : l.cwd = some i) (href : 1 ≤ l.refs i) (ip : ℕ) :
    l.SameSurplus (((l.gain ip).lose i).setCwd ip) := by
  intro j
  have hneeds := needs_setCwd (l := (l.gain ip).lose i) ip j
  have hsame : ((l.gain ip).lose i).needs j = l.needs j := rfl
  have hold : ((l.gain ip).lose i).cwd = some i := hcwd
  have hrefs : (((l.gain ip).lose i).setCwd ip).refs j =
      (l.gain ip).refs j - if i = j then 1 else 0 := refs_lose (l.gain ip) i j
  simp only [hold, hsame, Option.some.injEq] at hneeds
  rw [refs_gain] at hrefs
  by_cases hj : i = j
  · subst hj
    simp only [if_true] at hneeds hrefs
    omega
  · simp only [hj, if_false] at hneeds hrefs
    omega

theorem sameSurplus_setCwd (hcwd : l.cwd = none) (ip : ℕ) :
    l.SameSurplus ((l.gain ip).setCwd ip) := by
  intro j
  have hneeds := needs_setCwd (l := l.gain ip) ip j
  have hsame : (l.gain ip).needs j = l.needs j := rfl
  have hold : (l.gain ip).cwd = none := hcwd
  have hrefs : ((l.gain ip).setCwd ip).refs j = l.refs j + if ip = j then 1 else 0 :=
    refs_gain l ip j
  simp only [hold, hsame, reduceCtorEq, if_false] at hneeds
  omega

theorem SameSurplus.backed {l' : Proc} (h : l.SameSurplus l') (hl : ∀ j, l.needs j ≤ l.refs j)
    (j : ℕ) : l'.needs j ≤ l'.refs j := by
  have hsame := h j
  have hbacked := hl j
  omega

namespace Idle

theorem refs_cwd (h : l.Idle) (hcwd : l.cwd = some i) : 1 ≤ l.refs i :=
  (needs_cwd hcwd).trans (h.backed i)

theorem file (h : l.Idle) (hfd : l.openfiles fd = some f) :
    ∃ i, f < nfile ∧ l.files f = some (some i) ∧ 1 ≤ l.refs i := by
  obtain ⟨hlt, i, hi⟩ := h.own fd f hfd
  exact ⟨i, hlt, hi, (needs_files hlt hi).trans (h.backed i)⟩

theorem gain (h : l.Idle) (i : ℕ) : (l.gain i).Idle where
  toUnlocked := ⟨h.trans, h.inodes, h.bufs⟩
  __ := h
  backed j := (h.backed j).trans (refs_le_gain l i j)

theorem opened (h : l.Idle) (hlt : f < nfile) (hf : l.files f = none) (fd ip : ℕ) :
    (((l.gain ip).setOpenfile fd (some f)).setFile f (some (some ip))).Idle where
  toUnlocked := ⟨h.trans, h.inodes, h.bufs⟩
  recovering := h.recovering
  bufLock := h.bufLock
  own fd' f' hfd' := by
    by_cases hnew : fd' = fd
    · simp only [setFile, setOpenfile, hnew, update_self, Option.some.injEq] at hfd'
      subst hfd'
      exact ⟨hlt, ip, by simp [setFile]⟩
    · have hold : l.openfiles fd' = some f' := by
        simpa [setFile, setOpenfile, Proc.gain, hnew] using hfd'
      obtain ⟨hlt', i, hi⟩ := h.own fd' f' hold
      have hne : f' ≠ f := by
        rintro rfl
        rw [hf] at hi
        cases hi
      exact ⟨hlt', i, by simpa [setFile, setOpenfile, Proc.gain, hne] using hi⟩
  distinct fd₁ fd₂ f' h₁ h₂ := by
    have hother : ∀ fd', l.openfiles fd' ≠ some f := by
      intro fd' hfd'
      obtain ⟨-, i, hi⟩ := h.own fd' f hfd'
      rw [hf] at hi
      cases hi
    by_cases hfd₁ : fd₁ = fd <;> by_cases hfd₂ : fd₂ = fd
    · rw [hfd₁, hfd₂]
    · simp only [setFile, setOpenfile, hfd₁, update_self, Option.some.injEq] at h₁
      subst h₁
      exact absurd (by simpa [setFile, setOpenfile, Proc.gain, hfd₂] using h₂) (hother fd₂)
    · simp only [setFile, setOpenfile, hfd₂, update_self, Option.some.injEq] at h₂
      subst h₂
      exact absurd (by simpa [setFile, setOpenfile, Proc.gain, hfd₁] using h₁) (hother fd₁)
    · apply h.distinct fd₁ fd₂ f'
      · simpa [setFile, setOpenfile, Proc.gain, hfd₁] using h₁
      · simpa [setFile, setOpenfile, Proc.gain, hfd₂] using h₂
  backed := (sameSurplus_opened hlt hf fd ip).backed h.backed

theorem closed (h : l.Idle) (hlt : f < nfile) (hf : l.files f = some (some i))
    (hfd : l.openfiles fd = some f) : (((l.setFile f none).lose i).setOpenfile fd none).Idle where
  toUnlocked := ⟨h.trans, h.inodes, h.bufs⟩
  recovering := h.recovering
  bufLock := h.bufLock
  own fd' f' hfd' := by
    have hne : fd' ≠ fd := by
      rintro rfl
      simp [setOpenfile] at hfd'
    have hold : l.openfiles fd' = some f' := by
      simpa [setOpenfile, setFile, lose, hne] using hfd'
    have hf' : f' ≠ f := by
      rintro rfl
      exact hne (h.distinct fd' fd f' hold hfd)
    obtain ⟨hlt', j, hj⟩ := h.own fd' f' hold
    exact ⟨hlt', j, by simpa [setOpenfile, setFile, lose, hf'] using hj⟩
  distinct fd₁ fd₂ f' h₁ h₂ := by
    have hne : ∀ fd', (((l.setFile f none).lose i).setOpenfile fd none).openfiles fd' = some f' →
        l.openfiles fd' = some f' := by
      intro fd' hfd'
      by_cases heq : fd' = fd
      · simp [setOpenfile, heq] at hfd'
      · simpa [setOpenfile, setFile, lose, heq] using hfd'
    exact h.distinct fd₁ fd₂ f' (hne fd₁ h₁) (hne fd₂ h₂)
  backed :=
    (sameSurplus_closed hlt hf ((needs_files hlt hf).trans (h.backed i)) fd).backed h.backed

theorem chdir (h : l.Idle) (hcwd : l.cwd = some i) (ip : ℕ) :
    (((l.gain ip).lose i).setCwd ip).Idle where
  toUnlocked := ⟨h.trans, h.inodes, h.bufs⟩
  __ := h
  backed := (sameSurplus_chdir hcwd (h.refs_cwd hcwd) ip).backed h.backed

theorem setCwd (h : l.Idle) (hcwd : l.cwd = none) (ip : ℕ) : ((l.gain ip).setCwd ip).Idle where
  toUnlocked := ⟨h.trans, h.inodes, h.bufs⟩
  __ := h
  backed := (sameSurplus_setCwd hcwd ip).backed h.backed

end Idle

end Proc

end MCertikos.Sysfile
