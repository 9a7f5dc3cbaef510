/-
# Directory entries

The sixteen bytes of a directory entry are an inode number and a name of fourteen bytes, which
`strncpy` fills up with null bytes and `strncmp` compares up to the first one.
-/

import MCertikos.Sysfile.Inode
import Mathlib.Data.List.TakeWhile

namespace MCertikos.FS

open Sysfile (Byte Dirent cstring dirsiz strncmp strncpy)

/-! ## `string.c` -/

theorem cstring_take_succ (n : ℕ) (p : List Byte) : cstring (p.take (n + 1)) =
      if p.headD 0 = 0 then [] else p.headD 0 :: cstring (p.tail.take n) := by
  cases p with
  | nil => rfl
  | cons a p =>
    rw [List.take_succ_cons, cstring, List.takeWhile_cons, List.headD_cons, List.tail_cons]
    by_cases ha : a = 0 <;> simp [ha, cstring]

theorem strncmp_eq_zero_iff (n : ℕ) (p q : List Byte) :
    strncmp n p q = 0 ↔ cstring (p.take n) = cstring (q.take n) := by
  induction n generalizing p q with
  | zero => simp [strncmp]
  | succ n ih =>
    rw [strncmp, cstring_take_succ, cstring_take_succ]
    by_cases hp : p.headD 0 = 0
    · have hq : ((0 : ℤ) - (q.headD 0).toNat = 0) ↔ q.headD 0 = 0 := by
        have hnull : (0 : Byte).toNat = 0 := rfl
        rw [← BitVec.toNat_inj, hnull]
        omega
      rw [if_neg (fun h => h.1 hp), hp, if_pos rfl]
      refine hq.trans ⟨fun hzero => (if_pos hzero).symm, fun heq => ?_⟩
      by_contra hne
      rw [if_neg hne] at heq
      cases heq
    · by_cases hpq : p.headD 0 = q.headD 0
      · rw [if_pos ⟨hp, hpq⟩, ih, if_neg hp, ← hpq, if_neg hp, List.cons_inj_right]
      · have hne : (p.headD 0).toNat ≠ (q.headD 0).toNat := fun h =>
          hpq (BitVec.eq_of_toNat_eq h)
        rw [if_neg (fun h => hpq h.2), if_neg hp]
        constructor
        · intro hsub
          omega
        · intro heq
          split at heq
          · cases heq
          · exact absurd (List.cons.inj heq).1 hpq

theorem strncpy_eq {n : ℕ} {t : List Byte} (ht : 0 ∉ t) :
    strncpy n t = t.take n ++ List.replicate (n - t.length) 0 := by
  induction n generalizing t with
  | zero => simp [strncpy]
  | succ n ih =>
    cases t with
    | nil => simp [strncpy, List.replicate_succ]
    | cons a t =>
      obtain ⟨ha, ht⟩ := not_or.mp (mt List.mem_cons.mpr ht)
      have hne : a ≠ 0 := Ne.symm ha
      rw [strncpy, List.headD_cons, if_pos hne, List.tail_cons, ih ht, List.take_succ_cons,
        List.cons_append, List.length_cons, Nat.add_sub_add_right]

/-! ## Entries -/

structure NameOk (len : ℕ) (name : List Byte) : Prop where
  pos : 0 < name.length
  le : name.length ≤ len
  no_null : 0 ∉ name

theorem cstring_append_zeros {name : List Byte} (h : 0 ∉ name) (n : ℕ) :
    cstring (name ++ List.replicate n 0) = name := by
  have hname : ∀ a ∈ name, decide (a ≠ 0) = true := by
    intro a ha
    rw [decide_eq_true_iff]
    rintro rfl
    exact h ha
  rw [cstring, List.takeWhile_append_of_pos hname]
  cases n with
  | zero => exact List.append_nil name
  | succ n => simp [List.replicate_succ]

end MCertikos.FS

namespace MCertikos.Sysfile.Dirent

open FS

def binding (de : Dirent) : Option (List Byte × BitVec 16) :=
  if de.inum = 0 then none else some (cstring de.name, de.inum)

theorem inum_of_binding {de : Dirent} {name : List Byte} {inum : BitVec 16}
    (h : de.binding = some (name, inum)) : inum = de.inum := by
  obtain ⟨-, heq⟩ := Option.ite_none_left_eq_some.mp h
  exact (Prod.mk.inj (Option.some.inj heq)).2.symm

theorem length_encode (de : Dirent) : de.encode.length = direntSize := by
  simp only [encode, List.length_cons, List.length_append, List.length_take,
    List.length_replicate, direntSize, dirsiz]
  omega

theorem binding_decode_encode {inum : BitVec 16} {name : List Byte} (h : NameOk dirsiz name)
    (hinum : inum ≠ 0) :
    (decode (encode ⟨inum, strncpy dirsiz name⟩)).binding = some (name, inum) := by
  have hfield : strncpy dirsiz name = name ++ List.replicate (dirsiz - name.length) 0 := by
    rw [strncpy_eq h.no_null, List.take_of_length_le h.le]
  have hlength : (strncpy dirsiz name).length = dirsiz := by
    have hle := h.le
    rw [hfield, List.length_append, List.length_replicate]
    omega
  have hword : (decode (encode ⟨inum, strncpy dirsiz name⟩)).inum = inum := by
    simp only [decode, encode, List.getD_cons_zero, List.getD_cons_succ]
    ext k hk
    simp only [BitVec.getElem_append, BitVec.getElem_extractLsb']
    grind
  have hname : (decode (encode ⟨inum, strncpy dirsiz name⟩)).name = strncpy dirsiz name := by
    simp only [decode, encode, List.drop_succ_cons, List.drop_zero, hlength, Nat.sub_self,
      List.replicate_zero, List.append_nil, List.take_take, Nat.min_self]
    exact List.take_of_length_le (Nat.le_of_eq hlength)
  rw [binding, hword, if_neg hinum, hname, hfield, cstring_append_zeros h.no_null]

theorem binding_decode_clear : (decode (encode ⟨0, []⟩)).binding = none := by
  decide

end MCertikos.Sysfile.Dirent
