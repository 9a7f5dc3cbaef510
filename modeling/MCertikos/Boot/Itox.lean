/-
# Integers of the boot loader

`itox` takes the digits of an integer off from behind, adds the sign and reverses the string in
place.
-/

import Mathlib.Data.Nat.Digits.Defs

namespace MCertikos.Boot

open Function

abbrev Root := {root : ℕ // 2 ≤ root ∧ root ≤ 16}

theorem toNat_tdiv_lt (root : Root) {n : ℤ} (h : 0 < n.tdiv root) :
    (n.tdiv root).toNat < n.toNat := by
  have hroot := root.2.1
  cases n with
  | ofNat m =>
    have hpos : 0 < m / root := Int.ofNat_lt.mp h
    exact Nat.div_lt_self (Nat.pos_of_ne_zero fun hm => by simp [hm] at hpos) hroot
  | negSucc m =>
    rw [Int.negSucc_eq, Int.neg_tdiv] at h
    have hnonneg : (0 : ℤ) ≤ (m + 1 : ℤ).tdiv root := Int.tdiv_nonneg (by omega) (by omega)
    omega

def digitLoop (root : Root) (table s : ℕ → Char) (i : ℕ) (n : ℤ) : Option ((ℕ → Char) × ℕ) :=
  if 0 ≤ n.tmod root ∧ n.tmod root < root then
    let s := update s i (table (n.tmod root).toNat)
    if 0 < n.tdiv root then digitLoop root table s (i + 1) (n.tdiv root) else some (s, i + 1)
  else none
termination_by n.toNat
decreasing_by exact toNat_tdiv_lt root ‹_›

def strlen (s : ℕ → Char) : ℕ → ℕ → ℕ
  | 0, n => n
  | fuel + 1, n => if s n ≠ '\x00' then strlen s fuel (n + 1) else n

def reverseLoop (s : ℕ → Char) (i j : ℕ) : ℕ → Char :=
  if i < j then reverseLoop (update (update s i (s j)) j (s i)) (i + 1) (j - 1) else s
termination_by j - i

def finish (negative : Bool) (s : ℕ → Char) (i : ℕ) : ℕ → Char :=
  let (s, i) := if negative then (update s i '-', i + 1) else (s, i)
  let s := update s i '\x00'
  reverseLoop s 0 (strlen s i 0 - 1)

def itox (root : Root) (table : ℕ → Char) (n : BitVec 32) (s : ℕ → Char) : Option (ℕ → Char) :=
  (digitLoop root table s 0 (if n.toInt < 0 then (-n).toInt else n.toInt)).map fun (s, i) =>
    finish (n.toInt < 0) s i

/-! ## Numerals -/

def digits (root m : ℕ) : List ℕ := if m = 0 then [0] else Nat.digits root m

def numeral (root : Root) (table : ℕ → Char) (n : ℤ) : List Char :=
  (if n < 0 then ['-'] else []) ++ ((digits root n.natAbs).map table).reverse

structure DigitTable (root : Root) (table : ℕ → Char) : Prop where
  distinct : ∀ i < root.1, ∀ j < root.1, table i = table j → i = j
  proper : ∀ i < root.1, table i ≠ '-' ∧ table i ≠ '\x00'

structure Spells (s : ℕ → Char) (text : List Char) : Prop where
  chars : (List.range text.length).map s = text
  null : s text.length = '\x00'
  nonnull : '\x00' ∉ text

theorem lt_of_mem_digits {root m d : ℕ} (hroot : 2 ≤ root) (hd : d ∈ digits root m) : d < root := by
  unfold digits at hd
  split at hd
  · rw [List.mem_singleton.mp hd]
    omega
  · exact Nat.digits_lt_base hroot hd

theorem ofDigits_digits (root m : ℕ) : Nat.ofDigits root (digits root m) = m := by
  unfold digits
  split
  · next hzero => simp [hzero]
  · exact Nat.ofDigits_digits root m

theorem digits_of_lt {root m : ℕ} (hm : m < root) : digits root m = [m] := by
  unfold digits
  split
  · next hzero => rw [hzero]
  · next hpos => exact Nat.digits_of_lt root m hpos hm

theorem digits_of_le {root m : ℕ} (hroot : 2 ≤ root) (hm : root ≤ m) :
    digits root m = m % root :: digits root (m / root) := by
  have hpos : 0 < m / root := Nat.div_pos hm (by omega)
  rw [digits, digits, if_neg (by omega), if_neg (by omega), Nat.digits_def' hroot (by omega)]

variable {root : Root} {table : ℕ → Char}

theorem DigitTable.map_injective (h : DigitTable root table) {ds ds' : List ℕ}
    (hds : ∀ d ∈ ds, d < root.1) (hds' : ∀ d ∈ ds', d < root.1)
    (heq : ds.map table = ds'.map table) : ds = ds' := by
  induction ds generalizing ds' with
  | nil => exact (List.map_eq_nil_iff.mp heq.symm).symm
  | cons d ds ih =>
    cases ds' with
    | nil => cases heq
    | cons d' ds' =>
      obtain ⟨hhead, htail⟩ := List.cons.inj heq
      rw [List.forall_mem_cons] at hds hds'
      rw [h.distinct d hds.1 d' hds'.1 hhead, ih hds.2 hds'.2 htail]

theorem DigitTable.digits_injective (h : DigitTable root table) {m m' : ℕ}
    (heq : (digits root m).map table = (digits root m').map table) : m = m' := by
  have hdigits := h.map_injective (fun _ => lt_of_mem_digits root.2.1)
    (fun _ => lt_of_mem_digits root.2.1) heq
  rw [← ofDigits_digits root m, hdigits, ofDigits_digits]

/-! ## The loops -/

section Strings

variable {s : ℕ → Char} {text : List Char}

theorem map_update_range (s : ℕ → Char) (i : ℕ) (c : Char) :
    (List.range i).map (update s i c) = (List.range i).map s :=
  List.map_congr_left fun _ hk => update_of_ne (Nat.ne_of_lt (List.mem_range.mp hk)) _ _

theorem map_update_range_succ (s : ℕ → Char) (i : ℕ) (c : Char) :
    (List.range (i + 1)).map (update s i c) = (List.range i).map s ++ [c] := by
  rw [List.range_succ, List.map_append, List.map_singleton, update_self, map_update_range]

theorem strlen_eq {fuel n : ℕ} (h : ∀ k < fuel, s (n + k) ≠ '\x00') :
    strlen s fuel n = n + fuel := by
  induction fuel generalizing n with
  | zero => rfl
  | succ fuel ih =>
    have hrest : ∀ k < fuel, s (n + 1 + k) ≠ '\x00' := fun k hk => by
      rw [Nat.add_assoc, Nat.add_comm 1]
      exact h (k + 1) (Nat.succ_lt_succ hk)
    have hfirst : s n ≠ '\x00' := h 0 (Nat.succ_pos _)
    rw [strlen, if_pos hfirst, ih hrest, Nat.add_assoc, Nat.add_comm 1]

theorem reverseLoop_apply (s : ℕ → Char) (i j k : ℕ) :
    reverseLoop s i j k = if i ≤ k ∧ k ≤ j then s (i + j - k) else s k := by
  fun_induction reverseLoop s i j with
  | case1 s i j hlt ih =>
    rw [ih]
    by_cases hi : k = i
    · rw [if_neg (by omega), if_pos (by omega), hi, update_of_ne (by omega), update_self]
      congr 1
      omega
    by_cases hj : k = j
    · rw [if_neg (by omega), if_pos (by omega), hj, update_self]
      congr 1
      omega
    by_cases hin : i + 1 ≤ k ∧ k ≤ j - 1
    · rw [if_pos hin, if_pos (by omega), update_of_ne (by omega), update_of_ne (by omega)]
      congr 1
      omega
    · rw [if_neg hin, if_neg (by omega), update_of_ne hj, update_of_ne hi]
  | case2 s i j hge =>
    split
    · congr 1
      omega
    · rfl

theorem Spells.ne_null (h : Spells s text) {k : ℕ} (hk : k < text.length) : s k ≠ '\x00' :=
  fun hnull => h.nonnull <| by
    rw [← h.chars, ← hnull]
    exact List.mem_map_of_mem (List.mem_range.mpr hk)

theorem Spells.unique {text' : List Char} (h : Spells s text) (h' : Spells s text') :
    text = text' := by
  have hlength : text.length = text'.length := by
    refine Nat.le_antisymm (Nat.not_lt.mp fun hlt => ?_) (Nat.not_lt.mp fun hlt => ?_)
    · exact h.ne_null hlt h'.null
    · exact h'.ne_null hlt h.null
  rw [← h.chars, hlength, h'.chars]

theorem Spells.reverse (h : Spells s text) :
    Spells (reverseLoop s 0 (strlen s text.length 0 - 1)) text.reverse := by
  have hchars : ∀ k < text.length, s (0 + k) ≠ '\x00' := fun k hk => by
    rw [Nat.zero_add]
    exact h.ne_null hk
  rw [strlen_eq hchars, Nat.zero_add]
  refine ⟨?_, ?_, by rw [List.mem_reverse]; exact h.nonnull⟩
  · conv_rhs => rw [← h.chars, ← List.map_reverse, List.range_eq_range', List.reverse_range',
      List.map_map]
    rw [List.length_reverse]
    refine List.map_congr_left fun k hk => ?_
    have hlt := List.mem_range.mp hk
    rw [reverseLoop_apply, if_pos (by omega), comp_apply]
    congr 1
    omega
  · rw [List.length_reverse, reverseLoop_apply, ← h.null]
    split
    · congr 1
      omega
    · rfl

theorem spells_finish (hchars : (List.range text.length).map s = text) (hnull : '\x00' ∉ text)
    (negative : Bool) : Spells (finish negative s text.length)
      ((if negative then ['-'] else []) ++ text.reverse) := by
  have hend {s : ℕ → Char} {text : List Char} (hchars : (List.range text.length).map s = text)
      (hnull : '\x00' ∉ text) : Spells (update s text.length '\x00') text :=
    ⟨(map_update_range ..).trans hchars, update_self .., hnull⟩
  cases negative with
  | false => exact (hend hchars hnull).reverse
  | true =>
    have hsign : (List.range (text ++ ['-']).length).map (update s text.length '-') =
        text ++ ['-'] := by
      rw [List.length_append, List.length_singleton, map_update_range_succ, hchars]
    have hspells := (hend hsign (by simpa using hnull)).reverse
    rw [List.length_append, List.length_singleton, List.reverse_append] at hspells
    exact hspells

end Strings

theorem digitLoop_eq (root : Root) (table s : ℕ → Char) (i m : ℕ) :
    ∃ s', digitLoop root table s i m = some (s', i + (digits root m).length) ∧
      (List.range (i + (digits root m).length)).map s' =
        (List.range i).map s ++ (digits root m).map table := by
  have hroot := root.2.1
  induction m using Nat.strong_induction_on generalizing s i with
  | _ m ih =>
    have hdigit : (0 : ℤ) ≤ ((m % root : ℕ) : ℤ) ∧ ((m % root : ℕ) : ℤ) < root :=
      ⟨Int.natCast_nonneg _, Int.ofNat_lt.mpr (Nat.mod_lt m (by omega))⟩
    rw [digitLoop, ← Int.ofNat_tmod, ← Int.ofNat_tdiv, if_pos hdigit, Int.toNat_natCast]
    dsimp only
    by_cases hm : root ≤ m
    · have hpos : 0 < m / root := Nat.div_pos hm (by omega)
      obtain ⟨s', hloop, hchars⟩ := ih (m / root) (Nat.div_lt_self (by omega) hroot)
        (update s i (table (m % root))) (i + 1)
      rw [map_update_range_succ] at hchars
      rw [if_pos (Int.natCast_pos.mpr hpos), hloop, digits_of_le hroot hm, List.length_cons,
        Nat.add_comm (List.length _), ← Nat.add_assoc, List.map_cons, List.append_cons]
      exact ⟨s', rfl, hchars⟩
    · have hlt : m < root := Nat.not_le.mp hm
      have hzero : ¬ (0 : ℤ) < ((m / root : ℕ) : ℤ) := by
        rw [Nat.div_eq_of_lt hlt]
        exact Int.lt_irrefl 0
      rw [if_neg hzero, digits_of_lt hlt, Nat.mod_eq_of_lt hlt]
      exact ⟨_, rfl, map_update_range_succ ..⟩

/-! ## The conversion -/

theorem DigitTable.notMem_digits (h : DigitTable root table) (m : ℕ) :
    '-' ∉ (digits root m).map table ∧ '\x00' ∉ (digits root m).map table := by
  constructor
  all_goals
    intro hmem
    obtain ⟨d, hd, heq⟩ := List.mem_map.mp hmem
  · exact (h.proper d (lt_of_mem_digits root.2.1 hd)).1 heq
  · exact (h.proper d (lt_of_mem_digits root.2.1 hd)).2 heq

theorem DigitTable.spells_digits (h : DigitTable root table) {m : ℕ} {s : ℕ → Char}
    (hchars : (List.range (digits root m).length).map s = (digits root m).map table) {n : ℤ}
    (habs : n.natAbs = m) :
    Spells (finish (n < 0) s (digits root m).length) (numeral root table n) := by
  rw [← List.length_map table] at hchars ⊢
  have hspells := spells_finish hchars (h.notMem_digits m).2 (n < 0)
  rw [numeral, habs]
  simpa using hspells

theorem DigitTable.numeral_injective (h : DigitTable root table) :
    Injective (numeral root table) := by
  have hsign (n : ℤ) : '-' ∈ numeral root table n ↔ n < 0 := by
    rw [numeral, List.mem_append, List.mem_reverse]
    split <;> simp_all [h.notMem_digits n.natAbs]
  intro n n' heq
  have hneg : n < 0 ↔ n' < 0 := by rw [← hsign n, heq, hsign n']
  have habs : n.natAbs = n'.natAbs := by
    unfold numeral at heq
    simp only [hneg] at heq
    exact h.digits_injective (List.reverse_inj.mp (List.append_cancel_left heq))
  omega

theorem magnitude_eq {n : BitVec 32} (hn : n ≠ BitVec.intMin 32) :
    (if n.toInt < 0 then (-n).toInt else n.toInt) = n.toInt.natAbs := by
  rw [BitVec.toInt_neg_of_ne_intMin hn]
  split <;> omega

theorem itox_intMin (root : Root) (table s : ℕ → Char) :
    itox root table (BitVec.intMin 32) s =
      if (-2147483648 : ℤ).tmod root = 0 then some (finish true (update s 0 (table 0)) 1)
      else none := by
  have hmagnitude : (if (BitVec.intMin 32).toInt < 0 then (-BitVec.intMin 32).toInt
      else (BitVec.intMin 32).toInt) = -2147483648 := by decide
  have hquotient : ¬ 0 < (-2147483648 : ℤ).tdiv root := by
    have hnonneg : (0 : ℤ) ≤ (2147483648 : ℤ).tdiv root := Int.tdiv_nonneg (by decide) (by omega)
    rw [Int.neg_tdiv]
    omega
  have hdigit : (-2147483648 : ℤ).tmod root ≤ 0 := by
    have hnonneg : (0 : ℤ) ≤ (2147483648 : ℤ).tmod root := Int.tmod_nonneg _ (by decide)
    rw [Int.neg_tmod]
    omega
  have hroot := root.2.1
  rw [itox, hmagnitude, digitLoop, if_neg hquotient]
  by_cases hzero : (-2147483648 : ℤ).tmod root = 0
  · rw [if_pos hzero, hzero, if_pos (by omega)]
    rfl
  · rw [if_neg hzero, if_neg (by omega)]
    rfl

theorem DigitTable.spells_intMin (h : DigitTable root table) (s : ℕ → Char) :
    Spells (finish true (update s 0 (table 0)) 1) ['-', table 0] := by
  have hchars : (List.range [table 0].length).map (update s 0 (table 0)) = [table 0] :=
    map_update_range_succ s 0 _
  have hnull : '\x00' ∉ [table 0] := by
    simpa using (h.proper 0 (Nat.lt_of_lt_of_le Nat.zero_lt_two root.2.1)).2.symm
  exact spells_finish hchars hnull true

/-- **The conversion is exact except at the least integer.** For every table of digits and every
root: `itox` reads inside the table and leaves the numeral of `n` exactly if `n` is not the least
integer; and the numeral determines the integer. -/
theorem itox_exact_iff (h : DigitTable root table) (s : ℕ → Char) :
    (∀ n : BitVec 32, (∃ s', itox root table n s = some s' ∧
      Spells s' (numeral root table n.toInt)) ↔ n ≠ BitVec.intMin 32) ∧
    Injective (numeral root table) := by
  refine ⟨fun n => ⟨?_, fun hn => ?_⟩, h.numeral_injective⟩
  · rintro ⟨s', hitox, hspells⟩ rfl
    rw [itox_intMin] at hitox
    split at hitox
    · rw [← Option.some.inj hitox, show (BitVec.intMin 32).toInt = -2147483648 from by decide,
        numeral, if_pos (by decide)] at hspells
      have hdigits : ((digits root 2147483648).map table).reverse = [table 0] :=
        (List.cons.inj (hspells.unique (h.spells_intMin s))).2
      exact absurd (h.digits_injective (List.reverse_eq_iff.mp hdigits)) (Nat.succ_ne_zero _)
    · cases hitox
  · obtain ⟨s', hloop, hchars⟩ := digitLoop_eq root table s 0 n.toInt.natAbs
    rw [Nat.zero_add] at hloop hchars
    exact ⟨_, by rw [itox, magnitude_eq hn, hloop]; rfl, h.spells_digits hchars rfl⟩

theorem digitTable_hex : DigitTable ⟨16, by decide⟩ Nat.digitChar := ⟨by decide, by decide⟩

theorem itox_exact_of_hex : ∃ s',
    itox ⟨16, by decide⟩ Nat.digitChar (BitVec.ofInt 32 (-255)) (fun _ => 'x') = some s' ∧
      Spells s' ['-', 'f', 'f'] := by
  have hnumeral : numeral ⟨16, by decide⟩ Nat.digitChar (BitVec.ofInt 32 (-255)).toInt =
      ['-', 'f', 'f'] := by
    rw [show (BitVec.ofInt 32 (-255)).toInt = -255 from by decide]
    simp [numeral, digits]
  rw [← hnumeral]
  exact ((itox_exact_iff digitTable_hex _).1 _).mpr (by decide)

/-- The address 0x80000000 is printed as -0, and `itoa` reads before its table. -/
theorem itox_fails_at_intMin :
    (∃ s', itox ⟨16, by decide⟩ Nat.digitChar (BitVec.intMin 32) (fun _ => 'x') = some s' ∧
      Spells s' ['-', '0']) ∧
    itox ⟨10, by decide⟩ Nat.digitChar (BitVec.intMin 32) (fun _ => 'x') = none :=
  ⟨⟨_, itox_intMin .., digitTable_hex.spells_intMin _⟩, itox_intMin ..⟩

end MCertikos.Boot
