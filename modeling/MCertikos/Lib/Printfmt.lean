/-
# Formatted output

`vprintfmt` walks the format by a pointer.
-/

import Mathlib.Algebra.Ring.Nat
import Mathlib.Data.List.Basic
import Mathlib.Data.List.Induction
import Mathlib.Data.List.TakeWhile
import Mathlib.Logic.Relation
import Mathlib.Tactic.Ring

namespace MCertikos.Lib

/-! ## Numbers -/

abbrev Base := {base : ℕ // 2 ≤ base ∧ base ≤ 16}

def padding (width : ℤ) (padc : Char) : List Char := List.replicate width.toNat padc

def printnum (base : Base) (padc : Char) (num : ℕ) (width : ℤ) : List Char :=
  (if base.1 ≤ num then printnum base padc (num / base) (width - 1)
    else padding (width - 1) padc) ++ [Nat.digitChar (num % base)]
termination_by num
decreasing_by exact Nat.div_lt_self (by have := base.2.1; omega) base.2.1

def digitValue (c : Char) : ℕ := if c.isDigit then c.toNat - 48 else c.toNat - 87

def readNumber (base : ℕ) (text : List Char) : ℕ :=
  text.foldl (fun n c => base * n + digitValue c) 0

structure Denotes (base : Base) (num : ℕ) (text : List Char) : Prop where
  read : readNumber base text = num
  digits : ∀ c ∈ text, ∃ d < base.1, c = Nat.digitChar d
  ne_nil : text ≠ []
  leading : text.head? = some '0' → text = ['0']

theorem digitValue_digitChar : ∀ d < 16, digitValue (Nat.digitChar d) = d := by decide

theorem eq_zero_of_digitChar : ∀ d < 16, Nat.digitChar d = '0' → d = 0 := by decide

theorem readNumber_concat (base : ℕ) (text : List Char) (c : Char) :
    readNumber base (text ++ [c]) = base * readNumber base text + digitValue c := by
  rw [readNumber, List.foldl_append]
  rfl

variable {base : Base} {num : ℕ} {text : List Char}

theorem Denotes.singleton (hnum : num < base) : Denotes base num [Nat.digitChar num] := by
  have hlt : num < 16 := hnum.trans_le base.2.2
  refine ⟨?_, by simpa using ⟨num, hnum, rfl⟩, List.cons_ne_nil _ _, fun hhead => ?_⟩
  · rw [← List.nil_append [_], readNumber_concat, digitValue_digitChar num hlt]
    exact Nat.zero_add num
  · rw [eq_zero_of_digitChar num hlt (Option.some.inj hhead)]
    rfl

theorem Denotes.concat (h : Denotes base (num / base) text) (hnum : base ≤ num) :
    Denotes base num (text ++ [Nat.digitChar (num % base)]) := by
  have hpos : 0 < base.1 := by have := base.2.1; omega
  have hmod : num % base < base.1 := Nat.mod_lt _ hpos
  refine ⟨?_, fun c hc => ?_, by simp, fun hhead => ?_⟩
  · rw [readNumber_concat, h.read, digitValue_digitChar _ (hmod.trans_le base.2.2)]
    exact Nat.div_add_mod ..
  · obtain hc | hc := List.mem_append.mp hc
    · exact h.digits c hc
    · exact ⟨_, hmod, List.mem_singleton.mp hc⟩
  · -- A leading zero would be the whole of the more significant digits.
    rw [List.head?_append_of_ne_nil _ h.ne_nil] at hhead
    have hzero : num / base = 0 := by
      rw [← h.read, h.leading hhead]
      rfl
    exact absurd hzero (Nat.div_pos hnum hpos).ne'

theorem printnum_denotes (base : Base) (padc : Char) (num : ℕ) (width : ℤ) :
    ∃ text, Denotes base num text ∧
      printnum base padc num width = padding (width - text.length) padc ++ text := by
  induction num using Nat.strong_induction_on generalizing width with
  | _ num ih =>
    rw [printnum]
    split
    · next hnum =>
      have hless := Nat.div_lt_self (Nat.lt_of_lt_of_le (by have := base.2.1; omega) hnum) base.2.1
      obtain ⟨text, htext, heq⟩ := ih _ hless (width - 1)
      refine ⟨_, htext.concat hnum, ?_⟩
      rw [heq, List.append_assoc, List.length_append, List.length_singleton]
      congr 2
      push_cast
      ring
    · next hnum =>
      rw [Nat.mod_eq_of_lt (Nat.not_le.mp hnum)]
      exact ⟨_, .singleton (Nat.not_le.mp hnum), rfl⟩

/-! ## `vprintfmt` -/

structure Esc where
  padc : Char := ' '
  width : ℤ := -1
  precision : ℤ := -1
  lflag : ℕ := 0
  altflag : Bool := false

def Esc.processPrecision (e : Esc) (precision : ℤ) : Esc :=
  if e.width < 0 then { e with width := precision, precision := -1 }
  else { e with precision := precision }

/-- Where `vprintfmt` is: between escapes, behind the label `reswitch`, in the loop over a width
or in the one that goes back. -/
inductive Mode
  | plain
  | escape (e : Esc)
  | number (e : Esc) (precision : ℤ)
  | back
  | done

structure Printer where
  mode : Mode
  fmt : ℕ
  ap : ℕ
  out : List Char

section Model

variable (ap : ℕ → BitVec 32) (str : BitVec 32 → List Char)

def getuint (n lflag : ℕ) : BitVec 64 × ℕ :=
  if 2 ≤ lflag then (ap (n + 1) ++ ap n, n + 2) else ((ap n).setWidth 64, n + 1)

def getint (n lflag : ℕ) : BitVec 64 × ℕ :=
  if 2 ≤ lflag then (ap (n + 1) ++ ap n, n + 2) else ((ap n).signExtend 64, n + 1)

namespace Esc

variable (e : Esc) (n : ℕ)

def number (base : Base) (num : BitVec 64) : List Char :=
  printnum base e.padc num.toNat e.width

def string (p : List Char) : List Char :=
  let shown := if e.precision < 0 then p else p.take e.precision.toNat
  let text := shown.map fun ch => if e.altflag ∧ (ch < ' ' ∨ '~' < ch) then '?' else ch
  if 0 < e.width ∧ e.padc ≠ '-' then padding (e.width - shown.length) e.padc ++ text
  else text ++ padding (e.width - shown.length) ' '

def signed (num : BitVec 64) : List Char :=
  if num.toInt < 0 then '-' :: e.number ⟨10, by decide⟩ (-num) else e.number ⟨10, by decide⟩ num

def flag (ch : Char) : Option (Mode × ℕ) :=
  match ch with
  | '-' => some (.escape { e with padc := '-' }, n)
  | '0' => some (.escape { e with padc := '0' }, n)
  | '*' => some (.escape (e.processPrecision (ap n).toInt), n + 1)
  | '.' => some (.escape (if e.width < 0 then { e with width := 0 } else e), n)
  | '#' => some (.escape { e with altflag := true }, n)
  | 'l' => some (.escape { e with lflag := e.lflag + 1 }, n)
  | '1' | '2' | '3' | '4' | '5' | '6' | '7' | '8' | '9' =>
    some (.number e (ch.toNat - 48), n)
  | _ => none

def convert : Char → Option (List Char × ℕ)
  | 'c' => some ([Char.ofNat ((ap n).toNat % 256)], n + 1)
  | 's' => some (e.string (if ap n = 0 then "(null)".toList else str (ap n)), n + 1)
  | 'd' => some (e.signed (getint ap n e.lflag).1, (getint ap n e.lflag).2)
  | 'u' => some (e.number ⟨10, by decide⟩ (getuint ap n e.lflag).1, (getuint ap n e.lflag).2)
  | 'o' => some (e.number ⟨8, by decide⟩ (getuint ap n e.lflag).1, (getuint ap n e.lflag).2)
  | 'p' => some ('0' :: 'x' :: e.number ⟨16, by decide⟩ ((ap n).setWidth 64), n + 1)
  | 'x' => some (e.number ⟨16, by decide⟩ (getuint ap n e.lflag).1, (getuint ap n e.lflag).2)
  | '%' => some (['%'], n)
  | _ => none

end Esc

variable (format : List Char)

def charAt (i : ℕ) : Option Char :=
  if i ≤ format.length then some (format.getD i '\x00') else none

def step : Printer → Option Printer
  | ⟨.plain, i, n, out⟩ => do
    let ch ← charAt format i
    if ch = '%' then return ⟨.escape {}, i + 1, n, out⟩
    else if ch = '\x00' then return ⟨.done, i + 1, n, out⟩
    else return ⟨.plain, i + 1, n, out ++ [ch]⟩
  | ⟨.escape e, i, n, out⟩ => do
    let ch ← charAt format i
    match e.flag ap n ch with
    | some (mode, n') => return ⟨mode, i + 1, n', out⟩
    | none =>
      match e.convert ap str n ch with
      | some (text, n') => return ⟨.plain, i + 1, n', out ++ text⟩
      | none => return ⟨.back, i, n, out ++ ['%']⟩
  | ⟨.number e precision, i, n, out⟩ => do
    let ch ← charAt format i
    if '0' ≤ ch ∧ ch ≤ '9' then
      return ⟨.number e (precision * 10 + ch.toNat - 48), i + 1, n, out⟩
    else return ⟨.escape (e.processPrecision precision), i, n, out⟩
  | ⟨.back, 0, _, _⟩ => none
  | ⟨.back, i + 1, n, out⟩ => do
    let ch ← charAt format i
    if ch = '%' then return ⟨.plain, i + 1, n, out⟩ else return ⟨.back, i, n, out⟩
  | ⟨.done, _, _, _⟩ => none

def Steps : Printer → Printer → Prop :=
  Relation.ReflTransGen fun s s' => step ap str format s = some s'

def start : Printer := ⟨.plain, 0, 0, []⟩

end Model

def flagChars : List Char :=
  ['-', '0', '1', '2', '3', '4', '5', '6', '7', '8', '9', '*', '.', '#', 'l']

def conversions : List Char := ['c', 's', 'd', 'u', 'o', 'p', 'x', '%']

inductive Mode.Scans : Mode → Prop
  | escape (e : Esc) : Scans (.escape e)
  | number (e : Esc) (precision : ℤ) : Scans (.number e precision)

structure At (format : List Char) (i : ℕ) (rest : List Char) : Prop where
  le : i ≤ format.length
  drop_eq : format.drop i = rest

section Run

variable {ap : ℕ → BitVec 32} {str : BitVec 32 → List Char} {format flags rest out : List Char}
  {i n : ℕ} {ch : Char} {mode : Mode}

theorem At.charAt (h : At format i rest) : charAt format i = some (rest.headD '\x00') := by
  rw [Lib.charAt, if_pos h.le, ← h.drop_eq, List.getD_eq_getElem?_getD,
    List.headD_eq_head?_getD, List.head?_drop]

theorem At.add (h : At format i (flags ++ rest)) : At format (i + flags.length) rest := by
  have hlength := congrArg List.length h.drop_eq
  rw [List.length_drop, List.length_append] at hlength
  refine ⟨?_, ?_⟩
  · have := h.le
    omega
  · rw [← List.drop_drop, h.drop_eq, List.drop_left]

theorem At.succ (h : At format i (ch :: rest)) : At format (i + 1) rest :=
  (show At format i ([ch] ++ rest) from h).add

section Switch

variable (ap : ℕ → BitVec 32) (str : BitVec 32 → List Char) (e : Esc) (n : ℕ)

theorem exists_flag (h : ch ∈ flagChars) :
    ∃ mode n', mode.Scans ∧ e.flag ap n ch = some (mode, n') := by
  simp only [flagChars, List.mem_cons, List.not_mem_nil, or_false] at h
  obtain rfl | rfl | rfl | rfl | rfl | rfl | rfl | rfl | rfl | rfl | rfl | rfl | rfl | rfl | rfl :=
    h
  all_goals exact ⟨_, _, by constructor, rfl⟩

theorem flag_eq_none (h : ch ∉ flagChars) : e.flag ap n ch = none := by
  unfold Esc.flag
  split <;> simp_all [flagChars]

theorem exists_convert (h : ch ∈ conversions) :
    ∃ text n', e.convert ap str n ch = some (text, n') := by
  simp only [conversions, List.mem_cons, List.not_mem_nil, or_false] at h
  obtain rfl | rfl | rfl | rfl | rfl | rfl | rfl | rfl := h
  all_goals exact ⟨_, _, rfl⟩

theorem convert_eq_none (h : ch ∉ conversions) : e.convert ap str n ch = none := by
  unfold Esc.convert
  split <;> simp_all [conversions]

end Switch

theorem digit_mem (h : '0' ≤ ch ∧ ch ≤ '9') : ch ∈ flagChars := by
  have hlist : ∀ k < 58, 48 ≤ k → Char.ofNat k ∈ flagChars := by decide
  rw [← Char.ofNat_toNat ch]
  exact hlist _ (Nat.lt_succ_of_le h.2) h.1

theorem steps_flag (hmode : mode.Scans) (h : At format i (ch :: rest)) (hch : ch ∈ flagChars) :
    ∃ mode' n', mode'.Scans ∧ Steps ap str format ⟨mode, i, n, out⟩ ⟨mode', i + 1, n', out⟩ := by
  have hescape (e : Esc) : ∃ mode' n', mode'.Scans ∧
      Steps ap str format ⟨.escape e, i, n, out⟩ ⟨mode', i + 1, n', out⟩ := by
    obtain ⟨mode', n', hscans, hflag⟩ := exists_flag ap e n hch
    exact ⟨mode', n', hscans, .single (by simp [step, h.charAt, hflag])⟩
  cases hmode with
  | escape e => exact hescape e
  | number e precision =>
    by_cases hdigit : '0' ≤ ch ∧ ch ≤ '9'
    · exact ⟨_, n, .number e _, .single (by simp [step, h.charAt, hdigit]; rfl)⟩
    · obtain ⟨mode', n', hscans, hsteps⟩ := hescape (e.processPrecision precision)
      exact ⟨mode', n', hscans, .head (by simp [step, h.charAt, hdigit]) hsteps⟩

theorem steps_flags (hmode : mode.Scans) (h : At format i (flags ++ rest))
    (hflags : ∀ c ∈ flags, c ∈ flagChars) :
    ∃ mode' n', mode'.Scans ∧
      Steps ap str format ⟨mode, i, n, out⟩ ⟨mode', i + flags.length, n', out⟩ := by
  induction flags generalizing i n mode with
  | nil => exact ⟨mode, n, hmode, .refl⟩
  | cons c flags ih =>
    obtain ⟨mode₁, n₁, hscans₁, hsteps₁⟩ := steps_flag hmode h (hflags c List.mem_cons_self)
    obtain ⟨mode', n', hscans, hsteps⟩ := ih hscans₁ h.succ fun c hc =>
      hflags c (List.mem_cons_of_mem _ hc)
    rw [List.length_cons, Nat.add_comm flags.length, ← Nat.add_assoc]
    exact ⟨mode', n', hscans, hsteps₁.trans hsteps⟩

theorem steps_scan (h : At format i ('%' :: flags ++ rest)) (hflags : ∀ c ∈ flags, c ∈ flagChars)
    (hrest : rest.headD '\x00' ∉ flagChars) : ∃ e n',
      Steps ap str format ⟨.plain, i, n, out⟩ ⟨.escape e, i + 1 + flags.length, n', out⟩ := by
  have hstart : step ap str format ⟨.plain, i, n, out⟩ = some ⟨.escape {}, i + 1, n, out⟩ := by
    simp [step, h.charAt]
  obtain ⟨mode, n', hscans, hsteps⟩ := steps_flags (.escape {}) h.succ hflags
  cases hscans with
  | escape e => exact ⟨e, n', .head hstart hsteps⟩
  | number e precision =>
    refine ⟨e.processPrecision precision, n', .head hstart (hsteps.tail ?_)⟩
    have hat := h.succ.add.charAt
    have hdigit := mt digit_mem hrest
    generalize rest.headD '\x00' = ch at hat hdigit
    simp [step, hat, hdigit]

theorem steps_conversion (h : At format i ('%' :: flags ++ ch :: rest))
    (hflags : ∀ c ∈ flags, c ∈ flagChars) (hch : ch ∈ conversions) : ∃ n' out',
      Steps ap str format ⟨.plain, i, n, out⟩ ⟨.plain, i + 1 + flags.length + 1, n', out'⟩ := by
  have hdisjoint : ∀ c ∈ conversions, c ∉ flagChars := by simp [conversions, flagChars]
  obtain ⟨e, n₁, hsteps⟩ := steps_scan h hflags (hdisjoint ch hch)
  obtain ⟨text, n', hconvert⟩ := exists_convert ap str e n₁ hch
  refine ⟨n', out ++ text, hsteps.tail ?_⟩
  simp [step, h.succ.add.charAt, flag_eq_none ap e n₁ (hdisjoint ch hch), hconvert]

theorem steps_back (h : At format i ('%' :: flags ++ rest)) (hflags : '%' ∉ flags) :
    Steps ap str format ⟨.back, i + 1 + flags.length, n, out⟩ ⟨.plain, i + 1, n, out⟩ := by
  induction flags using List.reverseRecOn generalizing rest with
  | nil => exact .single (by simp [step, h.charAt])
  | append_singleton flags c ih =>
    rw [List.cons_append, List.append_assoc] at h
    have hc : c ≠ '%' := by
      rintro rfl
      simp at hflags
    rw [List.length_append]
    refine .head ?_ (ih h fun hmem => hflags (List.mem_append_left _ hmem))
    have hat := h.succ.add.charAt
    simp [step, ← Nat.add_assoc, hat, hc]

theorem steps_unknown (h : At format i ('%' :: flags ++ rest))
    (hflags : ∀ c ∈ flags, c ∈ flagChars) (hflag : rest.headD '\x00' ∉ flagChars)
    (hconversion : rest.headD '\x00' ∉ conversions) : ∃ n',
      Steps ap str format ⟨.plain, i, n, out⟩ ⟨.plain, i + 1, n', out ++ ['%']⟩ := by
  obtain ⟨e, n', hsteps⟩ := steps_scan h hflags hflag
  have hpercent : '%' ∉ flags := fun hmem => absurd (hflags _ hmem) (by decide)
  refine ⟨n', (hsteps.tail ?_).trans (steps_back h hpercent)⟩
  have hat := h.succ.add.charAt
  generalize rest.headD '\x00' = ch at hat hflag hconversion
  simp [step, hat, flag_eq_none ap e n' hflag, convert_eq_none ap str e n' hconversion]

theorem steps_plain (h : At format i (flags ++ rest))
    (hflags : ∀ c ∈ flags, c ≠ '%' ∧ c ≠ '\x00') :
    Steps ap str format ⟨.plain, i, n, out⟩ ⟨.plain, i + flags.length, n, out ++ flags⟩ := by
  induction flags generalizing i out with
  | nil =>
    rw [List.append_nil]
    exact .refl
  | cons c flags ih =>
    have hc := hflags c List.mem_cons_self
    have hstep : step ap str format ⟨.plain, i, n, out⟩ = some ⟨.plain, i + 1, n, out ++ [c]⟩ := by
      simp [step, h.charAt, hc]
    rw [List.length_cons, Nat.add_comm flags.length, ← Nat.add_assoc, List.append_cons]
    exact .head hstep (ih h.succ fun c hc => hflags c (List.mem_cons_of_mem _ hc))

/-- What is left of the format behind the pointer gets shorter from escape to escape. -/
theorem plain_returns (h : At format i rest) (n : ℕ) (out : List Char) :
    ∃ s, Steps ap str format ⟨.plain, i, n, out⟩ s ∧ s.mode = .done := by
  induction hlength : rest.length using Nat.strong_induction_on generalizing i rest n out with
  | _ k ih =>
    subst hlength
    -- From any place further on the printer returns, so it does from where it can get there.
    have hthen {j n' : ℕ} {out' rest' : List Char} (hless : rest'.length < rest.length)
        (hat : At format j rest')
        (hsteps : Steps ap str format ⟨.plain, i, n, out⟩ ⟨.plain, j, n', out'⟩) :
        ∃ s, Steps ap str format ⟨.plain, i, n, out⟩ s ∧ s.mode = .done := by
      obtain ⟨s, hreturns, hdone⟩ := ih _ hless hat n' out' rfl
      exact ⟨s, hsteps.trans hreturns, hdone⟩
    cases rest with
    | nil => exact ⟨_, .single (by simp [step, h.charAt]; rfl), rfl⟩
    | cons c tail =>
      by_cases hpercent : c = '%'
      · subst hpercent
        have hsplit := List.takeWhile_append_dropWhile (p := (· ∈ flagChars)) (l := tail)
        have hflags (c) (hc : c ∈ tail.takeWhile (· ∈ flagChars)) : c ∈ flagChars := by
          simpa using List.mem_takeWhile_imp hc
        have hhead := List.head?_dropWhile_not (· ∈ flagChars) tail
        generalize tail.takeWhile (· ∈ flagChars) = flags at hsplit hflags
        generalize tail.dropWhile (· ∈ flagChars) = after at hsplit hhead
        subst hsplit
        cases after with
        | nil =>
          obtain ⟨n', hsteps⟩ := steps_unknown h hflags (by decide) (by decide)
          exact hthen (Nat.lt_succ_self _) h.succ hsteps
        | cons ch after =>
          have hflag : ch ∉ flagChars := by simpa using hhead
          by_cases hconversion : ch ∈ conversions
          · obtain ⟨n', out', hsteps⟩ := steps_conversion h hflags hconversion
            exact hthen (by simp; omega) h.succ.add.succ hsteps
          · obtain ⟨n', hsteps⟩ := steps_unknown h hflags hflag hconversion
            exact hthen (Nat.lt_succ_self _) h.succ hsteps
      · by_cases hnull : c = '\x00'
        · exact ⟨_, .single (by simp [step, h.charAt, hnull]; rfl), rfl⟩
        · have hat : At format i ([c] ++ tail) := h
          exact hthen (Nat.lt_succ_self _) h.succ
            (steps_plain hat (by simpa using ⟨hpercent, hnull⟩))

theorem step_done {s : Printer} (h : s.mode = .done) : step ap str format s = none := by
  obtain ⟨mode, i, n, out⟩ := s
  subst h
  rfl

/-- **The formatter returns.** For every format and all arguments: `vprintfmt` returns, no state
on the way reads outside the format, and an escape without a known conversion character is
printed as it stands, together with that character. -/
theorem vprintfmt_returns (ap : ℕ → BitVec 32) (str : BitVec 32 → List Char)
    (format : List Char) :
    (∃ s, Steps ap str format start s ∧ s.mode = .done) ∧
    (∀ s, Steps ap str format start s → s.mode = .done ∨ ∃ s', step ap str format s = some s') ∧
    ∀ before flags rest, format = before ++ ('%' :: flags ++ rest) →
      (∀ c ∈ flags, c ∈ flagChars) →
      (∀ c ∈ rest.head?, c ≠ '\x00' ∧ c ∉ flagChars ∧ c ∉ conversions) →
      ∀ n out, ∃ n', Steps ap str format ⟨.plain, before.length, n, out⟩
        ⟨.plain, before.length + 1 + (flags ++ rest.take 1).length, n',
          out ++ ['%'] ++ (flags ++ rest.take 1)⟩ := by
  have hreturns : ∃ s, Steps ap str format start s ∧ s.mode = .done :=
    plain_returns ⟨Nat.zero_le _, rfl⟩ 0 []
  refine ⟨hreturns, fun s hs => ?_, fun before flags rest hformat hflags hrest n out => ?_⟩
  · obtain ⟨last, hsteps, hdone⟩ := hreturns
    have hunique : Relator.RightUnique fun s s' => step ap str format s = some s' :=
      fun _ _ _ hb hc => Option.some.inj (hb.symm.trans hc)
    obtain hto | hfrom := Relation.ReflTransGen.total_of_right_unique hunique hs hsteps
    · obtain rfl | ⟨s', hstep, -⟩ := hto.cases_head
      · exact .inl hdone
      · exact .inr ⟨s', hstep⟩
    · obtain rfl | ⟨s', hstep, -⟩ := hfrom.cases_head
      · exact .inl hdone
      · rw [step_done hdone] at hstep
        cases hstep
  · have hbefore : At format 0 (before ++ ('%' :: flags ++ rest)) := ⟨Nat.zero_le _, hformat⟩
    have hat := hbefore.add
    rw [Nat.zero_add] at hat
    have hplain (c) (hc : c ∈ flags ++ rest.take 1) : c ≠ '%' ∧ c ≠ '\x00' := by
      have hflagChars : ∀ c ∈ flagChars, c ≠ '%' ∧ c ≠ '\x00' := by simp [flagChars]
      obtain hc | hc := List.mem_append.mp hc
      · exact hflagChars c (hflags c hc)
      · obtain ⟨hnull, -, hconversion⟩ := hrest c (by cases rest <;> simp_all)
        exact ⟨fun heq => hconversion (heq ▸ by decide), hnull⟩
    have hhead : rest.headD '\x00' ∉ flagChars ∧ rest.headD '\x00' ∉ conversions := by
      cases rest with
      | nil => decide
      | cons c rest => exact (hrest c rfl).2
    obtain ⟨n', hsteps⟩ := steps_unknown hat hflags hhead.1 hhead.2
    have hnext := hat.succ
    rw [List.append_eq, ← List.take_append_drop 1 rest, ← List.append_assoc] at hnext
    exact ⟨n', hsteps.trans (steps_plain hnext hplain)⟩

end Run

/-! ## Signed decimals -/

def readInt (text : List Char) : ℤ :=
  if text.head? = some '-' then -(readNumber 10 text.tail : ℤ) else readNumber 10 text

theorem number_denotes (base : Base) (num : BitVec 64) :
    Denotes base num.toNat (({} : Esc).number base num) := by
  obtain ⟨text, htext, heq⟩ := printnum_denotes base ' ' num.toNat (-1)
  have hpad : (-1 - text.length : ℤ).toNat = 0 := by omega
  rw [padding, hpad] at heq
  rw [Esc.number, heq]
  exact htext

theorem readInt_signed (a : BitVec 32) :
    readInt (({} : Esc).signed (a.signExtend 64)) = a.toInt := by
  have htoInt : (a.signExtend 64).toInt = a.toInt := BitVec.toInt_signExtend_of_le (by decide)
  have hlower := BitVec.le_toInt a
  generalize a.signExtend 64 = num at htoInt
  have htoNat := num.toInt_eq_toNat_cond
  have hlt := num.isLt
  by_cases hneg : num.toInt < 0
  · have hopposite : ((-num).toNat : ℤ) = -a.toInt := by
      rw [BitVec.toNat_neg]
      split at htoNat <;> omega
    have hread : readNumber 10 (({} : Esc).number ⟨10, by decide⟩ (-num)) = (-num).toNat :=
      (number_denotes ⟨10, by decide⟩ (-num)).read
    rw [Esc.signed, if_pos hneg, readInt, List.head?_cons, if_pos rfl, List.tail_cons, hread,
      hopposite, Int.neg_neg]
  · have htext := number_denotes ⟨10, by decide⟩ num
    have hhead : (({} : Esc).number ⟨10, by decide⟩ num).head? ≠ some '-' := fun hhead => by
      obtain ⟨d, hd, heq⟩ := htext.digits _ (List.mem_of_mem_head? hhead)
      have hdigits : ∀ d < 10, '-' ≠ Nat.digitChar d := by decide
      exact hdigits d hd heq
    rw [Esc.signed, if_neg hneg, readInt, if_neg hhead, htext.read]
    split at htoNat <;> omega

/-- **Numbers are printed exactly.** `printnum` pads to the width and then prints the digits of
the number, in every base; and `%d` prints a text that denotes the argument. -/
theorem numbers_printed_exactly (ap : ℕ → BitVec 32) (str : BitVec 32 → List Char) :
    (∀ base padc num width, ∃ text, Denotes base num text ∧
      printnum base padc num width = padding (width - text.length) padc ++ text) ∧
    ∃ text, Steps ap str ['%', 'd'] start ⟨.done, 3, 1, text⟩ ∧ readInt text = (ap 0).toInt := by
  refine ⟨printnum_denotes, ({} : Esc).signed ((ap 0).signExtend 64), ?_, readInt_signed (ap 0)⟩
  exact .head (b := ⟨.escape {}, 1, 0, []⟩) rfl
    (.head (b := ⟨.plain, 2, 1, _⟩) rfl (.single rfl))

end MCertikos.Lib
