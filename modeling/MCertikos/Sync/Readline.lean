/-
# The line editor of the console

`readline` reads characters until a line ends and keeps the line in `linebuf`.
-/

import MCertikos.Sync.Console

namespace MCertikos.Sync

open Function

def buflen : ℕ := 1024

inductive Line
  | null
  | line (linebuf : ℕ → BitVec 8)

/-- The loop of `readline` over the characters `getchar` returns.  Without a character the loop
waits. -/
def readlineLoop (linebuf : ℕ → BitVec 8) (i : ℕ) : List (BitVec 8) → Option Line
  | [] => none
  | c :: input =>
    if c.toInt < 0 then some .null
    else if (c = 0x08 ∨ c = 0x7f) ∧ 0 < i then readlineLoop linebuf (i - 1) input
    else if 0x20 ≤ c.toInt ∧ i < buflen - 1 then
      readlineLoop (update linebuf i c) (i + 1) input
    else if c = 0x0a ∨ c = 0x0d then some (.line (update linebuf i 0))
    else readlineLoop linebuf i input

def readline (linebuf : ℕ → BitVec 8) (input : List (BitVec 8)) : Option Line :=
  readlineLoop linebuf 0 (input.filter (· ≠ 0))

def sysReadline : Line → Option (List (BitVec 8))
  | .null => none
  | .line linebuf =>
    let n := ((List.range 1000).takeWhile fun j => linebuf j ≠ 0).length
    some ((List.range (n + 1)).map linebuf)

def edit (line : List (BitVec 8)) (c : BitVec 8) : List (BitVec 8) :=
  if 0x20 ≤ c ∧ c ≤ 0x7e then if line.length < buflen - 1 then line ++ [c] else line
  else if c = 0x08 ∨ c = 0x7f then line.dropLast
  else line

structure Holds (linebuf : ℕ → BitVec 8) (line : List (BitVec 8)) : Prop where
  bytes : (List.range line.length).map linebuf = line
  length_lt : line.length < buflen
  nonzero : 0 ∉ line

variable {linebuf : ℕ → BitVec 8} {line keys : List (BitVec 8)} {c e : BitVec 8}

theorem Holds.push (h : Holds linebuf line) (hc : c ≠ 0) (hroom : line.length < buflen - 1) :
    Holds (update linebuf line.length c) (line ++ [c]) := by
  refine ⟨?_, ?_, by simpa using ⟨h.nonzero, hc.symm⟩⟩
  · rw [List.length_append, List.length_singleton, List.range_succ, List.map_append,
      List.map_singleton, update_self]
    congr 1
    refine Eq.trans (List.map_congr_left fun j hj => ?_) h.bytes
    exact update_of_ne (Nat.ne_of_lt (List.mem_range.mp hj)) _ _
  · rw [List.length_append, List.length_singleton]
    unfold buflen at *
    omega

theorem Holds.pop (h : Holds linebuf line) : Holds linebuf line.dropLast := by
  refine ⟨?_, ?_, fun hmem => h.nonzero (List.mem_of_mem_dropLast hmem)⟩
  · conv_rhs => rw [← h.bytes]
    cases hlength : line.length with
    | zero => simp [List.length_eq_zero_iff.mp hlength]
    | succ n => simp [hlength, List.range_succ]
  · have hlt := h.length_lt
    rw [List.length_dropLast]
    omega

theorem printable_iff (hsign : 0 ≤ c.toInt) (hdelete : c ≠ 0x7f) :
    (0x20 ≤ c ∧ c ≤ 0x7e) ↔ 0x20 ≤ c.toInt := by
  have hne : c.toNat ≠ 127 := fun heq => hdelete (BitVec.eq_of_toNat_eq heq)
  have htoNat : (0x20 ≤ c ∧ c ≤ 0x7e) ↔ 0x20 ≤ c.toNat ∧ c.toNat ≤ 0x7e := Iff.rfl
  rw [htoNat]
  rw [BitVec.toInt_eq_toNat_cond] at *
  split at hsign <;> split <;> omega

theorem readlineLoop_step (h : Holds linebuf line) (hc : c ≠ 0 ∧ c ≠ 0x0a ∧ c ≠ 0x0d)
    (hsign : 0 ≤ c.toInt) (hdelete : c = 0x7f → line ≠ []) (input : List (BitVec 8)) :
    ∃ linebuf', Holds linebuf' (edit line c) ∧ readlineLoop linebuf line.length (c :: input) =
      readlineLoop linebuf' (edit line c).length input := by
  have hend : ¬ (c = 0x0a ∨ c = 0x0d) := by tauto
  rw [readlineLoop, if_neg (Int.not_lt.mpr hsign), if_neg hend]
  by_cases hback : c = 0x08 ∨ c = 0x7f
  · have hedit : edit line c = line.dropLast := by
      obtain rfl | rfl := hback <;> rfl
    rw [hedit, List.length_dropLast]
    refine ⟨linebuf, h.pop, ?_⟩
    by_cases hempty : line = []
    · -- A backspace on the empty line is no character that could be stored either.
      obtain rfl | rfl := hback
      · simp [hempty]
      · exact absurd hempty (hdelete rfl)
    · rw [if_pos ⟨hback, List.length_pos_iff.mpr hempty⟩]
  · have hprint := printable_iff hsign fun heq => hback (.inr heq)
    rw [if_neg fun hand => hback hand.1, edit, if_neg hback]
    by_cases hroom : 0x20 ≤ c.toInt ∧ line.length < buflen - 1
    · rw [if_pos hroom, if_pos (hprint.mpr hroom.1), if_pos hroom.2]
      exact ⟨_, h.push hc.1 hroom.2, by rw [List.length_append, List.length_singleton]⟩
    · rw [if_neg hroom]
      have hsame : (if 0x20 ≤ c ∧ c ≤ 0x7e then if line.length < buflen - 1 then line ++ [c]
          else line else line) = line := by
        split
        · next hp => exact if_neg fun hlt => hroom ⟨hprint.mp hp, hlt⟩
        · rfl
      rw [hsame]
      exact ⟨linebuf, h, rfl⟩

theorem readlineLoop_eq (h : Holds linebuf line) (hkeys : ∀ c ∈ keys, c ≠ 0 ∧ c ≠ 0x0a ∧ c ≠ 0x0d)
    (he : e = 0x0a ∨ e = 0x0d) (hsign : ∀ c ∈ keys, 0 ≤ c.toInt)
    (hdelete : ∀ n < keys.length, keys[n]? = some 0x7f → (keys.take n).foldl edit line ≠ []) :
    ∃ linebuf', readlineLoop linebuf line.length (keys ++ [e]) = some (.line linebuf') ∧
      Holds linebuf' (keys.foldl edit line) ∧ linebuf' (keys.foldl edit line).length = 0 := by
  induction keys generalizing linebuf line with
  | nil =>
    have hloop : readlineLoop linebuf line.length ([] ++ [e]) =
        some (.line (update linebuf line.length 0)) := by
      obtain rfl | rfl := he <;> simp [readlineLoop]
    refine ⟨_, hloop, ⟨?_, h.length_lt, h.nonzero⟩, update_self ..⟩
    refine Eq.trans (List.map_congr_left fun j hj => ?_) h.bytes
    exact update_of_ne (Nat.ne_of_lt (List.mem_range.mp hj)) _ _
  | cons c keys ih =>
    obtain ⟨linebuf', hholds, hstep⟩ := readlineLoop_step h (hkeys c List.mem_cons_self)
      (hsign c List.mem_cons_self) (fun heq => hdelete 0 (Nat.succ_pos _) (by rw [heq]; rfl))
      (keys ++ [e])
    rw [List.cons_append, hstep]
    exact ih hholds (fun c hc => hkeys c (List.mem_cons_of_mem _ hc))
      (fun c hc => hsign c (List.mem_cons_of_mem _ hc))
      fun n hn => hdelete (n + 1) (Nat.succ_lt_succ hn)

theorem readlineLoop_null (hkeys : ∀ c ∈ keys, c ≠ 0x0a ∧ c ≠ 0x0d)
    (hsign : ∃ c ∈ keys, c.toInt < 0) (linebuf : ℕ → BitVec 8) (i : ℕ) (input : List (BitVec 8)) :
    readlineLoop linebuf i (keys ++ input) = some .null := by
  induction keys generalizing linebuf i with
  | nil => simp at hsign
  | cons c keys ih =>
    rw [List.cons_append, readlineLoop]
    split
    · rfl
    · next hpos =>
      have hrest := ih (fun c hc => hkeys c (List.mem_cons_of_mem _ hc))
        (by simpa [hpos] using hsign)
      have hend : ¬ (c = 0x0a ∨ c = 0x0d) := by simpa using hkeys c List.mem_cons_self
      rw [if_neg hend, hrest, hrest, hrest, ite_self, ite_self]

/-- **The line editor.** For every input that ends with the first end of line: if no character
is negative and no delete comes on an empty line, `readline` returns the line that the keys
make, with a null byte behind it.  If some character is negative, it returns a null pointer. -/
theorem readline_edits (linebuf : ℕ → BitVec 8) (keys : List (BitVec 8))
    (hkeys : ∀ c ∈ keys, c ≠ 0 ∧ c ≠ 0x0a ∧ c ≠ 0x0d) (he : e = 0x0a ∨ e = 0x0d) :
    ((∀ c ∈ keys, 0 ≤ c.toInt) →
      (∀ n < keys.length, keys[n]? = some 0x7f → (keys.take n).foldl edit [] ≠ []) →
      ∃ linebuf', readline linebuf (keys ++ [e]) = some (.line linebuf') ∧
        Holds linebuf' (keys.foldl edit []) ∧ linebuf' (keys.foldl edit []).length = 0) ∧
    ((∃ c ∈ keys, c.toInt < 0) → readline linebuf (keys ++ [e]) = some .null) := by
  have hfilter : (keys ++ [e]).filter (· ≠ 0) = keys ++ [e] := by
    refine List.filter_eq_self.mpr fun c hc => ?_
    obtain hc | hc := List.mem_append.mp hc
    · exact decide_eq_true (hkeys c hc).1
    · rw [List.mem_singleton.mp hc]
      obtain rfl | rfl := he <;> rfl
  rw [readline, hfilter]
  exact ⟨readlineLoop_eq ⟨rfl, by decide, List.not_mem_nil⟩ hkeys he,
    fun hneg => readlineLoop_null (fun c hc => (hkeys c hc).2) hneg linebuf 0 [e]⟩

theorem readline_edits_two_letters : ∃ linebuf',
    readline (fun _ => 0) [0x61, 0x62, 0x7f, 0x0a] = some (.line linebuf') ∧
      Holds linebuf' [0x61] ∧ linebuf' 1 = 0 := by
  exact (readline_edits (fun _ => 0) [0x61, 0x62, 0x7f] (by decide) (.inl rfl)).1
    (by decide) (by decide)

/-- The up key makes `sys_readline` measure from a null pointer, and a delete on the empty line
is stored. -/
theorem readline_misreads_keys :
    readline (fun _ => 0) [0xe2, 0x0a] = some .null ∧ sysReadline .null = none ∧
      readline (fun _ => 0) [0x7f, 0x0a] =
        some (.line (update (update (fun _ => 0) 0 0x7f) 1 0)) ∧ edit [] 0x7f = [] := by
  simp [readline, readlineLoop, sysReadline, edit, buflen]

end MCertikos.Sync
