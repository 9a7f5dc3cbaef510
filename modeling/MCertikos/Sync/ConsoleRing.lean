/-
# The console buffer is a queue

The two positions of the ring determine the characters that are unread: those from `rpos` up to
`wpos`.
-/

import MCertikos.Sync.Console

namespace MCertikos.Sync

open Function

namespace ConsoleBuffer

structure Valid (cons : ConsoleBuffer) : Prop where
  rpos_lt : cons.rpos < consoleBufferSize
  wpos_lt : cons.wpos < consoleBufferSize

def distance (rpos wpos : ℕ) : ℕ := (wpos + consoleBufferSize - rpos) % consoleBufferSize

def unread (cons : ConsoleBuffer) : List (BitVec 8) :=
  (List.range (distance cons.rpos cons.wpos)).map fun j =>
    cons.buf ((cons.rpos + j) % consoleBufferSize)

section Positions

variable {r w j : ℕ}

theorem advance_eq (h : w < consoleBufferSize) : advance w = (w + 1) % consoleBufferSize := by
  unfold advance consoleBufferSize at *
  split <;> omega

theorem advance_lt (h : w < consoleBufferSize) : advance w < consoleBufferSize := by
  rw [advance_eq h]
  exact Nat.mod_lt _ (by decide)

theorem add_ne_of_lt_distance (hj : j < distance r w) : (r + j) % consoleBufferSize ≠ w := by
  unfold distance consoleBufferSize at *
  omega

variable (hr : r < consoleBufferSize) (hw : w < consoleBufferSize)

include hr hw

theorem distance_advance : distance r (advance w) =
    if distance r w + 1 = consoleBufferSize then 0 else distance r w + 1 := by
  rw [advance_eq hw]
  unfold distance consoleBufferSize at *
  split <;> omega

theorem distance_of_ne (hne : r ≠ w) : distance r w = distance (advance r) w + 1 := by
  rw [advance_eq hr]
  unfold distance consoleBufferSize at *
  omega

theorem add_distance : (r + distance r w) % consoleBufferSize = w := by
  unfold distance consoleBufferSize at *
  omega

end Positions

variable {cons : ConsoleBuffer}

theorem Valid.unread_store (h : cons.Valid) (c : BitVec 8) : (cons.store c).Valid ∧
    (cons.store c).unread =
      if cons.unread.length + 1 = consoleBufferSize then [] else cons.unread ++ [c] := by
  obtain ⟨hr, hw⟩ := h
  refine ⟨⟨hr, advance_lt hw⟩, ?_⟩
  change (List.range (distance cons.rpos (advance cons.wpos))).map
    (fun j => update cons.buf cons.wpos c ((cons.rpos + j) % consoleBufferSize)) = _
  rw [distance_advance hr hw, unread, List.length_map, List.length_range]
  split
  · rfl
  · rw [List.range_succ, List.map_append, List.map_singleton, add_distance hr hw, update_self]
    congr 1
    refine List.map_congr_left fun j hj => update_of_ne ?_ _ _
    exact add_ne_of_lt_distance (List.mem_range.mp hj)

theorem Valid.unread_take (h : cons.Valid) : cons.take.2.Valid ∧
    cons.take.1 = cons.unread.headD 0 ∧ cons.take.2.unread = cons.unread.tail := by
  obtain ⟨hr, hw⟩ := h
  unfold take
  by_cases heq : cons.rpos = cons.wpos
  · have hempty : cons.unread = [] := by
      rw [unread, heq, distance, Nat.add_sub_cancel_left, Nat.mod_self]
      rfl
    rw [if_neg (not_not_intro heq), hempty]
    exact ⟨⟨hr, hw⟩, rfl, rfl⟩
  · rw [if_pos heq]
    refine ⟨⟨advance_lt hr, hw⟩, ?_⟩
    rw [unread, distance_of_ne hr hw heq, List.range_succ_eq_map, List.map_cons, List.map_map,
      Nat.add_zero, Nat.mod_eq_of_lt hr]
    refine ⟨rfl, List.map_congr_left fun j _ => ?_⟩
    simp only [advance_eq hr, comp_apply, Nat.mod_add_mod, Nat.succ_eq_add_one]
    rw [Nat.add_assoc, Nat.add_comm 1]

theorem Valid.unread_stores (h : cons.Valid) (cs : List (BitVec 8)) :
    (cs.foldl store cons).Valid ∧ (cs.foldl store cons).unread <:+ cons.unread ++ cs ∧
      ((cons.unread ++ cs).length < consoleBufferSize →
        (cs.foldl store cons).unread = cons.unread ++ cs) := by
  induction cs generalizing cons with
  | nil => simpa using h
  | cons c cs ih =>
    obtain ⟨hvalid, hstore⟩ := h.unread_store c
    obtain ⟨hvalid', hsuffix, hall⟩ := ih hvalid
    have happend : cons.unread ++ c :: cs = (cons.unread ++ [c]) ++ cs := by simp
    refine ⟨hvalid', hsuffix.trans ?_, fun hfits => ?_⟩
    · rw [hstore, happend]
      split
      · exact ⟨cons.unread ++ [c], rfl⟩
      · exact List.suffix_rfl
    · have hroom : cons.unread.length + 1 ≠ consoleBufferSize := by
        rw [List.length_append, List.length_cons] at hfits
        omega
      rw [hstore, if_neg hroom, ← happend] at hall
      exact hall hfits

end ConsoleBuffer

open ConsoleBuffer

/-- A call of `cons_intr`, or of `cons_getc` with what the devices it polls deliver. -/
inductive RingOp
  | consIntr (results : List (BitVec 32))
  | consGetc (serial keyboard : List (BitVec 32))

def RingOp.stores : RingOp → List (BitVec 8)
  | .consIntr results => characters results
  | .consGetc serial keyboard => characters serial ++ characters keyboard

def RingOp.leaves (q : List (BitVec 8)) : RingOp → List (BitVec 8)
  | .consIntr _ => q
  | .consGetc _ _ => q.tail

structure RingRun where
  cons : ConsoleBuffer
  stored : List (BitVec 8)
  results : List (BitVec 8)

namespace RingRun

def init : RingRun := ⟨.consInit, [], []⟩

def exec (s : RingRun) (op : RingOp) : RingRun :=
  match op with
  | .consIntr results => ⟨(s.cons.consIntrLoop results).1, s.stored ++ op.stores, s.results⟩
  | .consGetc serial keyboard =>
    let polled := ((s.cons.consIntrLoop serial).1.consIntrLoop keyboard).1
    ⟨polled.take.2, s.stored ++ op.stores, s.results ++ [polled.take.1]⟩

def run (ops : List RingOp) : RingRun := ops.foldl exec init

def fifo (ops : List RingOp) : List (BitVec 8) :=
  ops.foldl (fun q op => op.leaves (q ++ op.stores)) []

def Fits (ops : List RingOp) : Prop :=
  ∀ before op, before ++ [op] <+: ops → (fifo before ++ op.stores).length < consoleBufferSize

def nonzero (cs : List (BitVec 8)) : List (BitVec 8) := cs.filter (· ≠ 0)

def line (s : RingRun) : List (BitVec 8) := nonzero s.results ++ nonzero s.cons.unread

variable {s : RingRun} {ops : List RingOp}

theorem run_append (ops : List RingOp) (op : RingOp) : run (ops ++ [op]) = (run ops).exec op :=
  List.foldl_append

theorem stored_exec (op : RingOp) : (s.exec op).stored = s.stored ++ op.stores := by
  cases op <;> rfl

theorem nonzero_append (cs ds : List (BitVec 8)) :
    nonzero (cs ++ ds) = nonzero cs ++ nonzero ds := List.filter_append ..

theorem nonzero_headD_tail (cs : List (BitVec 8)) :
    nonzero [cs.headD 0] ++ nonzero cs.tail = nonzero cs := by
  cases cs with
  | nil => rfl
  | cons c cs => exact (nonzero_append [c] cs).symm

theorem exec_spec (h : s.cons.Valid) (op : RingOp) : (s.exec op).cons.Valid ∧
    (s.exec op).cons.unread = op.leaves (op.stores.foldl store s.cons).unread ∧
    (s.exec op).line = nonzero s.results ++ nonzero (op.stores.foldl store s.cons).unread := by
  have hvalid := (h.unread_stores op.stores).1
  cases op with
  | consIntr results =>
    rw [line, exec, consIntrLoop_eq]
    exact ⟨hvalid, rfl, rfl⟩
  | consGetc serial keyboard =>
    have hpolled : ((s.cons.consIntrLoop serial).1.consIntrLoop keyboard).1 =
        (RingOp.consGetc serial keyboard).stores.foldl store s.cons := by
      rw [consIntrLoop_eq, consIntrLoop_eq, RingOp.stores, List.foldl_append]
    obtain ⟨htaken, hresult, htail⟩ := hvalid.unread_take
    rw [line, exec, hpolled]
    refine ⟨htaken, htail, ?_⟩
    rw [hresult, htail, nonzero_append, List.append_assoc, nonzero_headD_tail]

theorem line_sublist (ops : List RingOp) :
    (run ops).cons.Valid ∧ (run ops).line.Sublist (nonzero (run ops).stored) := by
  induction ops using List.reverseRecOn with
  | nil => exact ⟨⟨by decide, by decide⟩, List.Sublist.refl _⟩
  | append_singleton ops op ih =>
    obtain ⟨hvalid, hline⟩ := ih
    obtain ⟨hvalid', -, hline'⟩ := exec_spec hvalid op
    obtain ⟨-, hsuffix, -⟩ := hvalid.unread_stores op.stores
    have hlost : (nonzero (op.stores.foldl store (run ops).cons).unread).Sublist
        (nonzero (run ops).cons.unread ++ nonzero op.stores) := by
      rw [← nonzero_append]
      exact hsuffix.sublist.filter _
    rw [run_append]
    refine ⟨hvalid', ?_⟩
    rw [hline', stored_exec, nonzero_append]
    refine (hlost.append_left _).trans ?_
    rw [← List.append_assoc]
    exact hline.append_right _

theorem line_of_fits (hfits : Fits ops) :
    (run ops).cons.unread = fifo ops ∧ (run ops).line = nonzero (run ops).stored := by
  induction ops using List.reverseRecOn with
  | nil => exact ⟨rfl, rfl⟩
  | append_singleton ops op ih =>
    obtain ⟨hunread, hline⟩ := ih fun before op' hinit =>
      hfits before op' (hinit.trans (List.prefix_append ops [op]))
    have hvalid := (line_sublist ops).1
    obtain ⟨-, hleaves, hline'⟩ := exec_spec hvalid op
    have hall := (hvalid.unread_stores op.stores).2.2 (hunread ▸ hfits ops op (List.prefix_refl _))
    have hfifo : fifo (ops ++ [op]) = op.leaves (fifo ops ++ op.stores) := List.foldl_append
    rw [run_append, hleaves, hline', hall, hfifo, hunread, stored_exec, nonzero_append,
      nonzero_append, ← hline, line, hunread, List.append_assoc]
    exact ⟨rfl, rfl⟩

/-- **The console buffer is a queue.** Both positions stay in range, and the results of
`cons_getc` other than 0 are, in order, some of the characters stored, none of them twice.  As
long as at most 511 stored characters were unread, they are all of them but for those still in
the queue. -/
theorem console_ring_is_fifo (ops : List RingOp) :
    (run ops).cons.rpos < consoleBufferSize ∧ (run ops).cons.wpos < consoleBufferSize ∧
    (nonzero (run ops).results).Sublist (run ops).stored ∧
    (Fits ops → nonzero (run ops).results ++ nonzero (fifo ops) = nonzero (run ops).stored) := by
  obtain ⟨⟨hr, hw⟩, hline⟩ := line_sublist ops
  refine ⟨hr, hw, ?_, fun hfits => ?_⟩
  · exact ((List.sublist_append_left _ _).trans hline).trans List.filter_sublist
  · obtain ⟨hunread, hexact⟩ := line_of_fits hfits
    rwa [line, hunread] at hexact

end RingRun

end MCertikos.Sync
