/-
# The scheduler invariant

`QueueOk s q` says that the ready queue of `s`, read through its head, its tail and the link
fields, is the list `q`, and that exactly the threads of `q` are ready.
-/

import MCertikos.Thread.Sched

namespace MCertikos.Thread

open Math Function

universe u

namespace Sched

variable {χ : Type u}

def links (s : Sched χ) (chid : ℕ) : Links ℕ :=
  ⟨s.head chid, s.tail chid, s.prev, s.next⟩

theorem prev_links (s : Sched χ) (chid : ℕ) : (s.links chid).prev = s.prev := rfl

theorem next_links (s : Sched χ) (chid : ℕ) : (s.links chid).next = s.next := rfl

def tqueueList (s : Sched χ) (chid : ℕ) : List ℕ :=
  Links.walk numIds s.next numIds (s.head chid)

def readyQueue (s : Sched χ) : List ℕ := s.tqueueList numIds

/-! ## The source's queue functions as list operations -/

theorem links_tqueueEnqueue (s : Sched χ) (chid pid : ℕ) :
    (s.tqueueEnqueue chid pid).links chid = (s.links chid).pushBack numIds pid := by
  unfold tqueueEnqueue Links.pushBack
  by_cases htail : s.tail chid = numIds
  · simp [links, htail, tcbSetPrev, tcbSetNext, tqueueSetHead, tqueueSetTail]
  · simp [links, htail, tcbSetPrev, tcbSetNext, tqueueSetTail]

theorem links_tqueueRemove (s : Sched χ) (chid pid : ℕ)
    (hne : s.prev pid ≠ numIds → s.prev pid ≠ s.next pid) :
    (s.tqueueRemove chid pid).links chid = (s.links chid).unlink numIds pid := by
  unfold tqueueRemove Links.unlink
  by_cases hprev : s.prev pid = numIds
  · by_cases hnext : s.next pid = numIds
    · simp [links, hprev, hnext, tcbSetPrev, tcbSetNext, tqueueSetHead, tqueueSetTail]
    · simp [links, hprev, hnext, tcbSetPrev, tcbSetNext, tqueueSetHead]
  · by_cases hnext : s.next pid = numIds
    · simp [links, hprev, hnext, tcbSetPrev, tcbSetNext, tqueueSetTail]
    · simp [links, hprev, hnext, hne hprev, tcbSetPrev, tcbSetNext]

theorem tqueueDequeue_of_head (s : Sched χ) (chid : ℕ) (hhead : s.head chid ≠ numIds)
    (hprev : s.prev (s.head chid) = numIds) :
    s.tqueueDequeue chid = (s.head chid, s.tqueueRemove chid (s.head chid)) := by
  simp [tqueueDequeue, tqueueRemove, hhead, hprev]

section Frame

variable (s : Sched χ) (chid pid : ℕ)

@[simp] theorem tqueueEnqueue_state : (s.tqueueEnqueue chid pid).state = s.state := by
  unfold tqueueEnqueue
  dsimp only
  split <;> rfl

@[simp] theorem tqueueEnqueue_channel : (s.tqueueEnqueue chid pid).channel = s.channel := by
  unfold tqueueEnqueue
  dsimp only
  split <;> rfl

@[simp] theorem tqueueEnqueue_curid : (s.tqueueEnqueue chid pid).curid = s.curid := by
  unfold tqueueEnqueue
  dsimp only
  split <;> rfl

variable {other : ℕ}

theorem tqueueEnqueue_head (hother : other ≠ chid) :
    (s.tqueueEnqueue chid pid).head other = s.head other := by
  unfold tqueueEnqueue
  dsimp only
  split <;> simp [tqueueSetHead, tqueueSetTail, tcbSetPrev, tcbSetNext, hother]

theorem tqueueEnqueue_tail (hother : other ≠ chid) :
    (s.tqueueEnqueue chid pid).tail other = s.tail other := by
  unfold tqueueEnqueue
  dsimp only
  split <;> simp [tqueueSetHead, tqueueSetTail, tcbSetPrev, tcbSetNext, hother]

@[simp] theorem tqueueRemove_state : (s.tqueueRemove chid pid).state = s.state := by
  unfold tqueueRemove
  dsimp only
  split_ifs <;> rfl

@[simp] theorem tqueueRemove_channel : (s.tqueueRemove chid pid).channel = s.channel := by
  unfold tqueueRemove
  dsimp only
  split_ifs <;> rfl

@[simp] theorem tqueueRemove_curid : (s.tqueueRemove chid pid).curid = s.curid := by
  unfold tqueueRemove
  dsimp only
  split_ifs <;> rfl

theorem tqueueRemove_head (hother : other ≠ chid) :
    (s.tqueueRemove chid pid).head other = s.head other := by
  unfold tqueueRemove
  dsimp only
  split_ifs <;> simp [tqueueSetHead, tqueueSetTail, tcbSetPrev, tcbSetNext, hother]

theorem tqueueRemove_tail (hother : other ≠ chid) :
    (s.tqueueRemove chid pid).tail other = s.tail other := by
  unfold tqueueRemove
  dsimp only
  split_ifs <;> simp [tqueueSetHead, tqueueSetTail, tcbSetPrev, tcbSetNext, hother]

@[simp] theorem tqueueDequeue_state : (s.tqueueDequeue chid).2.state = s.state := by
  unfold tqueueDequeue
  dsimp only
  split_ifs <;> rfl

@[simp] theorem tqueueDequeue_channel : (s.tqueueDequeue chid).2.channel = s.channel := by
  unfold tqueueDequeue
  dsimp only
  split_ifs <;> rfl

theorem killTarget_eq : s.killTarget pid =
      ((s.tqueueRemove numIds pid).tcbSetState pid .dead).tcbSetPendingSignals pid 0 := by
  unfold killTarget tqueueRemove
  dsimp only [tcbSetState]
  split_ifs <;> rfl

theorem tcbAddPendingSignal_fields (signum : ℤ) :
    (s.tcbAddPendingSignal pid signum).state = s.state ∧
      (s.tcbAddPendingSignal pid signum).channel = s.channel := by
  unfold tcbAddPendingSignal
  split <;> exact ⟨rfl, rfl⟩

/-! What leaving the CPU does to channels and states, also when the queues are broken. -/

@[simp] theorem threadYield_channel : s.threadYield.channel = s.channel := by
  simp [threadYield, tcbSetState, setCurid]

theorem threadYield_fields : s.threadYield.state s.threadYield.curid = .run ∧
    ∀ p, s.threadYield.state p = .sleep → s.state p = .sleep := by
  refine ⟨by simp [threadYield, tcbSetState, setCurid], fun p hsleep => ?_⟩
  simp only [threadYield, setCurid, tcbSetState, tqueueDequeue_state, tqueueEnqueue_state,
    update_apply] at hsleep
  split_ifs at hsleep
  exact hsleep

variable {s} in
theorem channel_of_threadExit {t : Sched χ} (hexit : s.threadExit = some t) :
    t.channel = s.channel := by
  simp only [threadExit, Option.ite_none_left_eq_some, Option.some.injEq] at hexit
  obtain ⟨-, rfl⟩ := hexit
  simp [tcbSetState, setCurid]

variable {s} in
theorem threadSleep_fields {t : Sched χ} {chan : χ} (hsleep : s.threadSleep chan = some t) :
    t.channel = update s.channel s.curid (some chan) ∧ t.state t.curid = .run ∧
      ∀ p, p ≠ s.curid → t.state p = s.state p ∨ t.state p = .run := by
  simp only [threadSleep, Option.ite_none_left_eq_some, Option.some.injEq] at hsleep
  obtain ⟨-, rfl⟩ := hsleep
  refine ⟨by simp [tcbSetState, tcbSetChan, setCurid], by simp [tcbSetState, setCurid],
    fun p hne => ?_⟩
  simp only [setCurid, tcbSetState, tqueueDequeue_state, tcbSetChan, update_apply, hne,
    if_false]
  split
  · exact Or.inr rfl
  · exact Or.inl rfl

end Frame

/-! ## All queues -/

/-- The queues spell the lists `q`, no thread is in two of them, and a thread in none of them
is unlinked. -/
structure Queues (s : Sched χ) (q : ℕ → List ℕ) : Prop where
  represents : ∀ c ≤ numIds, (s.links c).Represents numIds (q c)
  lt_of_mem : ∀ c ≤ numIds, ∀ p ∈ q c, p < numIds
  disjoint : ∀ c ≤ numIds, ∀ d ≤ numIds, ∀ p ∈ q c, p ∈ q d → c = d
  detached : ∀ p < numIds, (∀ c ≤ numIds, p ∉ q c) → s.prev p = numIds ∧ s.next p = numIds

namespace Queues

variable {s t : Sched χ} {q : ℕ → List ℕ} {chid pid : ℕ} {xs : List ℕ}

theorem change (h : s.Queues q) (hrep : (t.links chid).Represents numIds xs)
    (hother : ∀ c, c ≠ chid → t.head c = s.head c ∧ t.tail c = s.tail c)
    (henter : ∀ p ∈ xs, p ∈ q chid ∨ p < numIds ∧ ∀ c ≤ numIds, p ∉ q c)
    (hleave : ∀ p ∈ q chid, p ∉ xs → t.prev p = numIds ∧ t.next p = numIds)
    (hframe : ∀ p ∉ q chid, p ∉ xs → t.prev p = s.prev p ∧ t.next p = s.next p)
    (hchid : chid ≤ numIds) : t.Queues (update q chid xs) := by
  have hapart : ∀ c ≤ numIds, c ≠ chid → ∀ p ∈ q c, p ∉ q chid ∧ p ∉ xs := by
    intro c hc hne p hp
    have hold : p ∉ q chid := fun hmem => hne (h.disjoint c hc chid hchid p hp hmem)
    exact ⟨hold, fun hmem => (henter p hmem).elim hold fun hnew => hnew.2 c hc hp⟩
  refine ⟨fun c hc => ?_, fun c hc p hp => ?_, fun c hc d hd p hp hp' => ?_, fun p hp hnone => ?_⟩
  · by_cases heq : c = chid
    · rw [heq, update_self]
      exact hrep
    · rw [update_of_ne heq]
      obtain ⟨hnodup, hnil, hhead, htail, hseg⟩ := h.represents c hc
      obtain ⟨hh, ht⟩ := hother c heq
      refine ⟨hnodup, hnil, hh.trans hhead, ht.trans htail, hseg.congr fun p hp => ?_⟩
      obtain ⟨hold, hnew⟩ := hapart c hc heq p hp
      exact hframe p hold hnew
  · by_cases heq : c = chid
    · rw [heq, update_self] at hp
      exact (henter p hp).elim (h.lt_of_mem chid hchid p) And.left
    · rw [update_of_ne heq] at hp
      exact h.lt_of_mem c hc p hp
  · by_cases heq : c = chid <;> by_cases heq' : d = chid
    · exact heq.trans heq'.symm
    · rw [heq, update_self] at hp
      rw [update_of_ne heq'] at hp'
      exact absurd hp (hapart d hd heq' p hp').2
    · rw [update_of_ne heq] at hp
      rw [heq', update_self] at hp'
      exact absurd hp' (hapart c hc heq p hp).2
    · rw [update_of_ne heq] at hp
      rw [update_of_ne heq'] at hp'
      exact h.disjoint c hc d hd p hp hp'
  · have hnew : p ∉ xs := fun hmem => hnone chid hchid (by rwa [update_self])
    by_cases hold : p ∈ q chid
    · exact hleave p hold hnew
    · obtain ⟨hprev, hnext⟩ := hframe p hold hnew
      rw [hprev, hnext]
      refine h.detached p hp fun c hc hmem => ?_
      by_cases heq : c = chid
      · exact hold (heq ▸ hmem)
      · exact hnone c hc (by rwa [update_of_ne heq])

theorem enqueue (h : s.Queues q) (hchid : chid ≤ numIds) (hpid : pid < numIds)
    (hfree : ∀ c ≤ numIds, pid ∉ q c) :
    (s.tqueueEnqueue chid pid).Queues (update q chid (q chid ++ [pid])) := by
  have hrep := h.represents chid hchid
  have hlinks := links_tqueueEnqueue s chid pid
  refine h.change ?_ (fun c hc => ⟨tqueueEnqueue_head _ _ _ hc, tqueueEnqueue_tail _ _ _ hc⟩)
    (fun p hp => ?_) (fun p hp hnot => ?_) (fun p hold hnew => ?_) hchid
  · rw [hlinks]
    exact hrep.pushBack (hfree chid hchid) (Nat.ne_of_lt hpid)
  · refine (List.mem_append.mp hp).imp_right fun hnew => ?_
    rw [List.mem_singleton.mp hnew]
    exact ⟨hpid, hfree⟩
  · exact absurd (List.mem_append_left _ hp) hnot
  · have hne : p ≠ pid := fun heq => hnew (by simp [heq])
    rw [← prev_links _ chid, ← next_links _ chid, hlinks]
    exact hrep.pushBack_frame hne hold

theorem remove (h : s.Queues q) (hchid : chid ≤ numIds) (hmem : pid ∈ q chid) :
    (s.tqueueRemove chid pid).Queues (update q chid ((q chid).erase pid)) := by
  have hrep := h.represents chid hchid
  have hlinks : (s.tqueueRemove chid pid).links chid = (s.links chid).unlink numIds pid := by
    apply links_tqueueRemove
    obtain ⟨before, after, hsplit⟩ := List.append_of_mem hmem
    rw [hsplit] at hrep
    exact hrep.prev_ne_next
  refine h.change ?_ (fun c hc => ⟨tqueueRemove_head _ _ _ hc, tqueueRemove_tail _ _ _ hc⟩)
    (fun p hp => .inl (List.mem_of_mem_erase hp)) (fun p hp hnot => ?_) (fun p hold _ => ?_) hchid
  · rw [hlinks]
    exact hrep.unlink hmem
  · have heq : p = pid := by
      by_contra hne
      exact hnot ((List.mem_erase_of_ne hne).mpr hp)
    rw [← prev_links _ chid, ← next_links _ chid, hlinks, heq]
    simp [Links.unlink]
  · rw [← prev_links _ chid, ← next_links _ chid, hlinks]
    exact hrep.unlink_frame hmem hold

theorem dequeue_nil (h : s.Queues q) (hchid : chid ≤ numIds) (hempty : q chid = []) :
    s.tqueueDequeue chid = (numIds, s) := by
  have hhead : s.head chid = numIds := by
    have hrep := h.represents chid hchid
    rw [hempty] at hrep
    exact hrep.head_eq
  simp [tqueueDequeue, hhead]

theorem dequeue_cons (h : s.Queues q) (hchid : chid ≤ numIds) (hcons : q chid = pid :: xs) :
    (s.tqueueDequeue chid).1 = pid ∧ (s.tqueueDequeue chid).2.Queues (update q chid xs) := by
  have hrep := h.represents chid hchid
  rw [hcons] at hrep
  have hmem : pid ∈ q chid := hcons ▸ List.mem_cons_self
  have hhead : s.head chid = pid := hrep.head_eq
  have hne : pid ≠ numIds := Nat.ne_of_lt (h.lt_of_mem chid hchid pid hmem)
  have hdeq := s.tqueueDequeue_of_head chid (by rwa [hhead]) (by rw [hhead]; exact hrep.segment.1)
  have hremove := h.remove hchid hmem
  rw [hcons, List.erase_cons_head] at hremove
  rw [hdeq, hhead]
  exact ⟨rfl, hremove⟩

end Queues

/-- **Thread queues refine lists.** On every well-formed table `tqueue_enqueue` appends a thread
in no queue, `tqueue_dequeue` takes the head or reports an empty queue, and `tqueue_remove`
erases a member wherever it stands; all other queues keep their lists. -/
theorem thread_queues_refine_lists {s : Sched χ} {q : ℕ → List ℕ} {chid : ℕ} (h : s.Queues q)
    (hchid : chid ≤ numIds) :
    (∀ pid < numIds, (∀ c ≤ numIds, pid ∉ q c) →
      (s.tqueueEnqueue chid pid).Queues (update q chid (q chid ++ [pid]))) ∧
    (q chid = [] → s.tqueueDequeue chid = (numIds, s)) ∧
    (∀ pid rest, q chid = pid :: rest →
      (s.tqueueDequeue chid).1 = pid ∧ (s.tqueueDequeue chid).2.Queues (update q chid rest)) ∧
    ∀ pid ∈ q chid, (s.tqueueRemove chid pid).Queues (update q chid ((q chid).erase pid)) :=
  ⟨fun _ hpid hfree => h.enqueue hchid hpid hfree, h.dequeue_nil hchid,
    fun _ _ hcons => h.dequeue_cons hchid hcons, fun _ hmem => h.remove hchid hmem⟩

theorem queues_threadInit : (threadInit : Sched χ).Queues fun _ => [] :=
  ⟨fun _ _ => Links.represents_nil rfl rfl, by simp, by simp, fun _ _ _ => ⟨rfl, rfl⟩⟩

def threeQueued : Sched Unit :=
  ((threadInit.tqueueEnqueue numIds 1).tqueueEnqueue numIds 2).tqueueEnqueue numIds 3

theorem Queues.enqueue_ready {s : Sched χ} {q : List ℕ} {pid : ℕ}
    (h : s.Queues (update (fun _ => []) numIds q)) (hpid : pid < numIds) (hnew : pid ∉ q) :
    (s.tqueueEnqueue numIds pid).Queues (update (fun _ => []) numIds (q ++ [pid])) := by
  have henqueue := h.enqueue (Nat.le_refl numIds) hpid fun c _ => by
    by_cases hc : c = numIds <;> simp [hc, hnew]
  rwa [update_idem, update_self] at henqueue

theorem queues_threeQueued : threeQueued.Queues (update (fun _ => []) numIds [1, 2, 3]) := by
  have hboot : (threadInit : Sched Unit).Queues (update (fun _ => []) numIds []) := by
    rw [update_eq_self numIds fun _ => []]
    exact queues_threadInit
  have hone : (threadInit.tqueueEnqueue numIds 1).Queues (update (fun _ => []) numIds [1]) :=
    hboot.enqueue_ready (by decide) (by simp)
  exact (hone.enqueue_ready (by decide) (by simp)).enqueue_ready (by decide) (by simp)

theorem thread_queues_refine_lists_of_three :
    (threeQueued.tqueueRemove numIds 2).Queues (update (fun _ => []) numIds [1, 3]) ∧
      ((threeQueued.tqueueRemove numIds 2).tqueueDequeue numIds).1 = 1 ∧
      ((threeQueued.tqueueRemove numIds 2).tqueueDequeue numIds).2.Queues
        (update (fun _ => []) numIds [3]) := by
  obtain ⟨-, -, -, hremove⟩ := thread_queues_refine_lists queues_threeQueued (Nat.le_refl numIds)
  have hmiddle := hremove 2 (by simp)
  rw [update_idem, update_self] at hmiddle
  obtain ⟨-, -, hdequeue, -⟩ := thread_queues_refine_lists hmiddle (Nat.le_refl numIds)
  obtain ⟨hhead, hrest⟩ := hdequeue 1 [3] (by simp)
  rw [update_idem] at hrest
  exact ⟨hmiddle, hhead, hrest⟩

/-! ## The invariant -/

/-- The ready queue spells `q`, exactly its members are ready, and a thread
outside it is unlinked.  The sleep queues are never used. -/
structure QueueOk (s : Sched χ) (q : List ℕ) : Prop where
  represents : (s.links numIds).Represents numIds q
  lt_of_mem : ∀ p ∈ q, p < numIds
  mem_iff : ∀ p < numIds, p ∈ q ↔ s.state p = .ready
  detached : ∀ p < numIds, p ∉ q → s.prev p = numIds ∧ s.next p = numIds
  sleepQueues : ∀ chid < numIds, s.head chid = numIds ∧ s.tail chid = numIds

structure WellFormed (s : Sched χ) (q : List ℕ) : Prop extends QueueOk s q where
  curid_lt : s.curid < numIds
  curid_run : s.state s.curid = .run
  eq_curid_of_run : ∀ p, 1 ≤ p → p < numIds → s.state p = .run → p = s.curid
  channel_of_sleep : ∀ p < numIds, s.state p = .sleep → s.channel p ≠ none

theorem wellFormed_threadInit : (threadInit : Sched χ).WellFormed [] where
  represents := Links.represents_nil rfl rfl
  lt_of_mem := by simp
  mem_iff p _ := by
    by_cases hp : p = 0 <;> simp [threadInit, hp]
  detached _ _ _ := ⟨rfl, rfl⟩
  sleepQueues _ _ := ⟨rfl, rfl⟩
  curid_lt := Nat.zero_lt_succ _
  curid_run := by simp [threadInit]
  eq_curid_of_run p hp _ hrun := by
    have hne : p ≠ 0 := by omega
    simp [threadInit, hne] at hrun
  channel_of_sleep p _ hsleep := by
    by_cases hp : p = 0 <;> simp [threadInit, hp] at hsleep

namespace QueueOk

variable {s : Sched χ} {q : List ℕ}

theorem congr {t : Sched χ} (hq : s.QueueOk q) (hstate : t.state = s.state)
    (hprev : t.prev = s.prev) (hnext : t.next = s.next) (hhead : t.head = s.head)
    (htail : t.tail = s.tail) : t.QueueOk q where
  represents := by
    have hlinks : t.links numIds = s.links numIds := by
      simp [links, hprev, hnext, hhead, htail]
    rw [hlinks]
    exact hq.represents
  lt_of_mem := hq.lt_of_mem
  mem_iff p hp := by rw [hstate]; exact hq.mem_iff p hp
  detached p hp hmem := by rw [hprev, hnext]; exact hq.detached p hp hmem
  sleepQueues chid hchid := by rw [hhead, htail]; exact hq.sleepQueues chid hchid

theorem readyQueue_eq (hq : s.QueueOk q) : s.readyQueue = q := by
  apply hq.represents.walk_head
  exact hq.represents.length_le_of_lt hq.lt_of_mem

theorem not_mem_tqueueList (hq : s.QueueOk q) {p chid : ℕ} (hchid : chid ≤ numIds)
    (hmem : p ∉ q) : p ∉ s.tqueueList chid := by
  rcases Nat.lt_or_eq_of_le hchid with hlt | rfl
  · simp [tqueueList, (hq.sleepQueues chid hlt).1, Links.walk, numIds]
  · rw [← readyQueue, hq.readyQueue_eq]
    exact hmem

variable {p : ℕ}

theorem setState (hq : s.QueueOk q) (hp : p ∉ q) (state : TState) (hstate : state ≠ .ready) :
    (s.tcbSetState p state).QueueOk q  where
  represents := hq.represents
  lt_of_mem := hq.lt_of_mem
  mem_iff p' hp' := by
    by_cases heq : p' = p
    · subst heq
      simp [tcbSetState, hp, hstate]
    · simpa [tcbSetState, heq] using hq.mem_iff p' hp'
  detached := hq.detached
  sleepQueues := hq.sleepQueues

theorem makeReady (hq : s.QueueOk q) (hp : p < numIds) (hmem : p ∉ q) :
    ((s.tcbSetState p .ready).tqueueEnqueue numIds p).QueueOk (q ++ [p])  where
  represents := by
    rw [links_tqueueEnqueue]
    exact hq.represents.pushBack hmem (Nat.ne_of_lt hp)
  lt_of_mem p' hp' := by
    rcases List.mem_append.mp hp' with hold | hnew
    · exact hq.lt_of_mem p' hold
    · rw [List.mem_singleton.mp hnew]
      exact hp
  mem_iff p' hp' := by
    by_cases heq : p' = p
    · simp [tcbSetState, heq]
    · simpa [tcbSetState, heq] using hq.mem_iff p' hp'
  detached p' hp' hmem' := by
    have hne : p' ≠ p := fun heq => hmem' (by simp [heq])
    have hold : p' ∉ q := fun h => hmem' (List.mem_append_left _ h)
    have hframe := hq.represents.pushBack_frame hne hold
    have hlinks := links_tqueueEnqueue (s.tcbSetState p .ready) numIds p
    rw [← prev_links _ numIds, ← next_links _ numIds, hlinks]
    obtain ⟨hprev, hnext⟩ := hq.detached p' hp' hold
    exact ⟨hframe.1.trans hprev, hframe.2.trans hnext⟩
  sleepQueues chid hchid := by
    have hne : chid ≠ numIds := Nat.ne_of_lt hchid
    rw [tqueueEnqueue_head _ _ _ hne, tqueueEnqueue_tail _ _ _ hne]
    exact hq.sleepQueues chid hchid

theorem remove (hq : s.QueueOk q) (hmem : p ∈ q) (state : TState) (hstate : state ≠ .ready) :
    ((s.tqueueRemove numIds p).tcbSetState p state).QueueOk (q.erase p) := by
  have hlinks : (s.tqueueRemove numIds p).links numIds = (s.links numIds).unlink numIds p := by
    apply links_tqueueRemove
    obtain ⟨before, after, rfl⟩ := List.append_of_mem hmem
    exact hq.represents.prev_ne_next
  have hnot : p ∉ q.erase p := fun h =>
    (hq.represents.nodup.mem_erase_iff.mp h).1 rfl
  exact {
    represents := by
      have hrep := hq.represents.unlink hmem
      rwa [← hlinks] at hrep
    lt_of_mem := fun p' hp' => hq.lt_of_mem p' (List.mem_of_mem_erase hp')
    mem_iff := by
      intro p' hp'
      by_cases heq : p' = p
      · subst heq
        simp [tcbSetState, hnot, hstate]
      · simpa [tcbSetState, heq, List.mem_erase_of_ne heq] using hq.mem_iff p' hp'
    detached := by
      intro p' hp' hmem'
      change ((s.tqueueRemove numIds p).links numIds).prev p' = numIds ∧
        ((s.tqueueRemove numIds p).links numIds).next p' = numIds
      rw [hlinks]
      by_cases heq : p' = p
      · simp [Links.unlink, heq]
      · have hold : p' ∉ q := fun h => hmem' ((List.mem_erase_of_ne heq).mpr h)
        obtain ⟨hprev, hnext⟩ := hq.represents.unlink_frame hmem hold
        obtain ⟨hp, hn⟩ := hq.detached p' hp' hold
        exact ⟨hprev.trans hp, hnext.trans hn⟩
    sleepQueues := by
      intro chid hchid
      have hne : chid ≠ numIds := Nat.ne_of_lt hchid
      show (s.tqueueRemove numIds p).head chid = numIds ∧
        (s.tqueueRemove numIds p).tail chid = numIds
      rw [tqueueRemove_head _ _ _ hne, tqueueRemove_tail _ _ _ hne]
      exact hq.sleepQueues chid hchid }

theorem links_remove_of_not_mem (hq : s.QueueOk q) (hp : p < numIds) (hmem : p ∉ q) :
    ((s.tqueueRemove numIds p).links numIds).Represents numIds [] := by
  obtain ⟨hprev, hnext⟩ := hq.detached p hp hmem
  rw [links_tqueueRemove _ _ _ (fun h => absurd hprev h)]
  exact Links.represents_unlink_of_detached hprev hnext

theorem tqueueRemove_nil (hq : s.QueueOk []) (hp : p < numIds) : s.tqueueRemove numIds p = s := by
  obtain ⟨hprev, hnext⟩ := hq.detached p hp (by simp)
  have hhead : s.head numIds = numIds := hq.represents.head_eq
  have htail : s.tail numIds = numIds := hq.represents.tail_eq
  have hsame : ∀ (f : ℕ → ℕ) (i : ℕ), f i = numIds → update f i numIds = f :=
    fun f i h => update_eq_self_iff.mpr h.symm
  simp [tqueueRemove, hprev, hnext, tqueueSetHead, tqueueSetTail, tcbSetPrev, tcbSetNext,
    hsame _ _ hprev, hsame _ _ hnext, hsame _ _ hhead, hsame _ _ htail]

theorem dequeue {rest : List ℕ} (hq : s.QueueOk (p :: rest)) :
    s.tqueueDequeue numIds = (p, s.tqueueRemove numIds p) := by
  have hhead : s.head numIds = p := hq.represents.head_eq
  have hp : p < numIds := hq.lt_of_mem p List.mem_cons_self
  have hprev : s.prev p = numIds := hq.represents.segment.1
  have hdeq := s.tqueueDequeue_of_head numIds (by rw [hhead]; exact Nat.ne_of_lt hp)
    (by rw [hhead]; exact hprev)
  rw [hdeq, hhead]

theorem dequeue_nil (hq : s.QueueOk []) : s.tqueueDequeue numIds = (numIds, s) := by
  have hhead : s.head numIds = numIds := hq.represents.head_eq
  simp [tqueueDequeue, hhead]

theorem dispatch (hq : s.QueueOk q) (hmem : p ∈ q)
    (hidle : ∀ p', 1 ≤ p' → p' < numIds → s.state p' ≠ .run)
    (hsleep : ∀ p' < numIds, s.state p' = .sleep → s.channel p' ≠ none) :
    (((s.tqueueRemove numIds p).tcbSetState p .run).setCurid p).WellFormed (q.erase p) where
  toQueueOk := (hq.remove hmem .run (by decide)).congr rfl rfl rfl rfl rfl
  curid_lt := hq.lt_of_mem p hmem
  curid_run := by simp [setCurid, tcbSetState]
  eq_curid_of_run p' hone hlt hrun := by
    by_contra hne
    have hstate : s.state p' = .run := by
      simpa [setCurid, tcbSetState, show p' ≠ p from hne] using hrun
    exact hidle p' hone hlt hstate
  channel_of_sleep p' hlt hsl := by
    by_cases heq : p' = p
    · simp [setCurid, tcbSetState, heq] at hsl
    · have hstate : s.state p' = .sleep := by
        simpa [setCurid, tcbSetState, heq] using hsl
      simpa [setCurid, tcbSetState] using hsleep p' hlt hstate

end QueueOk

/-- The CPU goes from the running thread, which is left in `state`, to the first thread of
`q`. -/
structure Switched (s : Sched χ) (q : List ℕ) (state : TState) (t : Sched χ) : Prop where
  queue : q = t.curid :: t.readyQueue
  wellFormed : t.WellFormed t.readyQueue
  state : t.state = update (update s.state s.curid state) t.curid .run

theorem Switched.cases {s t : Sched χ} {q : List ℕ} {state state' : TState} {p : ℕ}
    (h : s.Switched q state t) (hp : t.state p = state') (hrun : state' ≠ .run) :
    p = s.curid ∧ state' = state ∨ p ≠ s.curid ∧ s.state p = state' := by
  rw [h.state, update_apply, update_apply] at hp
  split_ifs at hp with hnext hcur
  · exact absurd hp.symm hrun
  · exact .inl ⟨hcur, hp.symm⟩
  · exact .inr ⟨hcur, hp⟩

/-! ## One lemma for each scheduler entry point -/

namespace WellFormed

variable {s : Sched χ} {q : List ℕ} (hwf : s.WellFormed q)

include hwf

theorem curid_not_mem : s.curid ∉ q := by
  intro hmem
  have hready := (hwf.mem_iff s.curid hwf.curid_lt).mp hmem
  rw [hwf.curid_run] at hready
  cases hready

variable {p : ℕ}

theorem not_mem_of_state (hp : s.state p ≠ .ready) : p ∉ q := by
  intro hmem
  exact hp ((hwf.mem_iff p (hwf.lt_of_mem p hmem)).mp hmem)

theorem setOther {t : Sched χ} {q' : List ℕ} (state : TState)
    (hq : t.QueueOk q') (hstate : t.state = update s.state p state) (hrun : state ≠ .run)
    (hsleep : state ≠ .sleep) (hcur : p ≠ s.curid) (hchannel : t.channel = s.channel)
    (hcurid : t.curid = s.curid) : t.WellFormed q' where
  toQueueOk := hq
  curid_lt := by simpa [hcurid] using hwf.curid_lt
  curid_run := by simpa [hstate, hcurid, hcur.symm] using hwf.curid_run
  eq_curid_of_run p' hone hlt hr := by
    by_cases heq : p' = p
    · simp [hstate, heq, hrun] at hr
    · rw [hcurid]
      exact hwf.eq_curid_of_run p' hone hlt (by simpa [hstate, heq] using hr)
  channel_of_sleep p' hlt hs := by
    by_cases heq : p' = p
    · simp [hstate, heq, hsleep] at hs
    · rw [hchannel]
      exact hwf.channel_of_sleep p' hlt (by simpa [hstate, heq] using hs)

theorem makeReady (hp : p < numIds) (hmem : p ∉ q) (hcur : p ≠ s.curid) :
    ((s.tcbSetState p .ready).tqueueEnqueue numIds p).WellFormed (q ++ [p]) :=
  hwf.setOther .ready (hwf.toQueueOk.makeReady hp hmem) (by simp [tcbSetState]) (by decide)
    (by decide) hcur (by simp [tcbSetState]) (by simp [tcbSetState])

theorem setChan (hp : s.state p ≠ .sleep) (chan : Option χ) : (s.tcbSetChan p chan).WellFormed q where
  toQueueOk := hwf.toQueueOk.congr rfl rfl rfl rfl rfl
  __ := hwf
  channel_of_sleep p' hlt hsleep := by
    have hne : p' ≠ p := fun heq => hp (heq ▸ hsleep)
    simpa [tcbSetChan, hne] using hwf.channel_of_sleep p' hlt hsleep

theorem addPendingSignal (pid : ℕ) (signum : ℤ) : (s.tcbAddPendingSignal pid signum).WellFormed q := by
  unfold tcbAddPendingSignal
  split
  · exact ⟨hwf.toQueueOk.congr rfl rfl rfl rfl rfl, hwf.curid_lt, hwf.curid_run,
      hwf.eq_curid_of_run, hwf.channel_of_sleep⟩
  · exact hwf

variable {pid : ℕ}

theorem threadSpawn (hpid : pid < numIds) (hdead : s.state pid = .dead) :
    (s.threadSpawn pid).WellFormed (q ++ [pid]) := by
  refine hwf.makeReady hpid (hwf.not_mem_of_state (by simp [hdead])) ?_
  rintro rfl
  rw [hwf.curid_run] at hdead
  cases hdead

theorem kernMainHandoff (hcur : s.curid = 0) (hmem : pid ∈ q) :
    (s.kernMainHandoff pid).WellFormed (q.erase pid) := by
  refine hwf.toQueueOk.dispatch hmem (fun p hone hlt hrun => ?_) hwf.channel_of_sleep
  have hzero := hwf.eq_curid_of_run p hone hlt hrun
  omega

theorem switched {rest : List ℕ} {t : Sched χ} (state : TState)
    (hq : t.QueueOk (p :: rest)) (hstate : t.state = update s.state s.curid state)
    (hrun : state ≠ .run) (hchannel : ∀ p', p' ≠ s.curid → t.channel p' = s.channel p')
    (hchan : state = .sleep → t.channel s.curid ≠ none) : s.Switched (p :: rest) state
      (((t.tqueueRemove numIds p).tcbSetState p .run).setCurid p) := by
  have hdispatch := hq.dispatch List.mem_cons_self ?_ ?_
  · rw [List.erase_cons_head] at hdispatch
    have hqueue := hdispatch.toQueueOk.readyQueue_eq
    exact ⟨by rw [hqueue]; rfl, by rwa [hqueue], by simp [setCurid, tcbSetState, hstate]⟩
  · intro p' hone hlt hr
    rw [hstate] at hr
    by_cases heq : p' = s.curid
    · subst heq
      simp [hrun] at hr
    · exact heq (hwf.eq_curid_of_run p' hone hlt (by simpa [heq] using hr))
  · intro p' hlt hs
    rw [hstate] at hs
    by_cases heq : p' = s.curid
    · subst heq
      exact hchan (by simpa using hs)
    · rw [hchannel p' heq]
      exact hwf.channel_of_sleep p' hlt (by simpa [heq] using hs)

theorem threadYield : s.Switched (q ++ [s.curid]) .ready s.threadYield := by
  obtain ⟨p, rest, hrest⟩ := List.exists_cons_of_ne_nil
    (List.append_ne_nil_of_right_ne_nil q (List.cons_ne_nil s.curid []))
  have hq := hwf.toQueueOk.makeReady hwf.curid_lt hwf.curid_not_mem
  rw [hrest] at hq ⊢
  simp only [Sched.threadYield, hq.dequeue]
  exact hwf.switched .ready hq (by simp [tcbSetState]) (by decide) (by simp [tcbSetState])
    (by simp)

variable {t : Sched χ}

theorem threadExit {u : Sched χ} (state : TState) (hq : t.QueueOk q)
    (hstate : t.state = update s.state s.curid state) (hrun : state ≠ .run)
    (hchannel : ∀ p', p' ≠ s.curid → t.channel p' = s.channel p')
    (hchan : state = .sleep → t.channel s.curid ≠ none) (hexit : t.threadExit = some u) :
    s.Switched q state u := by
  cases q with
  | nil => simp [Sched.threadExit, hq.dequeue_nil] at hexit
  | cons p rest =>
    have hp : p ≠ numIds := Nat.ne_of_lt (hwf.lt_of_mem p List.mem_cons_self)
    simp only [Sched.threadExit, hq.dequeue, if_neg hp, Option.some.injEq] at hexit
    exact hexit ▸ hwf.switched state hq hstate hrun hchannel hchan

theorem threadSleep {chan : χ} (hsleep : s.threadSleep chan = some t) : s.Switched q .sleep t :=
  hwf.threadExit .sleep ((hwf.toQueueOk.setState hwf.curid_not_mem .sleep (by decide)).congr
      (t := (s.tcbSetState s.curid .sleep).tcbSetChan s.curid (some chan)) rfl rfl rfl rfl rfl)
    rfl (by decide) (fun p' hne => by simp [tcbSetChan, tcbSetState, hne]) (by simp [tcbSetChan])
    hsleep

theorem terminateCurrent (hexit : s.terminateCurrent = some t) : s.Switched q .dead t :=
  hwf.threadExit .dead (hwf.toQueueOk.setState hwf.curid_not_mem .dead (by decide)) rfl
    (by decide) (fun _ _ => rfl) (by simp) hexit

theorem threadSleepReturn : s.threadSleepReturn.WellFormed q :=
  hwf.setChan (by simp [hwf.curid_run]) none

theorem killTarget_of_mem (hmem : pid ∈ q) : (s.killTarget pid).WellFormed (q.erase pid) := by
  have hq := hwf.toQueueOk.remove hmem .dead (by decide)
  rw [killTarget_eq]
  exact hwf.setOther .dead (hq.congr rfl rfl rfl rfl rfl)
    (by simp [tcbSetPendingSignals, tcbSetState]) (by decide) (by decide)
    (fun heq => hwf.curid_not_mem (heq ▸ hmem)) (by simp [tcbSetPendingSignals, tcbSetState])
    (by simp [tcbSetPendingSignals, tcbSetState])

omit hwf in
theorem killTarget_of_nil (hwf : s.WellFormed []) (hpid : pid < numIds) (hcur : s.curid ≠ pid) :
    (s.killTarget pid).WellFormed [] := by
  have hq := hwf.toQueueOk.setState (p := pid) (by simp) .dead (by decide)
  rw [killTarget_eq, hwf.toQueueOk.tqueueRemove_nil hpid]
  exact hwf.setOther .dead (hq.congr rfl rfl rfl rfl rfl) rfl (by decide) (by decide)
    (Ne.symm hcur) rfl rfl

end WellFormed

/-! ## Waking a channel -/

section Wakeup

variable [DecidableEq χ]

def SleepsOn (s : Sched χ) (chan : χ) (pid : ℕ) : Prop :=
  s.channel pid = some chan ∧ s.state pid = .sleep

instance (s : Sched χ) (chan : χ) (pid : ℕ) : Decidable (s.SleepsOn chan pid) := by
  unfold SleepsOn
  infer_instance

def woken (s : Sched χ) (chan : χ) : List ℕ :=
  (List.range' 1 (numIds - 1)).filter fun pid => s.SleepsOn chan pid

variable {s : Sched χ} {q : List ℕ} {chan : χ}

theorem wakeOne_of_sleepsOn {pid : ℕ} (hwake : s.SleepsOn chan pid) : wakeOne chan s pid =
      ((s.tcbSetState pid .ready).tcbSetChan pid none).tqueueEnqueue numIds pid :=
  if_pos hwake

theorem wakeOne_of_not_sleepsOn {pid : ℕ} (hwake : ¬ s.SleepsOn chan pid) :
    wakeOne chan s pid = s :=
  if_neg hwake

theorem foldl_wakeOne_fields (s : Sched χ) (chan : χ) (pids : List ℕ) (hnodup : pids.Nodup)
    (p : ℕ) : (pids.foldl (wakeOne chan) s).state p =
        (if p ∈ pids ∧ s.SleepsOn chan p then .ready else s.state p) ∧
      (pids.foldl (wakeOne chan) s).channel p =
        (if p ∈ pids ∧ s.SleepsOn chan p then none else s.channel p) ∧
      (pids.foldl (wakeOne chan) s).curid = s.curid := by
  induction pids generalizing s with
  | nil => simp
  | cons pid rest ih =>
    obtain ⟨hnot, hrest⟩ := List.nodup_cons.mp hnodup
    obtain ⟨hstate, hchannel, hcurid⟩ := ih (wakeOne chan s pid) hrest
    rw [List.foldl_cons, hstate, hchannel, hcurid]
    by_cases hwake : s.SleepsOn chan pid
    · have hone := wakeOne_of_sleepsOn hwake
      by_cases heq : p = pid
      · subst heq
        simp [hone, hnot, hwake, tcbSetState, tcbSetChan]
      · simp [hone, heq, SleepsOn, tcbSetState, tcbSetChan]
    · have hone := wakeOne_of_not_sleepsOn hwake
      by_cases heq : p = pid
      · subst heq
        simp [hone, hnot, hwake]
      · simp [hone, heq]

theorem threadWakeup_fields (s : Sched χ) (chan : χ) (p : ℕ) : (s.threadWakeup chan).state p =
        (if 1 ≤ p ∧ p < numIds ∧ s.SleepsOn chan p then .ready else s.state p) ∧
      (s.threadWakeup chan).channel p =
        (if 1 ≤ p ∧ p < numIds ∧ s.SleepsOn chan p then none else s.channel p) ∧
      (s.threadWakeup chan).curid = s.curid := by
  have hfields := foldl_wakeOne_fields s chan (List.range' 1 (numIds - 1))
    List.nodup_range' p
  have hmem : p ∈ List.range' 1 (numIds - 1) ↔ 1 ≤ p ∧ p < numIds :=
    List.mem_range'_1
  simpa only [threadWakeup, hmem, and_assoc] using hfields

theorem WellFormed.wakeOne (hwf : s.WellFormed q) (chan : χ) {pid : ℕ} (hpid : pid < numIds) :
    (Sched.wakeOne chan s pid).WellFormed (q ++ if s.SleepsOn chan pid then [pid] else []) := by
  by_cases hwake : s.SleepsOn chan pid
  · have hone : Sched.wakeOne chan s pid =
        ((s.tcbSetState pid .ready).tqueueEnqueue numIds pid).tcbSetChan pid none := by
      rw [wakeOne_of_sleepsOn hwake]
      unfold tqueueEnqueue
      dsimp only [tcbSetState, tcbSetChan]
      split <;> rfl
    have hmem : pid ∉ q := hwf.not_mem_of_state (by simp [hwake.2])
    have hcur : pid ≠ s.curid := by
      rintro rfl
      have hsleep := hwake.2
      rw [hwf.curid_run] at hsleep
      cases hsleep
    rw [hone, if_pos hwake]
    exact (hwf.makeReady hpid hmem hcur).setChan (by simp [tcbSetState]) none
  · rw [wakeOne_of_not_sleepsOn hwake, if_neg hwake, List.append_nil]
    exact hwf

theorem WellFormed.threadWakeup (hwf : s.WellFormed q) (chan : χ) :
    (s.threadWakeup chan).WellFormed (q ++ s.woken chan) := by
  have hgeneral : ∀ (pids : List ℕ) (s : Sched χ) (q : List ℕ), pids.Nodup →
      (∀ p ∈ pids, p < numIds) → s.WellFormed q →
      (pids.foldl (Sched.wakeOne chan) s).WellFormed
        (q ++ pids.filter fun pid => s.SleepsOn chan pid) := by
    intro pids
    induction pids with
    | nil =>
      intro s q _ _ hwf
      simpa using hwf
    | cons pid rest ih =>
      intro s q hnodup hlt hwf
      obtain ⟨hnot, hrest⟩ := List.nodup_cons.mp hnodup
      have hstep := ih (Sched.wakeOne chan s pid) _ hrest
        (fun p hp => hlt p (List.mem_cons_of_mem _ hp))
        (hwf.wakeOne chan (hlt pid List.mem_cons_self))
      have hfilter : (rest.filter fun p => (Sched.wakeOne chan s pid).SleepsOn chan p) =
          rest.filter fun p => s.SleepsOn chan p := by
        apply List.filter_congr
        intro p hp
        have hne : p ≠ pid := fun heq => hnot (heq ▸ hp)
        have hfields := foldl_wakeOne_fields s chan [pid]
          (List.nodup_singleton pid) p
        simp only [List.foldl_cons, List.foldl_nil, List.mem_singleton, hne, false_and,
          if_false] at hfields
        simp only [SleepsOn, hfields.1, hfields.2.1]
      rw [hfilter, List.append_assoc] at hstep
      rw [List.foldl_cons, List.filter_cons]
      by_cases hwake : s.SleepsOn chan pid
      · simpa [hwake] using hstep
      · simpa [hwake] using hstep
  refine hgeneral _ s q List.nodup_range' ?_ hwf
  intro p hp
  have hrange := List.mem_range'_1.mp hp
  have hids : numIds = 64 := rfl
  omega

end Wakeup

end Sched

end MCertikos.Thread
