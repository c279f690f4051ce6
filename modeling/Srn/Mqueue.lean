import Mathlib.Data.List.Basic
import Srn.Lib.DList
import Srn.Lib.Pool
import Srn.Lib.Transition

/-!
# Srn.Mqueue

The bounded queue of `lib/linked_list.c`: a ring of intrusive nodes around a sentinel, two
counting semaphores, a mutex, and a flag that `mqueue_close` sets.  The DNS proxy hands its
queries and replies from thread to thread through three such queues.

`mqueue_append`, `mqueue_dequeue` and `mqueue_remove` follow one scheme: wait on one semaphore,
test the flag, access the list with the mutex held, post the other semaphore; with the flag set
they post the semaphore they waited on and fail.  `mqueue_close` sets the flag and then posts
each semaphore a given number of times.  Any number of calls may be in flight and their steps
interleave freely.

An element has one pair of pointers, so that it can be appended only while it is in no list,
and taken out only while it is in this one; a call that breaks this rule has no step here.
-/

namespace Srn

open DList (Links Ring)

variable {ι : Type}

/-! ## The list -/

/-- `queue_init`: the sentinel is the queue itself. -/
def queueInit [DecidableEq ι] (queue : ι) : Links ι where
  next a := if a = queue then some queue else none
  prev a := if a = queue then some queue else none

/-- `queue_append`; `none` when a null pointer is followed. -/
def queueAppend [DecidableEq ι] (s : Links ι) (queue elem : ι) : Option (Links ι) := do
  let tmp ← s.prev queue
  let s := s.setNext elem (some queue)
  let s := s.setPrev elem (s.prev queue)
  let s := s.setNext tmp (some elem)
  return s.setPrev queue (some elem)

/-- `queue_dequeue`. -/
def queueDequeue [DecidableEq ι] (s : Links ι) (queue : ι) : Option (ι × Links ι) := do
  let tmp ← s.next queue
  let s := s.setNext queue (s.next tmp)
  let first ← s.next queue
  return (tmp, s.setPrev first (some queue))

/-- `queue_remove`. -/
def queueRemove [DecidableEq ι] (s : Links ι) (elem : ι) : Option (Links ι) := do
  let before ← s.prev elem
  let s := s.setNext before (s.next elem)
  let after ← s.next elem
  let s := s.setPrev after (s.prev elem)
  return (s.setNext elem none).setPrev elem none

/-- `queue_destroy`: the nodes it frees, for at most `fuel` rounds of its loop. -/
def queueDestroy [DecidableEq ι] (queue : ι) : ℕ → Links ι → Option (List ι)
  | 0, _ => none
  | fuel + 1, s => do
    let (elem, s) ← queueDequeue s queue
    if elem = queue then return []
    let rest ← queueDestroy queue fuel s
    return elem :: rest

/-- `mqueue_walk_safe`: the nodes a walk visits from `elem` on, for at most `fuel` rounds. -/
def queueWalk [DecidableEq ι] (s : Links ι) (queue : ι) : ℕ → ι → Option (List ι)
  | 0, _ => none
  | fuel + 1, elem =>
    if elem = queue then some []
    else do
      let tmp ← s.next elem
      let rest ← queueWalk s queue fuel tmp
      return elem :: rest

theorem ring_queueInit [DecidableEq ι] (queue : ι) : Ring (queueInit queue) queue [] where
  nodup := by simp
  chain := by simp [DList.Joined, queueInit]

/-- A new element gets the last place. -/
theorem queueAppend_ring [DecidableEq ι] {s : Links ι} {queue elem : ι} {l : List ι}
    (h : Ring s queue l) (he : elem ∉ queue :: l) :
    ∃ s', queueAppend s queue elem = some s' ∧ Ring s' queue (l ++ [elem]) := by
  obtain ⟨p, -, hp⟩ := h.prev_mem List.mem_cons_self
  have hne : queue ≠ elem := by grind
  have happend : queueAppend s queue elem =
      some ((((s.setNext elem (some queue)).setPrev elem (some p)).setNext p
        (some elem)).setPrev queue (some elem)) := by
    simp [queueAppend, hp]
  exact ⟨_, happend, h.append he hp (fun a => by simp) fun a => by simp⟩

/-- The first element leaves a list that is not empty. -/
theorem queueDequeue_ring [DecidableEq ι] {s : Links ι} {queue elem : ι} {l : List ι}
    (h : Ring s queue (elem :: l)) :
    ∃ s', queueDequeue s queue = some (elem, s') ∧ Ring s' queue l := by
  have hfirst : s.next queue = some elem := h.next_sentinel
  have hring : Ring s queue ([] ++ elem :: l) := h
  obtain ⟨p, -, hp⟩ := hring.prev_mem (e := elem) (by simp)
  obtain ⟨n, -, hn⟩ := hring.next_mem (e := elem) (by simp)
  obtain rfl : queue = p := by
    have hjoin := (List.isChain_cons_cons.mp h.chain).1.2
    exact Option.some.inj (hjoin.symm.trans hp)
  have hdequeue : queueDequeue s queue =
      some (elem, (s.setNext queue (some n)).setPrev n (some queue)) := by
    simp [queueDequeue, hfirst, hn]
  exact ⟨_, hdequeue, hring.takeOut hp hn (fun a _ => by simp) fun a _ => by simp⟩

/-- An element of the list leaves it, and its pointers are cleared. -/
theorem queueRemove_ring [DecidableEq ι] {s : Links ι} {queue elem : ι} {pre post : List ι}
    (h : Ring s queue (pre ++ elem :: post)) :
    ∃ s', queueRemove s elem = some s' ∧ Ring s' queue (pre ++ post) := by
  obtain ⟨p, -, hp⟩ := h.prev_mem (e := elem) (by simp)
  obtain ⟨n, -, hn⟩ := h.next_mem (e := elem) (by simp)
  have hremove : queueRemove s elem =
      some ((((s.setNext p (some n)).setPrev n (some p)).setNext elem none).setPrev elem none) := by
    simp [queueRemove, hp, hn]
  exact ⟨_, hremove,
    h.takeOut hp hn (fun a ha => by simp [ha]) fun a ha => by simp [ha]⟩

/-- `queue_destroy` frees the nodes of the list. -/
theorem queueDestroy_ring [DecidableEq ι] {s : Links ι} {queue : ι} {l : List ι}
    (h : Ring s queue l) {fuel : ℕ} (hfuel : l.length < fuel) :
    queueDestroy queue fuel s = some l := by
  induction l generalizing s fuel with
  | nil =>
    obtain ⟨fuel, rfl⟩ := Nat.exists_eq_succ_of_ne_zero (Nat.ne_of_gt hfuel)
    have hself : s.next queue = some queue := h.next_sentinel
    simp [queueDestroy, queueDequeue, hself]
  | cons elem l ih =>
    obtain ⟨fuel, rfl⟩ := Nat.exists_eq_succ_of_ne_zero (Nat.ne_of_gt (Nat.zero_lt_of_lt hfuel))
    obtain ⟨s', hdequeue, hring⟩ := queueDequeue_ring h
    have hne : elem ≠ queue := by have := h.nodup; grind
    simp [queueDestroy, hdequeue, hne, ih hring (Nat.lt_of_succ_lt_succ hfuel)]

/-- A walk along joined nodes up to the sentinel visits them in order. -/
theorem queueWalk_chain [DecidableEq ι] {s : Links ι} {queue elem : ι} {l : List ι}
    (hnot : queue ∉ l) (h : List.IsChain (DList.Joined s) (elem :: l ++ [queue]))
    (hne : elem ≠ queue) {fuel : ℕ} (hfuel : l.length + 1 < fuel) :
    queueWalk s queue fuel elem = some (elem :: l) := by
  induction l generalizing elem fuel with
  | nil =>
    obtain ⟨fuel, rfl⟩ := Nat.exists_eq_add_of_le' (Nat.succ_le_of_lt hfuel)
    have hnext := (List.isChain_cons_cons.mp h).1.1
    simp [queueWalk, hne, hnext]
  | cons a l ih =>
    obtain ⟨fuel, rfl⟩ := Nat.exists_eq_succ_of_ne_zero (Nat.ne_of_gt (Nat.zero_lt_of_lt hfuel))
    obtain ⟨hjoin, hrest⟩ := List.isChain_cons_cons.mp h
    rw [List.mem_cons, not_or] at hnot
    have hwalk := ih hnot.2 hrest (Ne.symm hnot.1) (Nat.lt_of_succ_lt_succ hfuel)
    simp [queueWalk, hne, hjoin.1, hwalk]

/-- A walk from the first node visits the nodes of the list. -/
theorem queueWalk_ring [DecidableEq ι] {s : Links ι} {queue : ι} {l : List ι} (h : Ring s queue l)
    {fuel : ℕ} (hfuel : l.length < fuel) :
    (s.next queue).bind (queueWalk s queue fuel) = some l := by
  rw [h.next_sentinel]
  cases l with
  | nil =>
    obtain ⟨fuel, rfl⟩ := Nat.exists_eq_succ_of_ne_zero (Nat.ne_of_gt hfuel)
    simp [queueWalk]
  | cons elem l =>
    have hnodup := h.nodup
    exact queueWalk_chain (by grind) (List.isChain_cons_cons.mp h.chain).2 (by grind) hfuel

/-! ## Calls and their interleavings -/

/-- The two semaphores. -/
inductive MqSem where
  | empty
  | full
  deriving DecidableEq, Repr

/-- `mqueue_append`, `mqueue_dequeue` and `mqueue_remove`. -/
inductive MqOp (ι : Type) where
  | append (elem : ι)
  | dequeue
  | remove (elem : ι)
  deriving DecidableEq, Repr

/-- What a call returns: an error code or a node.  The turn is history: how many nodes had left
through `queue_dequeue` before this one, and none for a call that did not reach the list. -/
inductive MqRet (ι : Type) where
  | code (err : Int)
  | node (elem : ι) (turn : Option ℕ)
  deriving DecidableEq, Repr

namespace MqOp

/-- The semaphore a call waits on; it posts the same one when the queue is closed. -/
def waits : MqOp ι → MqSem
  | .append _ => .empty
  | .dequeue | .remove _ => .full

/-- The semaphore a call posts after its access to the list. -/
def posts : MqOp ι → MqSem
  | .append _ => .full
  | .dequeue | .remove _ => .empty

/-- What a call returns when the queue is closed. -/
def refusal (queue : ι) : MqOp ι → MqRet ι
  | .append _ | .remove _ => .code (-1)
  | .dequeue => .node queue none

end MqOp

/-- Where a call stands between two of its steps. -/
inductive MqPhase (ι : Type) where
  /-- Past its wait, before the test of the flag. -/
  | waited
  /-- The flag was clear; the list is next. -/
  | passed
  /-- The list has been accessed; the post is next. -/
  | finished (ret : MqRet ι)
  /-- The flag was set; the post of the failure path is next. -/
  | refused
  deriving DecidableEq, Repr

/-- A call in flight.  `mqueue_close` has set the flag and still has so many posts to make. -/
inductive MqCall (ι : Type) where
  | op (op : MqOp ι) (phase : MqPhase ι)
  | closing (consumers producers : ℕ)
  deriving DecidableEq, Repr

/-- The node that leaves the list with a return value, and its turn. -/
def MqRet.taken : MqRet ι → Option (ι × ℕ)
  | .node e (some turn) => some (e, turn)
  | _ => none

/-- What a call that has accessed the list is about to return. -/
def MqCall.taken : MqCall ι → Option (ι × ℕ)
  | .op _ (.finished ret) => ret.taken
  | _ => none

/-- One atomic step of some call.  `i` is the position of the call among those in flight; a new
call is added at the front. -/
inductive MqEvent (ι : Type) where
  | wait (op : MqOp ι)
  | test (i : ℕ)
  | list (i : ℕ)
  | post (i : ℕ)
  | close (consumers producers : ℕ)
  deriving DecidableEq, Repr

/-- `struct queue_thread` and the calls in flight.  The rest is history: the nodes in the list
with the number of their append, all nodes appended, the numbers of the appends that a removal
undid, the nodes that left through `queue_dequeue`, and the values returned. -/
structure MqState (ι : Type) where
  links : Links ι
  closed : Bool
  sem : MqSem → ℕ
  calls : List (MqCall ι)
  elems : List (ι × ℕ)
  appended : List ι
  removed : List ℕ
  dequeued : List (ι × ℕ)
  returned : List (MqOp ι × MqRet ι)

namespace MqState

/-- `mqueue_init`. -/
def init [DecidableEq ι] (queue : ι) (maxSize : ℕ) : MqState ι where
  links := queueInit queue
  closed := false
  sem
    | .empty => maxSize
    | .full => 0
  calls := []
  elems := []
  appended := []
  removed := []
  dequeued := []
  returned := []

/-- `sem_wait` that gets through. -/
def semWait (s : MqState ι) (k : MqSem) : MqState ι :=
  { s with sem := Function.update s.sem k (s.sem k - 1) }

/-- `sem_post`. -/
def semPost (s : MqState ι) (k : MqSem) : MqState ι :=
  { s with sem := Function.update s.sem k (s.sem k + 1) }

@[simp] theorem sem_semWait (s : MqState ι) (k j : MqSem) :
    (s.semWait k).sem j = if j = k then s.sem k - 1 else s.sem j := by
  simp [semWait, Function.update_apply]

@[simp] theorem sem_semPost (s : MqState ι) (k j : MqSem) :
    (s.semPost k).sem j = if j = k then s.sem k + 1 else s.sem j := by
  simp [semPost, Function.update_apply]

/-- The access to the list, with the mutex held.  A node is appended only while it is in no
place of the list, and removed only while it is in one. -/
def listOp [DecidableEq ι] (queue : ι) (s : MqState ι) : MqOp ι → Option (MqState ι × MqRet ι)
  | .append elem =>
    if elem = queue ∨ elem ∈ s.elems.map Prod.fst then none
    else
      (queueAppend s.links queue elem).map fun links =>
        ({ s with
          links
          elems := s.elems ++ [(elem, s.appended.length)]
          appended := s.appended ++ [elem] }, .code 0)
  | .dequeue =>
    (queueDequeue s.links queue).map fun (tmp, links) =>
      ({ s with
        links
        elems := s.elems.tail
        dequeued := s.dequeued ++ [(tmp, (s.elems.head?.map Prod.snd).getD 0)] },
        .node tmp (some s.dequeued.length))
  | .remove elem =>
    match s.elems.find? fun x => x.1 = elem with
    | none => none
    | some x =>
      (queueRemove s.links elem).map fun links =>
        ({ s with links, elems := s.elems.erase x, removed := s.removed ++ [x.2] }, .code 0)

/-- One step of one call.  `none` when the step is not enabled: the semaphore is zero, or call
`i` is elsewhere. -/
def step [DecidableEq ι] (queue : ι) (s : MqState ι) : MqEvent ι → Option (MqState ι)
  | .wait op =>
    if s.sem op.waits = 0 then none
    else some { s.semWait op.waits with calls := .op op .waited :: s.calls }
  | .test i =>
    match s.calls[i]? with
    | some (.op op .waited) => some { s with
        calls := s.calls.set i (.op op (if s.closed then .refused else .passed)) }
    | _ => none
  | .list i =>
    match s.calls[i]? with
    | some (.op op .passed) => (s.listOp queue op).map fun (t, ret) =>
      { t with calls := s.calls.set i (.op op (.finished ret)) }
    | _ => none
  | .post i =>
    match s.calls[i]? with
    | some (.op op (.finished ret)) => some { s.semPost op.posts with
        calls := s.calls.eraseIdx i
        returned := s.returned ++ [(op, ret)] }
    | some (.op op .refused) => some { s.semPost op.waits with
        calls := s.calls.eraseIdx i
        returned := s.returned ++ [(op, op.refusal queue)] }
    | some (.closing (consumers + 1) producers) => some { s.semPost .full with
        calls := s.calls.set i (.closing consumers producers) }
    | some (.closing 0 (producers + 1)) => some { s.semPost .empty with
        calls := s.calls.set i (.closing 0 producers) }
    | some (.closing 0 0) => some { s with calls := s.calls.eraseIdx i }
    | _ => none
  | .close consumers producers => some { s with
      closed := true
      calls := .closing consumers producers :: s.calls }

/-- The state after a sequence of steps. -/
abbrev run [DecidableEq ι] (queue : ι) : MqState ι → List (MqEvent ι) → Option (MqState ι) :=
  Transition.run (step queue)

/-- What a step can do, with its guard. -/
inductive Change [DecidableEq ι] (queue : ι) (s : MqState ι) : MqState ι → Prop
  | wait {op} : s.sem op.waits ≠ 0 →
      Change queue s { s.semWait op.waits with calls := .op op .waited :: s.calls }
  | refuse {i op} : s.calls[i]? = some (.op op .waited) → s.closed = true →
      Change queue s { s with calls := s.calls.set i (.op op .refused) }
  | pass {i op} : s.calls[i]? = some (.op op .waited) → s.closed = false →
      Change queue s { s with calls := s.calls.set i (.op op .passed) }
  | list {i op t ret} : s.calls[i]? = some (.op op .passed) → s.listOp queue op = some (t, ret) →
      Change queue s { t with calls := s.calls.set i (.op op (.finished ret)) }
  | finish {i op ret} : s.calls[i]? = some (.op op (.finished ret)) →
      Change queue s { s.semPost op.posts with
        calls := s.calls.eraseIdx i, returned := s.returned ++ [(op, ret)] }
  | giveBack {i op} : s.calls[i]? = some (.op op .refused) →
      Change queue s { s.semPost op.waits with
        calls := s.calls.eraseIdx i, returned := s.returned ++ [(op, op.refusal queue)] }
  | closePost {i c p c' p' k} : s.calls[i]? = some (.closing c p) →
      Change queue s { s.semPost k with calls := s.calls.set i (.closing c' p') }
  | closed {i c p} : s.calls[i]? = some (.closing c p) →
      Change queue s { s with calls := s.calls.eraseIdx i }
  | close {c p} :
      Change queue s { s with closed := true, calls := .closing c p :: s.calls }

theorem change_of_step [DecidableEq ι] {queue : ι} {s s' : MqState ι} {e : MqEvent ι}
    (h : s.step queue e = some s') : s.Change queue s' := by
  cases e with
  | wait op =>
    simp only [step] at h
    split at h
    · contradiction
    · next hsem => exact Option.some.inj h ▸ .wait hsem
  | test i =>
    simp only [step] at h
    split at h
    · next op hi =>
      by_cases hclosed : s.closed = true
      · rw [if_pos hclosed] at h
        exact Option.some.inj h ▸ .refuse hi hclosed
      · rw [if_neg hclosed] at h
        exact Option.some.inj h ▸ .pass hi (by simpa using hclosed)
    · contradiction
  | list i =>
    simp only [step] at h
    split at h
    · next op hi =>
      obtain ⟨⟨t, ret⟩, hop, rfl⟩ := Option.map_eq_some_iff.mp h
      exact .list hi hop
    · contradiction
  | post i =>
    simp only [step] at h
    split at h
    · next hi => exact Option.some.inj h ▸ .finish hi
    · next hi => exact Option.some.inj h ▸ .giveBack hi
    · next hi => exact Option.some.inj h ▸ .closePost hi
    · next hi => exact Option.some.inj h ▸ .closePost hi
    · next hi => exact Option.some.inj h ▸ .closed hi
    · contradiction
  | close c p => exact Option.some.inj h ▸ .close

/-! ## The list and its history -/

/-- The pointers hold the nodes of `elems`, and these are, behind the dequeued ones, the nodes
appended and not removed in the order of their appends. -/
structure Fifo (queue : ι) (s : MqState ι) : Prop where
  ring : Ring s.links queue (s.elems.map Prod.fst)
  order : s.dequeued ++ s.elems = s.appended.zipIdx.filter fun x => x.2 ∉ s.removed
  removed : ∀ n ∈ s.removed, n < s.appended.length

/-- What an access to the list can do, with the guard that the calls keep. -/
inductive ListChange (queue : ι) (s : MqState ι) : MqOp ι → MqState ι → MqRet ι → Prop
  | append {elem links} : elem ≠ queue →
      Ring links queue ((s.elems ++ [(elem, s.appended.length)]).map Prod.fst) →
      ListChange queue s (.append elem) { s with
        links
        elems := s.elems ++ [(elem, s.appended.length)]
        appended := s.appended ++ [elem] } (.code 0)
  | dequeue {x rest links} : s.elems = x :: rest → x.1 ≠ queue →
      Ring links queue (rest.map Prod.fst) →
      ListChange queue s .dequeue
        { s with links, elems := rest, dequeued := s.dequeued ++ [x] }
        (.node x.1 (some s.dequeued.length))
  | remove {x pre post links} : s.elems = pre ++ x :: post →
      Ring links queue ((pre ++ post).map Prod.fst) →
      ListChange queue s (.remove x.1)
        { s with links, elems := pre ++ post, removed := s.removed ++ [x.2] } (.code 0)

/-- On a list that holds its nodes, and is not empty for a dequeue, the access does what it
should. -/
theorem Fifo.listChange [DecidableEq ι] {queue : ι} {s t : MqState ι} {op : MqOp ι} {ret : MqRet ι}
    (hf : s.Fifo queue) (hne : op = .dequeue → s.elems ≠ [])
    (h : s.listOp queue op = some (t, ret)) : s.ListChange queue op t ret := by
  cases op with
  | append elem =>
    simp only [listOp] at h
    split at h
    · contradiction
    · next hfresh =>
      rw [not_or] at hfresh
      have hnew : elem ∉ queue :: s.elems.map Prod.fst := by simpa using hfresh
      obtain ⟨links, happend, hring⟩ := queueAppend_ring hf.ring hnew
      rw [happend, Option.map_some, Option.some.injEq, Prod.mk.injEq] at h
      obtain ⟨rfl, rfl⟩ := h
      exact .append hfresh.1 (by simpa using hring)
  | dequeue =>
    obtain ⟨x, rest, helems⟩ := List.exists_cons_of_ne_nil (hne rfl)
    have hring := hf.ring
    rw [helems, List.map_cons] at hring
    have hx : x.1 ≠ queue := by have := hring.nodup; grind
    obtain ⟨links, hdequeue, hring'⟩ := queueDequeue_ring hring
    simp only [listOp, hdequeue, helems, Option.map_some, Option.some.injEq,
      Prod.mk.injEq] at h
    obtain ⟨rfl, rfl⟩ := h
    exact .dequeue helems hx hring'
  | remove elem =>
    simp only [listOp] at h
    split at h
    · contradiction
    · next x hfind =>
      obtain ⟨hx, pre, post, helems, hpre⟩ := List.find?_eq_some_iff_append.mp hfind
      obtain rfl : x.1 = elem := by simpa using hx
      have hnot : x ∉ pre := fun hmem => by simpa using hpre x hmem
      have hring := hf.ring
      rw [helems, List.map_append, List.map_cons] at hring
      obtain ⟨links, hremove, hring'⟩ := queueRemove_ring hring
      rw [hremove, Option.map_some, Option.some.injEq, Prod.mk.injEq, helems,
        List.erase_append_right _ hnot, List.erase_cons_head] at h
      obtain ⟨rfl, rfl⟩ := h
      exact .remove helems (by simpa using hring')

/-- The numbers of the appends are all different. -/
theorem Fifo.nodup {queue : ι} {s : MqState ι} (hf : s.Fifo queue) :
    ((s.dequeued ++ s.elems).map Prod.snd).Nodup := by
  rw [hf.order]
  refine List.Nodup.sublist (List.filter_sublist.map _) ?_
  rw [List.zipIdx_map_snd]
  exact List.nodup_range'

/-- A node in the list has the number of an append. -/
theorem Fifo.lt_length {queue : ι} {s : MqState ι} (hf : s.Fifo queue) {x : ι × ℕ}
    (hx : x ∈ s.elems) : x.2 < s.appended.length := by
  have hmem : x ∈ s.dequeued ++ s.elems := List.mem_append_right _ hx
  rw [hf.order] at hmem
  simpa using List.snd_lt_of_mem_zipIdx (List.mem_of_mem_filter hmem)

/-- **Step lemma.** An access to the list keeps the order of the nodes. -/
theorem ListChange.fifo {queue : ι} {s t : MqState ι} {op : MqOp ι} {ret : MqRet ι}
    (h : s.ListChange queue op t ret) (hf : s.Fifo queue) : t.Fifo queue := by
  cases h with
  | append _ hring =>
    have hnew : s.appended.length ∉ s.removed := fun hmem =>
      Nat.lt_irrefl _ (hf.removed _ hmem)
    refine ⟨hring, ?_, fun n hn => ?_⟩
    · simp only
      rw [← List.append_assoc, hf.order, List.zipIdx_append, List.filter_append]
      simp [hnew]
    · have := hf.removed n hn
      simp only [List.length_append, List.length_singleton]
      omega
  | dequeue helems _ hring =>
    refine ⟨hring, ?_, hf.removed⟩
    rw [List.append_assoc, List.singleton_append, ← helems, hf.order]
  | @remove x pre post links helems hring =>
    refine ⟨hring, ?_, fun n hn => ?_⟩
    · have hnodup := hf.nodup
      have hothers : ∀ y ∈ s.dequeued ++ (pre ++ post), y.2 ≠ x.2 := by
        rw [helems] at hnodup
        grind
      calc s.dequeued ++ (pre ++ post)
          = (s.dequeued ++ s.elems).filter fun y => y.2 ≠ x.2 := by
            rw [helems, List.filter_append, List.filter_append, List.filter_cons_of_neg (by simp),
              ← List.filter_append, ← List.filter_append,
              List.filter_eq_self.mpr fun y hy => by simpa using hothers y hy]
        _ = s.appended.zipIdx.filter fun y => y.2 ∉ s.removed ++ [x.2] := by
            rw [hf.order, List.filter_filter]
            congr 1
            funext y
            simp [and_comm]
    · obtain hn | hn := List.mem_append.mp hn
      · exact hf.removed n hn
      · rw [List.mem_singleton.mp hn]
        exact hf.lt_length (by simp [helems])

/-! ## Counting -/

/-- The call has taken a unit of the semaphore, or owes it one. -/
def holds (k : MqSem) : MqCall ι → Bool
  | .op op .waited | .op op .passed => op.waits = k
  | .op op (.finished _) => op.posts = k
  | _ => false

/-- The call has a unit of the semaphore and found the flag clear. -/
def passedOn (k : MqSem) : MqCall ι → Bool
  | .op op .passed => op.waits = k
  | _ => false

/-- The call has seen the flag set, or has set it. -/
def sawClosed : MqCall ι → Bool
  | .op _ .refused | .closing _ _ => true
  | _ => false

/-- The units of a semaphore, with those that calls have taken from it or owe it. -/
def account (s : MqState ι) (k : MqSem) : ℕ := s.sem k + s.calls.countP (holds k)

/-- The semaphores against the list.  Until the queue is closed every unit is accounted for: a
unit of `full` stands for each node in the list, a unit of `empty` for each free place.  The
calls that found the flag clear are covered for good, since no other call joins them once it
is set. -/
structure Counts (maxSize : ℕ) (s : MqState ι) : Prop where
  items : s.closed = false → s.account .full = s.elems.length
  slots : s.closed = false → s.account .empty + s.elems.length = maxSize
  passedItems : s.calls.countP (passedOn .full) ≤ s.elems.length
  passedSlots : s.calls.countP (passedOn .empty) + s.elems.length ≤ maxSize
  early : s.closed = false → s.calls.countP sawClosed = 0

theorem counts_init [DecidableEq ι] (queue : ι) (maxSize : ℕ) :
    (init queue maxSize).Counts maxSize := by
  constructor <;> simp [init, account]

/-- How an access to the list changes its length; nothing else of the counts changes. -/
theorem ListChange.length {queue : ι} {s t : MqState ι} {op : MqOp ι} {ret : MqRet ι}
    (h : s.ListChange queue op t ret) :
    t.sem = s.sem ∧ t.closed = s.closed ∧
      (op.waits = .empty → t.elems.length = s.elems.length + 1) ∧
      (op.waits = .full → t.elems.length + 1 = s.elems.length) := by
  cases h with
  | append => exact ⟨rfl, rfl, by simp, by simp [MqOp.waits]⟩
  | dequeue helems => exact ⟨rfl, rfl, by simp [MqOp.waits], by simp [helems]⟩
  | remove helems => exact ⟨rfl, rfl, by simp [MqOp.waits], by simp [helems]; omega⟩

/-- A call about to dequeue finds a node. -/
theorem Counts.elems_ne_nil {maxSize i : ℕ} {s : MqState ι} (hc : s.Counts maxSize)
    (hi : s.calls[i]? = some (.op .dequeue .passed)) : s.elems ≠ [] := by
  have hpos : 0 < s.calls.countP (passedOn .full) :=
    Pool.countP_pos hi (by simp [passedOn, MqOp.waits])
  have := hc.passedItems
  intro hnil
  simp only [hnil, List.length_nil] at this
  omega

theorem MqOp.posts_eq_iff {op : MqOp ι} {k : MqSem} : op.posts = k ↔ op.waits ≠ k := by
  cases op <;> cases k <;> simp [MqOp.posts, MqOp.waits]

/-- A call past its wait has a unit that no call past its test has. -/
theorem passed_lt_holds {s : MqState ι} {i : ℕ} {op : MqOp ι}
    (hi : s.calls[i]? = some (.op op .waited)) :
    s.calls.countP (passedOn op.waits) < s.calls.countP (holds op.waits) := by
  have hpassed := Pool.countP_eraseIdx (p := passedOn op.waits) hi
  have hholds := Pool.countP_eraseIdx (p := holds op.waits) hi
  have hmono : (s.calls.eraseIdx i).countP (passedOn op.waits) ≤
      (s.calls.eraseIdx i).countP (holds op.waits) := by
    refine List.countP_mono_left fun c _ hc => ?_
    unfold passedOn at hc
    split at hc
    · exact hc
    · contradiction
  simp only [passedOn, holds, decide_true, if_true, Bool.false_eq_true, if_false] at hpassed hholds
  omega

/-- A step that leaves the list alone, lets no call through and moves no unit keeps the counts. -/
theorem Counts.mono {maxSize : ℕ} {s s' : MqState ι} (hc : s.Counts maxSize)
    (hclosed : s'.closed = false → s.closed = false) (helems : s'.elems = s.elems)
    (hpassed : ∀ k, s'.calls.countP (passedOn k) ≤ s.calls.countP (passedOn k))
    (haccount : s'.closed = false → ∀ k, s'.account k = s.account k)
    (hearly : s'.closed = false → s'.calls.countP sawClosed = 0) : s'.Counts maxSize where
  items h := by rw [haccount h, helems, hc.items (hclosed h)]
  slots h := by rw [haccount h, helems, hc.slots (hclosed h)]
  passedItems := by
    rw [helems]
    exact Nat.le_trans (hpassed .full) hc.passedItems
  passedSlots := by
    rw [helems]
    have := hpassed .empty
    have := hc.passedSlots
    omega
  early := hearly

/-- A call that saw the flag set is there only once the queue is closed. -/
theorem Counts.closed_of_sawClosed {maxSize i : ℕ} {s : MqState ι} {c : MqCall ι}
    (hc : s.Counts maxSize) (hi : s.calls[i]? = some c) (hsaw : sawClosed c = true) :
    s.closed = true := by
  have hpos := Pool.countP_pos hi hsaw
  cases hclosed : s.closed
  · have := hc.early hclosed
    omega
  · rfl

/-- **Step lemma.** The counts survive every step. -/
theorem Counts.change [DecidableEq ι] {queue : ι} {maxSize : ℕ} {s s' : MqState ι}
    (hc : s.Counts maxSize) (hf : s.Fifo queue) (h : s.Change queue s') : s'.Counts maxSize := by
  cases h with
  | @wait op hsem =>
    refine hc.mono id rfl (fun k => by simp [passedOn]) (fun _ k => ?_) fun hclosed => ?_
    · by_cases hk : k = op.waits
      · subst hk
        simp only [account, sem_semWait, if_true, List.countP_cons, holds, decide_true]
        omega
      · simp [account, hk, holds, Ne.symm hk]
    · simpa [sawClosed] using hc.early hclosed
  | @refuse i op hi hclosed =>
    have hset := fun k => Pool.countP_set (b := .op op .refused) (p := passedOn k) hi
    refine hc.mono id rfl ?_ ?_ ?_ <;> grind [passedOn]
  | @pass i op hi hclosed =>
    have hset := fun p => Pool.countP_set (b := .op op .passed) (p := p) hi
    have hlt := passed_lt_holds hi
    obtain ⟨hitems, hslots, hpitems, hpslots, hearly⟩ := hc
    cases hop : op.waits <;> constructor <;> grind [account, holds, passedOn, sawClosed]
  | @list i op t ret hi hop =>
    have hset := fun p => Pool.countP_set (b := .op op (.finished ret)) (p := p) hi
    have hne : op = .dequeue → s.elems ≠ [] := fun hop => hc.elems_ne_nil (hop ▸ hi)
    obtain ⟨hsem, hclosed, hone, hless⟩ := (hf.listChange hne hop).length
    obtain ⟨hitems, hslots, hpitems, hpslots, hearly⟩ := hc
    have hfull : op.posts = .full ↔ op.waits ≠ .full := MqOp.posts_eq_iff
    have hempty : op.posts = .empty ↔ op.waits ≠ .empty := MqOp.posts_eq_iff
    cases hw : op.waits <;> constructor <;> grind [account, holds, passedOn, sawClosed]
  | @finish i op ret hi =>
    have herase := fun p => Pool.countP_eraseIdx (p := p) hi
    refine hc.mono id rfl (fun k => ?_) (fun _ k => ?_) fun hclosed => ?_
    · grind [passedOn]
    · grind [account, holds, semPost, sem_semPost]
    · have := hc.early hclosed
      have := herase sawClosed
      grind [sawClosed]
  | @giveBack i op hi =>
    have herase := fun p => Pool.countP_eraseIdx (p := p) hi
    have hclosed := hc.closed_of_sawClosed hi rfl
    refine hc.mono id rfl ?_ ?_ ?_ <;> grind [passedOn, semPost]
  | @closePost i c p c' p' k hi =>
    have hset := fun q => Pool.countP_set (b := .closing c' p') (p := q) hi
    have hclosed := hc.closed_of_sawClosed hi rfl
    refine hc.mono id rfl ?_ ?_ ?_ <;> grind [passedOn, semPost]
  | @closed i c p hi =>
    have herase := fun p => Pool.countP_eraseIdx (p := p) hi
    have hclosed := hc.closed_of_sawClosed hi rfl
    refine hc.mono id rfl ?_ ?_ ?_ <;> grind [passedOn]
  | close => refine hc.mono (by simp) rfl ?_ ?_ ?_ <;> simp [passedOn]

/-! ## The values returned -/

/-- The nodes that calls have returned or are about to return, with their turns. -/
def served (s : MqState ι) : List (ι × ℕ) :=
  s.returned.filterMap (fun x => x.2.taken) ++ s.calls.filterMap MqCall.taken

/-- Each node that was dequeued goes to one call, the one whose turn it was; the sentinel is
returned only once the queue is closed. -/
structure Returns (queue : ι) (s : MqState ι) : Prop where
  served : s.served.Perm (s.dequeued.map Prod.fst).zipIdx
  finished : ∀ op e, MqCall.op op (.finished (.node e none)) ∉ s.calls
  refused : ∀ op e, (op, MqRet.node e none) ∈ s.returned → e = queue ∧ s.closed = true

/-- What an access to the list has to do with the values returned. -/
theorem ListChange.dequeued {queue : ι} {s t : MqState ι} {op : MqOp ι} {ret : MqRet ι}
    (h : s.ListChange queue op t ret) :
    t.returned = s.returned ∧ (∀ e, ret ≠ .node e none) ∧
      (t.dequeued.map Prod.fst).zipIdx =
        (s.dequeued.map Prod.fst).zipIdx ++ ret.taken.toList := by
  cases h with
  | append | remove => simp [MqRet.taken]
  | dequeue => simp [MqRet.taken, List.zipIdx_append]

/-- A step that dequeues nothing and hands out nothing else keeps who gets which node. -/
theorem Returns.of_served {queue : ι} {s s' : MqState ι} (hr : s.Returns queue)
    (hdequeued : s'.dequeued = s.dequeued) (hserved : s'.served.Perm s.served)
    (hfinished : ∀ op e, MqCall.op op (.finished (.node e none)) ∉ s'.calls)
    (hrefused : ∀ op e, (op, MqRet.node e none) ∈ s'.returned → e = queue ∧ s'.closed = true) :
    s'.Returns queue where
  served := hdequeued ▸ hserved.trans hr.served
  finished := hfinished
  refused := hrefused

/-- Call `i` posts a semaphore and returns what it had to return. -/
theorem Returns.leave {queue : ι} {s : MqState ι} {i : ℕ} {k : MqSem} {c : MqCall ι} {op : MqOp ι}
    {ret : MqRet ι} (hr : s.Returns queue) (hi : s.calls[i]? = some c)
    (htaken : ret.taken = c.taken) (hret : ∀ e, ret = .node e none → e = queue ∧ s.closed = true) :
    Returns queue { s.semPost k with
      calls := s.calls.eraseIdx i, returned := s.returned ++ [(op, ret)] } := by
  have herase := Pool.perm_filterMap_eraseIdx (f := MqCall.taken) hi
  refine hr.of_served rfl ?_ (fun op' e hmem => ?_) fun op' e hmem => ?_
  · rw [MqState.served, List.filterMap_append, Pool.filterMap_cons_toList, List.filterMap_nil,
      List.append_nil, List.append_assoc, htaken]
    exact herase.append_left _
  · exact hr.finished op' e (List.mem_of_mem_eraseIdx hmem)
  · obtain hmem | hmem := List.mem_append.mp hmem
    · exact hr.refused op' e hmem
    · exact hret e (Prod.mk.inj (List.mem_singleton.mp hmem)).2.symm

/-- **Step lemma.** Every step keeps who gets which node, and none before the close returns the
sentinel. -/
theorem Returns.change [DecidableEq ι] {queue : ι} {maxSize : ℕ} {s s' : MqState ι}
    (hr : s.Returns queue) (hc : s.Counts maxSize) (hf : s.Fifo queue)
    (h : s.Change queue s') : s'.Returns queue := by
  have hfinished := hr.finished
  cases h with
  | wait =>
    refine hr.of_served rfl (.of_eq ?_) (by simpa [semWait] using hfinished) hr.refused
    rw [MqState.served, Pool.filterMap_cons_toList]
    rfl
  | refuse hi | pass hi =>
    refine hr.of_served rfl (List.Perm.append_left _ ?_) (by grind) hr.refused
    exact Pool.perm_filterMap_set hi rfl
  | closePost hi =>
    refine hr.of_served rfl (List.Perm.append_left _ ?_) (by grind [semPost]) hr.refused
    exact Pool.perm_filterMap_set hi rfl
  | @list i op t ret hi hop =>
    have hne : op = .dequeue → s.elems ≠ [] := fun hop => hc.elems_ne_nil (hop ▸ hi)
    have hchange := hf.listChange hne hop
    obtain ⟨hreturned, hret, hdequeued⟩ := hchange.dequeued
    refine ⟨?_, fun op' e hmem => ?_, ?_⟩
    · -- the node joins those in flight, under the turn that the history gives it
      have hset := Pool.perm_toList_filterMap_set (b := .op op (.finished ret))
        (f := MqCall.taken) hi
      rw [hdequeued, MqState.served, hreturned]
      refine List.Perm.trans ?_ (hr.served.append_right _)
      rw [MqState.served, List.append_assoc]
      exact (hset.trans List.perm_append_comm).append_left _
    · obtain hmem | hmem := List.mem_or_eq_of_mem_set hmem
      · exact hfinished op' e hmem
      · exact hret e (by grind)
    · simpa only [hreturned, hchange.length.2.1] using hr.refused
  | @finish i op ret hi =>
    refine hr.leave hi rfl fun e he => ?_
    subst he
    exact absurd (List.mem_of_getElem? hi) (hfinished _ e)
  | @giveBack i op hi =>
    refine hr.leave hi (by cases op <;> rfl) fun e he => ?_
    cases op with
    | append | remove => simp [MqOp.refusal] at he
    | dequeue => exact ⟨(MqRet.node.inj he).1.symm, hc.closed_of_sawClosed hi rfl⟩
  | closed hi =>
    have herase := Pool.perm_filterMap_eraseIdx (f := MqCall.taken) hi
    exact hr.of_served rfl (herase.append_left _)
      (fun op' e hmem => hfinished op' e (List.mem_of_mem_eraseIdx hmem)) hr.refused
  | close =>
    refine hr.of_served rfl (.of_eq ?_) (by simpa using hfinished)
      fun op e hmem => ⟨(hr.refused op e hmem).1, rfl⟩
    rw [MqState.served, Pool.filterMap_cons_toList]
    rfl

/-! ## All interleavings -/

/-- What holds in every state. -/
structure Inv (queue : ι) (maxSize : ℕ) (s : MqState ι) : Prop where
  fifo : s.Fifo queue
  counts : s.Counts maxSize
  returns : s.Returns queue

theorem inv_init [DecidableEq ι] (queue : ι) (maxSize : ℕ) :
    (init queue maxSize).Inv queue maxSize where
  fifo := ⟨ring_queueInit queue, by simp [init], by simp [init]⟩
  counts := counts_init queue maxSize
  returns := ⟨by simp [init, served], by simp [init], by simp [init]⟩

/-- **Step lemma.** Every step of every call keeps the invariant. -/
theorem Inv.step [DecidableEq ι] {queue : ι} {maxSize : ℕ} {s s' : MqState ι} {e : MqEvent ι}
    (h : s.Inv queue maxSize) (hstep : s.step queue e = some s') : s'.Inv queue maxSize := by
  have hchange := change_of_step hstep
  refine ⟨?_, h.counts.change h.fifo hchange, h.returns.change h.counts h.fifo hchange⟩
  cases hchange with
  | @list i op t ret hi hop =>
    have hne : op = .dequeue → s.elems ≠ [] := fun hop => h.counts.elems_ne_nil (hop ▸ hi)
    obtain ⟨hring, horder, hremoved⟩ := (h.fifo.listChange hne hop).fifo h.fifo
    exact ⟨hring, horder, hremoved⟩
  | _ => exact ⟨h.fifo.ring, h.fifo.order, h.fifo.removed⟩

/-- A dequeue that reaches the list follows no null pointer. -/
theorem Inv.isSome_listOp [DecidableEq ι] {queue : ι} {maxSize : ℕ} {s : MqState ι}
    (h : s.Inv queue maxSize) (hne : s.elems ≠ []) : (s.listOp queue .dequeue).isSome := by
  obtain ⟨x, rest, helems⟩ := List.exists_cons_of_ne_nil hne
  have hring := h.fifo.ring
  rw [helems, List.map_cons] at hring
  obtain ⟨links, hdequeue, -⟩ := queueDequeue_ring hring
  simp [listOp, hdequeue]

/-- The nodes dequeued stay the first ones, in their order. -/
theorem prefix_dequeued_of_run [DecidableEq ι] {queue : ι} {s s' : MqState ι}
    {events : List (MqEvent ι)} (hrun : run queue s events = some s') :
    ∃ later, s'.dequeued = s.dequeued ++ later := by
  have hstep : ∀ (t : MqState ι) e t', (∃ later, t.dequeued = s.dequeued ++ later) →
      t.step queue e = some t' → ∃ later, t'.dequeued = s.dequeued ++ later := by
    rintro t e t' ⟨later, hlater⟩ hstep
    cases change_of_step hstep with
    | @list i op u ret hi hop =>
      cases op with
      | append elem =>
        simp only [listOp, Option.ite_none_left_eq_some, Option.map_eq_some_iff] at hop
        obtain ⟨-, links, -, hu⟩ := hop
        exact ⟨later, by grind⟩
      | dequeue =>
        obtain ⟨x, -, hu⟩ := Option.map_eq_some_iff.mp hop
        exact ⟨later ++ [(x.1, (t.elems.head?.map Prod.snd).getD 0)], by grind⟩
      | remove elem =>
        simp only [listOp] at hop
        split at hop
        · contradiction
        · obtain ⟨links, -, hu⟩ := Option.map_eq_some_iff.mp hop
          exact ⟨later, by grind⟩
    | _ => exact ⟨later, hlater⟩
  exact Transition.run_invariant hstep ⟨[], by simp⟩ hrun

/-- **Main theorem.** However the steps of any number of calls interleave, and wherever the
queue is closed: a call that is about to run `queue_dequeue` finds a node; the pointers hold the
nodes of the list, at most `maxSize` of them; the nodes dequeued and then those in the list are
the nodes appended and not removed, in the order of their appends; the call whose turn is `k`
returns the node at place `k` of those dequeued, each node goes to one call, and what is handed
out later was dequeued, so appended, later; and the sentinel is returned only once the queue is
closed. -/
theorem mqueue_fifo [DecidableEq ι] (queue : ι) (maxSize : ℕ) (events : List (MqEvent ι))
    (s : MqState ι) (hrun : run queue (init queue maxSize) events = some s) :
    (∀ i : ℕ, s.calls[i]? = some (.op .dequeue .passed) →
      s.elems ≠ [] ∧ (s.listOp queue .dequeue).isSome) ∧
    Ring s.links queue (s.elems.map Prod.fst) ∧
    s.elems.length ≤ maxSize ∧
    s.dequeued ++ s.elems = s.appended.zipIdx.filter (fun x => x.2 ∉ s.removed) ∧
    s.served.Perm (s.dequeued.map Prod.fst).zipIdx ∧
    (∀ more t, run queue s more = some t →
      ∃ later, t.served.Perm (s.served ++ later) ∧ ∀ x ∈ s.served, ∀ y ∈ later, x.2 < y.2) ∧
    ∀ op e, (op, MqRet.node e none) ∈ s.returned → e = queue ∧ s.closed = true := by
  have hstep : ∀ (s : MqState ι) e s', s.Inv queue maxSize → s.step queue e = some s' →
      s'.Inv queue maxSize := fun _ _ _ h hs => h.step hs
  have h := Transition.run_invariant hstep (inv_init queue maxSize) hrun
  refine ⟨fun i hi => ?_, h.fifo.ring, ?_, h.fifo.order, h.returns.served,
    fun more t hmore => ?_, h.returns.refused⟩
  · have hne := h.counts.elems_ne_nil hi
    exact ⟨hne, h.isSome_listOp hne⟩
  · have := h.counts.passedSlots
    omega
  · have ht := (Transition.run_invariant hstep h hmore).returns.served
    obtain ⟨later, hlater⟩ := prefix_dequeued_of_run hmore
    rw [hlater, List.map_append, List.zipIdx_append] at ht
    refine ⟨_, ht.trans (h.returns.served.symm.append_right _), fun x hx y hy => ?_⟩
    have hxlt := List.snd_lt_of_mem_zipIdx (h.returns.served.mem_iff.mp hx)
    have hyle := List.le_snd_of_mem_zipIdx hy
    omega

/-- A call that nothing interrupts. -/
def alone (op : MqOp ℕ) : List (MqEvent ℕ) := [.wait op, .test 0, .list 0, .post 0]

/-- Three nodes are appended and one of them is removed.  Two consumers are past their tests
when the queue is closed, and the one that reaches the list first gets the earlier node, though
it returns last; a third consumer gets the sentinel. -/
def threeConsumers : List (MqEvent ℕ) :=
  alone (.append 1) ++ alone (.append 2) ++ alone (.append 3) ++ alone (.remove 1) ++
    [.wait .dequeue, .test 0, .wait .dequeue, .test 0, .close 1 0, .list 2, .list 1, .post 1,
      .post 0, .wait .dequeue, .test 0, .post 0, .post 1]

theorem mqueue_fifo_closed :
    ∃ s, run 0 (init 0 3) threeConsumers = some s ∧
      s.returned.drop 4 = [(.dequeue, .node 3 (some 1)), (.dequeue, .node 0 none),
        (.dequeue, .node 2 (some 0))] ∧
      s.dequeued = [(2, 1), (3, 2)] ∧ s.served.Perm [(2, 0), (3, 1)] ∧ s.elems.length ≤ 3 := by
  have hfacts : (run 0 (init 0 3) threeConsumers).map (fun s => (s.returned.drop 4, s.dequeued)) =
      some ([(.dequeue, .node 3 (some 1)), (.dequeue, .node 0 none),
        (.dequeue, .node 2 (some 0))], [(2, 1), (3, 2)]) := by
    decide +kernel
  obtain ⟨s, hrun, hs⟩ := Option.map_eq_some_iff.mp hfacts
  obtain ⟨hreturned, hdequeued⟩ := Prod.mk.inj hs
  obtain ⟨-, -, hlength, -, hserved, -⟩ := mqueue_fifo 0 3 _ s hrun
  rw [hdequeued] at hserved
  exact ⟨s, hrun, hreturned, hdequeued, hserved, hlength⟩

end MqState

end Srn
