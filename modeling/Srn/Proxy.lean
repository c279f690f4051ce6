import Mathlib.Data.List.Nodup
import Srn.Mqueue

/-!
# Srn.Proxy

The replies of the DNS proxy that wait for the controller (`sr-dnsproxy/monitor.c`,
`sr-dnsproxy/client.c`).  The client consumer appends each reply to the queue
`replies_waiting_controller`; the callbacks `read_flowreq` and `read_flowstate`, which run in
two monitor threads, walk the queue for the reply of a request, call `mqueue_remove` on it,
answer the client and free the reply.  `SIGINT` closes the queue at any time, and
`close_monitor` frees at the end what the queue still holds.

Neither callback looks at what `mqueue_remove` returns, and `mqueue_walk_safe` takes no lock: it
reads the pointer to the next reply before it compares the present one, and follows it whatever
became of that reply since.  Each read of a pointer is a step of its own here.  An access to the
list under the mutex is one step, as a walk reads only `next` pointers: of those, `queue_append`
writes one that can be reached, and `queue_remove` writes that of the predecessor before it
clears the one of the reply.
-/

namespace Srn

variable {ι : Type}

/-! ## Appends, callbacks and the close -/

/-- Where the walk of a callback stands. -/
inductive ReplyWalk (ι : Type) where
  /-- `elem` is set, and `tmp` is about to be read from it. -/
  | reading (elem : Option ι)
  /-- Both are set; the test for the end and the comparison of the ids are next. -/
  | visiting (elem : ι) (tmp : Option ι)
  /-- The ids are equal, and `mqueue_remove` is next. -/
  | matched (reply : ι)
  deriving DecidableEq, Repr

/-- The walk has a pointer to the node. -/
def ReplyWalk.pointsTo [DecidableEq ι] (reply : ι) : ReplyWalk ι → Bool
  | .reading elem => elem = some reply
  | .visiting elem tmp => elem = reply ∨ tmp = some reply
  | .matched elem => elem = reply

/-- The queue and what is outside of it: the replies that were handed to `mqueue_append`, the
walks of the callbacks, the replies whose `mqueue_remove` has returned, and those that a callback
has freed.  `fault` records that a thread has followed a null pointer or touched a freed reply. -/
structure ProxyState (ι : Type) where
  mq : MqState ι
  taken : List ι
  walks : List (ReplyWalk ι)
  held : List ι
  freed : List ι
  fault : Bool

/-- One step of the consumer, of a callback or of the close. -/
inductive ProxyEvent (ι : Type) where
  /-- `client_consumer_main` enters `mqueue_append` with a reply. -/
  | append (reply : ι)
  /-- A callback starts its walk: `elem = queue->next`. -/
  | enter
  /-- A walk reads `tmp` from its `elem`. -/
  | fetch (i : ℕ)
  /-- The ids differ: `elem = tmp`. -/
  | miss (i : ℕ)
  /-- The ids are equal. -/
  | hit (i : ℕ)
  /-- A walk is back at the queue, and its callback returns. -/
  | leave (i : ℕ)
  /-- A callback enters `mqueue_remove` with the reply it matched. -/
  | remove (i : ℕ)
  /-- A call goes on, or the queue is closed. -/
  | queue (e : MqEvent ι)
  /-- A callback is done with its reply: `FREE_POINTER`. -/
  | free (i : ℕ)
  deriving DecidableEq, Repr

namespace ProxyState

/-- No reply yet. -/
def init [DecidableEq ι] (queue : ι) (maxSize : ℕ) : ProxyState ι where
  mq := MqState.init queue maxSize
  taken := []
  walks := []
  held := []
  freed := []
  fault := false

/-- The reply with which a callback goes on when its `mqueue_remove` returns.  It does so
whether the call took the reply out of the list or found the queue closed. -/
def removeReturns (mq : MqState ι) : MqEvent ι → List ι
  | .post i =>
    match mq.calls[i]? with
    | some (.op (.remove reply) (.finished _)) | some (.op (.remove reply) .refused) => [reply]
    | _ => []
  | _ => []

/-- The nodes of the list whose memory an access to it touches. -/
def touched (queue : ι) (mq : MqState ι) : MqOp ι → List ι
  | .append _ => (mq.links.prev queue).toList
  | .dequeue => (mq.links.next queue).toList
  | .remove elem => elem :: (mq.links.prev elem).toList ++ (mq.links.next elem).toList

/-- A thread touches the memory of the nodes and gets to `s'`, unless one of them is freed. -/
def touch [DecidableEq ι] (s : ProxyState ι) (nodes : List ι) (s' : ProxyState ι) : ProxyState ι :=
  if ∃ p ∈ nodes, p ∈ s.freed then { s with fault := true } else s'

/-- One step of a thread.  Each reply is allocated by itself, so that none is appended twice.
`queue_remove` of a reply that is no longer in the list follows its cleared pointers. -/
def act [DecidableEq ι] (queue : ι) (s : ProxyState ι) : ProxyEvent ι → Option (ProxyState ι)
  | .append reply =>
    if reply ∈ queue :: s.taken then none
    else (s.mq.step queue (.wait (.append reply))).map fun mq =>
      { s with mq, taken := reply :: s.taken }
  | .enter => some { s with walks := .reading (s.mq.links.next queue) :: s.walks }
  | .fetch i =>
    match s.walks[i]? with
    | some (.reading none) => some { s with fault := true }
    | some (.reading (some elem)) => some (s.touch [elem]
        { s with walks := s.walks.set i (.visiting elem (s.mq.links.next elem)) })
    | _ => none
  | .miss i =>
    match s.walks[i]? with
    | some (.visiting elem tmp) =>
      if elem = queue then none
      else some (s.touch [elem] { s with walks := s.walks.set i (.reading tmp) })
    | _ => none
  | .hit i =>
    match s.walks[i]? with
    | some (.visiting elem _) =>
      if elem = queue then none
      else some (s.touch [elem] { s with walks := s.walks.set i (.matched elem) })
    | _ => none
  | .leave i =>
    match s.walks[i]? with
    | some (.visiting elem _) =>
      if elem = queue then some { s with walks := s.walks.eraseIdx i } else none
    | _ => none
  | .remove i =>
    match s.walks[i]? with
    | some (.matched reply) => (s.mq.step queue (.wait (.remove reply))).map fun mq =>
      { s with mq, walks := s.walks.eraseIdx i }
    | _ => none
  | .queue (.wait _) => none
  | .queue (.list i) =>
    match s.mq.calls[i]? with
    | some (.op op .passed) => some (s.touch (touched queue s.mq op)
        ((s.mq.step queue (.list i)).elim { s with fault := true } fun mq => { s with mq }))
    | _ => none
  | .queue e => (s.mq.step queue e).map fun mq =>
    { s with mq, held := removeReturns s.mq e ++ s.held }
  | .free i =>
    match s.held[i]? with
    | some reply => some (s.touch [reply]
        { s with held := s.held.eraseIdx i, freed := reply :: s.freed })
    | none => none

/-- One step; after a fault there is none. -/
def step [DecidableEq ι] (queue : ι) (s : ProxyState ι) (e : ProxyEvent ι) :
    Option (ProxyState ι) :=
  if s.fault then none else s.act queue e

/-- The state after a sequence of steps. -/
abbrev run [DecidableEq ι] (queue : ι) :
    ProxyState ι → List (ProxyEvent ι) → Option (ProxyState ι) :=
  Transition.run (step queue)

/-- The call is about to take the reply out of the list. -/
def removing [DecidableEq ι] (reply : ι) : MqCall ι → Bool
  | .op (.remove elem) .waited | .op (.remove elem) .passed => elem = reply
  | _ => false

/-- A callback that tests the flag in its `mqueue_remove` finds the queue open; and when it takes
its reply out of the list, it is the only one in `mqueue_remove` with it and no walk has a
pointer to it. -/
def Orderly [DecidableEq ι] (s : ProxyState ι) : ProxyEvent ι → Prop
  | .queue (.test i) =>
    match s.mq.calls[i]? with
    | some (.op (.remove _) .waited) => s.mq.closed = false
    | _ => True
  | .queue (.list i) =>
    match s.mq.calls[i]? with
    | some (.op (.remove reply) .passed) =>
      s.mq.calls.countP (removing reply) = 1 ∧ ∀ w ∈ s.walks, w.pointsTo reply = false
    | _ => True
  | _ => True

instance [DecidableEq ι] (s : ProxyState ι) (e : ProxyEvent ι) : Decidable (s.Orderly e) := by
  unfold Orderly
  split
  · split <;> infer_instance
  · split <;> infer_instance
  · infer_instance

/-! ## Who has a pointer to a reply -/

/-- The call is about to put the reply in the list. -/
def appending [DecidableEq ι] (reply : ι) : MqCall ι → Bool
  | .op (.append elem) .waited | .op (.append elem) .passed => elem = reply
  | _ => false

/-- The call has taken the reply out of the list. -/
def removed [DecidableEq ι] (reply : ι) : MqCall ι → Bool
  | .op (.remove elem) (.finished _) => elem = reply
  | _ => false

/-- How often the reply is, or may still be, put in the list. -/
def appends [DecidableEq ι] (mq : MqState ι) (reply : ι) : ℕ :=
  mq.calls.countP (appending reply) + mq.appended.count reply

/-- How many callbacks are past the list access of their `mqueue_remove` of the reply. -/
def owners [DecidableEq ι] (s : ProxyState ι) (reply : ι) : ℕ :=
  s.held.count reply + s.freed.count reply + s.mq.calls.countP (removed reply)

/-- The replies in the list. -/
abbrev linked (s : ProxyState ι) : List ι := s.mq.elems.map Prod.fst

/-- A walk stands at nodes of the ring. -/
def WalkOk (queue : ι) (linked : List ι) : ReplyWalk ι → Prop
  | .reading elem => ∃ e ∈ queue :: linked, elem = some e
  | .visiting elem tmp => elem ∈ queue :: linked ∧ ∃ e ∈ queue :: linked, tmp = some e
  | .matched reply => reply ∈ linked

/-- No call dequeues, none of `mqueue_remove` is turned away, and what it has still to take out is
in the list. -/
def CallOk (linked : List ι) : MqCall ι → Prop
  | .op .dequeue _ | .op (.remove _) .refused => False
  | .op (.remove reply) .waited | .op (.remove reply) .passed => reply ∈ linked
  | _ => True

theorem WalkOk.mono [DecidableEq ι] {queue : ι} {l l' : List ι} {w : ReplyWalk ι}
    (h : WalkOk queue l w) (hl : ∀ p ∈ l, w.pointsTo p = true → p ∈ l') : WalkOk queue l' w := by
  cases w <;> grind [WalkOk, ReplyWalk.pointsTo]

theorem CallOk.mono [DecidableEq ι] {l l' : List ι} {c : MqCall ι} (h : CallOk l c)
    (hl : ∀ p ∈ l, removing p c = true → p ∈ l') : CallOk l' c := by
  unfold CallOk at h ⊢
  split <;> grind [removing]

/-- The list holds each reply at most once and over all time, the calls and the walks are where
they should be, and a reply that a callback owns has one owner and has left the list. -/
structure Inv [DecidableEq ι] (queue : ι) (maxSize : ℕ) (s : ProxyState ι) : Prop where
  mq : s.mq.Inv queue maxSize
  nodup : (queue :: s.taken).Nodup
  once : ∀ reply, appends s.mq reply ≤ s.taken.count reply
  calls : ∀ c ∈ s.mq.calls, CallOk s.linked c
  walks : ∀ w ∈ s.walks, WalkOk queue s.linked w
  owner : ∀ reply, s.owners reply ≤ 1
  gone : ∀ reply, s.owners reply ≠ 0 → reply ∈ s.mq.appended ∧ reply ∉ queue :: s.linked
  sound : s.fault = false

theorem inv_init [DecidableEq ι] (queue : ι) (maxSize : ℕ) :
    (init queue maxSize).Inv queue maxSize where
  mq := MqState.inv_init queue maxSize
  nodup := by simp [init]
  once := by simp [init, appends, MqState.init]
  calls := by simp [init, MqState.init]
  walks := by simp [init]
  owner := by simp [init, owners, MqState.init]
  gone := by simp [init, owners, MqState.init]
  sound := rfl

section Steps

variable [DecidableEq ι] {queue : ι} {maxSize : ℕ} {s : ProxyState ι}

/-- A step that leaves the list alone, and gives no callback a reply it did not own, keeps the
invariant. -/
theorem Inv.of_calls {s' : ProxyState ι} (h : s.Inv queue maxSize)
    (hmq : s'.mq.Inv queue maxSize) (htaken : s'.taken = s.taken)
    (happended : s'.mq.appended = s.mq.appended) (helems : s'.mq.elems = s.mq.elems)
    (happending : ∀ reply,
      s'.mq.calls.countP (appending reply) ≤ s.mq.calls.countP (appending reply))
    (hcalls : ∀ c ∈ s'.mq.calls, CallOk s.linked c)
    (hwalks : ∀ w ∈ s'.walks, WalkOk queue s.linked w)
    (howners : ∀ reply, s'.owners reply ≤ s.owners reply) (hfault : s'.fault = false) :
    s'.Inv queue maxSize where
  mq := hmq
  nodup := htaken ▸ h.nodup
  once reply := by
    have := h.once reply
    have := happending reply
    simp only [appends, happended, htaken] at *
    omega
  calls := by rwa [linked, helems]
  walks := by rwa [linked, helems]
  owner reply := Nat.le_trans (howners reply) (h.owner reply)
  gone reply hreply := by
    rw [happended, linked, helems]
    have := howners reply
    exact h.gone reply (by omega)
  sound := hfault

/-- A step of a walk. -/
theorem Inv.of_walks {walks : List (ReplyWalk ι)} (h : s.Inv queue maxSize)
    (hwalks : ∀ w ∈ walks, WalkOk queue s.linked w) : Inv queue maxSize { s with walks } :=
  h.of_calls h.mq rfl rfl rfl (fun _ => le_rfl) h.calls hwalks (fun _ => le_rfl) h.sound

/-- Nothing is about to append a reply that has been appended. -/
theorem Inv.appending_eq_zero {reply : ι} (h : s.Inv queue maxSize)
    (hreply : reply ∈ s.mq.appended) : s.mq.calls.countP (appending reply) = 0 := by
  have hpos := List.count_pos_iff.mpr hreply
  have hone := List.nodup_iff_count_le_one.mp (List.nodup_cons.mp h.nodup).2 reply
  have honce := h.once reply
  simp only [appends] at honce
  omega

/-- A freed reply is neither in the list nor its sentinel. -/
theorem Inv.freed_not_mem {reply : ι} (h : s.Inv queue maxSize) (hfreed : reply ∈ s.freed) :
    reply ∉ queue :: s.linked := by
  have hpos := List.count_pos_iff.mpr hfreed
  exact (h.gone reply (by simp only [owners]; omega)).2

/-- The nodes of the ring can be touched. -/
theorem Inv.touch_eq {nodes : List ι} {s' : ProxyState ι} (h : s.Inv queue maxSize)
    (hnodes : ∀ p ∈ nodes, p ∈ queue :: s.linked) : s.touch nodes s' = s' :=
  if_neg fun ⟨p, hp, hfreed⟩ => h.freed_not_mem hfreed (hnodes p hp)

/-- A walk that reads a pointer from a node of the ring gets to another one. -/
theorem Inv.next_mem {elem : ι} (h : s.Inv queue maxSize) (helem : elem ∈ queue :: s.linked) :
    ∃ e ∈ queue :: s.linked, s.mq.links.next elem = some e :=
  h.mq.fifo.ring.next_mem helem

omit [DecidableEq ι] in
/-- A node of the list has been appended. -/
theorem mem_appended {mq : MqState ι} (h : mq.Fifo queue) {x : ι × ℕ} (hx : x ∈ mq.elems) :
    x.1 ∈ mq.appended := by
  have hmem : x ∈ mq.dequeued ++ mq.elems := List.mem_append_right _ hx
  rw [h.order] at hmem
  exact List.fst_mem_of_mem_zipIdx (List.mem_of_mem_filter hmem)

/-- A call enters `mqueue_append`. -/
theorem Inv.append {reply : ι} {mq : MqState ι} (h : s.Inv queue maxSize)
    (hfresh : reply ∉ queue :: s.taken)
    (hstep : s.mq.step queue (.wait (.append reply)) = some mq) :
    Inv queue maxSize { s with mq, taken := reply :: s.taken } := by
  have hmq := h.mq.step hstep
  have hnodup := h.nodup
  simp only [MqState.step] at hstep
  split at hstep
  · contradiction
  · obtain rfl := Option.some.inj hstep
    refine ⟨hmq, by grind, fun other => ?_, ?_, h.walks, ?_, ?_, h.sound⟩
    · have := h.once other
      simp only [appends, List.countP_cons, appending, List.count_cons, beq_iff_eq,
        decide_eq_true_eq, MqState.semWait] at this ⊢
      omega
    · exact List.forall_mem_cons.mpr ⟨trivial, h.calls⟩
    · simpa [owners, removed, MqState.semWait] using h.owner
    · simpa [owners, removed, MqState.semWait] using h.gone

/-- A call enters `mqueue_remove`. -/
theorem Inv.remove {reply : ι} {i : ℕ} {mq : MqState ι} (h : s.Inv queue maxSize)
    (hi : s.walks[i]? = some (.matched reply))
    (hstep : s.mq.step queue (.wait (.remove reply)) = some mq) :
    Inv queue maxSize { s with mq, walks := s.walks.eraseIdx i } := by
  have hmq := h.mq.step hstep
  simp only [MqState.step] at hstep
  split at hstep
  · contradiction
  · obtain rfl := Option.some.inj hstep
    refine h.of_calls hmq rfl rfl rfl (fun other => ?_) ?_ (fun w hw => ?_) (fun other => ?_)
      h.sound
    · simp [appending]
    · exact List.forall_mem_cons.mpr ⟨h.walks _ (List.mem_of_getElem? hi), h.calls⟩
    · exact h.walks w (List.mem_of_mem_eraseIdx hw)
    · simp [owners, removed]

/-- A call tests the flag. -/
theorem Inv.test {i : ℕ} {mq : MqState ι} (h : s.Inv queue maxSize)
    (hopen : s.Orderly (.queue (.test i))) (hstep : s.mq.step queue (.test i) = some mq) :
    Inv queue maxSize { s with mq } := by
  have hmq := h.mq.step hstep
  simp only [MqState.step] at hstep
  split at hstep
  · next op hi =>
    obtain rfl := Option.some.inj hstep
    have hok := h.calls _ (List.mem_of_getElem? hi)
    refine h.of_calls hmq rfl rfl rfl (fun other => ?_) (fun c hc => ?_) h.walks
      (fun other => ?_) h.sound
    · refine Pool.countP_set_le hi fun happ => ?_
      cases op <;> split at happ <;> simp_all [appending]
    · obtain hc | rfl := List.mem_or_eq_of_mem_set hc
      · exact h.calls c hc
      · cases op with
        | append elem => split <;> trivial
        | dequeue => exact hok
        | remove reply =>
          have hclosed : s.mq.closed = false := by simpa [Orderly, hi] using hopen
          simpa [hclosed, CallOk] using hok
    · refine Nat.add_le_add_left (Pool.countP_set_le hi fun hremoved => ?_) _
      cases op <;> split at hremoved <;> simp [removed] at hremoved
  · contradiction

/-- What an access to the list does to one reply. -/
structure Accessed (queue : ι) (mq t : MqState ι) (op : MqOp ι) (reply : ι) : Prop where
  appended : t.appended.count reply =
    mq.appended.count reply + (if op = .append reply then 1 else 0)
  added : op ≠ .append reply → reply ∈ t.elems.map Prod.fst → reply ∈ mq.elems.map Prod.fst
  kept : op ≠ .remove reply → reply ∈ mq.elems.map Prod.fst → reply ∈ t.elems.map Prod.fst
  gone : op = .remove reply → reply ∈ mq.appended ∧ reply ∉ queue :: t.elems.map Prod.fst

theorem accessed_of_listChange {mq t : MqState ι} {op : MqOp ι} {ret : MqRet ι}
    (hf : mq.Fifo queue) (h : mq.ListChange queue op t ret) (hop : op ≠ .dequeue) (reply : ι) :
    Accessed queue mq t op reply := by
  have hnodup := hf.ring.nodup
  cases h with
  | append => constructor <;> grind
  | dequeue => exact absurd rfl hop
  | @remove x pre post links helems hring =>
    have happended : x.1 ∈ mq.appended := mem_appended hf (by simp [helems])
    rw [helems] at hnodup
    constructor <;> grind

/-- The calls after call `i` has accessed the list. -/
theorem countP_access {calls : List (MqCall ι)} {i : ℕ} {op : MqOp ι} (ret : MqRet ι)
    (hi : calls[i]? = some (.op op .passed)) (reply : ι) :
    (calls.set i (.op op (.finished ret))).countP (appending reply) +
        (if op = .append reply then 1 else 0) = calls.countP (appending reply) ∧
      (calls.set i (.op op (.finished ret))).countP (removing reply) +
        (if op = .remove reply then 1 else 0) = calls.countP (removing reply) ∧
      (calls.set i (.op op (.finished ret))).countP (removed reply) =
        calls.countP (removed reply) + (if op = .remove reply then 1 else 0) := by
  have happending := Pool.countP_set (b := .op op (.finished ret)) (p := appending reply) hi
  have hremoving := Pool.countP_set (b := .op op (.finished ret)) (p := removing reply) hi
  have hremoved := Pool.countP_set (b := .op op (.finished ret)) (p := removed reply) hi
  cases op <;> simp [appending, removing, removed] at * <;> omega

/-- A call about to access the list finds its own reply outside of it or in it, as it should, and
touches nodes of the ring alone. -/
theorem Inv.exists_list {i : ℕ} {op : MqOp ι} (h : s.Inv queue maxSize)
    (hi : s.mq.calls[i]? = some (.op op .passed)) :
    (∃ mq, s.mq.step queue (.list i) = some mq) ∧
      ∀ p ∈ touched queue s.mq op, p ∈ queue :: s.linked := by
  have hring := h.mq.fifo.ring
  have hok := h.calls _ (List.mem_of_getElem? hi)
  simp only [MqState.step, hi]
  cases op with
  | append elem =>
    have hpos := Pool.countP_pos (p := appending elem) hi (by simp [appending])
    have honce := h.once elem
    have hnew : elem ∉ queue :: s.linked := fun hmem => by
      obtain rfl | hmem := List.mem_cons.mp hmem
      · have htaken : s.taken.count elem = 0 :=
          List.count_eq_zero.mpr (List.nodup_cons.mp h.nodup).1
        simp only [appends] at honce
        omega
      · obtain ⟨x, hx, rfl⟩ := List.mem_map.mp hmem
        have := h.appending_eq_zero (mem_appended h.mq.fifo hx)
        omega
    obtain ⟨links, happend, -⟩ := queueAppend_ring hring hnew
    obtain ⟨p, hp, hprev⟩ := hring.prev_mem List.mem_cons_self
    have hcases : ¬ (elem = queue ∨ elem ∈ s.linked) := by simpa using hnew
    refine ⟨⟨_, by rw [MqState.listOp, if_neg hcases, happend]; rfl⟩, ?_⟩
    simpa [touched, hprev] using hp
  | dequeue => exact hok.elim
  | remove elem =>
    have helem : elem ∈ queue :: s.linked := List.mem_cons_of_mem _ hok
    obtain ⟨before, after, hsplit⟩ := List.append_of_mem hok
    obtain ⟨x, hfind⟩ : ∃ x, s.mq.elems.find? (fun x => x.1 = elem) = some x := by
      obtain ⟨x, hx, hxe⟩ := List.mem_map.mp hok
      exact Option.isSome_iff_exists.mp (List.find?_isSome.mpr ⟨x, hx, by simpa using hxe⟩)
    have hring' : DList.Ring s.mq.links queue (before ++ elem :: after) := hsplit ▸ hring
    obtain ⟨links, hremove, -⟩ := queueRemove_ring hring'
    obtain ⟨p, hp, hprev⟩ := hring.prev_mem helem
    obtain ⟨n, hn, hnext⟩ := hring.next_mem helem
    refine ⟨⟨_, by rw [MqState.listOp, hfind, hremove]; rfl⟩, fun a ha => ?_⟩
    simp only [touched, hprev, hnext] at ha
    grind

/-- A reply with an owner, old or new, has been appended and is not in the list. -/
theorem Inv.gone_of_accessed {i : ℕ} {op : MqOp ι} {t : MqState ι} {reply : ι}
    (h : s.Inv queue maxSize) (hi : s.mq.calls[i]? = some (.op op .passed))
    (haccess : Accessed queue s.mq t op reply) (howner : s.owners reply ≠ 0 ∨ op = .remove reply) :
    reply ∈ s.mq.appended ∧ reply ∉ queue :: t.elems.map Prod.fst := by
  obtain hown | hremove := howner
  · obtain ⟨happended, hnot⟩ := h.gone reply hown
    have hother : op ≠ .append reply := fun happend => by
      have := Pool.countP_pos (p := appending reply) hi (by simp [happend, appending])
      have := h.appending_eq_zero happended
      omega
    have := haccess.added hother
    exact ⟨happended, by grind⟩
  · exact haccess.gone hremove

/-- A call accesses the list: an append finds that no callback owns its reply, and a callback
owns its reply from here on, and nobody else has a pointer to it. -/
theorem Inv.list {i : ℕ} {op : MqOp ι} {mq : MqState ι} (h : s.Inv queue maxSize)
    (halone : s.Orderly (.queue (.list i))) (hi : s.mq.calls[i]? = some (.op op .passed))
    (hstep : s.mq.step queue (.list i) = some mq) : Inv queue maxSize { s with mq } := by
  have hmq := h.mq.step hstep
  have hok := h.calls _ (List.mem_of_getElem? hi)
  have hdeq : op ≠ .dequeue := fun hop => by simp [hop, CallOk] at hok
  simp only [MqState.step, hi] at hstep
  obtain ⟨⟨t, ret⟩, hop, rfl⟩ := Option.map_eq_some_iff.mp hstep
  have haccess := accessed_of_listChange h.mq.fifo (h.mq.fifo.listChange (absurd · hdeq) hop) hdeq
  have hcount := countP_access ret hi
  have hlone : ∀ reply, op = .remove reply →
      s.mq.calls.countP (removing reply) = 1 ∧ ∀ w ∈ s.walks, w.pointsTo reply = false := by
    rintro reply rfl
    simpa [Orderly, hi] using halone
  refine ⟨hmq, h.nodup, fun reply => ?_, fun c hc => ?_, fun w hw => ?_, fun reply => ?_,
    fun reply hown => ?_, h.sound⟩
  · have honce := h.once reply
    have happending := (hcount reply).1
    simp only [appends, (haccess reply).appended] at honce ⊢
    omega
  · refine CallOk.mono (l := s.linked) ?_ fun p hp hpc => (haccess p).kept (fun hremove => ?_) hp
    · obtain hc | rfl := List.mem_or_eq_of_mem_set hc
      · exact h.calls c hc
      · cases op <;> trivial
    · -- the only call that was about to remove the reply is the one that has done so
      have hpos : 0 < (s.mq.calls.set i (.op op (.finished ret))).countP (removing p) :=
        List.countP_pos_iff.mpr ⟨c, hc, hpc⟩
      have hremoving := (hcount p).2.1
      rw [if_pos hremove, (hlone p hremove).1] at hremoving
      omega
  · refine (h.walks w hw).mono fun p hp hpw => (haccess p).kept (fun hremove => ?_) hp
    rw [(hlone p hremove).2 w hw] at hpw
    contradiction
  · have howner := h.owner reply
    simp only [owners, (hcount reply).2.2] at howner ⊢
    split
    · next hremove =>
      have hzero : s.owners reply = 0 := by
        by_contra hown
        have hmem : reply ∈ s.linked := by simpa [hremove, CallOk] using hok
        exact (h.gone reply hown).2 (List.mem_cons_of_mem _ hmem)
      simp only [owners] at hzero
      omega
    · exact howner
  · have hcases : s.owners reply ≠ 0 ∨ op = .remove reply := by
      by_contra hno
      rw [not_or, not_not] at hno
      simp only [owners, (hcount reply).2.2, if_neg hno.2] at hown hno
      omega
    obtain ⟨happended, hnot⟩ := h.gone_of_accessed hi (haccess reply) hcases
    have hpos := List.count_pos_iff.mpr happended
    have hpos' : 0 < t.appended.count reply := by rw [(haccess reply).appended]; omega
    exact ⟨List.count_pos_iff.mp hpos', hnot⟩

/-- A post leaves the list alone; it ends call `i`, or that call is a close that goes on. -/
theorem step_post {i : ℕ} {mq mq' : MqState ι} (h : mq.step queue (.post i) = some mq') :
    mq'.appended = mq.appended ∧ mq'.elems = mq.elems ∧
      ((∃ c, mq.calls[i]? = some c ∧ mq'.calls = mq.calls.eraseIdx i) ∨
        ∃ c p c' p', mq.calls[i]? = some (.closing c p) ∧
          mq'.calls = mq.calls.set i (.closing c' p')) := by
  simp only [MqState.step] at h
  split at h
  · next hi => exact Option.some.inj h ▸ ⟨rfl, rfl, .inl ⟨_, hi, rfl⟩⟩
  · next hi => exact Option.some.inj h ▸ ⟨rfl, rfl, .inl ⟨_, hi, rfl⟩⟩
  · next hi => exact Option.some.inj h ▸ ⟨rfl, rfl, .inr ⟨_, _, _, _, hi, rfl⟩⟩
  · next hi => exact Option.some.inj h ▸ ⟨rfl, rfl, .inr ⟨_, _, _, _, hi, rfl⟩⟩
  · next hi => exact Option.some.inj h ▸ ⟨rfl, rfl, .inl ⟨_, hi, rfl⟩⟩
  · contradiction

/-- A call returns, or the close posts a semaphore.  A callback goes on with a reply that it
owned already, as none was turned away. -/
theorem Inv.post {i : ℕ} {mq : MqState ι} (h : s.Inv queue maxSize)
    (hstep : s.mq.step queue (.post i) = some mq) :
    Inv queue maxSize { s with mq, held := removeReturns s.mq (.post i) ++ s.held } := by
  have hmq := h.mq.step hstep
  obtain ⟨happended, helems, ⟨c, hi, hcalls⟩ | ⟨c, p, c', p', hi, hcalls⟩⟩ := step_post hstep
  · have hok := h.calls c (List.mem_of_getElem? hi)
    have hcount := fun q => Pool.countP_eraseIdx (p := q) hi
    have hreturns : ∀ reply, (removeReturns s.mq (.post i)).count reply =
        if removed reply c then 1 else 0 := fun reply => by
      cases c with
      | closing => simp [removeReturns, hi, removed]
      | op op phase =>
        cases op <;> cases phase <;>
          simp_all [removeReturns, CallOk, removed, List.count_singleton]
    refine h.of_calls hmq rfl happended helems (fun reply => ?_) (fun d hd => ?_) h.walks
      (fun reply => ?_) h.sound
    · have := hcount (appending reply)
      rw [hcalls]
      omega
    · rw [hcalls] at hd
      exact h.calls d (List.mem_of_mem_eraseIdx hd)
    · have := hcount (removed reply)
      simp only [owners, hcalls, List.count_append, hreturns reply]
      omega
  · have hreturns : removeReturns s.mq (.post i) = [] := by simp [removeReturns, hi]
    have hset := fun q => Pool.countP_set (b := .closing c' p') (p := q) hi
    refine h.of_calls hmq rfl happended helems (fun reply => ?_) (fun d hd => ?_) h.walks
      (fun reply => ?_) h.sound
    · rw [hcalls]
      exact Pool.countP_set_le hi (by simp [appending])
    · rw [hcalls] at hd
      obtain hd | rfl := List.mem_or_eq_of_mem_set hd
      · exact h.calls d hd
      · trivial
    · rw [owners, hreturns, hcalls]
      exact Nat.add_le_add_left (Pool.countP_set_le hi (by simp [removed])) _

/-- A callback frees its reply, which has no other owner. -/
theorem Inv.free {reply : ι} {i : ℕ} (h : s.Inv queue maxSize) (hi : s.held[i]? = some reply) :
    reply ∉ s.freed ∧
      Inv queue maxSize { s with held := s.held.eraseIdx i, freed := reply :: s.freed } := by
  have hheld := fun other => Pool.countP_eraseIdx (p := (· == other)) hi
  refine ⟨fun hfreed => ?_, ?_⟩
  · have hpos := List.count_pos_iff.mpr hfreed
    have hpos' := List.count_pos_iff.mpr (List.mem_of_getElem? hi)
    have := h.owner reply
    simp only [owners] at this
    omega
  · refine h.of_calls h.mq rfl rfl rfl (fun _ => le_rfl) h.calls h.walks (fun other => ?_) h.sound
    have := hheld other
    simp only [owners, List.count, List.countP_cons] at this ⊢
    omega

/-- **Step lemma.** While the callbacks find the queue open and their replies to themselves,
every step keeps the invariant. -/
theorem Inv.step {s' : ProxyState ι} {e : ProxyEvent ι} (h : s.Inv queue maxSize)
    (horderly : s.Orderly e) (hstep : s.step queue e = some s') : s'.Inv queue maxSize := by
  rw [ProxyState.step, if_neg (by simp [h.sound])] at hstep
  -- a step of a walk from `w` to `w'`
  have hwalk : ∀ {i : ℕ} {w w' : ReplyWalk ι}, s.walks[i]? = some w → WalkOk queue s.linked w' →
      Inv queue maxSize { s with walks := s.walks.set i w' } := fun hi hw' =>
    h.of_walks fun w hw => (List.mem_or_eq_of_mem_set hw).elim (h.walks w) fun heq => heq ▸ hw'
  have hat : ∀ {i : ℕ} {w : ReplyWalk ι}, s.walks[i]? = some w → WalkOk queue s.linked w :=
    fun hi => h.walks _ (List.mem_of_getElem? hi)
  cases e with
  | append reply =>
    simp only [act] at hstep
    split at hstep
    · contradiction
    · next hfresh =>
      obtain ⟨mq, hmq, rfl⟩ := Option.map_eq_some_iff.mp hstep
      exact h.append hfresh hmq
  | enter =>
    obtain rfl := Option.some.inj hstep
    exact h.of_walks (List.forall_mem_cons.mpr ⟨h.next_mem List.mem_cons_self, h.walks⟩)
  | fetch i =>
    simp only [act] at hstep
    split at hstep
    · next hi => simpa [WalkOk] using hat hi
    · next elem hi =>
      obtain ⟨e, hmem, he⟩ := hat hi
      obtain rfl := Option.some.inj he
      rw [h.touch_eq (by simpa using hmem)] at hstep
      exact Option.some.inj hstep ▸ hwalk hi ⟨hmem, h.next_mem hmem⟩
    · contradiction
  | miss i =>
    simp only [act] at hstep
    split at hstep
    · next elem tmp hi =>
      obtain ⟨hmem, htmp⟩ := hat hi
      rw [Option.ite_none_left_eq_some, h.touch_eq (by simpa using hmem)] at hstep
      exact Option.some.inj hstep.2 ▸ hwalk hi htmp
    · contradiction
  | hit i =>
    simp only [act] at hstep
    split at hstep
    · next elem tmp hi =>
      obtain ⟨hmem, -⟩ := hat hi
      rw [Option.ite_none_left_eq_some, h.touch_eq (by simpa using hmem)] at hstep
      exact Option.some.inj hstep.2 ▸ hwalk hi ((List.mem_cons.mp hmem).resolve_left hstep.1)
    · contradiction
  | leave i =>
    simp only [act] at hstep
    split at hstep
    · rw [Option.ite_none_right_eq_some] at hstep
      exact Option.some.inj hstep.2 ▸
        h.of_walks fun w hw => h.walks w (List.mem_of_mem_eraseIdx hw)
    · contradiction
  | remove i =>
    simp only [act] at hstep
    split at hstep
    · next hi =>
      obtain ⟨mq, hmq, rfl⟩ := Option.map_eq_some_iff.mp hstep
      exact h.remove hi hmq
    · contradiction
  | queue e =>
    cases e with
    | wait op => simp [act] at hstep
    | test i =>
      obtain ⟨mq, hmq, rfl⟩ := Option.map_eq_some_iff.mp hstep
      exact h.test horderly hmq
    | list i =>
      simp only [act] at hstep
      split at hstep
      · next op hi =>
        obtain ⟨⟨mq, hmq⟩, htouched⟩ := h.exists_list hi
        rw [h.touch_eq htouched, hmq] at hstep
        exact Option.some.inj hstep ▸ h.list horderly hi hmq
      · contradiction
    | post i =>
      obtain ⟨mq, hmq, rfl⟩ := Option.map_eq_some_iff.mp hstep
      exact h.post hmq
    | close consumers producers =>
      obtain rfl := Option.some.inj hstep
      have hinv := h.mq.step (e := .close consumers producers) rfl
      refine h.of_calls hinv rfl rfl rfl (by simp [appending]) ?_ h.walks ?_ h.sound
      · exact List.forall_mem_cons.mpr ⟨trivial, h.calls⟩
      · simp [owners, removed, removeReturns]
  | free i =>
    simp only [act] at hstep
    split at hstep
    · next reply hi =>
      obtain ⟨hnot, hinv⟩ := h.free hi
      rw [touch, if_neg (by simpa using hnot)] at hstep
      exact Option.some.inj hstep ▸ hinv
    · contradiction

end Steps

/-! ## What is freed -/

/-- **Main theorem.** In every run in which the callbacks find the queue open and take out replies
that no other callback has a pointer to, no thread follows a null pointer or touches a freed
reply, and no freed reply is linked in the queue or in the path of a walk: neither the walks, those
under way or later ones, nor `mqueue_destroy` reach one. -/
theorem freed_unlinked [DecidableEq ι] (queue : ι) (maxSize : ℕ) (events : List (ProxyEvent ι))
    (s : ProxyState ι)
    (horderly : Transition.Along (step queue) Orderly (init queue maxSize) events)
    (hrun : run queue (init queue maxSize) events = some s) :
    s.fault = false ∧ ∃ linked, (∀ fuel > linked.length,
        (s.mq.links.next queue).bind (queueWalk s.mq.links queue fuel) = some linked ∧
        queueDestroy queue fuel s.mq.links = some linked) ∧
      ∀ reply ∈ s.freed, reply ∉ linked ∧ ∀ w ∈ s.walks, w.pointsTo reply = false := by
  have hstep : ∀ (s : ProxyState ι) e s', s.Inv queue maxSize → s.Orderly e →
      s.step queue e = some s' → s'.Inv queue maxSize := fun _ _ _ h ho hs => h.step ho hs
  have h := Transition.run_invariant_along hstep (inv_init queue maxSize) horderly hrun
  refine ⟨h.sound, s.linked, fun fuel hfuel => ?_, fun reply hfreed => ?_⟩
  · exact ⟨queueWalk_ring h.mq.fifo.ring hfuel, queueDestroy_ring h.mq.fifo.ring hfuel⟩
  · have hnot := h.freed_not_mem hfreed
    refine ⟨fun hmem => hnot (List.mem_cons_of_mem _ hmem), fun w hw => ?_⟩
    have hok := h.walks w hw
    cases w <;> grind [WalkOk, ReplyWalk.pointsTo]

/-- A reply is appended while nobody else is in a call. -/
def appendAlone (reply : ℕ) : List (ProxyEvent ℕ) :=
  [.append reply, .queue (.test 0), .queue (.list 0), .queue (.post 0)]

/-- Two callbacks walk over two replies at once.  The first takes out and frees the one behind
which the second has got; the close comes between its test and its access to the list. -/
def twoCallbacks : List (ProxyEvent ℕ) :=
  appendAlone 1 ++ appendAlone 2 ++ [.enter, .fetch 0, .enter, .fetch 0, .hit 1, .miss 0, .fetch 0,
    .remove 1, .queue (.test 0), .queue (.close 1 1), .queue (.list 1), .queue (.post 1), .free 0,
    .miss 0, .fetch 0, .leave 0]

theorem freed_unlinked_closing :
    ∃ s, run 0 (init 0 2) twoCallbacks = some s ∧ s.freed = [1] ∧ s.fault = false ∧
      queueDestroy 0 2 s.mq.links = some [2] ∧
      ∃ linked, (∀ fuel > linked.length, queueDestroy 0 fuel s.mq.links = some linked) ∧
        1 ∉ linked := by
  have hfacts : (run 0 (init 0 2) twoCallbacks).map
      (fun s => (s.freed, queueDestroy 0 2 s.mq.links)) = some ([1], some [2]) := by
    decide +kernel
  obtain ⟨s, hrun, hs⟩ := Option.map_eq_some_iff.mp hfacts
  obtain ⟨hfreed, hdestroy⟩ := Prod.mk.inj hs
  obtain ⟨hfault, linked, hlinked, hnot⟩ := freed_unlinked 0 2 _ s (by decide +kernel) hrun
  exact ⟨s, hrun, hfreed, hfault, hdestroy, linked, fun fuel hfuel => (hlinked fuel hfuel).2,
    (hnot 1 (by simp [hfreed])).1⟩

/-- The queue is closed after a callback has matched a reply: `mqueue_remove` fails and leaves
the reply in the list, and the callback frees it; `mqueue_destroy` and a later walk reach it.
With the queue open, a walk has read the pointer to a reply that another callback takes out and
frees, and follows it. -/
theorem freed_reply_linked :
    (run 0 (init 0 2) (appendAlone 1 ++ [.enter, .fetch 0, .hit 0, .queue (.close 1 1), .remove 0,
      .queue (.test 0), .queue (.post 0), .free 0, .enter, .fetch 0])).map
        (fun s => (s.freed, queueDestroy 0 2 s.mq.links, s.fault)) = some ([1], some [1], true) ∧
    (run 0 (init 0 2) (appendAlone 1 ++ appendAlone 2 ++ [.enter, .fetch 0, .enter, .fetch 0,
      .miss 0, .fetch 0, .hit 0, .remove 0, .queue (.test 0), .queue (.list 0), .queue (.post 0),
      .free 0, .miss 0, .fetch 0])).map (fun s => (s.freed, s.mq.closed, s.fault)) =
        some ([2], false, true) := by
  decide +kernel

end ProxyState

end Srn
