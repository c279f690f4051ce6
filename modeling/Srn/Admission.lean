import Mathlib.Data.List.Nodup
import Mathlib.Logic.Function.Basic
import Srn.Lib.Pool
import Srn.Lib.Transition
import Srn.Srdb

/-!
# Srn.Admission

How a client query is admitted.  The DNS proxy, the controller and the access router never talk
to each other: each writes rows of the tables `FlowReq` and `FlowState`, and is notified of the
rows the others write.

* The proxy's client consumer puts the reply to a query in `replies_waiting_controller` and
  then inserts a `FlowReq` row under the reply's request id.
* A worker of the controller runs `process_request` on the new row.  It writes a status that
  rejects the request, or it inserts a `FlowState` row and then writes `ALLOWED`; when the
  insertion fails it writes `ERROR`.
* The access router installs the routes of a new `FlowState` row and writes `RUNNING`.
* The proxy's callbacks `read_flowreq` and `read_flowstate` look for the reply of a rejected
  request or of a running flow in `replies_waiting_controller`, remove it and answer the client.

All this happens concurrently for any number of requests, of this proxy and of others, and the
notifications arrive in any order.
-/

namespace Srn

/-! ## Parties, notifications and rows -/

/-- How a client is answered. -/
inductive Answer where
  | reject
  | srh
  deriving DecidableEq, Repr

/-- What is under way for a request: the point at which some party stands, or a notification
that has not been delivered. -/
inductive Task (ρ : Type) where
  /-- `client_consumer_main`, before the insertion of the `FlowReq` row. -/
  | inserting (id : ρ)
  /-- Notification of a new `FlowReq` row, to the controller. -/
  | reqInserted (id : ρ)
  /-- `process_request`, before the outcome. -/
  | processing (id : ρ)
  /-- `process_request`, after a `commit_flow` that succeeded. -/
  | committed (id : ρ)
  /-- `process_request`, after a `commit_flow` that failed. -/
  | failed (id : ρ)
  /-- Notification of a new `FlowState` row, to the routers. -/
  | flowInserted (id : ρ)
  /-- `read_flowstate` of the access router, before `set_status`. -/
  | installing (id : ρ)
  /-- Notification of a new status in a `FlowReq` row, to the proxies. -/
  | reqUpdated (id : ρ) (status : ReqStatus)
  /-- Notification of a modified `FlowState` row, to the proxies; `fmask` says whether the
  status is among the modified columns. -/
  | flowUpdated (id : ρ) (status : FlowStatus) (fmask : Bool)
  /-- A callback of the proxy whose walk stopped at the reply. -/
  | matched (id : ρ) (answer : Answer)
  /-- A callback of the proxy past `mqueue_remove`. -/
  | removed (id : ρ) (answer : Answer)
  deriving DecidableEq, Repr

/-- The task may lead to an answer for the request. -/
def Task.token {ρ : Type} [DecidableEq ρ] (id : ρ) : Task ρ → Bool
  | .inserting x | .reqInserted x | .processing x | .failed x | .flowInserted x | .installing x
  | .matched x _ | .removed x _ => x = id
  | .committed _ => false
  | .reqUpdated x status => x = id ∧ status.rejects
  | .flowUpdated x status fmask => x = id ∧ fmask ∧ status = .running

/-- The tasks, the request ids in `replies_waiting_controller` and the status columns of the
two tables.  The rest is history: the request ids in use and those of this proxy, the flows
that became `RUNNING`, and the answers sent. -/
structure Admission (ρ : Type) where
  tasks : List (Task ρ)
  waiting : List ρ
  flowReq : ρ → Option ReqStatus
  flowState : ρ → Option FlowStatus
  used : List ρ
  own : List ρ
  ran : List ρ
  answers : List (ρ × Answer)

/-- One atomic step; `i` is the position of a task. -/
inductive AdmissionEvent (ρ : Type) where
  /-- A proxy gives a reply its request id.  This proxy has then put it in its queue. -/
  | request (id : ρ) (own : Bool)
  /-- The `FlowReq` row is committed. -/
  | insert (i : ℕ)
  /-- A worker of the controller takes the request. -/
  | receive (i : ℕ)
  /-- `process_request` writes a status that rejects the request. -/
  | refuse (i : ℕ) (status : ReqStatus)
  /-- `commit_flow`: the `FlowState` row is committed, or the transaction fails. -/
  | commit (i : ℕ) (ok : Bool)
  /-- `process_request` writes its last status. -/
  | conclude (i : ℕ)
  /-- The access router reads the new `FlowState` row. -/
  | access (i : ℕ)
  /-- The access router writes `RUNNING`. -/
  | running (i : ℕ)
  /-- `gc_flows` of the controller writes `EXPIRED`. -/
  | expire (id : ρ)
  /-- `recompute_flow` of the controller writes other columns of the row. -/
  | reroute (id : ρ)
  /-- A notification reaches the callback of the proxy, which walks the queue. -/
  | notify (i : ℕ)
  /-- The callback of the proxy removes the reply. -/
  | remove (i : ℕ)
  /-- The callback of the proxy answers the client. -/
  | send (i : ℕ)
  /-- A task ends with no effect: a transaction fails, a router is not the access router of the
  flow, a row is malformed, a notification is lost. -/
  | drop (i : ℕ)
  deriving DecidableEq, Repr

namespace Admission

variable {ρ : Type}

/-- No request yet. -/
def init : Admission ρ where
  tasks := []
  waiting := []
  flowReq _ := none
  flowState _ := none
  used := []
  own := []
  ran := []
  answers := []

variable [DecidableEq ρ]

/-- Task `i` ends and leads to others. -/
def goOn (s : Admission ρ) (i : ℕ) (next : List (Task ρ)) : Admission ρ :=
  { s with tasks := next ++ s.tasks.eraseIdx i }

/-- `set_flowreq_status`. -/
def setFlowreqStatus (s : Admission ρ) (i : ℕ) (id : ρ) (status : ReqStatus) : Admission ρ :=
  { s.goOn i [.reqUpdated id status] with
    flowReq := Function.update s.flowReq id (some status) }

/-- `set_status` of the access router; a row that has the status already is not modified. -/
def setStatusRunning (s : Admission ρ) (i : ℕ) (id : ρ) : Admission ρ :=
  { s.goOn i (if s.flowState id = some .running then [] else [.flowUpdated id .running true]) with
    flowState := Function.update s.flowState id (some .running)
    ran := id :: s.ran }

/-- One step.  `none` when the step is not enabled. -/
def step (s : Admission ρ) : AdmissionEvent ρ → Option (Admission ρ)
  | .request id own =>
    if id ∈ s.used then none
    else some { s with
      tasks := .inserting id :: s.tasks
      waiting := if own then s.waiting ++ [id] else s.waiting
      used := id :: s.used
      own := if own then id :: s.own else s.own }
  | .insert i =>
    match s.tasks[i]? with
    | some (.inserting id) => some { s.goOn i [.reqInserted id] with
        flowReq := Function.update s.flowReq id (some .pending) }
    | _ => none
  | .receive i =>
    match s.tasks[i]? with
    | some (.reqInserted id) => some (s.goOn i [.processing id])
    | _ => none
  | .refuse i status =>
    match s.tasks[i]? with
    | some (.processing id) =>
      if status.rejects then some (s.setFlowreqStatus i id status) else none
    | _ => none
  | .commit i ok =>
    match s.tasks[i]? with
    | some (.processing id) =>
      if ok then some { s.goOn i [.flowInserted id, .committed id] with
        flowState := Function.update s.flowState id (some .active) }
      else some (s.goOn i [.failed id])
    | _ => none
  | .conclude i =>
    match s.tasks[i]? with
    | some (.committed id) => some (s.setFlowreqStatus i id .allowed)
    | some (.failed id) => some (s.setFlowreqStatus i id .error)
    | _ => none
  | .access i =>
    match s.tasks[i]? with
    | some (.flowInserted id) => some (s.goOn i [.installing id])
    | _ => none
  | .running i =>
    match s.tasks[i]? with
    | some (.installing id) => some (s.setStatusRunning i id)
    | _ => none
  | .expire id =>
    match s.flowState id with
    | some status =>
      let new := if status = .expired then [] else [.flowUpdated id .expired true]
      some { s with
        tasks := new ++ s.tasks
        flowState := Function.update s.flowState id (some .expired) }
    | none => none
  | .reroute id =>
    match s.flowState id with
    | some status => some { s with tasks := [.flowUpdated id status false] ++ s.tasks }
    | none => none
  | .notify i =>
    match s.tasks[i]? with
    | some (.reqUpdated id status) => some (s.goOn i
        (if status.rejects ∧ id ∈ s.waiting then [.matched id .reject] else []))
    | some (.flowUpdated id status fmask) => some (s.goOn i
        (if fmask ∧ status = .running ∧ id ∈ s.waiting then [.matched id .srh] else []))
    | _ => none
  | .remove i =>
    match s.tasks[i]? with
    | some (.matched id answer) => some { s.goOn i [.removed id answer] with
        waiting := s.waiting.erase id }
    | _ => none
  | .send i =>
    match s.tasks[i]? with
    | some (.removed id answer) => some { s.goOn i [] with
        answers := s.answers ++ [(id, answer)] }
    | _ => none
  | .drop i => if i < s.tasks.length then some (s.goOn i []) else none

/-- The state after a sequence of steps. -/
abbrev run : Admission ρ → List (AdmissionEvent ρ) → Option (Admission ρ) :=
  Transition.run step

/-! ## One claim on each reply -/

/-- What a task may rely on.  Until a callback removes it, the reply of a request of this proxy
is in the queue; and an SRH reply is under way only for a flow that became `RUNNING`. -/
def Fits (s : Admission ρ) : Task ρ → Prop
  | .inserting id | .reqInserted id | .processing id | .failed id | .flowInserted id
  | .installing id => id ∈ s.own → id ∈ s.waiting
  | .committed _ => True
  | .reqUpdated id status => status.rejects = true → id ∈ s.own → id ∈ s.waiting
  | .flowUpdated id status fmask => fmask = true → status = .running →
      id ∈ s.ran ∧ (id ∈ s.own → id ∈ s.waiting)
  | .matched id answer => id ∈ s.waiting ∧ (answer = .srh → id ∈ s.ran)
  | .removed id answer => id ∈ s.used ∧ id ∉ s.waiting ∧ (answer = .srh → id ∈ s.ran)

/-- What a task relies on concerns the requests it may lead to an answer for. -/
theorem Fits.congr {s s' : Admission ρ} {t : Task ρ} (h : s.Fits t)
    (hown : ∀ id, t.token id = true → id ∈ s'.own → id ∈ s.own)
    (hwaiting : ∀ id, t.token id = true → (id ∈ s'.waiting ↔ id ∈ s.waiting))
    (hused : s.used ⊆ s'.used) (hran : s.ran ⊆ s'.ran) : s'.Fits t := by
  cases t <;> simp only [Fits, Task.token] at * <;> grind

/-- A task that leads to no answer relies on nothing. -/
theorem fits_of_token_eq_false {s : Admission ρ} {t : Task ρ} (h : ∀ id, t.token id = false) :
    s.Fits t := by
  cases t with
  | committed => trivial
  | reqUpdated id status =>
    intro hrejects
    simpa [Task.token, hrejects] using h id
  | flowUpdated id status fmask =>
    intro hfmask hstatus
    simpa [Task.token, hfmask, hstatus] using h id
  | inserting id | reqInserted id | processing id | failed id | flowInserted id | installing id
  | matched id _ | removed id _ => simpa [Task.token] using h id

/-- What a step can do. -/
inductive Change (s : Admission ρ) : Admission ρ → Prop
  | request {id} {own : Bool} : id ∉ s.used →
      Change s { s with
        tasks := .inserting id :: s.tasks
        waiting := if own then s.waiting ++ [id] else s.waiting
        used := id :: s.used
        own := if own then id :: s.own else s.own }
  | goOn {i t next flowReq flowState ran} : s.tasks[i]? = some t → s.ran ⊆ ran →
      (∀ id, next.countP (Task.token id) ≤ if t.token id then 1 else 0) →
      (s.Fits t → ∀ t' ∈ next, Fits { s with ran } t') →
      Change s { s.goOn i next with flowReq, flowState, ran }
  | tell {new flowState} : (∀ t ∈ new, ∀ id, t.token id = false) →
      Change s { s with tasks := new ++ s.tasks, flowState }
  | remove {i id answer} : s.tasks[i]? = some (.matched id answer) →
      Change s { s.goOn i [.removed id answer] with waiting := s.waiting.erase id }
  | send {i id answer} : s.tasks[i]? = some (.removed id answer) →
      Change s { s.goOn i [] with answers := s.answers ++ [(id, answer)] }

theorem change_of_step {s s' : Admission ρ} {e : AdmissionEvent ρ} (h : s.step e = some s') :
    s.Change s' := by
  cases e with
  | request id own =>
    simp only [step] at h
    split at h
    · contradiction
    · next hfresh => exact Option.some.inj h ▸ .request hfresh
  | insert i =>
    simp only [step] at h
    split at h
    · next hi =>
      refine Option.some.inj h ▸ .goOn hi (List.Subset.refl _) (fun id => ?_) ?_ <;>
        simp [Task.token, Fits]
    · contradiction
  | receive i =>
    simp only [step] at h
    split at h
    · next hi =>
      refine Option.some.inj h ▸ .goOn hi (List.Subset.refl _) (fun id => ?_) ?_ <;>
        simp [Task.token, Fits]
    · contradiction
  | refuse i status =>
    simp only [step] at h
    split at h
    · next hi =>
      split at h
      · refine Option.some.inj h ▸ .goOn hi (List.Subset.refl _) (fun id => ?_) ?_ <;>
          simp_all [Task.token, Fits]
      · contradiction
    · contradiction
  | commit i ok =>
    simp only [step] at h
    split at h
    · next hi =>
      split at h
      · refine Option.some.inj h ▸ .goOn hi (List.Subset.refl _) (fun id => ?_) ?_ <;>
          simp [Task.token, Fits, List.countP_cons]
      · refine Option.some.inj h ▸ .goOn hi (List.Subset.refl _) (fun id => ?_) ?_ <;>
          simp [Task.token, Fits]
    · contradiction
  | conclude i =>
    simp only [step] at h
    split at h
    · next hi =>
      refine Option.some.inj h ▸ .goOn hi (List.Subset.refl _) (fun id => ?_) ?_ <;>
        simp [Task.token, Fits, ReqStatus.rejects]
    · next hi =>
      refine Option.some.inj h ▸ .goOn hi (List.Subset.refl _) (fun id => ?_) ?_ <;>
        simp [Task.token, Fits, ReqStatus.rejects]
    · contradiction
  | access i =>
    simp only [step] at h
    split at h
    · next hi =>
      refine Option.some.inj h ▸ .goOn hi (List.Subset.refl _) (fun id => ?_) ?_ <;>
        simp [Task.token, Fits]
    · contradiction
  | running i =>
    simp only [step] at h
    split at h
    · next id hi =>
      refine Option.some.inj h ▸ .goOn hi (by simp) (fun id' => ?_) ?_
      · by_cases hrow : s.flowState id = some .running <;> simp [hrow, Task.token]
      · by_cases hrow : s.flowState id = some .running <;> simp [hrow, Fits]
    · contradiction
  | expire id =>
    simp only [step] at h
    split at h
    · next status hrow =>
      refine Option.some.inj h ▸ .tell fun t ht id' => ?_
      by_cases hst : status = .expired
      · simp [hst] at ht
      · obtain rfl : t = .flowUpdated id .expired true := by simpa [hst] using ht
        simp [Task.token]
    · contradiction
  | reroute id =>
    simp only [step] at h
    split at h
    · refine Option.some.inj h ▸ .tell fun t ht id' => ?_
      obtain rfl := List.mem_singleton.mp ht
      simp [Task.token]
    · contradiction
  | notify i =>
    simp only [step] at h
    split at h
    · next id status hi =>
      refine Option.some.inj h ▸ .goOn hi (List.Subset.refl _) (fun id' => ?_) fun hfits => ?_
      · split <;> simp_all [Task.token]
      · split <;> simp_all [Fits]
    · next id status fmask hi =>
      refine Option.some.inj h ▸ .goOn hi (List.Subset.refl _) (fun id' => ?_) fun hfits => ?_
      · split <;> simp_all [Task.token]
      · split <;> simp_all [Fits]
    · contradiction
  | remove i =>
    simp only [step] at h
    split at h
    · next hi => exact Option.some.inj h ▸ .remove hi
    · contradiction
  | send i =>
    simp only [step] at h
    split at h
    · next hi => exact Option.some.inj h ▸ .send hi
    · contradiction
  | drop i =>
    simp only [step] at h
    split at h
    · next hi =>
      refine Option.some.inj h ▸ .goOn (List.getElem?_eq_getElem hi) (List.Subset.refl _)
        (fun id => ?_) ?_ <;> simp
    · contradiction

/-! ## All interleavings -/

/-- What holds in every state. -/
structure Inv (s : Admission ρ) : Prop where
  fits : ∀ t ∈ s.tasks, s.Fits t
  tokens : ∀ id, s.tasks.countP (Task.token id) ≤ s.used.count id
  used : s.used.Nodup
  ownUsed : s.own ⊆ s.used
  waitingUsed : s.waiting ⊆ s.used
  waiting : s.waiting.Nodup
  answered : ∀ id ∈ s.answers.map Prod.fst,
    id ∈ s.used ∧ id ∉ s.waiting ∧ s.tasks.countP (Task.token id) = 0
  answers : (s.answers.map Prod.fst).Nodup
  ran : ∀ id, (id, .srh) ∈ s.answers → id ∈ s.ran

theorem inv_init : (init : Admission ρ).Inv := by
  constructor <;> simp [init]

/-- A request has at most one task that may lead to an answer. -/
theorem Inv.tokens_le_one {s : Admission ρ} (h : s.Inv) (id : ρ) :
    s.tasks.countP (Task.token id) ≤ 1 :=
  Nat.le_trans (h.tokens id) (List.nodup_iff_count_le_one.mp h.used id)

/-- Beside a task that may lead to an answer for a request there is no other. -/
theorem Inv.token_others {s : Admission ρ} (h : s.Inv) {i : ℕ} {t : Task ρ}
    (hi : s.tasks[i]? = some t) {id : ρ} (ht : t.token id = true) :
    (s.tasks.eraseIdx i).countP (Task.token id) = 0 := by
  have herase := Pool.countP_eraseIdx (p := Task.token id) hi
  have hone := h.tokens_le_one id
  rw [if_pos ht] at herase
  omega

/-- No task may lead to an answer for a request id that is not in use. -/
theorem Inv.token_fresh {s : Admission ρ} (h : s.Inv) {id : ρ} (hfresh : id ∉ s.used)
    {t : Task ρ} (ht : t ∈ s.tasks) : t.token id = false := by
  have hzero := h.tokens id
  rw [List.count_eq_zero.mpr hfresh, Nat.le_zero, List.countP_eq_zero] at hzero
  simpa using hzero t ht

/-- **Step lemma**: a proxy makes a request under a fresh id. -/
theorem Inv.request {s : Admission ρ} (h : s.Inv) {id : ρ} (own : Bool) (hfresh : id ∉ s.used) :
    Inv { s with
      tasks := .inserting id :: s.tasks
      waiting := if own then s.waiting ++ [id] else s.waiting
      used := id :: s.used
      own := if own then id :: s.own else s.own } := by
  have hown : id ∉ s.own := fun hmem => hfresh (h.ownUsed hmem)
  have hwaiting : id ∉ s.waiting := fun hmem => hfresh (h.waitingUsed hmem)
  refine ⟨fun t ht => ?_, fun x => ?_, List.nodup_cons.mpr ⟨hfresh, h.used⟩, fun x hx => ?_,
    fun x hx => ?_, ?_, fun x hx => ?_, h.answers, h.ran⟩
  · obtain rfl | ht := List.mem_cons.mp ht
    · cases own <;> simp [Fits, hown]
    · have hfree := h.token_fresh hfresh ht
      refine (h.fits t ht).congr (fun x hx => ?_) (fun x hx => ?_) (by simp)
        (List.Subset.refl _)
      · cases own <;> grind
      · cases own <;> grind
  · have := h.tokens x
    simp only [List.countP_cons, Task.token, List.count_cons, beq_iff_eq, decide_eq_true_eq]
    omega
  · have := @h.ownUsed x
    cases own <;> grind
  · have := @h.waitingUsed x
    cases own <;> grind
  · cases own
    · exact h.waiting
    · simpa [List.nodup_append, hwaiting] using ⟨h.waiting, fun x hx => by grind⟩
  · obtain ⟨hused, hnot, hzero⟩ := h.answered x hx
    have hne : id ≠ x := fun heq => hfresh (heq ▸ hused)
    refine ⟨List.mem_cons_of_mem _ hused, ?_, ?_⟩
    · cases own <;> grind
    · simpa [Task.token, hne] using hzero

/-- **Step lemma**: a task goes on, with at most the token it had. -/
theorem Inv.goOn {s : Admission ρ} (h : s.Inv) {i : ℕ} {t : Task ρ} {next : List (Task ρ)}
    {flowReq : ρ → Option ReqStatus} {flowState : ρ → Option FlowStatus} {ran : List ρ}
    (hi : s.tasks[i]? = some t) (hran : s.ran ⊆ ran)
    (hcount : ∀ id, next.countP (Task.token id) ≤ if t.token id then 1 else 0)
    (hfits : s.Fits t → ∀ t' ∈ next, Fits { s with ran } t') :
    Inv { s.goOn i next with flowReq, flowState, ran } := by
  have herase := fun x => Pool.countP_eraseIdx (p := Task.token x) hi
  have hle : ∀ x, (next ++ s.tasks.eraseIdx i).countP (Task.token x) ≤
      s.tasks.countP (Task.token x) := fun x => by
    rw [List.countP_append, ← herase x, Nat.add_comm]
    exact Nat.add_le_add_left (hcount x) _
  refine ⟨fun t' ht' => ?_, fun x => Nat.le_trans (hle x) (h.tokens x), h.used, h.ownUsed,
    h.waitingUsed, h.waiting, fun x hx => ?_, h.answers, fun x hx => hran (h.ran x hx)⟩
  · obtain ht' | ht' := List.mem_append.mp ht'
    · exact hfits (h.fits t (List.mem_of_getElem? hi)) t' ht'
    · exact (h.fits t' (List.mem_of_mem_eraseIdx ht')).congr (fun _ _ hmem => hmem)
        (fun _ _ => Iff.rfl) (List.Subset.refl _) hran
  · obtain ⟨hused, hnot, hzero⟩ := h.answered x hx
    exact ⟨hused, hnot, Nat.le_zero.mp (hzero ▸ hle x)⟩

/-- **Step lemma**: notifications are sent that lead to no answer. -/
theorem Inv.tell {s : Admission ρ} (h : s.Inv) {new : List (Task ρ)}
    {flowState : ρ → Option FlowStatus} (hnew : ∀ t ∈ new, ∀ id, t.token id = false) :
    Inv { s with tasks := new ++ s.tasks, flowState } := by
  have hzero : ∀ x, new.countP (Task.token x) = 0 := fun x =>
    List.countP_eq_zero.mpr fun t ht => by simp [hnew t ht x]
  refine ⟨fun t ht => ?_, fun x => ?_, h.used, h.ownUsed, h.waitingUsed, h.waiting,
    fun x hx => ?_, h.answers, h.ran⟩
  · obtain ht | ht := List.mem_append.mp ht
    · exact fits_of_token_eq_false (hnew t ht)
    · exact (h.fits t ht).congr (fun _ _ hmem => hmem) (fun _ _ => Iff.rfl) (List.Subset.refl _)
        (List.Subset.refl _)
  · rw [List.countP_append, hzero, Nat.zero_add]
    exact h.tokens x
  · rw [List.countP_append, hzero, Nat.zero_add]
    exact h.answered x hx

/-- **Step lemma**: a callback removes the reply it has matched. -/
theorem Inv.remove {s : Admission ρ} (h : s.Inv) {i : ℕ} {id : ρ} {answer : Answer}
    (hi : s.tasks[i]? = some (.matched id answer)) :
    Inv { s.goOn i [.removed id answer] with waiting := s.waiting.erase id } := by
  have hothers : (s.tasks.eraseIdx i).countP (Task.token id) = 0 :=
    h.token_others hi (by simp [Task.token])
  obtain ⟨hmem, hran⟩ := h.fits _ (List.mem_of_getElem? hi)
  have herase := fun x => Pool.countP_eraseIdx (p := Task.token x) hi
  have hcount : ∀ x, ([Task.removed id answer] ++ s.tasks.eraseIdx i).countP (Task.token x) =
      s.tasks.countP (Task.token x) := fun x => by
    rw [← herase x]
    simp [List.countP_cons, Task.token]
  refine ⟨fun t ht => ?_, fun x => (hcount x).trans_le (h.tokens x), h.used, h.ownUsed,
    fun x hx => h.waitingUsed (List.mem_of_mem_erase hx), h.waiting.erase id, fun x hx => ?_,
    h.answers, h.ran⟩
  · obtain rfl | ht := List.mem_cons.mp ht
    · exact ⟨h.waitingUsed hmem, h.waiting.not_mem_erase, hran⟩
    · have hfree : t.token id = false := by simpa using List.countP_eq_zero.mp hothers t ht
      refine (h.fits t (List.mem_of_mem_eraseIdx ht)).congr (fun _ _ hmem => hmem)
        (fun x hx => ?_) (List.Subset.refl _) (List.Subset.refl _)
      have hne : x ≠ id := fun heq => by simp [heq, hfree] at hx
      exact List.mem_erase_of_ne hne
  · obtain ⟨hused, hnot, hzero⟩ := h.answered x hx
    exact ⟨hused, fun hmem => hnot (List.mem_of_mem_erase hmem), (hcount x).trans hzero⟩

/-- **Step lemma**: a callback sends the reply it has removed. -/
theorem Inv.send {s : Admission ρ} (h : s.Inv) {i : ℕ} {id : ρ} {answer : Answer}
    (hi : s.tasks[i]? = some (.removed id answer)) :
    Inv { s.goOn i [] with answers := s.answers ++ [(id, answer)] } := by
  have hothers : (s.tasks.eraseIdx i).countP (Task.token id) = 0 :=
    h.token_others hi (by simp [Task.token])
  obtain ⟨hused, hnot, hran⟩ := h.fits _ (List.mem_of_getElem? hi)
  have hle : ∀ x, (s.tasks.eraseIdx i).countP (Task.token x) ≤ s.tasks.countP (Task.token x) :=
    fun x => (List.eraseIdx_sublist _ i).countP_le
  have hnew : id ∉ s.answers.map Prod.fst := fun hmem => by
    have hpos := Pool.countP_pos (p := Task.token id) hi (by simp [Task.token])
    have := (h.answered id hmem).2.2
    omega
  refine ⟨fun t ht => ?_, fun x => Nat.le_trans (hle x) (h.tokens x), h.used, h.ownUsed,
    h.waitingUsed, h.waiting, fun x hx => ?_, ?_, fun x hx => ?_⟩
  · exact (h.fits t (List.mem_of_mem_eraseIdx ht)).congr (fun _ _ hmem => hmem)
      (fun _ _ => Iff.rfl) (List.Subset.refl _) (List.Subset.refl _)
  · simp only [List.map_append, List.map_cons, List.map_nil, List.mem_append,
      List.mem_singleton] at hx
    obtain hx | rfl := hx
    · obtain ⟨hused, hnot, hzero⟩ := h.answered x hx
      exact ⟨hused, hnot, Nat.le_zero.mp (hzero ▸ hle x)⟩
    · exact ⟨hused, hnot, hothers⟩
  · rw [List.map_append, List.map_singleton]
    exact List.nodup_append_comm.mp (List.nodup_cons.mpr ⟨hnew, h.answers⟩)
  · obtain hx | hx := List.mem_append.mp hx
    · exact h.ran x hx
    · obtain ⟨rfl, rfl⟩ := Prod.mk.inj (List.mem_singleton.mp hx)
      exact hran rfl

/-- **Step lemma.** Every step keeps the invariant. -/
theorem Inv.change {s s' : Admission ρ} (h : s.Inv) (hchange : s.Change s') : s'.Inv := by
  cases hchange with
  | request hfresh => exact h.request _ hfresh
  | goOn hi hran hcount hfits => exact h.goOn hi hran hcount hfits
  | tell hnew => exact h.tell hnew
  | remove hi => exact h.remove hi
  | send hi => exact h.send hi

/-- **Main theorem.** Over all interleavings of the proxies, the controller and the routers and
all orders of the notifications: no query is answered twice, an SRH reply is sent only after the
flow became `RUNNING`, and a status that rejects a request of this proxy, or a status `RUNNING`
of its flow, arrives while the reply is in `replies_waiting_controller`. -/
theorem admission_answers (events : List (AdmissionEvent ρ)) (s : Admission ρ)
    (hrun : run init events = some s) :
    (s.answers.map Prod.fst).Nodup ∧
    (∀ id, (id, .srh) ∈ s.answers → id ∈ s.ran) ∧
    (∀ id ∈ s.own, ∀ status, status.rejects = true → .reqUpdated id status ∈ s.tasks →
      id ∈ s.waiting) ∧
    ∀ id ∈ s.own, .flowUpdated id .running true ∈ s.tasks → id ∈ s.waiting := by
  have hstep : ∀ (s : Admission ρ) e s', s.Inv → s.step e = some s' → s'.Inv :=
    fun _ _ _ h hs => h.change (change_of_step hs)
  have h := Transition.run_invariant hstep inv_init hrun
  refine ⟨h.answers, h.ran, fun id hown status hrejects hmem => ?_, fun id hown hmem => ?_⟩
  · exact h.fits _ hmem hrejects hown
  · exact (h.fits _ hmem rfl rfl).2 hown

/-- Of two requests of this proxy and one of another the first is refused and the second is
admitted; its status `ALLOWED` and its new segments arrive after the SRH reply. -/
theorem admission_answers_both :
    ∃ s, run init [.request 1 true, .request 2 true, .request 3 false, .insert 1, .insert 2,
        .insert 2, .receive 2, .commit 0 true, .receive 3, .refuse 0 .denied, .access 1, .running 0,
        .notify 0, .reroute 2, .remove 1, .send 0, .conclude 2, .notify 0, .notify 0, .notify 0,
        .remove 0, .send 0] = some s ∧
      s.answers = [(2, .srh), (1, .reject)] ∧ s.tasks = [.reqInserted 3] ∧
      (s.answers.map Prod.fst).Nodup := by
  have hfacts : (run init [.request 1 true, .request 2 true, .request 3 false, .insert 1, .insert 2,
      .insert 2, .receive 2, .commit 0 true, .receive 3, .refuse 0 .denied, .access 1, .running 0,
      .notify 0, .reroute 2, .remove 1, .send 0, .conclude 2, .notify 0, .notify 0, .notify 0,
      .remove 0, .send 0]).map (fun s => (s.answers, s.tasks)) =
      some ([(2, .srh), (1, .reject)], [.reqInserted 3]) := by
    decide +kernel
  obtain ⟨s, hrun, hs⟩ := Option.map_eq_some_iff.mp hfacts
  obtain ⟨hanswers, htasks⟩ := Prod.mk.inj hs
  exact ⟨s, hrun, hanswers, htasks, (admission_answers _ s hrun).1⟩

end Admission

end Srn
