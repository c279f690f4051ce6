import Mathlib.Data.List.Basic
import Srn.Lib.Transition
import Srn.Monitor

/-!
# Srn.Transaction

One worker of `lib/srdb.c`: `transaction_worker` takes transactions from a queue, sends one
request at a time over its own connection to the database server, and hands the result to the
submitter through the result buffer of the transaction.  It sleeps in `poll` until the server
has sent something or a submitter has written to its event descriptor.

The model is the loop with every exit.  Its environment is arbitrary: what the queue returns,
when the server sends echo requests and results, how many of the messages that have arrived one
`recv` returns, and which system calls fail.  The fields below `inbox` are history.

`recv_transaction_result` parses the first message of what it received and drops the rest;
`trWorker_answers_iff` states the consequence.  No exit of the loop tells the submitter of the
transaction in hand that there will be no result; `trWorker_settles_iff` states when that
matters.
-/

namespace Srn

variable {loadb : List UInt8 → Option (Json × ℕ)} {τ : Type}

/-! ## Messages -/

/-- A complete message of the server, which the parser reads whatever follows it: an echo
request, or the result of the request of a transaction. -/
structure DbMessage (loadb : List UInt8 → Option (Json × ℕ)) (τ : Type) where
  text : List UInt8
  value : Json
  origin : Option τ
  complete : ∀ rest, loadb (text ++ rest) = some (value, text.length)
  nonempty : text ≠ []
  echo : origin = none → value.isEcho = true
  result : ∀ t, origin = some t →
    value.objectGet "method" = none ∧ ∃ error, value.objectGet "error" = some error

/-- The bytes of a list of messages. -/
def bytesOf (msgs : List (DbMessage loadb τ)) : List UInt8 := (msgs.map DbMessage.text).flatten

/-- `recv_transaction_result`, on the bytes that `recv` returned; `none` for `NULL`. -/
def recvTransactionResult (loadb : List UInt8 → Option (Json × ℕ)) (chunk : List UInt8) :
    Option Json :=
  if chunk = [] then none else (loadb chunk).map Prod.fst

/-- What `fetch_transaction_result` does with a message: nothing, an echo reply, or its value is
returned. -/
inductive Fetched where
  | nothing
  | echoReply
  | result (json : Json)

/-- `fetch_transaction_result`. -/
def fetchTransactionResult (loadb : List UInt8 → Option (Json × ℕ)) (chunk : List UInt8) :
    Fetched :=
  match recvTransactionResult loadb chunk with
  | none => .nothing
  | some json =>
    if json.isEcho then .echoReply
    else
      match json.objectGet "method", json.objectGet "error" with
      | none, some _ => .result json
      | _, _ => .nothing

/-- Only the first message of a chunk counts. -/
theorem fetchTransactionResult_cons (m : DbMessage loadb τ) (rest : List (DbMessage loadb τ)) :
    fetchTransactionResult loadb (bytesOf (m :: rest)) =
      if m.origin.isNone then .echoReply else .result m.value := by
  have hne : m.text ++ bytesOf rest ≠ [] := by simp [m.nonempty]
  have hrecv : recvTransactionResult loadb (bytesOf (m :: rest)) = some m.value := by
    show recvTransactionResult loadb (m.text ++ bytesOf rest) = some m.value
    rw [recvTransactionResult, if_neg hne, m.complete]
    rfl
  rw [fetchTransactionResult, hrecv]
  cases horigin : m.origin with
  | none => simp [m.echo horigin]
  | some t =>
    obtain ⟨hmethod, error, herror⟩ := m.result t horigin
    simp [Json.isEcho, hmethod, herror]

/-! ## The loop -/

/-- Where the worker stands: in `poll`, before `fetch_transaction_result` (with the readiness of
the event descriptor), before the read of the event descriptor, before `sbuf_trypop`, before
`send_transaction`, or returned. -/
inductive TrPc where
  | poll
  | fetch (event : Bool)
  | read
  | next
  | send
  | done
  deriving DecidableEq, Repr

/-- The variables of `transaction_worker`, the counter of its event descriptor and its
connection: the transactions whose requests the server has still to answer, and the messages
that have not been received. -/
structure TrWorker (loadb : List UInt8 → Option (Json × ℕ)) (τ : Type) where
  pc : TrPc
  pending : Bool
  tr : Option τ
  event : ℕ
  requests : List τ
  inbox : List (DbMessage loadb τ)
  received : List (DbMessage loadb τ)
  echoed : ℕ
  pushed : List (τ × Json)
  popped : List τ

/-- What happens to a worker: the server sends, a submitter writes to the event descriptor, or
the worker takes its next step with the given outcome.  `recv n` receives `n` messages at
once. -/
inductive TrEvent (loadb : List UInt8 → Option (Json × ℕ)) (τ : Type) where
  | echo (m : DbMessage loadb τ)
  | answer (m : DbMessage loadb τ)
  | wake
  | pollFail
  | pollErr
  | pollReady (data : Bool)
  | recv (n : ℕ)
  | recvFail
  | read (ok : Bool)
  | trypop (res : Option (Option τ))
  | send (ok : Bool)

namespace TrWorker

/-- The worker before its first `poll`. -/
def init : TrWorker loadb τ where
  pc := .poll
  pending := false
  tr := none
  event := 0
  requests := []
  inbox := []
  received := []
  echoed := 0
  pushed := []
  popped := []

/-- Where the worker goes once the event descriptor is dealt with: a new transaction is taken
only if no result is pending. -/
def proceed (s : TrWorker loadb τ) : TrWorker loadb τ :=
  { s with pc := if s.pending then .poll else .next }

/-- Where the worker goes once the socket is dealt with. -/
def resume (s : TrWorker loadb τ) (event : Bool) : TrWorker loadb τ :=
  if event then { s with pc := .read } else s.proceed

/-- The worker with what `fetch_transaction_result` returned; `none` when it follows a null
pointer. -/
def take (s : TrWorker loadb τ) : Fetched → Option (TrWorker loadb τ)
  | .nothing => some s
  | .echoReply => some { s with echoed := s.echoed + 1 }
  | .result json =>
    if s.pending then
      s.tr.map fun t => { s with pushed := s.pushed ++ [(t, json)], pending := false }
    else some s

theorem take_result {s : TrWorker loadb τ} {t : τ} (hpending : s.pending = true)
    (htr : s.tr = some t) (json : Json) :
    s.take (.result json) =
      some { s with pushed := s.pushed ++ [(t, json)], pending := false } := by
  rw [take, if_pos hpending, Option.map_eq_some_iff]
  exact ⟨t, htr, rfl⟩

/-- One step; `none` when it is not the worker's turn or the outcome is impossible. -/
def step [DecidableEq τ] (s : TrWorker loadb τ) : TrEvent loadb τ → Option (TrWorker loadb τ)
  | .echo m => if m.origin.isNone then some { s with inbox := s.inbox ++ [m] } else none
  | .answer m =>
    match m.origin with
    | some t =>
      if t ∈ s.requests then
        some { s with requests := s.requests.erase t, inbox := s.inbox ++ [m] }
      else none
    | none => none
  | .wake => some { s with event := s.event + 1 }
  | .pollFail | .pollErr => if s.pc = .poll then some { s with pc := .done } else none
  | .pollReady data =>
    if s.pc = .poll then
      some (if data then { s with pc := .fetch (0 < s.event) } else s.resume (0 < s.event))
    else none
  | .recv n =>
    match s.pc with
    | .fetch event =>
      if n ≠ 0 ∧ n ≤ s.inbox.length ∧ (bytesOf (s.inbox.take n)).length ≤ jsonBuflen then
        (s.take (fetchTransactionResult loadb (bytesOf (s.inbox.take n)))).map fun t =>
          ({ t with
            inbox := s.inbox.drop n
            received := s.received ++ s.inbox.take n }).resume event
      else none
    | _ => none
  | .recvFail =>
    match s.pc with
    | .fetch event => some (s.resume event)
    | _ => none
  | .read ok =>
    if s.pc = .read then
      some (if ok then { s with event := 0 }.proceed else { s with pc := .done })
    else none
  | .trypop res =>
    if s.pc = .next then
      match res with
      | none => some { s with pc := .poll }
      | some none => some { s with pc := .done, tr := none }
      | some (some t) => some { s with pc := .send, tr := some t, popped := s.popped ++ [t] }
    else none
  | .send ok =>
    match s.pc, s.tr with
    | .send, some t =>
      some (if ok then { s with pc := .poll, pending := true, requests := s.requests ++ [t] }
        else { s with pc := .done })
    | _, _ => none

/-- The state after a sequence of steps. -/
abbrev run [DecidableEq τ] :
    TrWorker loadb τ → List (TrEvent loadb τ) → Option (TrWorker loadb τ) :=
  Transition.run step

/-! ## At most one request -/

/-- The transactions whose request is out and whose result has not been received. -/
def outstanding (s : TrWorker loadb τ) : List τ :=
  s.requests ++ s.inbox.filterMap DbMessage.origin

/-- A request is out only for the transaction in hand, while its result is pending. -/
structure Wf (s : TrWorker loadb τ) : Prop where
  single : s.outstanding = [] ∨ s.pending = true ∧ s.outstanding = s.tr.toList
  inHand : s.pending = true → s.tr.isSome = true
  atNext : s.pc = .next → s.pending = false
  atSend : s.pc = .send → s.pending = false ∧ s.tr.isSome = true

theorem wf_init : (init : TrWorker loadb τ).Wf where
  single := .inl rfl
  inHand := by simp [init]
  atNext := by simp [init]
  atSend := by simp [init]

/-- The places where the worker can be once it has dealt with the socket, or with both
descriptors. -/
def Onward (pending : Bool) (pc : TrPc) : Prop :=
  (∃ event, pc = .fetch event) ∨ pc = .read ∨ pc = if pending then .poll else .next

theorem Onward.ne {pending : Bool} {pc : TrPc} (h : Onward pending pc) :
    pc ≠ .send ∧ pc ≠ .done ∧ (pc = .next → pending = false) ∧ (pc = .poll → pending = true) := by
  obtain ⟨event, rfl⟩ | rfl | rfl := h
  · simp
  · simp
  · cases pending <;> simp

theorem onward_proceed (s : TrWorker loadb τ) :
    ∃ pc, s.proceed = { s with pc } ∧ Onward s.pending pc :=
  ⟨_, rfl, .inr (.inr rfl)⟩

theorem onward_resume (s : TrWorker loadb τ) (event : Bool) :
    ∃ pc, s.resume event = { s with pc } ∧ Onward s.pending pc := by
  cases event with
  | true => exact ⟨_, rfl, .inr (.inl rfl)⟩
  | false => exact s.onward_proceed

/-- What a step can do, with its guard. -/
inductive Change [DecidableEq τ] (s : TrWorker loadb τ) :
    TrEvent loadb τ → TrWorker loadb τ → Prop
  | echo {m} : m.origin = none → Change s (.echo m) { s with inbox := s.inbox ++ [m] }
  | answer {m t} : m.origin = some t → t ∈ s.requests →
      Change s (.answer m) { s with requests := s.requests.erase t, inbox := s.inbox ++ [m] }
  | wake : Change s .wake { s with event := s.event + 1 }
  | pollFail : s.pc = .poll → Change s .pollFail { s with pc := .done }
  | pollErr : s.pc = .poll → Change s .pollErr { s with pc := .done }
  | pollReady {data pc} : s.pc = .poll → Onward s.pending pc →
      Change s (.pollReady data) { s with pc }
  | recvEcho {n event pc first rest} : s.pc = .fetch event → s.inbox.take n = first :: rest →
      n ≤ s.inbox.length → first.origin = none → Onward s.pending pc →
      Change s (.recv n) { s with
        pc, echoed := s.echoed + 1, inbox := s.inbox.drop n,
        received := s.received ++ s.inbox.take n }
  | recvResult {n event pc first rest t} : s.pc = .fetch event → s.inbox.take n = first :: rest →
      n ≤ s.inbox.length → first.origin = some t → s.pending = true → s.tr = some t →
      Onward false pc →
      Change s (.recv n) { s with
        pc, pending := false, pushed := s.pushed ++ [(t, first.value)], inbox := s.inbox.drop n
        received := s.received ++ s.inbox.take n }
  | recvFail {event pc} : s.pc = .fetch event → Onward s.pending pc →
      Change s .recvFail { s with pc }
  | readOk {pc} : s.pc = .read → Onward s.pending pc →
      Change s (.read true) { s with pc, event := 0 }
  | readFail : s.pc = .read → Change s (.read false) { s with pc := .done }
  | empty : s.pc = .next → Change s (.trypop none) { s with pc := .poll }
  | quit : s.pc = .next → Change s (.trypop (some none)) { s with pc := .done, tr := none }
  | pop {t} : s.pc = .next → Change s (.trypop (some (some t)))
      { s with pc := .send, tr := some t, popped := s.popped ++ [t] }
  | sent {t} : s.pc = .send → s.tr = some t → Change s (.send true)
      { s with pc := .poll, pending := true, requests := s.requests ++ [t] }
  | sendFail : s.pc = .send → Change s (.send false) { s with pc := .done }

/-- A result among the messages that have arrived is that of the transaction in hand. -/
theorem Wf.tr_of_mem_inbox {s : TrWorker loadb τ} (hwf : s.Wf) {m : DbMessage loadb τ} {t : τ}
    (hm : m ∈ s.inbox) (ht : m.origin = some t) : s.pending = true ∧ s.tr = some t := by
  have hmem : t ∈ s.outstanding :=
    List.mem_append_right _ (List.mem_filterMap.mpr ⟨m, hm, ht⟩)
  obtain hnil | ⟨hpending, heq⟩ := hwf.single
  · simp [hnil] at hmem
  · rw [heq] at hmem
    exact ⟨hpending, Option.mem_toList.mp hmem⟩

/-- A `recv` deals with the first message of the chunk. -/
theorem Wf.change_recv [DecidableEq τ] {s s' : TrWorker loadb τ} {n : ℕ} (hwf : s.Wf)
    (h : s.step (.recv n) = some s') : s.Change (.recv n) s' := by
  simp only [step] at h
  split at h
  · next event hpc =>
    split at h
    · next hn =>
      obtain ⟨first, rest, htake⟩ : ∃ first rest, s.inbox.take n = first :: rest := by
        refine List.exists_cons_of_ne_nil fun hnil => ?_
        have := congrArg List.length hnil
        simp only [List.length_take, List.length_nil] at this
        omega
      have hfirst : first ∈ s.inbox := List.mem_of_mem_take (htake ▸ List.mem_cons_self)
      obtain ⟨t, ht, hs'⟩ := Option.map_eq_some_iff.mp h
      rw [htake, fetchTransactionResult_cons] at ht
      obtain ⟨pc, hresume, honward⟩ := onward_resume
        { t with inbox := s.inbox.drop n, received := s.received ++ s.inbox.take n } event
      rw [hresume] at hs'
      cases horigin : first.origin with
      | none =>
        simp only [horigin, Option.isNone_none, if_true, take, Option.some.injEq] at ht
        subst ht hs'
        exact .recvEcho hpc htake hn.2.1 horigin honward
      | some t₀ =>
        obtain ⟨hpending, htr⟩ := hwf.tr_of_mem_inbox hfirst horigin
        simp only [horigin, Option.isNone_some, Bool.false_eq_true, if_false,
          take_result hpending htr, Option.some.injEq] at ht
        subst ht hs'
        exact .recvResult hpc htake hn.2.1 horigin hpending htr honward
    · contradiction
  · contradiction

theorem Wf.change_of_step [DecidableEq τ] {s s' : TrWorker loadb τ} {e : TrEvent loadb τ}
    (hwf : s.Wf) (h : s.step e = some s') : s.Change e s' := by
  cases e with
  | echo m =>
    simp only [step, Option.isNone_iff_eq_none] at h
    split at h
    · next horigin => exact Option.some.inj h ▸ .echo horigin
    · contradiction
  | answer m =>
    simp only [step] at h
    split at h
    · next t horigin =>
      split at h
      · next hmem => exact Option.some.inj h ▸ .answer horigin hmem
      · contradiction
    · contradiction
  | wake => exact Option.some.inj h ▸ .wake
  | pollFail =>
    simp only [step] at h
    split at h
    · next hpc => exact Option.some.inj h ▸ .pollFail hpc
    · contradiction
  | pollErr =>
    simp only [step] at h
    split at h
    · next hpc => exact Option.some.inj h ▸ .pollErr hpc
    · contradiction
  | pollReady data =>
    simp only [step] at h
    split at h
    · next hpc =>
      cases data with
      | true => exact Option.some.inj h ▸ .pollReady hpc (.inl ⟨_, rfl⟩)
      | false =>
        obtain ⟨pc, hresume, honward⟩ := s.onward_resume (0 < s.event)
        simp only [Bool.false_eq_true, if_false, hresume] at h
        exact Option.some.inj h ▸ .pollReady hpc honward
    · contradiction
  | recv n => exact hwf.change_recv h
  | recvFail =>
    simp only [step] at h
    split at h
    · next event hpc =>
      obtain ⟨pc, hresume, honward⟩ := s.onward_resume event
      rw [hresume] at h
      exact Option.some.inj h ▸ .recvFail hpc honward
    · contradiction
  | read ok =>
    simp only [step] at h
    split at h
    · next hpc =>
      cases ok with
      | true =>
        obtain ⟨pc, hproceed, honward⟩ := onward_proceed { s with event := 0 }
        simp only [if_true, hproceed] at h
        exact Option.some.inj h ▸ .readOk hpc honward
      | false => exact Option.some.inj h ▸ .readFail hpc
    · contradiction
  | trypop res =>
    simp only [step] at h
    split at h
    · next hpc =>
      match res with
      | none => exact Option.some.inj h ▸ .empty hpc
      | some none => exact Option.some.inj h ▸ .quit hpc
      | some (some t) => exact Option.some.inj h ▸ .pop hpc
    · contradiction
  | send ok =>
    simp only [step] at h
    split at h
    · next t hpc htr =>
      cases ok with
      | true => exact Option.some.inj h ▸ .sent hpc htr
      | false => exact Option.some.inj h ▸ .sendFail hpc
    · contradiction

/-- What is outstanding has at most one element. -/
theorem Wf.length_outstanding_le {s : TrWorker loadb τ} (hwf : s.Wf) :
    s.outstanding.length ≤ 1 := by
  obtain hnil | ⟨-, heq⟩ := hwf.single
  · simp [hnil]
  · rw [heq]
    cases s.tr <;> simp

/-- Once the result of the transaction in hand is received, nothing is outstanding. -/
theorem Wf.outstanding_drop {s : TrWorker loadb τ} (hwf : s.Wf) {n : ℕ} {t : τ}
    {first : DbMessage loadb τ} {rest : List (DbMessage loadb τ)}
    (htake : s.inbox.take n = first :: rest) (horigin : first.origin = some t) :
    s.requests ++ (s.inbox.drop n).filterMap DbMessage.origin = [] := by
  have hlength := hwf.length_outstanding_le
  rw [outstanding, ← List.take_append_drop n s.inbox, htake] at hlength
  simp only [List.filterMap_append, List.filterMap_cons, horigin, List.length_append,
    List.length_cons] at hlength
  rw [← List.length_eq_zero_iff, List.length_append]
  omega

/-- **Step lemma.** A request is out only for the transaction in hand. -/
theorem Wf.change [DecidableEq τ] {s s' : TrWorker loadb τ} {e : TrEvent loadb τ} (hwf : s.Wf)
    (h : s.Change e s') : s'.Wf := by
  obtain ⟨hout, hpending, hnext, hsend⟩ := id hwf
  cases h with
  | @echo m horigin =>
    refine ⟨?_, hpending, hnext, hsend⟩
    simpa [outstanding, horigin] using hout
  | @answer m t horigin hmem =>
    refine ⟨?_, hpending, hnext, hsend⟩
    obtain hnil | ⟨hp, heq⟩ := hout
    · rw [outstanding, List.append_eq_nil_iff] at hnil
      simp [hnil.1] at hmem
    · obtain ⟨t', ht'⟩ := Option.isSome_iff_exists.mp (hpending hp)
      rw [ht', outstanding, Option.toList_some, List.append_eq_singleton_iff] at heq
      obtain ⟨hreq, -⟩ | ⟨hreq, hinbox⟩ := heq
      · simp [hreq] at hmem
      · obtain rfl : t = t' := by simpa [hreq] using hmem
        exact .inr ⟨hp, by simp [outstanding, hreq, hinbox, horigin, ht']⟩
  | wake => exact ⟨hout, hpending, hnext, hsend⟩
  | pollFail | pollErr | readFail | sendFail => exact ⟨hout, hpending, by simp, by simp⟩
  | pollReady _ honward | recvFail _ honward | readOk _ honward =>
    obtain ⟨hns, -, hn, -⟩ := honward.ne
    exact ⟨hout, hpending, hn, fun h => absurd h hns⟩
  | @recvEcho n event pc first rest hpc htake hle horigin honward =>
    obtain ⟨hns, -, hn, -⟩ := honward.ne
    refine ⟨?_, hpending, hn, fun h => absurd h hns⟩
    have hsub : (s.requests ++ (s.inbox.drop n).filterMap DbMessage.origin).Sublist
        s.outstanding := (List.Sublist.refl _).append ((List.drop_sublist _ _).filterMap _)
    obtain hnil | ⟨hp, heq⟩ := hout
    · rw [hnil] at hsub
      exact .inl (List.sublist_nil.mp hsub)
    · obtain ⟨t, ht⟩ := Option.isSome_iff_exists.mp (hpending hp)
      rw [heq, ht, Option.toList_some, List.sublist_singleton] at hsub
      exact hsub.imp_right fun h => ⟨hp, by rw [outstanding, h, ht]; rfl⟩
  | @recvResult n event pc first rest t hpc htake hle horigin hp htr honward =>
    obtain ⟨hns, -⟩ := honward.ne
    exact ⟨.inl (hwf.outstanding_drop htake horigin), by simp, fun _ => rfl,
      fun h => absurd h hns⟩
  | empty => exact ⟨hout, hpending, by simp, by simp⟩
  | quit hpc =>
    have hp := hnext hpc
    exact ⟨hout.imp_right (by simp [hp]), by simp [hp], by simp, by simp⟩
  | pop hpc =>
    have hp := hnext hpc
    exact ⟨hout.imp_right (by simp [hp]), by simp, by simp, by simp [hp]⟩
  | @sent t hpc htr =>
    have hp := (hsend hpc).1
    have hnil : s.outstanding = [] := hout.resolve_right (by simp [hp])
    rw [outstanding, List.append_eq_nil_iff] at hnil
    refine ⟨.inr ⟨rfl, ?_⟩, by simp [htr], by simp, by simp⟩
    simp [outstanding, hnil.1, hnil.2, htr]

theorem wf_of_run [DecidableEq τ] {s s' : TrWorker loadb τ} {events : List (TrEvent loadb τ)}
    (hwf : s.Wf) (hrun : s.run events = some s') : s'.Wf := by
  have hstep : ∀ (s : TrWorker loadb τ) e s', s.Wf → s.step e = some s' → s'.Wf :=
    fun _ _ _ hwf h => hwf.change (hwf.change_of_step h)
  exact Transition.run_invariant hstep hwf hrun

/-! ## Every message of a chunk -/

/-- The echo requests among some messages. -/
def echoes (msgs : List (DbMessage loadb τ)) : ℕ := msgs.countP fun m => m.origin.isNone

/-- The results among some messages, each with the transaction it is for. -/
def results (msgs : List (DbMessage loadb τ)) : List (τ × Json) :=
  msgs.filterMap fun m => m.origin.map fun t => (t, m.value)

/-- Every echo request received has been answered, and every result received has been pushed to
the result buffer of its transaction. -/
def Answered (s : TrWorker loadb τ) : Prop :=
  s.echoed = echoes s.received ∧ s.pushed = results s.received

theorem echoes_add_length_results (msgs : List (DbMessage loadb τ)) :
    echoes msgs + (results msgs).length = msgs.length := by
  induction msgs with
  | nil => rfl
  | cons m msgs ih =>
    cases horigin : m.origin <;> simp [echoes, results, horigin] at ih ⊢ <;> omega

/-- How many messages the worker has dealt with. -/
def handled (s : TrWorker loadb τ) : ℕ := s.echoed + s.pushed.length

/-- A step other than a `recv` neither receives nor deals with a message; a `recv` of `n`
messages deals with one. -/
theorem Change.handled [DecidableEq τ] {s s' : TrWorker loadb τ} {e : TrEvent loadb τ}
    (h : s.Change e s') :
    (∃ n, e = .recv n ∧ n ≠ 0 ∧ s'.received.length = s.received.length + n ∧
      s'.handled = s.handled + 1) ∨
    (∀ n, e ≠ .recv n) ∧ s'.received = s.received ∧ s'.echoed = s.echoed ∧
      s'.pushed = s.pushed := by
  cases h with
  | @recvEcho n _ _ _ _ _ htake hle =>
    have hne : n ≠ 0 := by
      rintro rfl
      simp at htake
    exact .inl ⟨n, rfl, hne, by simp [hle], by simp [TrWorker.handled]; omega⟩
  | @recvResult n _ _ _ _ _ _ htake hle =>
    have hne : n ≠ 0 := by
      rintro rfl
      simp at htake
    exact .inl ⟨n, rfl, hne, by simp [hle], by simp [TrWorker.handled]; omega⟩
  | _ => exact .inr ⟨by simp, rfl, rfl, rfl⟩

/-- **Run lemma.** The messages received and not dealt with are those that stood behind another
one in their chunk. -/
theorem exists_lost [DecidableEq τ] {s s' : TrWorker loadb τ} {events : List (TrEvent loadb τ)}
    (hwf : s.Wf) (hrun : s.run events = some s') :
    ∃ lost, s'.received.length + s.handled = s.received.length + s'.handled + lost ∧
      (lost = 0 ↔ ∀ n, TrEvent.recv n ∈ events → n = 1) := by
  induction events generalizing s with
  | nil =>
    obtain rfl := Option.some.inj hrun
    exact ⟨0, by omega, by simp⟩
  | cons e events ih =>
    rw [run, Transition.run_cons, Option.bind_eq_some_iff] at hrun
    obtain ⟨t, ht, hrest⟩ := hrun
    have hchange := hwf.change_of_step ht
    obtain ⟨lost, hlost, hiff⟩ := ih (hwf.change hchange) hrest
    obtain ⟨n, rfl, hn, hreceived, hhandled⟩ | ⟨hne, hreceived, hechoed, hpushed⟩ :=
      hchange.handled
    · refine ⟨lost + (n - 1), by omega, ?_⟩
      simp only [List.mem_cons, TrEvent.recv.injEq]
      constructor
      · rintro h m (rfl | hm)
        · omega
        · exact hiff.mp (by omega) m hm
      · intro h
        have := hiff.mpr fun m hm => h m (.inr hm)
        have := h n (.inl rfl)
        omega
    · have hhandled : t.handled = s.handled := by rw [handled, handled, hechoed, hpushed]
      refine ⟨lost, by rw [← hreceived, ← hhandled, hlost], ?_⟩
      simp only [List.mem_cons, (hne _).symm, false_or]
      exact hiff

/-- **Step lemma.** A chunk of one message leaves nothing unanswered. -/
theorem Answered.change [DecidableEq τ] {s s' : TrWorker loadb τ} {e : TrEvent loadb τ}
    (hs : s.Answered) (h : s.Change e s') (hone : ∀ n, e = .recv n → n = 1) : s'.Answered := by
  obtain ⟨hechoed, hpushed⟩ := hs
  have hsingle : ∀ first rest, s.inbox.take 1 = first :: rest → s.inbox.take 1 = [first] := by
    intro first rest htake
    cases hinbox : s.inbox <;> simp [hinbox] at htake ⊢
    exact htake.1
  cases h with
  | @recvEcho n _ _ first rest _ htake _ horigin =>
    obtain rfl := hone n rfl
    have hone := hsingle first rest htake
    constructor
    · simp [hone, echoes, horigin, hechoed]
    · simp [hone, results, horigin, hpushed]
  | @recvResult n _ _ first rest t _ htake _ horigin =>
    obtain rfl := hone n rfl
    have hone := hsingle first rest htake
    constructor
    · simp [hone, echoes, horigin, hechoed]
    · simp [hone, results, horigin, hpushed]
  | _ => exact ⟨hechoed, hpushed⟩

/-- **Main theorem.** In every run of the worker, whatever the server sends and however its
messages are grouped into chunks: every echo request received has been answered and every result
received has been pushed to the buffer of its transaction if and only if each chunk was a single
message. -/
theorem trWorker_answers_iff [DecidableEq τ] (events : List (TrEvent loadb τ))
    (s : TrWorker loadb τ) (hrun : init.run events = some s) :
    s.Answered ↔ ∀ n, TrEvent.recv n ∈ events → n = 1 := by
  obtain ⟨lost, hlost, hiff⟩ := exists_lost wf_init hrun
  constructor
  · rintro ⟨hechoed, hpushed⟩
    have hall := echoes_add_length_results s.received
    rw [← hechoed, ← hpushed] at hall
    refine hiff.mp ?_
    simp only [handled, init, List.length_nil] at hlost
    omega
  · intro hone
    have hstep : ∀ (s : TrWorker loadb τ) e s', s.Wf ∧ s.Answered → (∀ n, e = .recv n → n = 1) →
        s.step e = some s' → s'.Wf ∧ s'.Answered := by
      rintro s e s' ⟨hwf, hs⟩ he h
      have hchange := hwf.change_of_step h
      exact ⟨hwf.change hchange, hs.change hchange he⟩
    have hevents : ∀ e ∈ events, ∀ n, e = .recv n → n = 1 := fun e he n hn => hone n (hn ▸ he)
    have halong : Transition.Along step (fun _ e => ∀ n, e = .recv n → n = 1)
        (init : TrWorker loadb τ) events := Transition.along_of_forall hevents _
    exact (Transition.run_invariant_along hstep ⟨wf_init, rfl, rfl⟩ halong hrun).2

/-- A parser of two texts. -/
def twoTexts : List UInt8 → Option (Json × ℕ)
  | 0x7b :: 0x65 :: 0x7d :: _ =>
    some (.object [("method", .string "echo"), ("params", .array []), ("id", .string "echo")], 3)
  | 0x7b :: 0x72 :: 0x7d :: _ =>
    some (.object [("id", .integer 1), ("error", .null), ("result", .array [])], 3)
  | _ => none

/-- An echo request. -/
def echoMsg : DbMessage twoTexts ℕ where
  text := [0x7b, 0x65, 0x7d]
  value := .object [("method", .string "echo"), ("params", .array []), ("id", .string "echo")]
  origin := none
  complete _ := rfl
  nonempty := by simp
  echo _ := by decide
  result := by simp

/-- The result of the request of a transaction. -/
def resultMsg (t : ℕ) : DbMessage twoTexts ℕ where
  text := [0x7b, 0x72, 0x7d]
  value := .object [("id", .integer 1), ("error", .null), ("result", .array [])]
  origin := some t
  complete _ := rfl
  nonempty := by simp
  echo := by simp
  result _ _ := ⟨rfl, .null, rfl⟩

/-- The steps up to a request for transaction `t`. -/
def sendOne (t : ℕ) : List (TrEvent twoTexts ℕ) :=
  [.wake, .pollReady false, .read true, .trypop (some (some t)), .send true]

/-- An echo request and the result arrive in one chunk: the result is lost and the worker waits
for it with nothing outstanding. -/
theorem trWorker_loses_result :
    ∃ s, init.run (sendOne 7 ++ [.echo echoMsg, .answer (resultMsg 7), .pollReady true, .recv 2]) =
        some s ∧ s.outstanding = [] ∧ s.pending = true ∧ s.echoed = 1 ∧ s.pushed = [] ∧
      ¬ s.Answered := by
  refine ⟨_, rfl, rfl, rfl, rfl, rfl, ?_⟩
  rintro ⟨-, hpushed⟩
  exact absurd (congrArg List.length hpushed) (by decide)

/-- The same messages in two chunks. -/
theorem trWorker_answers_two_chunks :
    ∃ s, init.run (sendOne 7 ++ [.echo echoMsg, .answer (resultMsg 7), .pollReady true, .recv 1,
        .pollReady true, .recv 1]) = some s ∧ s.Answered := by
  obtain ⟨s, hrun⟩ : ∃ s, init.run (sendOne 7 ++ [.echo echoMsg, .answer (resultMsg 7),
      .pollReady true, .recv 1, .pollReady true, .recv 1]) = some s := ⟨_, rfl⟩
  exact ⟨s, hrun, (trWorker_answers_iff _ s hrun).mpr (by simp [sendOne])⟩

/-! ## Every exit -/

/-- The transactions popped are those with a value in their result buffer and, while the worker
lives, the one in hand. -/
def Settles (s : TrWorker loadb τ) : Prop :=
  s.popped = s.pushed.map Prod.fst ++ if s.pending ∨ s.pc = .send then s.tr.toList else []

/-- **Step lemma.** As long as the worker lives, only the transaction in hand has no value. -/
theorem Settles.change [DecidableEq τ] {s s' : TrWorker loadb τ} {e : TrEvent loadb τ}
    (hs : s.Settles) (hwf : s.Wf) (h : s.Change e s') (hlive : s'.pc ≠ .done) : s'.Settles := by
  unfold Settles at hs ⊢
  cases h with
  | echo | answer | wake => exact hs
  | pollFail | pollErr | readFail | sendFail | quit => exact absurd rfl hlive
  | pollReady hpc honward | recvFail hpc honward | readOk hpc honward
  | recvEcho hpc _ _ _ honward =>
    simpa [hpc, honward.ne.1] using hs
  | recvResult hpc _ _ _ hp htr honward => simpa [hpc, honward.ne.1, hp, htr] using hs
  | empty hpc => simpa [hpc] using hs
  | pop hpc => simpa [hpc, hwf.atNext hpc] using hs
  | sent hpc htr => simpa [hpc] using hs

/-- **Step lemma.** Nothing is popped or pushed once the worker has returned. -/
theorem Change.of_done [DecidableEq τ] {s s' : TrWorker loadb τ} {e : TrEvent loadb τ}
    (h : s.Change e s') (hdone : s.pc = .done) :
    s'.pc = .done ∧ s'.popped = s.popped ∧ s'.pushed = s.pushed := by
  cases h with
  | echo | answer | wake => exact ⟨hdone, rfl, rfl⟩
  | pollFail hpc | pollErr hpc | pollReady hpc | recvEcho hpc | recvResult hpc | recvFail hpc
  | readOk hpc | readFail hpc | empty hpc | quit hpc | pop hpc | sent hpc | sendFail hpc =>
    rw [hdone] at hpc
    contradiction

theorem run_of_done [DecidableEq τ] {s s' : TrWorker loadb τ} {events : List (TrEvent loadb τ)}
    (hwf : s.Wf) (hdone : s.pc = .done) (hrun : s.run events = some s') :
    s'.popped = s.popped ∧ s'.pushed = s.pushed := by
  have hstep : ∀ (t : TrWorker loadb τ) e t',
      t.Wf ∧ t.pc = .done ∧ t.popped = s.popped ∧ t.pushed = s.pushed → t.step e = some t' →
      t'.Wf ∧ t'.pc = .done ∧ t'.popped = s.popped ∧ t'.pushed = s.pushed := by
    rintro t e t' ⟨hwf, hdone, hpopped, hpushed⟩ h
    have hchange := hwf.change_of_step h
    obtain ⟨hdone', hpopped', hpushed'⟩ := hchange.of_done hdone
    exact ⟨hwf.change hchange, hdone', hpopped'.trans hpopped, hpushed'.trans hpushed⟩
  exact (Transition.run_invariant hstep ⟨hwf, hdone, rfl, rfl⟩ hrun).2.2

/-- **Step lemma.** The step with which the worker returns pops and pushes nothing; the
transaction in hand is one that failed to be sent or one whose result is pending. -/
theorem Settles.exit [DecidableEq τ] {s s' : TrWorker loadb τ} {e : TrEvent loadb τ}
    (hs : s.Settles) (hwf : s.Wf) (h : s.Change e s') (hlive : s.pc ≠ .done)
    (hdone : s'.pc = .done) :
    s'.pushed.map Prod.fst = s'.popped ↔ s.pending = false ∧ e ≠ .send false := by
  have hpending : s.pc ≠ .send → (s.pushed.map Prod.fst = s.popped ↔ s.pending = false) := by
    intro hpc
    cases hp : s.pending
    · simp [Settles, hp, hpc] at hs
      simp [hs]
    · obtain ⟨t, ht⟩ := Option.isSome_iff_exists.mp (hwf.inHand hp)
      simp [Settles, hp, ht] at hs
      simp [hs]
  cases h with
  | echo | answer | wake => exact absurd hdone hlive
  | pollReady _ honward | recvFail _ honward | readOk _ honward | recvEcho _ _ _ _ honward
  | recvResult _ _ _ _ _ _ honward => exact absurd hdone honward.ne.2.1
  | empty | pop | sent => contradiction
  | pollFail hpc | pollErr hpc | readFail hpc | quit hpc => simpa [hpc] using hpending
  | sendFail hpc =>
    obtain ⟨t, ht⟩ := Option.isSome_iff_exists.mp (hwf.atSend hpc).2
    simp [Settles, hpc, ht] at hs
    simp [hs]

theorem settles_of_run [DecidableEq τ] {s : TrWorker loadb τ} {events : List (TrEvent loadb τ)}
    (hrun : init.run events = some s) (hlive : s.pc ≠ .done) : s.Settles := by
  have hstep : ∀ (t : TrWorker loadb τ) e t', t.Wf ∧ (t.pc ≠ .done → t.Settles) →
      t.step e = some t' → t'.Wf ∧ (t'.pc ≠ .done → t'.Settles) := by
    rintro t e t' ⟨hwf, hs⟩ h
    have hchange := hwf.change_of_step h
    refine ⟨hwf.change hchange, fun hlive' => (hs fun hdone => ?_).change hwf hchange hlive'⟩
    exact hlive' (hchange.of_done hdone).1
  exact (Transition.run_invariant hstep ⟨wf_init, fun _ => rfl⟩ hrun).2 hlive

/-- **Main theorem.** Wherever a run of the worker ends: from then on every transaction popped
has exactly one value in its result buffer if and only if the step with which the worker
returned was no failed send and no result was pending. -/
theorem trWorker_settles_iff [DecidableEq τ] (pre post : List (TrEvent loadb τ))
    (e : TrEvent loadb τ) (s t s' : TrWorker loadb τ) (hpre : init.run pre = some s)
    (hlive : s.pc ≠ .done) (hstep : s.step e = some t) (hdone : t.pc = .done)
    (hpost : t.run post = some s') :
    s'.pushed.map Prod.fst = s'.popped ↔ s.pending = false ∧ e ≠ .send false := by
  have hwf := wf_of_run wf_init hpre
  have hchange := hwf.change_of_step hstep
  obtain ⟨hpopped, hpushed⟩ := run_of_done (hwf.change hchange) hdone hpost
  rw [hpopped, hpushed]
  exact (settles_of_run hpre hlive).exit hwf hchange hlive hdone

/-- A transaction is popped and its request cannot be sent: the worker returns and the submitter
waits for a value that nobody pushes. -/
theorem trWorker_forgets_transaction :
    ∃ s : TrWorker twoTexts ℕ,
      init.run [.wake, .pollReady false, .read true, .trypop (some (some 7)), .send false] =
        some s ∧ s.pc = .done ∧ s.popped = [7] ∧ s.pushed = [] :=
  ⟨_, rfl, rfl, rfl, rfl⟩

/-- The worker returns on the null transaction that `srdb_destroy` pushes, after one result. -/
theorem trWorker_settles_quit :
    ∃ s s' : TrWorker twoTexts ℕ, init.run (sendOne 7 ++ [.answer (resultMsg 7), .pollReady true,
        .recv 1]) = some s ∧ s.step (.trypop (some none)) = some s' ∧
      s'.pushed.map Prod.fst = s'.popped := by
  obtain ⟨s, hrun, hpc, hpending⟩ : ∃ s : TrWorker twoTexts ℕ,
      init.run (sendOne 7 ++ [.answer (resultMsg 7), .pollReady true, .recv 1]) = some s ∧
        s.pc = .next ∧ s.pending = false := ⟨_, rfl, rfl, rfl⟩
  have hstep : s.step (.trypop (some none)) = some { s with pc := .done, tr := none } := by
    simp [step, hpc]
  exact ⟨s, _, hrun, hstep,
    (trWorker_settles_iff _ [] _ s _ _ hrun (by simp [hpc]) hstep rfl rfl).mpr ⟨hpending, by simp⟩⟩

end TrWorker

end Srn
