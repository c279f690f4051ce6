import Srn.Transaction

/-!
# Srn.Transaction.Wakeup

The workers of `lib/srdb.c` together with the threads that submit transactions.  A submitter
pushes its transaction to the shared queue and then writes to the event descriptor of every
worker, one after the other (`wakeup_tr_workers`); `srdb_destroy` pushes one null pointer per
worker before it does the same.  The steps of all threads interleave freely.

A worker resets its event counter by a read that is separate from its `sbuf_trypop`, and reads
it also while it cannot take a transaction.  No wake-up is lost: `trSystem_wakeup`.
-/

namespace Srn

variable {loadb : List UInt8 → Option (Json × ℕ)} {τ : Type}

/-! ## One worker whose chunks are single messages -/

namespace TrWorker

/-- While a result is pending, its request is out or the result has arrived. -/
def Exact (s : TrWorker loadb τ) : Prop := s.pending = true → s.outstanding ≠ []

/-- **Step lemma.** A chunk of one message takes away what is outstanding only if it is the
result. -/
theorem Exact.change [DecidableEq τ] {s s' : TrWorker loadb τ} {e : TrEvent loadb τ}
    (hs : s.Exact) (h : s.Change e s') (hone : ∀ n, e = .recv n → n = 1) : s'.Exact := by
  intro hpending
  cases h with
  | @echo m horigin => simpa [outstanding, horigin] using hs hpending
  | @answer m t horigin => simp [outstanding, horigin]
  | wake | pollFail | pollErr | pollReady | recvFail | readOk | readFail | empty | quit | pop
  | sendFail => exact hs hpending
  | @recvEcho n _ _ first rest _ htake _ horigin =>
    obtain rfl := hone n rfl
    have hout := hs hpending
    rw [outstanding, ← List.take_append_drop 1 s.inbox, htake] at hout
    cases hinbox : s.inbox with
    | nil => simp [hinbox] at htake
    | cons m inbox =>
      simp only [hinbox, List.take_succ_cons, List.take_zero, List.cons.injEq] at htake
      obtain ⟨rfl, rfl⟩ := htake
      simpa [outstanding, hinbox, horigin] using hout
  | recvResult => simp at hpending
  | sent => simp [outstanding]

/-- A worker comes to an idle `poll` only through a failed `sbuf_trypop`. -/
theorem Change.of_idle [DecidableEq τ] {s s' : TrWorker loadb τ} {e : TrEvent loadb τ}
    (h : s.Change e s') (hpc : s'.pc = .poll) (hpending : s'.pending = false) (he : e ≠ .wake) :
    e = .trypop none ∨ s.pc = .poll ∧ s.pending = false ∧ s'.event = s.event := by
  cases h with
  | echo | answer => exact .inr ⟨hpc, hpending, rfl⟩
  | wake => exact absurd rfl he
  | pollReady _ honward | recvFail _ honward | readOk _ honward | recvEcho _ _ _ _ honward
  | recvResult _ _ _ _ _ _ honward =>
    have := honward.ne.2.2.2 hpc
    simp_all
  | empty => exact .inl rfl
  | pollFail | pollErr | readFail | quit | pop | sendFail => contradiction
  | sent => contradiction

end TrWorker

/-! ## The threads -/

/-- A thread that submits: what it has still to push, whether it has pushed anything, and the
worker it writes to next. -/
structure TrSubmitter (τ : Type) where
  rest : List (Option τ)
  started : Bool
  next : ℕ

/-- The submitter is between its push and its write to worker `w`. -/
def TrSubmitter.Between (sub : TrSubmitter τ) (w : ℕ) : Prop := sub.started = true ∧ sub.next ≤ w

/-- The shared queue, the workers and the submitters. -/
structure TrSystem (loadb : List UInt8 → Option (Json × ℕ)) (τ : Type) where
  queue : List (Option τ)
  workers : List (TrWorker loadb τ)
  submitters : List (TrSubmitter τ)

/-- One step of some thread, or of the server. -/
inductive TrSysEvent (loadb : List UInt8 → Option (Json × ℕ)) (τ : Type) where
  | submit (transactions : List (Option τ))
  | push (i : ℕ)
  | write (i : ℕ)
  | worker (w : ℕ) (e : TrEvent loadb τ)

namespace TrSystem

/-- `srdb_new`: so many workers, in their first `poll`, and an empty queue. -/
def init (ntransacts : ℕ) : TrSystem loadb τ where
  queue := []
  workers := List.replicate ntransacts .init
  submitters := []

/-- The queue behind a step of a worker: `sbuf_trypop` takes the first element and fails on an
empty queue.  Event descriptors are written by submitters only. -/
def queueAfter [DecidableEq τ] (queue : List (Option τ)) :
    TrEvent loadb τ → Option (List (Option τ))
  | .trypop res => if res = queue.head? then some queue.tail else none
  | .wake => none
  | _ => some queue

/-- One step; `none` when the thread is elsewhere. -/
def step [DecidableEq τ] (s : TrSystem loadb τ) : TrSysEvent loadb τ → Option (TrSystem loadb τ)
  | .submit transactions => some { s with submitters := ⟨transactions, false, 0⟩ :: s.submitters }
  | .push i =>
    match s.submitters[i]? with
    | some ⟨x :: rest, _, next⟩ => some { s with
        queue := s.queue ++ [x]
        submitters := s.submitters.set i ⟨rest, true, next⟩ }
    | _ => none
  | .write i =>
    match s.submitters[i]? with
    | some ⟨[], started, next⟩ =>
      match s.workers[next]? with
      | some wk => (wk.step .wake).map fun wk' =>
        { s with
          workers := s.workers.set next wk'
          submitters := s.submitters.set i ⟨[], started, next + 1⟩ }
      | none => some { s with submitters := s.submitters.eraseIdx i }
    | _ => none
  | .worker w e =>
    match s.workers[w]?, queueAfter s.queue e with
    | some wk, some queue => (wk.step e).map fun wk' =>
      { s with queue, workers := s.workers.set w wk' }
    | _, _ => none

/-- The state after a sequence of steps. -/
abbrev run [DecidableEq τ] :
    TrSystem loadb τ → List (TrSysEvent loadb τ) → Option (TrSystem loadb τ) :=
  Transition.run step

/-! ## No lost wake-up -/

/-- An idle worker with nothing to read sleeps over a queue that is not empty only while some
submitter has still to write to it. -/
def Awake (s : TrSystem loadb τ) : Prop :=
  ∀ w wk, s.workers[w]? = some wk → wk.pc = .poll → wk.pending = false → wk.event = 0 →
    s.queue ≠ [] → ∃ sub ∈ s.submitters, sub.Between w

/-- What holds in every state, for chunks of single messages. -/
structure Inv (s : TrSystem loadb τ) : Prop where
  workers : ∀ wk ∈ s.workers, wk.Wf ∧ wk.Answered ∧ wk.Exact
  submitters : ∀ sub ∈ s.submitters, sub.rest ≠ [] → sub.next = 0
  awake : s.Awake

theorem inv_init (ntransacts : ℕ) : (init ntransacts : TrSystem loadb τ).Inv where
  workers wk hwk := by
    rw [List.eq_of_mem_replicate hwk]
    exact ⟨TrWorker.wf_init, ⟨rfl, rfl⟩, by simp [TrWorker.Exact, TrWorker.init]⟩
  submitters sub hsub := by simp [init] at hsub
  awake w wk _ _ _ _ hqueue := absurd rfl hqueue

/-- The step of a worker keeps what holds of each worker. -/
theorem Inv.worker [DecidableEq τ] {s : TrSystem loadb τ} {w : ℕ} {wk wk' : TrWorker loadb τ}
    {e : TrEvent loadb τ} (h : s.Inv) (hw : s.workers[w]? = some wk) (hstep : wk.step e = some wk')
    (hone : ∀ n, e = .recv n → n = 1) :
    wk.Change e wk' ∧ ∀ wk₀ ∈ s.workers.set w wk', wk₀.Wf ∧ wk₀.Answered ∧ wk₀.Exact := by
  obtain ⟨hwf, hanswered, hexact⟩ := h.workers wk (List.mem_of_getElem? hw)
  have hchange := hwf.change_of_step hstep
  refine ⟨hchange, fun wk₀ hwk₀ => ?_⟩
  obtain hold | rfl := List.mem_or_eq_of_mem_set hwk₀
  · exact h.workers wk₀ hold
  · exact ⟨hwf.change hchange, hanswered.change hchange hone, hexact.change hchange hone⟩

/-- What a worker does to the queue. -/
theorem queueAfter_cases [DecidableEq τ] {queue queue' : List (Option τ)} {e : TrEvent loadb τ}
    (h : queueAfter queue e = some queue') :
    e ≠ .wake ∧ (queue' ≠ [] → queue ≠ []) ∧ (e = .trypop none → queue' = []) := by
  cases e with
  | trypop res =>
    simp only [queueAfter] at h
    split at h
    · next hres =>
      obtain rfl := Option.some.inj h
      refine ⟨by simp, fun htail hnil => htail (by rw [hnil]; rfl), fun he => ?_⟩
      rw [TrEvent.trypop.inj he, eq_comm, List.head?_eq_none_iff] at hres
      rw [hres]
      rfl
    · contradiction
  | wake => contradiction
  | _ =>
    obtain rfl := Option.some.inj h
    exact ⟨by simp, id, by simp⟩

/-- A submitter that pushes is between its push and every one of its writes. -/
theorem Inv.push [DecidableEq τ] {s : TrSystem loadb τ} {i next : ℕ} {x : Option τ}
    {rest : List (Option τ)} {started : Bool} (h : s.Inv)
    (hi : s.submitters[i]? = some ⟨x :: rest, started, next⟩) :
    Inv { s with
      queue := s.queue ++ [x], submitters := s.submitters.set i ⟨rest, true, next⟩ } := by
  obtain rfl : next = 0 := h.submitters _ (List.mem_of_getElem? hi) (by simp)
  have hlt := (List.getElem?_eq_some_iff.mp hi).1
  refine ⟨h.workers, fun sub hsub hne => ?_, fun w _ _ _ _ _ _ => ?_⟩
  · obtain hsub | rfl := List.mem_or_eq_of_mem_set hsub
    · exact h.submitters sub hsub hne
    · rfl
  · exact ⟨_, List.mem_set hlt _, rfl, Nat.zero_le w⟩

/-- A write wakes its worker; for the workers behind it the submitter is still to write. -/
theorem Inv.write {s : TrSystem loadb τ} {i next : ℕ} {started : Bool} {wk wk' : TrWorker loadb τ}
    (h : s.Inv) (hi : s.submitters[i]? = some ⟨[], started, next⟩)
    (hwk : s.workers[next]? = some wk)
    (hworkers : ∀ wk₀ ∈ s.workers.set next wk', wk₀.Wf ∧ wk₀.Answered ∧ wk₀.Exact)
    (hevent : wk'.event ≠ 0) :
    Inv { s with
      workers := s.workers.set next wk'
      submitters := s.submitters.set i ⟨[], started, next + 1⟩ } := by
  have hlt := (List.getElem?_eq_some_iff.mp hi).1
  refine ⟨hworkers, fun sub hsub hne => ?_, fun w wk₀ hw hpc hp hev hq => ?_⟩
  · obtain hsub | rfl := List.mem_or_eq_of_mem_set hsub
    · exact h.submitters sub hsub hne
    · exact absurd rfl hne
  · by_cases hnext : next = w
    · subst hnext
      rw [List.getElem?_set_self (List.getElem?_eq_some_iff.mp hwk).1, Option.some.injEq] at hw
      exact absurd (hw ▸ hev) hevent
    · rw [List.getElem?_set_ne hnext] at hw
      obtain ⟨sub, hsub, hstarted, hle⟩ := h.awake w wk₀ hw hpc hp hev hq
      obtain ⟨j, hj⟩ := List.mem_iff_getElem?.mp hsub
      by_cases hij : i = j
      · subst hij
        obtain rfl := Option.some.inj (hi.symm.trans hj)
        exact ⟨_, List.mem_set hlt _, hstarted, by simp only at hle ⊢; omega⟩
      · exact ⟨sub, List.mem_iff_getElem?.mpr ⟨j, by rw [List.getElem?_set_ne hij, hj]⟩,
          hstarted, hle⟩

/-- **Step lemma.** Every step keeps the invariant. -/
theorem Inv.step [DecidableEq τ] {s s' : TrSystem loadb τ} {e : TrSysEvent loadb τ} (h : s.Inv)
    (hone : ∀ w n, e = .worker w (.recv n) → n = 1) (hstep : s.step e = some s') : s'.Inv := by
  cases e with
  | submit transactions =>
    obtain rfl := Option.some.inj hstep
    refine ⟨h.workers, fun sub hsub hne => ?_, fun w wk hw hpc hp hev hq => ?_⟩
    · obtain rfl | hsub := List.mem_cons.mp hsub
      · rfl
      · exact h.submitters sub hsub hne
    · obtain ⟨sub, hsub, hbetween⟩ := h.awake w wk hw hpc hp hev hq
      exact ⟨sub, List.mem_cons_of_mem _ hsub, hbetween⟩
  | push i =>
    simp only [TrSystem.step] at hstep
    split at hstep
    · next hi => exact Option.some.inj hstep ▸ h.push hi
    · contradiction
  | write i =>
    simp only [TrSystem.step] at hstep
    split at hstep
    · next started next hi =>
      split at hstep
      · next wk hwk =>
        obtain ⟨wk', hwk', rfl⟩ := Option.map_eq_some_iff.mp hstep
        obtain ⟨-, hworkers⟩ := h.worker hwk hwk' (by simp)
        obtain rfl := Option.some.inj hwk'
        exact h.write hi hwk hworkers (by simp)
      · next hnone =>
        obtain rfl := Option.some.inj hstep
        refine ⟨h.workers, fun sub hsub => h.submitters sub (List.mem_of_mem_eraseIdx hsub),
          fun w wk hw hpc hp hev hq => ?_⟩
        obtain ⟨sub, hsub, hstarted, hle⟩ := h.awake w wk hw hpc hp hev hq
        obtain ⟨j, hj⟩ := List.mem_iff_getElem?.mp hsub
        have hij : j ≠ i := by
          rintro rfl
          obtain rfl := Option.some.inj (hi.symm.trans hj)
          have hlt : w < s.workers.length := (List.getElem?_eq_some_iff.mp hw).1
          have := List.getElem?_eq_none_iff.mp hnone
          simp only at hle
          omega
        exact ⟨sub, List.mem_eraseIdx_iff_getElem?.mpr ⟨j, hij, hj⟩, hstarted, hle⟩
    · contradiction
  | worker w e =>
    simp only [TrSystem.step] at hstep
    split at hstep
    · next wk queue hw hqueue =>
      obtain ⟨wk', hwk', rfl⟩ := Option.map_eq_some_iff.mp hstep
      obtain ⟨hchange, hworkers⟩ := h.worker hw hwk' fun n hn => hone w n (by rw [hn])
      obtain ⟨hwake, hqueue', hempty⟩ := queueAfter_cases hqueue
      refine ⟨hworkers, h.submitters, fun w₀ wk₀ hw₀ hpc hp hev hq => ?_⟩
      by_cases hww : w = w₀
      · subst hww
        rw [List.getElem?_set_self (List.getElem?_eq_some_iff.mp hw).1] at hw₀
        obtain rfl := Option.some.inj hw₀
        obtain rfl | ⟨hpc', hp', hev'⟩ := hchange.of_idle hpc hp hwake
        · exact absurd (hempty rfl) hq
        · exact h.awake w wk hw hpc' hp' (hev' ▸ hev) (hqueue' hq)
      · rw [List.getElem?_set_ne hww] at hw₀
        exact h.awake w₀ wk₀ hw₀ hpc hp hev (hqueue' hq)
    · contradiction

/-- **Main theorem.** However submitters, workers and the server interleave, with every `recv`
returning a single message: if a worker waits in `poll` with no request out and a zero event
counter, and no submitter is between its push and its write to that worker, the queue is empty;
no worker has more than one request out; and the results that a worker has pushed are those it
has received, each to the transaction whose request produced it. -/
theorem trSystem_wakeup [DecidableEq τ] (ntransacts : ℕ) (events : List (TrSysEvent loadb τ))
    (s : TrSystem loadb τ) (hrun : (init ntransacts).run events = some s)
    (hone : ∀ w n, TrSysEvent.worker w (.recv n) ∈ events → n = 1) :
    (∀ w wk, s.workers[w]? = some wk → wk.pc = .poll → wk.outstanding = [] → wk.event = 0 →
      (∀ sub ∈ s.submitters, ¬ sub.Between w) → s.queue = []) ∧
    ∀ wk ∈ s.workers, wk.outstanding.length ≤ 1 ∧ wk.pushed = TrWorker.results wk.received := by
  have hstep : ∀ (s : TrSystem loadb τ) e s', s.Inv →
      (∀ w n, e = .worker w (.recv n) → n = 1) → s.step e = some s' → s'.Inv :=
    fun _ _ _ h he hs => h.step he hs
  have hevents : ∀ e ∈ events, ∀ w n, e = .worker w (.recv n) → n = 1 :=
    fun e he w n hn => hone w n (hn ▸ he)
  have h := Transition.run_invariant_along hstep (inv_init ntransacts)
    (Transition.along_of_forall hevents _) hrun
  refine ⟨fun w wk hw hpc hout hev hsub => ?_, fun wk hwk => ?_⟩
  · obtain ⟨-, -, hexact⟩ := h.workers wk (List.mem_of_getElem? hw)
    have hpending : wk.pending = false := by
      cases hp : wk.pending
      · rfl
      · exact absurd hout (hexact hp)
    by_contra hqueue
    obtain ⟨sub, hmem, hbetween⟩ := h.awake w wk hw hpc hpending hev hqueue
    exact hsub sub hmem hbetween
  · obtain ⟨hwf, hanswered, -⟩ := h.workers wk hwk
    exact ⟨hwf.length_outstanding_le, hanswered.2⟩

/-- A submitter pushes one transaction; the first worker takes it before the submitter has
written to the second, which finds the queue empty. -/
def oneTransaction : List (TrSysEvent TrWorker.twoTexts ℕ) :=
  [.submit [some 7], .push 0, .write 0, .worker 0 (.pollReady false), .worker 0 (.read true),
    .worker 0 (.trypop (some (some 7))), .worker 0 (.send true), .write 0, .write 0,
    .worker 1 (.pollReady false), .worker 1 (.read true), .worker 1 (.trypop none),
    .worker 0 (.answer (TrWorker.resultMsg 7)), .worker 0 (.pollReady true), .worker 0 (.recv 1),
    .worker 0 (.trypop none)]

theorem trSystem_wakeup_two_workers :
    ∃ s, (init 2).run oneTransaction = some s ∧ s.queue = [] ∧
      ∀ wk ∈ s.workers, wk.outstanding.length ≤ 1 := by
  obtain ⟨s, wk, hrun, hw, hpc, hout, hev, hsubs⟩ : ∃ s wk, (init 2).run oneTransaction = some s ∧
      s.workers[0]? = some wk ∧ wk.pc = .poll ∧ wk.outstanding = [] ∧ wk.event = 0 ∧
      s.submitters = [] := ⟨_, _, rfl, rfl, rfl, rfl, rfl, rfl⟩
  obtain ⟨hwakeup, hworkers⟩ := trSystem_wakeup 2 oneTransaction s hrun (by simp [oneTransaction])
  exact ⟨s, hrun, hwakeup 0 wk hw hpc hout hev (by simp [hsubs]), fun wk hwk => (hworkers wk hwk).1⟩

end TrSystem

end Srn
