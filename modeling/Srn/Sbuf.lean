import Mathlib.Tactic.Linarith
import Srn.Lib.Pool
import Srn.Lib.Ring
import Srn.Lib.Transition

/-!
# Srn.Sbuf

The bounded buffer of `lib/sbuf.c`: two counting semaphores, a mutex, and a ring of
`capacity` slots indexed by two free-running `unsigned long` counters.  The request
queue (`req_buffer_size` slots) and the transaction queue (`2 * ntransacts` slots) of
the controller are such buffers.

A call is three atomic steps: wait on one semaphore, access the slot with the mutex
held, post the other semaphore.  Any number of calls may be in flight and their steps
interleave freely, so the state carries the list of unfinished calls next to the
buffer.  The ghost fields `pushed` and `popped` record the slot accesses in the order
in which the mutex serialised them.

The slot of a counter is `counter & (capacity - 1)`.  `isQueue_iff_two_pow` says what
that costs: the buffer is a queue exactly for the capacities that are powers of two.
-/

namespace Srn

variable {α : Type}

/-! ## The buffer -/

/-- `struct sbuf`.  The mutex is not a field: a step that takes it is atomic. -/
structure Sbuf (α : Type) where
  empty : ℕ
  full : ℕ
  data : ℕ → α
  capacity : UInt64
  read : UInt64
  write : UInt64

namespace Sbuf

/-- `sbuf_new`: the slots hold whatever `malloc` returned. -/
def new (bufsize : UInt64) (junk : ℕ → α) : Sbuf α where
  empty := bufsize.toNat
  full := 0
  data := junk
  capacity := bufsize
  read := 0
  write := 0

/-- `__sbuf_mask`. -/
def mask (q : Sbuf α) (v : UInt64) : ℕ := (v &&& (q.capacity - 1)).toNat

/-- `__sbuf_push`: store at the write counter, then advance it. -/
def push (q : Sbuf α) (v : α) : Sbuf α :=
  { q with data := Function.update q.data (q.mask q.write) v, write := q.write + 1 }

/-- `__sbuf_pop`: read at the read counter, then advance it. -/
def pop (q : Sbuf α) : α × Sbuf α :=
  (q.data (q.mask q.read), { q with read := q.read + 1 })

end Sbuf

/-! ## Calls and their interleavings -/

/-- Where a call in flight stands between two of its three steps. -/
inductive SbufCall (α : Type) where
  /-- `sbuf_push` or `sbuf_trypush` of `v`, past its wait on `empty`. -/
  | pushWaited (v : α)
  /-- The element is in its slot; `full` is not posted yet. -/
  | pushStored
  /-- `sbuf_pop` or `sbuf_trypop`, past its wait on `full`. -/
  | popWaited
  /-- The element has been read; `empty` is not posted yet. -/
  | popRead (v : α)
  deriving DecidableEq

/-- One atomic step of some call.  `i` is the position of the call among those in
flight; a wait adds the call at the front. -/
inductive SbufEvent (α : Type) where
  | pushWait (v : α)
  | trypushFail
  | pushSlot (i : ℕ)
  | pushPost (i : ℕ)
  | popWait
  | trypopFail
  | popSlot (i : ℕ)
  | popPost (i : ℕ)
  deriving DecidableEq

/-- The buffer, the calls in flight, and the history of slot accesses. -/
structure SbufState (α : Type) where
  buf : Sbuf α
  calls : List (SbufCall α)
  pushed : List α
  popped : List α

namespace SbufState

/-- A fresh buffer with no call in flight. -/
def init (bufsize : UInt64) (junk : ℕ → α) : SbufState α where
  buf := Sbuf.new bufsize junk
  calls := []
  pushed := []
  popped := []

/-- One step of one call.  `none` when the step is not enabled: the semaphore is zero
for a wait, positive for a failing `sem_trywait`, or call `i` is elsewhere. -/
def step (s : SbufState α) : SbufEvent α → Option (SbufState α)
  | .pushWait v =>
    if s.buf.empty = 0 then none
    else some { s with
      buf := { s.buf with empty := s.buf.empty - 1 }
      calls := .pushWaited v :: s.calls }
  | .trypushFail => if s.buf.empty = 0 then some s else none
  | .pushSlot i =>
    match s.calls[i]? with
    | some (.pushWaited v) => some { s with
        buf := s.buf.push v
        calls := s.calls.set i .pushStored
        pushed := s.pushed ++ [v] }
    | _ => none
  | .pushPost i =>
    match s.calls[i]? with
    | some .pushStored => some { s with
        buf := { s.buf with full := s.buf.full + 1 }
        calls := s.calls.eraseIdx i }
    | _ => none
  | .popWait =>
    if s.buf.full = 0 then none
    else some { s with
      buf := { s.buf with full := s.buf.full - 1 }
      calls := .popWaited :: s.calls }
  | .trypopFail => if s.buf.full = 0 then some s else none
  | .popSlot i =>
    match s.calls[i]? with
    | some .popWaited => some { s with
        buf := s.buf.pop.2
        calls := s.calls.set i (.popRead s.buf.pop.1)
        popped := s.popped ++ [s.buf.pop.1] }
    | _ => none
  | .popPost i =>
    match s.calls[i]? with
    | some (.popRead _) => some { s with
        buf := { s.buf with empty := s.buf.empty + 1 }
        calls := s.calls.eraseIdx i }
    | _ => none

/-! ## Counting -/

/-- The call owns a slot without an element: promised to its push, or not given back yet. -/
def ownsSlot : SbufCall α → Bool
  | .pushWaited _ | .popRead _ => true
  | .pushStored | .popWaited => false

/-- The call owns an element of the ring: not announced yet, or promised to its pop. -/
def ownsItem : SbufCall α → Bool
  | .pushStored | .popWaited => true
  | .pushWaited _ | .popRead _ => false

/-- The semaphores and the counters against the history: every slot is free, owned by a
call, or holds an element; every element in the ring is announced on `full` or owned by
a call; the counters follow the history modulo their width. -/
structure Counts (s : SbufState α) : Prop where
  slots : s.pushed.length + s.buf.empty + s.calls.countP ownsSlot =
    s.popped.length + s.buf.capacity.toNat
  items : s.pushed.length = s.popped.length + s.buf.full + s.calls.countP ownsItem
  write : s.buf.write.toNat = s.pushed.length % 2 ^ 64
  read : s.buf.read.toNat = s.popped.length % 2 ^ 64

theorem counts_init (bufsize : UInt64) (junk : ℕ → α) : (init bufsize junk).Counts := by
  constructor <;> simp [init, Sbuf.new]

/-- A counter that tracks a length modulo `2 ^ 64` still does after one increment. -/
theorem toNat_succ_counter {c : UInt64} {n : ℕ} (h : c.toNat = n % 2 ^ 64) :
    (c + 1).toNat = (n + 1) % 2 ^ 64 := by
  rw [UInt64.toNat_add, h, UInt64.toNat_one, Nat.mod_add_mod]

/-- What a step can do, with its guard. -/
theorem step_cases {s s' : SbufState α} {e : SbufEvent α} (h : s.step e = some s') :
    s' = s ∨
    (∃ v, s.buf.empty ≠ 0 ∧ s' = { s with
      buf := { s.buf with empty := s.buf.empty - 1 }, calls := .pushWaited v :: s.calls }) ∨
    (∃ i v, s.calls[i]? = some (.pushWaited v) ∧ s' = { s with
      buf := s.buf.push v, calls := s.calls.set i .pushStored, pushed := s.pushed ++ [v] }) ∨
    (∃ i, s.calls[i]? = some .pushStored ∧ s' = { s with
      buf := { s.buf with full := s.buf.full + 1 }, calls := s.calls.eraseIdx i }) ∨
    (s.buf.full ≠ 0 ∧ s' = { s with
      buf := { s.buf with full := s.buf.full - 1 }, calls := .popWaited :: s.calls }) ∨
    (∃ i, s.calls[i]? = some .popWaited ∧ s' = { s with
      buf := s.buf.pop.2, calls := s.calls.set i (.popRead s.buf.pop.1)
      popped := s.popped ++ [s.buf.pop.1] }) ∨
    (∃ i v, s.calls[i]? = some (.popRead v) ∧ s' = { s with
      buf := { s.buf with empty := s.buf.empty + 1 }, calls := s.calls.eraseIdx i }) := by
  cases e with
  | pushWait v =>
    simp only [step] at h
    split at h
    · contradiction
    · next he => exact .inr (.inl ⟨v, he, (Option.some.inj h).symm⟩)
  | trypushFail =>
    simp only [step] at h
    split at h
    · exact .inl (Option.some.inj h).symm
    · contradiction
  | pushSlot i =>
    simp only [step] at h
    split at h
    · next v hv => exact .inr (.inr (.inl ⟨i, v, hv, (Option.some.inj h).symm⟩))
    · contradiction
  | pushPost i =>
    simp only [step] at h
    split at h
    · next hv => exact .inr (.inr (.inr (.inl ⟨i, hv, (Option.some.inj h).symm⟩)))
    · contradiction
  | popWait =>
    simp only [step] at h
    split at h
    · contradiction
    · next he => exact .inr (.inr (.inr (.inr (.inl ⟨he, (Option.some.inj h).symm⟩))))
  | trypopFail =>
    simp only [step] at h
    split at h
    · exact .inl (Option.some.inj h).symm
    · contradiction
  | popSlot i =>
    simp only [step] at h
    split at h
    · next hv =>
      exact .inr (.inr (.inr (.inr (.inr (.inl ⟨i, hv, (Option.some.inj h).symm⟩)))))
    · contradiction
  | popPost i =>
    simp only [step] at h
    split at h
    · next v hv =>
      exact .inr (.inr (.inr (.inr (.inr (.inr ⟨i, v, hv, (Option.some.inj h).symm⟩)))))
    · contradiction

/-- The counting invariant survives every step, whatever the capacity. -/
theorem counts_step {s s' : SbufState α} {e : SbufEvent α} (hc : s.Counts)
    (h : s.step e = some s') : s'.Counts := by
  obtain ⟨hslots, hitems, hwrite, hread⟩ := hc
  obtain rfl | ⟨v, he, rfl⟩ | ⟨i, v, hi, rfl⟩ | ⟨i, hi, rfl⟩ | ⟨he, rfl⟩ | ⟨i, hi, rfl⟩ |
    ⟨i, v, hi, rfl⟩ := step_cases h
  · exact ⟨hslots, hitems, hwrite, hread⟩
  · refine ⟨?_, ?_, hwrite, hread⟩ <;> grind [ownsSlot, ownsItem]
  · have hs := Pool.countP_set (b := .pushStored) (p := ownsSlot) hi
    have ht := Pool.countP_set (b := .pushStored) (p := ownsItem) hi
    refine ⟨?_, ?_, ?_, hread⟩
    · grind [Sbuf.push, ownsSlot]
    · grind [Sbuf.push, ownsItem]
    · simpa [Sbuf.push] using toNat_succ_counter hwrite
  · have hs := Pool.countP_eraseIdx (p := ownsSlot) hi
    have ht := Pool.countP_eraseIdx (p := ownsItem) hi
    refine ⟨?_, ?_, hwrite, hread⟩ <;> grind [ownsSlot, ownsItem]
  · refine ⟨?_, ?_, hwrite, hread⟩ <;> grind [ownsSlot, ownsItem]
  · have hs := Pool.countP_set (b := .popRead s.buf.pop.1) (p := ownsSlot) hi
    have ht := Pool.countP_set (b := .popRead s.buf.pop.1) (p := ownsItem) hi
    refine ⟨?_, ?_, hwrite, ?_⟩
    · grind [Sbuf.pop, ownsSlot]
    · grind [Sbuf.pop, ownsItem]
    · simpa [Sbuf.pop] using toNat_succ_counter hread
  · have hs := Pool.countP_eraseIdx (p := ownsSlot) hi
    have ht := Pool.countP_eraseIdx (p := ownsItem) hi
    refine ⟨?_, ?_, hwrite, hread⟩ <;> grind [ownsSlot, ownsItem]

/-- A push that is about to store finds a free slot. -/
theorem lt_capacity_of_pushWaited {s : SbufState α} {i : ℕ} {v : α} (hc : s.Counts)
    (hi : s.calls[i]? = some (.pushWaited v)) :
    s.pushed.length < s.popped.length + s.buf.capacity.toNat := by
  have hpos : 0 < s.calls.countP ownsSlot := Pool.countP_pos hi rfl
  have := hc.slots
  omega

/-- A pop that is about to read finds an element. -/
theorem popped_lt_of_popWaited {s : SbufState α} {i : ℕ} (hc : s.Counts)
    (hi : s.calls[i]? = some .popWaited) : s.popped.length < s.pushed.length := by
  have hpos : 0 < s.calls.countP ownsItem := Pool.countP_pos hi rfl
  have := hc.items
  omega

/-! ## Power-of-two capacities: a FIFO queue -/

/-- With a capacity of `2 ^ k` the mask is the remainder modulo the capacity, also
across the wrap of the 64-bit counter. -/
theorem mask_eq_mod {q : Sbuf α} {k n : ℕ} {v : UInt64} (hcap : q.capacity.toNat = 2 ^ k)
    (hv : v.toNat = n % 2 ^ 64) : q.mask v = n % 2 ^ k := by
  have hk : k < 64 := (Nat.pow_lt_pow_iff_right (by decide)).mp (hcap ▸ q.capacity.toNat_lt)
  have hone : (1 : UInt64) ≤ q.capacity := by
    rw [UInt64.le_iff_toNat_le, hcap]
    exact Nat.one_le_two_pow
  rw [Sbuf.mask, UInt64.toNat_and, UInt64.toNat_sub_of_le _ _ hone, hcap, UInt64.toNat_one,
    Nat.and_two_pow_sub_one_eq_mod, hv, Nat.mod_mod_of_dvd n (Nat.pow_dvd_pow 2 hk.le)]

/-- The ring of a `2 ^ k`-slot buffer holds exactly the elements pushed and not popped,
each in the slot of its counter. -/
structure Fifo (k : ℕ) (s : SbufState α) : Prop where
  counts : s.Counts
  capacity : s.buf.capacity.toNat = 2 ^ k
  order : s.popped <+: s.pushed
  stored : ∀ j v, s.popped.length ≤ j → s.pushed[j]? = some v → s.buf.data (j % 2 ^ k) = v

theorem fifo_init {k : ℕ} {bufsize : UInt64} (hcap : bufsize.toNat = 2 ^ k) (junk : ℕ → α) :
    (init bufsize junk).Fifo k where
  counts := counts_init bufsize junk
  capacity := hcap
  order := List.prefix_rfl
  stored := by simp [init]

/-- Storing the next element keeps the ring: the window of live counters is shorter
than the ring, so no live slot is overwritten. -/
theorem fifo_pushSlot {k i : ℕ} {v : α} {s s' : SbufState α} (hf : s.Fifo k)
    (hi : s.calls[i]? = some (.pushWaited v)) (hc' : s'.Counts) (hs' : s' = { s with
      buf := s.buf.push v, calls := s.calls.set i .pushStored, pushed := s.pushed ++ [v] }) :
    s'.Fifo k := by
  have hroom := lt_capacity_of_pushWaited hf.counts hi
  rw [hf.capacity] at hroom
  subst hs'
  refine ⟨hc', hf.capacity, hf.order.trans (List.prefix_append _ _), ?_⟩
  intro j w hj hw
  replace hj : s.popped.length ≤ j := hj
  simp only [Sbuf.push, mask_eq_mod hf.capacity hf.counts.write]
  rcases Nat.lt_or_ge j s.pushed.length with hlt | hge
  · rw [List.getElem?_append_left hlt] at hw
    rw [Function.update_of_ne (Ring.mod_ne_of_window hlt (by omega))]
    exact hf.stored j w hj hw
  · obtain rfl : j = s.pushed.length := by
      have := (List.getElem?_eq_some_iff.mp hw).1
      simp only [List.length_append, List.length_singleton] at this
      omega
    simp only [List.getElem?_concat_length, Option.some.injEq] at hw
    rw [Function.update_self, hw]

/-- Reading the next slot yields the oldest element that is still in the ring. -/
theorem fifo_popSlot {k i : ℕ} {s s' : SbufState α} (hf : s.Fifo k)
    (hi : s.calls[i]? = some .popWaited) (hc' : s'.Counts) (hs' : s' = { s with
      buf := s.buf.pop.2, calls := s.calls.set i (.popRead s.buf.pop.1)
      popped := s.popped ++ [s.buf.pop.1] }) : s'.Fifo k := by
  have hlt := popped_lt_of_popWaited hf.counts hi
  have hread : s.pushed[s.popped.length]? = some s.buf.pop.1 := by
    rw [List.getElem?_eq_getElem hlt, Option.some.injEq, Sbuf.pop,
      mask_eq_mod hf.capacity hf.counts.read]
    exact (hf.stored _ _ le_rfl (List.getElem?_eq_getElem hlt)).symm
  subst hs'
  refine ⟨hc', hf.capacity, ?_, ?_⟩
  · obtain ⟨rest, hrest⟩ := hf.order
    rw [← hrest, List.getElem?_append_right le_rfl, Nat.sub_self] at hread
    cases rest with
    | nil => simp at hread
    | cons w rest =>
      simp only [List.getElem?_cons_zero, Option.some.injEq] at hread
      exact ⟨rest, by rw [← hrest, ← hread, List.append_assoc, List.singleton_append]⟩
  · intro j w hj hw
    simp only [List.length_append, List.length_singleton] at hj
    exact hf.stored j w (by omega) hw

/-- Every step of every call keeps the ring a queue. -/
theorem fifo_step {k : ℕ} {s s' : SbufState α} {e : SbufEvent α} (hf : s.Fifo k)
    (h : s.step e = some s') : s'.Fifo k := by
  have hc' := counts_step hf.counts h
  obtain rfl | ⟨v, he, rfl⟩ | ⟨i, v, hi, hs'⟩ | ⟨i, hi, rfl⟩ | ⟨he, rfl⟩ | ⟨i, hi, hs'⟩ |
    ⟨i, v, hi, rfl⟩ := step_cases h
  · exact hf
  · exact ⟨hc', hf.capacity, hf.order, hf.stored⟩
  · exact fifo_pushSlot hf hi hc' hs'
  · exact ⟨hc', hf.capacity, hf.order, hf.stored⟩
  · exact ⟨hc', hf.capacity, hf.order, hf.stored⟩
  · exact fifo_popSlot hf hi hc' hs'
  · exact ⟨hc', hf.capacity, hf.order, hf.stored⟩

/-- **Power-of-two capacities**: in every interleaving the popped elements are a prefix
of the pushed ones. -/
theorem prefix_of_two_pow {k : ℕ} {bufsize : UInt64} (hcap : bufsize.toNat = 2 ^ k)
    {junk : ℕ → α} {es : List (SbufEvent α)} {s : SbufState α}
    (hrun : Transition.run step (init bufsize junk) es = some s) : s.popped <+: s.pushed :=
  (Transition.run_invariant (fun _ _ _ hs h => fifo_step hs h) (fifo_init hcap junk) hrun).order

/-! ## Other capacities: an overwritten element -/

/-- The steps of one `sbuf_push` of `v` with no other call in flight. -/
def pushCall (v : α) : List (SbufEvent α) := [.pushWait v, .pushSlot 0, .pushPost 0]

/-- The steps of one `sbuf_pop` with no other call in flight. -/
def popCall : List (SbufEvent α) := [.popWait, .popSlot 0, .popPost 0]

/-- An undisturbed push on a buffer with room runs to its end. -/
theorem run_pushCall {s : SbufState α} (hc : s.Counts) (hcalls : s.calls = [])
    (hroom : s.pushed.length < s.popped.length + s.buf.capacity.toNat) (v : α) :
    ∃ s', Transition.run step s (pushCall v) = some s' ∧ s'.calls = [] ∧
      s'.pushed = s.pushed ++ [v] ∧ s'.popped = s.popped ∧
      s'.buf.capacity = s.buf.capacity ∧
      s'.buf.data = Function.update s.buf.data (s.buf.mask s.buf.write) v := by
  have hempty : s.buf.empty ≠ 0 := by
    have := hc.slots
    rw [hcalls, List.countP_nil] at this
    omega
  refine ⟨{ s with
    buf := { s.buf.push v with empty := s.buf.empty - 1, full := s.buf.full + 1 }
    calls := []
    pushed := s.pushed ++ [v] }, ?_, rfl, rfl, rfl, rfl, rfl⟩
  simp [pushCall, Transition.run, step, hempty, hcalls, Sbuf.push, Sbuf.mask]

/-- Undisturbed pushes fill the buffer up to its capacity. -/
theorem run_pushCalls (vs : List α) {s : SbufState α} (hc : s.Counts) (hcalls : s.calls = [])
    (hroom : s.pushed.length + vs.length ≤ s.popped.length + s.buf.capacity.toNat) :
    ∃ s', Transition.run step s (vs.flatMap pushCall) = some s' ∧ s'.calls = [] ∧
      s'.pushed = s.pushed ++ vs ∧ s'.popped = s.popped ∧
      s'.buf.capacity = s.buf.capacity := by
  induction vs generalizing s with
  | nil => exact ⟨s, by simp, hcalls, by simp, rfl, rfl⟩
  | cons v vs ih =>
    rw [List.length_cons] at hroom
    obtain ⟨t, hrun, htc, htp, hto, hcap, -⟩ := run_pushCall hc hcalls (by omega) v
    have htcounts := Transition.run_invariant (fun _ _ _ hs h => counts_step hs h) hc hrun
    obtain ⟨s', hrun', h1, h2, h3, h4⟩ := ih htcounts htc (by
      rw [htp, hto, hcap, List.length_append, List.length_singleton]
      omega)
    refine ⟨s', ?_, h1, ?_, h3.trans hto, h4.trans hcap⟩
    · rw [List.flatMap_cons, Transition.run_append, hrun, Option.bind_some, hrun']
    · rw [h2, htp, List.append_assoc, List.singleton_append]

/-- An undisturbed pop on a buffer with an element runs to its end. -/
theorem run_popCall {s : SbufState α} (hc : s.Counts) (hcalls : s.calls = [])
    (hitem : s.popped.length < s.pushed.length) :
    ∃ s', Transition.run step s popCall = some s' ∧ s'.pushed = s.pushed ∧
      s'.popped = s.popped ++ [s.buf.data (s.buf.mask s.buf.read)] := by
  have hfull : s.buf.full ≠ 0 := by
    have := hc.items
    rw [hcalls, List.countP_nil] at this
    omega
  refine ⟨{ s with
    buf := { s.buf.pop.2 with empty := s.buf.empty + 1, full := s.buf.full - 1 }
    calls := []
    popped := s.popped ++ [s.buf.pop.1] }, ?_, rfl, rfl⟩
  simp [popCall, Transition.run, step, hfull, hcalls, Sbuf.pop, Sbuf.mask]

/-- **Other capacities**: some run without any concurrency pops an element that is not
the first one pushed, because a later push has overwritten its slot. -/
theorem exists_overwrite {bufsize : UInt64} (hpos : bufsize ≠ 0)
    (hpow : ¬ ∃ k, bufsize.toNat = 2 ^ k) (junk : ℕ → α) {a b : α} (hab : a ≠ b) :
    ∃ es s, Transition.run step (init bufsize junk) es = some s ∧ ¬ s.popped <+: s.pushed := by
  have hne : bufsize.toNat ≠ 0 := fun h => hpos (UInt64.toNat_inj.mp h)
  obtain ⟨j, hj0, hjc, hmask⟩ := Ring.exists_mask_collision hne hpow
  obtain ⟨s1, hrun1, hcalls1, hpush1, hpop1, hcap1⟩ :=
    run_pushCalls (a :: List.replicate (j - 1) b) (counts_init bufsize junk) rfl
      (by simp [init, Sbuf.new]; omega)
  have hc1 := Transition.run_invariant (fun _ _ _ hs h => counts_step hs h)
    (counts_init bufsize junk) hrun1
  have hlen1 : s1.pushed.length = j := by rw [hpush1]; simp [init]; omega
  obtain ⟨s2, hrun2, hcalls2, hpush2, hpop2, hcap2, hdata2⟩ :=
    run_pushCall hc1 hcalls1 (by rw [hlen1, hpop1, hcap1]; simp [init, Sbuf.new]; omega) b
  have hc2 := Transition.run_invariant (fun _ _ _ hs h => counts_step hs h) hc1 hrun2
  obtain ⟨s3, hrun3, hpush3, hpop3⟩ := run_popCall hc2 hcalls2 (by
    rw [hpush2, hpop2, hpop1]; simp [init])
  have hone : (1 : UInt64) ≤ bufsize := by
    rw [UInt64.le_iff_toNat_le, UInt64.toNat_one]
    omega
  have hslot : s1.buf.mask s1.buf.write = 0 := by
    rw [Sbuf.mask, UInt64.toNat_and, hc1.write, hlen1, hcap1,
      Nat.mod_eq_of_lt (hjc.trans bufsize.toNat_lt)]
    simpa [init, Sbuf.new, UInt64.toNat_sub_of_le _ _ hone] using hmask
  have hread : s2.buf.mask s2.buf.read = 0 := by
    rw [Sbuf.mask, UInt64.toNat_and, hc2.read, hpop2, hpop1]
    simp [init]
  have hpopped : s3.popped = [b] := by
    rw [hpop3, hread, hdata2, hslot, Function.update_self, hpop2, hpop1]
    rfl
  have hpushed : s3.pushed = a :: (List.replicate (j - 1) b ++ [b]) := by
    rw [hpush3, hpush2, hpush1]
    rfl
  refine ⟨(a :: List.replicate (j - 1) b).flatMap pushCall ++ (pushCall b ++ popCall), s3, ?_, ?_⟩
  · rw [Transition.run_append, hrun1, Option.bind_some, Transition.run_append, hrun2,
      Option.bind_some, hrun3]
  · rw [hpopped, hpushed, List.cons_prefix_cons]
    exact fun h => hab h.1.symm

/-! ## The queue law -/

/-- The buffer is a queue: in every interleaving of calls the sequence of popped elements
is a prefix of the sequence of pushed elements, so that none is lost, overwritten,
duplicated or reordered. -/
def IsQueue (α : Type) (bufsize : UInt64) : Prop :=
  ∀ (junk : ℕ → α) (es : List (SbufEvent α)) (s : SbufState α),
    Transition.run step (init bufsize junk) es = some s → s.popped <+: s.pushed

/-- **A queue exactly at the powers of two**, for every capacity of at least one. -/
theorem isQueue_iff_two_pow [Nontrivial α] (bufsize : UInt64) (hpos : 1 ≤ bufsize) :
    IsQueue α bufsize ↔ ∃ k, bufsize.toNat = 2 ^ k := by
  constructor
  · intro hqueue
    by_contra hpow
    obtain ⟨a, b, hab⟩ := exists_pair_ne α
    have hne : bufsize ≠ 0 := by
      rintro rfl
      exact absurd hpos (by decide)
    obtain ⟨es, s, hrun, hnot⟩ := exists_overwrite hne hpow (fun _ => a) hab
    exact hnot (hqueue _ es s hrun)
  · rintro ⟨k, hk⟩ junk es s hrun
    exact prefix_of_two_pow hk hrun

/-- The default `req_buffer_size` of `sr-ctrl` is a queue. -/
theorem isQueue_default : (1 : UInt64) ≤ 16 ∧ IsQueue ℕ 16 :=
  ⟨by decide, (isQueue_iff_two_pow 16 (by decide)).mpr ⟨4, rfl⟩⟩

/-- The `req_buffer_size` of the sample configuration is not: with ten slots the mask is
nine, the third push lands in the slot of the first, and the first pop returns it. -/
theorem not_isQueue_ten :
    (Transition.run step (init 10 fun _ => 0) ([1, 2, 3].flatMap pushCall ++ popCall)).map
      (fun s => (s.pushed, s.popped)) = some ([1, 2, 3], [3]) ∧ ¬ IsQueue ℕ 10 := by
  constructor
  · rfl
  · intro hqueue
    have hprefix := hqueue (fun _ => 0) ([1, 2, 3].flatMap pushCall ++ popCall) _ rfl
    exact absurd hprefix (by decide)

end SbufState

end Srn
