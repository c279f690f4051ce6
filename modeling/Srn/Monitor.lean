import Mathlib.Data.List.Infix
import Srn.Json

/-!
# Srn.Monitor

The receive loop of `ovsdb_monitor` in `lib/srdb.c`: bytes arrive from the database
server in chunks of any size, the loop parses every complete JSON object at the front of
its buffer, dispatches it and keeps the incomplete rest for the next chunk.

The JSON parser is not part of the repository.  It is the parameter `loadb` below, and
`JsonLoadb` lists what the loop relies on: the documented behaviour of `json_loadb` with
`JSON_DISABLE_EOF_CHECK` on the text of an object, on a cut-off text, and on a text that
starts with neither a brace nor a bracket.

The loop condition is `jpos < len - 1`, one short of the end of the buffer, so that a
single byte behind the last complete message ends the loop as if the buffer had been
used up, and the byte is dropped.  `monitorRun_log_iff` states the consequence exactly.
-/

namespace Srn

/-! ## The receive loop -/

/-- `JSON_BUFLEN`. -/
def jsonBuflen : ℕ := 4096

/-- `JSON_BUFLEN_MONMAX`. -/
def jsonBuflenMonmax : ℕ := 8 * 1024 * 1024

/-- The `MON_STATUS_` values the receive loop sets. -/
inductive MonStatus where
  | running
  | finished
  | connclosed
  | nomem
  | readerr
  deriving DecidableEq, Repr

/-- Where the loop sends a message. -/
inductive MonHandler where
  | echoReply
  | monitorReply
  | update
  deriving DecidableEq, Repr

/-- The routing of a parsed message. -/
def monHandler (msg : Json) : MonHandler :=
  if msg.isEcho then .echoReply
  else if Json.isInteger (msg.objectGet "id") then .monitorReply
  else .update

/-- The variables of the loop: the `len` valid bytes of `buf`, the allocated size, the
messages dispatched so far and the monitor's status. -/
structure MonState where
  buf : List UInt8
  curBuflen : ℕ
  log : List (MonHandler × Json)
  status : MonStatus

/-- What one round can bring: bytes from `recv`, with the outcome of the `realloc` that
follows when they fill the buffer, or one of the reasons to leave the loop. -/
inductive MonEvent where
  | chunk (bytes : List UInt8) (realloc : Bool)
  | pollError
  | recvError
  | closed
  | stop

/-- The state at the start of the loop. -/
def MonState.init : MonState where
  buf := []
  curBuflen := jsonBuflen
  log := []
  status := .running

section loop

variable (loadb : List UInt8 → Option (Json × ℕ))

/-- The inner loop over the buffer: the final `jpos`, whether the last `json` was
non-`NULL`, and the log.  `none` stands for a loop that has not ended within `fuel`
rounds. -/
def parseLoop (buf : List UInt8) :
    ℕ → ℕ → List (MonHandler × Json) → Option (ℕ × Bool × List (MonHandler × Json))
  | 0, _, _ => none
  | fuel + 1, jpos, log =>
    match loadb (buf.drop jpos) with
    | none => some (jpos, false, log)
    | some (json, position) =>
      if jpos + position < buf.length - 1 then
        parseLoop buf fuel (jpos + position) (log ++ [(monHandler json, json)])
      else some (jpos + position, true, log ++ [(monHandler json, json)])

/-- What stays in the buffer after the inner loop: everything from `jpos` on after a parse
error, nothing otherwise. -/
def leftover (buf : List UInt8) (jpos : ℕ) (json : Bool) : List UInt8 :=
  if !json && jpos ≠ 0 then buf.drop jpos else if json then [] else buf

/-- The end of a round: abort on a buffer of the largest size, enlarge a full one. -/
def checkBuflen (s : MonState) (realloc : Bool) : MonState :=
  if s.buf.length = jsonBuflenMonmax then { s with status := .nomem }
  else if s.buf.length = s.curBuflen then
    if realloc then { s with curBuflen := s.curBuflen * 2 } else { s with status := .nomem }
  else s

/-- One round of the loop.  A monitor that has left the loop stays as it is; `none` stands
for an inner loop that does not end. -/
def monitorStep (s : MonState) (e : MonEvent) : Option MonState :=
  if s.status ≠ .running then some s
  else match e with
    | .pollError | .recvError => some { s with status := .readerr }
    | .closed => some { s with status := .connclosed }
    | .stop => some { s with status := .finished }
    | .chunk bytes realloc =>
      let buf := s.buf ++ bytes
      (parseLoop loadb buf (buf.length + 1) 0 s.log).map fun (jpos, json, log) =>
        checkBuflen { s with buf := leftover buf jpos json, log := log } realloc

/-- The loop over a sequence of received chunks, with memory for a larger buffer whenever
it is needed. -/
def monitorRun : MonState → List (List UInt8) → Option MonState
  | s, [] => some s
  | s, c :: cs => (monitorStep loadb s (.chunk c true)).bind fun s' => monitorRun s' cs

/-- Each chunk is one that `recv` can return: not empty, and no longer than the free part
of the buffer at its turn. -/
def Fits : MonState → List (List UInt8) → Prop
  | _, [] => True
  | s, c :: cs => c ≠ [] ∧ s.buf.length + c.length ≤ s.curBuflen ∧
      ∀ s', monitorStep loadb s (.chunk c true) = some s' → Fits s' cs

end loop

/-! ## The JSON parser -/

/-- White space of the JSON grammar. -/
def jsonSpace (b : UInt8) : Bool := b == 0x20 || b == 0x09 || b == 0x0a || b == 0x0d

/-- The text of a JSON object and its value.  Of the grammar only the start is needed: a
brace, then after white space the quote of the first member name or the closing brace. -/
structure Message where
  text : List UInt8
  value : Json
  shape : ∃ ws b rest, text = 0x7b :: (ws ++ b :: rest) ∧ (∀ x ∈ ws, jsonSpace x = true) ∧
    (b = 0x22 ∨ b = 0x7d)

/-- What the loop relies on in `json_loadb` with `JSON_DISABLE_EOF_CHECK`, for a stream
made of the given messages. -/
structure JsonLoadb (loadb : List UInt8 → Option (Json × ℕ)) (msgs : List Message) : Prop where
  /-- The first complete object is parsed, whatever follows, and its length reported. -/
  complete : ∀ m ∈ msgs, ∀ rest, loadb (m.text ++ rest) = some (m.value, m.text.length)
  /-- A cut-off object is an error. -/
  incomplete : ∀ m ∈ msgs, ∀ p, p <+: m.text → p ≠ m.text → loadb p = none
  /-- So is a text that does not start with a brace or a bracket. -/
  start : ∀ ws b rest, (∀ x ∈ ws, jsonSpace x = true) → jsonSpace b = false → b ≠ 0x7b →
    b ≠ 0x5b → loadb (ws ++ b :: rest) = none
  /-- And so is white space alone. -/
  blank : ∀ ws, (∀ x ∈ ws, jsonSpace x = true) → loadb ws = none

/-! ## Streams of messages -/

/-- The bytes the server sends. -/
def stream (msgs : List Message) : List UInt8 := (msgs.map Message.text).flatten

/-- The log of a monitor that dispatched exactly these messages, in order. -/
def logOf (msgs : List Message) : List (MonHandler × Json) :=
  msgs.map fun m => (monHandler m.value, m.value)

@[simp] theorem stream_nil : stream [] = [] := rfl

@[simp] theorem stream_cons (m : Message) (msgs : List Message) :
    stream (m :: msgs) = m.text ++ stream msgs := rfl

theorem stream_append (xs ys : List Message) : stream (xs ++ ys) = stream xs ++ stream ys := by
  simp [stream]

theorem logOf_append (xs ys : List Message) : logOf (xs ++ ys) = logOf xs ++ logOf ys := by
  simp [logOf]

/-- The text of an object has at least its two braces. -/
theorem Message.two_le_length (m : Message) : 2 ≤ m.text.length := by
  obtain ⟨ws, b, rest, htext, -, -⟩ := m.shape
  simp [htext]; omega

/-- The bytes kept for the next chunk: a proper prefix of the next message. -/
structure Pending (todo : List Message) (r : List UInt8) : Prop where
  start : r <+: stream todo
  incomplete : ∀ m ∈ todo.head?, r.length < m.text.length

/-- Nothing is pending behind the last message. -/
theorem Pending.eq_nil {r : List UInt8} (h : Pending [] r) : r = [] :=
  List.prefix_nil.mp h.start

/-- Pending bytes are a proper prefix of the text of the next message. -/
theorem Pending.of_cons {m : Message} {todo : List Message} {r : List UInt8}
    (h : Pending (m :: todo) r) : r <+: m.text ∧ r ≠ m.text := by
  have hlt := h.incomplete m rfl
  refine ⟨List.prefix_of_prefix_length_le h.start (List.prefix_append _ _) hlt.le, ?_⟩
  rintro rfl
  exact Nat.lt_irrefl _ hlt

variable {loadb : List UInt8 → Option (Json × ℕ)} {msgs : List Message}

/-! ## One round -/

/-- **The inner loop** on bytes that start at a message boundary: it dispatches the
complete messages at the front, and ends either at a parse error or with at most one byte
left behind the last message. -/
theorem parseLoop_spec (hj : JsonLoadb loadb msgs) (buf : List UInt8) (todo : List Message)
    (hsub : todo ⊆ msgs) (fuel jpos : ℕ) (log : List (MonHandler × Json))
    (hrem : buf.drop jpos <+: stream todo) (hpos : jpos < buf.length)
    (hfuel : buf.length < jpos + fuel) :
    ∃ ms todo' r, todo = ms ++ todo' ∧ buf.drop jpos = stream ms ++ r ∧ Pending todo' r ∧
      parseLoop loadb buf fuel jpos log =
        some (jpos + (stream ms).length, decide (ms ≠ [] ∧ r.length ≤ 1), log ++ logOf ms) := by
  induction todo generalizing fuel jpos log with
  | nil =>
    have := List.drop_eq_nil_iff.mp (List.prefix_nil.mp hrem)
    omega
  | cons m todo ih =>
    obtain ⟨fuel, rfl⟩ : ∃ n, fuel = n + 1 := ⟨fuel - 1, by omega⟩
    have hm := hsub List.mem_cons_self
    have htwo := m.two_le_length
    rw [stream_cons] at hrem
    rcases Nat.lt_or_ge (buf.drop jpos).length m.text.length with hlt | hge
    · have hpend : Pending (m :: todo) (buf.drop jpos) := ⟨hrem, by simpa using hlt⟩
      refine ⟨[], m :: todo, buf.drop jpos, rfl, rfl, hpend, ?_⟩
      rw [parseLoop, hj.incomplete m hm _ hpend.of_cons.1 hpend.of_cons.2]
      simp [logOf]
    · obtain ⟨rem, hrem'⟩ : m.text <+: buf.drop jpos :=
        List.prefix_of_prefix_length_le (List.prefix_append _ _) hrem hge
      have hnext : buf.drop (jpos + m.text.length) = rem := by
        rw [← List.drop_drop, ← hrem', List.drop_left]
      have hlen : buf.length = jpos + m.text.length + rem.length := by
        have := congrArg List.length hrem'
        simp only [List.length_append, List.length_drop] at this
        omega
      have hpre : rem <+: stream todo := by
        rw [← hrem'] at hrem
        exact (List.prefix_append_right_inj _).mp hrem
      rw [parseLoop, ← hrem', hj.complete m hm]
      simp only
      by_cases hmore : jpos + m.text.length < buf.length - 1
      · rw [if_pos hmore]
        obtain ⟨ms, todo', r, rfl, hsplit, hpend, hrun⟩ := ih
          (fun x hx => hsub (List.mem_cons_of_mem _ hx)) fuel (jpos + m.text.length)
          (log ++ [(monHandler m.value, m.value)]) (hnext ▸ hpre) (by omega) (by omega)
        have hone : ms = [] → ¬ r.length ≤ 1 := by
          rintro rfl
          have : r = rem := by rw [← hnext, hsplit]; rfl
          rw [this]
          omega
        refine ⟨m :: ms, todo', r, rfl, ?_, hpend, ?_⟩
        · rw [← hnext, hsplit, stream_cons, List.append_assoc]
        · rw [hrun]
          by_cases hms : ms = []
          · simp [hms, hone hms, logOf]
          · simp [hms, logOf, Nat.add_assoc]
      · rw [if_neg hmore]
        refine ⟨[m], todo, rem, rfl, by simp, ⟨hpre, ?_⟩, ?_⟩
        · intro x _
          have := x.two_le_length
          omega
        · simp [logOf]
          omega

@[simp] theorem checkBuflen_buf (s : MonState) (realloc : Bool) :
    (checkBuflen s realloc).buf = s.buf := by
  unfold checkBuflen; split_ifs <;> rfl

@[simp] theorem checkBuflen_log (s : MonState) (realloc : Bool) :
    (checkBuflen s realloc).log = s.log := by
  unfold checkBuflen; split_ifs <;> rfl

/-- With memory available only a buffer of the largest size ends the loop. -/
theorem checkBuflen_status (s : MonState) (h : s.buf.length < jsonBuflenMonmax) :
    (checkBuflen s true).status = s.status := by
  unfold checkBuflen
  rw [if_neg h.ne, if_pos rfl]
  split_ifs <;> rfl

/-- The bytes that stay in the buffer when `ms` were dispatched and `r` is left: a single
byte behind a message is lost. -/
def keep (ms : List Message) (r : List UInt8) : List UInt8 :=
  if ms ≠ [] ∧ r.length = 1 then [] else r

/-- What the inner loop leaves, in terms of the messages it dispatched. -/
theorem leftover_eq_keep (ms : List Message) (r : List UInt8) :
    leftover (stream ms ++ r) (stream ms).length (decide (ms ≠ [] ∧ r.length ≤ 1)) =
      keep ms r := by
  cases ms with
  | nil => simp [leftover, keep]
  | cons m ms =>
    have htext : (stream (m :: ms)).length ≠ 0 := by
      have := m.two_le_length
      simp only [stream_cons, List.length_append]
      omega
    unfold leftover keep
    rcases Nat.lt_trichotomy r.length 1 with hr | hr | hr
    · simp [List.length_eq_zero_iff.mp (Nat.lt_one_iff.mp hr)]
    · simp [hr]
    · have hle : ¬ r.length ≤ 1 := by omega
      simp only [ne_eq, reduceCtorEq, not_false_eq_true, hle, and_false, decide_false,
        Bool.not_false, htext, decide_true, Bool.and_self, ↓reduceIte, hr.ne']
      rw [List.drop_left]

/-- Pending bytes never fill a buffer of the largest size. -/
theorem Pending.length_lt (hmax : ∀ m ∈ msgs, m.text.length ≤ jsonBuflenMonmax)
    {todo : List Message} (hsub : todo ⊆ msgs) {r : List UInt8} (h : Pending todo r) :
    r.length < jsonBuflenMonmax := by
  cases todo with
  | nil => simp [h.eq_nil, jsonBuflenMonmax]
  | cons m todo => exact (h.incomplete m rfl).trans_le (hmax m (hsub List.mem_cons_self))

/-- **One round** of a monitor whose buffer starts at a message boundary. -/
theorem monitorStep_chunk (hj : JsonLoadb loadb msgs)
    (hmax : ∀ m ∈ msgs, m.text.length ≤ jsonBuflenMonmax) {s : MonState}
    (hs : s.status = .running) {todo : List Message} (hsub : todo ⊆ msgs) {c : List UInt8}
    (hc : c ≠ []) (hbuf : s.buf ++ c <+: stream todo) :
    ∃ ms todo' r s', todo = ms ++ todo' ∧ s.buf ++ c = stream ms ++ r ∧ Pending todo' r ∧
      monitorStep loadb s (.chunk c true) = some s' ∧ s'.status = .running ∧
      s'.buf = keep ms r ∧ s'.log = s.log ++ logOf ms := by
  obtain ⟨ms, todo', r, rfl, hsplit, hpend, hrun⟩ := parseLoop_spec hj (s.buf ++ c) todo hsub
    ((s.buf ++ c).length + 1) 0 s.log (by simpa using hbuf)
    (List.length_pos_iff.mpr (by simp [hc])) (by omega)
  have hstep : monitorStep loadb s (.chunk c true) =
      some (checkBuflen { s with buf := keep ms r, log := s.log ++ logOf ms } true) := by
    rw [List.drop_zero] at hsplit
    rw [monitorStep, if_neg (not_not.mpr hs)]
    simp only
    rw [hrun, Option.map_some, Nat.zero_add, hsplit, leftover_eq_keep]
  have hlen : (keep ms r).length < jsonBuflenMonmax := by
    have := hpend.length_lt hmax (fun x hx => hsub (List.mem_append_right _ hx))
    unfold keep
    split_ifs
    · exact Nat.lt_of_le_of_lt (Nat.zero_le _) this
    · exact this
  refine ⟨ms, todo', r, _, rfl, hsplit, hpend, hstep, ?_, by simp, by simp⟩
  rw [checkBuflen_status _ hlen]
  exact hs

/-! ## Whole runs -/

/-- A chunk received after `n` bytes of the stream contains the end of a message and ends
exactly one byte behind it, in the next message. -/
def EndsInOrphan (msgs : List Message) (n : ℕ) (c : List UInt8) : Prop :=
  ∃ ms m todo, msgs = ms ++ m :: todo ∧ n < (stream ms).length ∧
    n + c.length = (stream ms).length + 1

/-- The condition on where the stream is cut: one of the chunks, of which the first starts
at offset `n`, ends in a single byte of a message. -/
def OrphansByte (msgs : List Message) : ℕ → List (List UInt8) → Prop
  | _, [] => False
  | n, c :: cs => EndsInOrphan msgs n c ∨ OrphansByte msgs (n + c.length) cs

/-- A monitor that is in step with the stream when `n` bytes were received and the chunks
`cs` are to come: it dispatched the messages `ms` and holds the start of the next one. -/
structure Sync (msgs : List Message) (n : ℕ) (cs : List (List UInt8)) (ms todo : List Message)
    (s : MonState) : Prop where
  split : msgs = ms ++ todo
  received : n = (stream ms).length + s.buf.length
  rest : s.buf ++ cs.flatten = stream todo
  pending : Pending todo s.buf
  log : s.log = logOf ms
  status : s.status = .running

/-- At the start the monitor is in step with a stream that is still to come. -/
theorem Sync.init {cs : List (List UInt8)} (hcs : cs.flatten = stream msgs) :
    Sync msgs 0 cs [] msgs MonState.init where
  split := rfl
  received := rfl
  rest := hcs
  pending := ⟨List.nil_prefix, fun m _ => Nat.lt_of_lt_of_le Nat.zero_lt_two m.two_le_length⟩
  log := rfl
  status := rfl

/-- A monitor in step that has received the whole stream has dispatched every message. -/
theorem Sync.todo_eq_nil {n : ℕ} {ms todo : List Message} {s : MonState}
    (h : Sync msgs n [] ms todo s) : todo = [] := by
  have hrest : s.buf = stream todo := by simpa using h.rest
  cases todo with
  | nil => rfl
  | cons m todo =>
    have := h.pending.incomplete m rfl
    rw [hrest, stream_cons, List.length_append] at this
    omega

/-- The bytes of a round decide whether its chunk ends in a single byte of a message. -/
theorem endsInOrphan_iff {ms₀ ms todo : List Message} {n : ℕ} {buf c r : List UInt8}
    (hn : n = (stream ms₀).length + buf.length) (hsplit : buf ++ c = stream ms ++ r)
    (hbuf : Pending (ms ++ todo) buf) (hr : Pending todo r) :
    EndsInOrphan (ms₀ ++ (ms ++ todo)) n c ↔ ms ≠ [] ∧ r.length = 1 := by
  have hlen : n + c.length = (stream (ms₀ ++ ms)).length + r.length := by
    have := congrArg List.length hsplit
    simp only [List.length_append, stream_append] at this ⊢
    omega
  constructor
  · rintro ⟨ms₁, m, todo₁, hms, hlt, hend⟩
    have hms₁ : ms₁ = ms₀ ++ ms := by
      rw [← List.append_assoc] at hms
      rcases List.append_eq_append_iff.mp hms with ⟨x, rfl, hx⟩ | ⟨x, hx, hx'⟩
      · cases x with
        | nil => simp
        | cons m' x =>
          have := hr.incomplete m' (by rw [hx]; rfl)
          simp only [stream_append, stream_cons, List.length_append] at hlen hend
          omega
      · cases x with
        | nil => simpa using hx.symm
        | cons m' x =>
          have := m'.two_le_length
          rw [hx] at hlen
          simp only [stream_append, stream_cons, List.length_append] at hlen
          omega
    rw [← hms₁] at hlen
    refine ⟨?_, by omega⟩
    rintro rfl
    rw [hms₁, List.append_nil] at hlt
    omega
  · rintro ⟨hms, hone⟩
    obtain ⟨m, ms, rfl⟩ := List.exists_cons_of_ne_nil hms
    have hfirst := hbuf.incomplete m rfl
    cases todo with
    | nil => simp [hr.eq_nil] at hone
    | cons m' todo =>
      refine ⟨ms₀ ++ m :: ms, m', todo, by simp, ?_, by omega⟩
      simp only [stream_append, stream_cons, List.length_append]
      omega

/-- A monitor that has left the loop takes no further part. -/
theorem monitorRun_of_stopped {s : MonState} (hs : s.status ≠ .running)
    (cs : List (List UInt8)) : monitorRun loadb s cs = some s := by
  induction cs with
  | nil => rfl
  | cons c cs ih => simp [monitorRun, monitorStep, hs, ih]

/-- Bytes without a readable message at any point leave the log as it is. -/
theorem monitorRun_of_unreadable (cs : List (List UInt8)) (s : MonState)
    (h : ∀ q, q <+: s.buf ++ cs.flatten → loadb q = none) :
    ∃ s', monitorRun loadb s cs = some s' ∧ s'.log = s.log := by
  induction cs generalizing s with
  | nil => exact ⟨s, rfl, rfl⟩
  | cons c cs ih =>
    by_cases hs : s.status = .running
    · have hnone : loadb (s.buf ++ c) = none := h _ ⟨cs.flatten, by simp⟩
      have hstep : monitorStep loadb s (.chunk c true) =
          some (checkBuflen { s with buf := s.buf ++ c } true) := by
        simp [monitorStep, hs, parseLoop, hnone, leftover]
      obtain ⟨s', hrun, hlog⟩ := ih (checkBuflen { s with buf := s.buf ++ c } true)
        (by simpa using h)
      exact ⟨s', by rw [monitorRun, hstep, Option.bind_some, hrun], by simpa using hlog⟩
    · exact ⟨s, monitorRun_of_stopped hs _, rfl⟩

/-- The stream behind the first byte of a message cannot be read. -/
theorem loadb_tail_eq_none (hj : JsonLoadb loadb msgs) (m : Message) (rest q : List UInt8)
    (hq : q <+: m.text.tail ++ rest) : loadb q = none := by
  obtain ⟨ws, b, text, htext, hws, hb⟩ := m.shape
  rw [htext, List.tail_cons, List.append_assoc, List.cons_append] at hq
  rcases List.prefix_or_prefix_of_prefix hq (List.prefix_append _ _) with h | ⟨t, rfl⟩
  · exact hj.blank q fun x hx => hws x (h.subset hx)
  · rcases List.prefix_cons_iff.mp ((List.prefix_append_right_inj _).mp hq) with rfl | ⟨t', rfl, -⟩
    · exact hj.blank _ (by simpa using hws)
    · rcases hb with rfl | rfl <;> exact hj.start ws _ t' hws (by decide) (by decide) (by decide)

/-- A round that drops the first byte of a message: no later message is dispatched. -/
theorem monitorRun_of_orphan (hj : JsonLoadb loadb msgs) {m : Message} {todo : List Message}
    {r : List UInt8} (hr : r.length = 1) {cs : List (List UInt8)}
    (hall : r ++ cs.flatten = stream (m :: todo)) {s : MonState} (hbuf : s.buf = []) :
    ∃ s', monitorRun loadb s cs = some s' ∧ s'.log = s.log := by
  have htail : cs.flatten = m.text.tail ++ stream todo := by
    obtain ⟨b, rfl⟩ := List.length_eq_one_iff.mp hr
    obtain ⟨ws, x, text, htext, -, -⟩ := m.shape
    rw [stream_cons, htext] at hall
    rw [htext]
    simpa using (List.cons_eq_cons.mp hall).2
  refine monitorRun_of_unreadable cs s fun q hq => ?_
  rw [hbuf, List.nil_append, htail] at hq
  exact loadb_tail_eq_none hj m _ q hq

/-- **The run of a monitor in step with the stream**, by induction on the chunks: each
round either keeps it in step or loses a byte, and then for good. -/
theorem Sync.run (hj : JsonLoadb loadb msgs)
    (hmax : ∀ m ∈ msgs, m.text.length ≤ jsonBuflenMonmax) (cs : List (List UInt8)) (n : ℕ)
    (ms todo : List Message) (s : MonState) (h : Sync msgs n cs ms todo s)
    (hfits : Fits loadb s cs) :
    ∃ s', monitorRun loadb s cs = some s' ∧ (s'.log = logOf msgs ↔ ¬ OrphansByte msgs n cs) := by
  induction cs generalizing n ms todo s with
  | nil => exact ⟨s, rfl, by simp [h.log, h.split, h.todo_eq_nil, OrphansByte]⟩
  | cons c cs ih =>
    have hrest : s.buf ++ c ++ cs.flatten = stream todo := by simpa using h.rest
    obtain ⟨ms', todo', r, s₁, rfl, hsplit, hpend, hstep, hs₁, hbuf, hlog⟩ :=
      monitorStep_chunk hj hmax h.status (by simp [h.split]) hfits.1 ⟨_, hrest⟩
    have hrest' : r ++ cs.flatten = stream todo' := by
      rw [hsplit, stream_append, List.append_assoc] at hrest
      exact List.append_cancel_left hrest
    have horphan : EndsInOrphan msgs n c ↔ ms' ≠ [] ∧ r.length = 1 := by
      rw [h.split]
      exact endsInOrphan_iff h.received hsplit h.pending hpend
    simp only [monitorRun, hstep, Option.bind_some, OrphansByte, horphan]
    by_cases hlost : ms' ≠ [] ∧ r.length = 1
    · cases todo' with
      | nil => simp [hpend.eq_nil] at hlost
      | cons m todo' =>
        obtain ⟨s', hrun, hlog'⟩ := monitorRun_of_orphan hj hlost.2 hrest'
          (hbuf.trans (if_pos hlost))
        refine ⟨s', hrun, ?_⟩
        rw [hlog', hlog, h.log, ← logOf_append, h.split]
        simp [hlost, logOf]
    · have hkeep : s₁.buf = r := hbuf.trans (if_neg hlost)
      have hsync : Sync msgs (n + c.length) cs (ms ++ ms') todo' s₁ := by
        refine ⟨by simp [h.split], ?_, by rw [hkeep, hrest'], hkeep ▸ hpend,
          by rw [hlog, h.log, logOf_append], hs₁⟩
        have := congrArg List.length hsplit
        simp only [List.length_append, stream_append, hkeep, h.received] at this ⊢
        omega
      simpa [hlost] using ih _ _ _ _ hsync (hfits.2.2 _ hstep)

/-- **Main theorem.** On every stream of messages that fit the largest buffer and every way
of cutting it into chunks that `recv` can return, the loop ends every round, and it
dispatches exactly the messages of the stream, each once and in order, if and only if no
chunk that contains the end of a message ends one byte behind it. -/
theorem monitorRun_log_iff (loadb : List UInt8 → Option (Json × ℕ)) (msgs : List Message)
    (cs : List (List UInt8)) (hj : JsonLoadb loadb msgs)
    (hmax : ∀ m ∈ msgs, m.text.length ≤ jsonBuflenMonmax) (hcs : cs.flatten = stream msgs)
    (hfits : Fits loadb MonState.init cs) :
    ∃ s, monitorRun loadb MonState.init cs = some s ∧
      (s.log = logOf msgs ↔ ¬ OrphansByte msgs 0 cs) :=
  Sync.run hj hmax cs 0 [] msgs MonState.init (Sync.init hcs) hfits

/-! ## Two empty objects -/

/-- The shortest message. -/
def emptyObject : Message where
  text := [0x7b, 0x7d]
  value := .object []
  shape := ⟨[], 0x7d, [], rfl, by simp, .inr rfl⟩

/-- A parser that knows only the shortest message. -/
def loadEmptyObject : List UInt8 → Option (Json × ℕ)
  | 0x7b :: 0x7d :: _ => some (.object [], 2)
  | _ => none

theorem loadEmptyObject_of_ne {b : UInt8} (hb : b ≠ 0x7b) (rest : List UInt8) :
    loadEmptyObject (b :: rest) = none := by
  unfold loadEmptyObject
  split <;> simp_all

/-- It parses streams of empty objects as the loop expects. -/
theorem jsonLoadb_loadEmptyObject (n : ℕ) :
    JsonLoadb loadEmptyObject (List.replicate n emptyObject) where
  complete m hm rest := by rw [List.eq_of_mem_replicate hm]; rfl
  incomplete m hm p hp hne := by
    rw [List.eq_of_mem_replicate hm] at hp hne
    rcases List.prefix_cons_iff.mp hp with rfl | ⟨t, rfl, ht⟩
    · rfl
    · rcases List.prefix_cons_iff.mp ht with rfl | ⟨t', rfl, ht'⟩
      · rfl
      · rw [List.prefix_nil.mp ht'] at hne
        exact absurd rfl hne
  start ws b rest hws _ hb _ := by
    cases ws with
    | nil => exact loadEmptyObject_of_ne hb rest
    | cons x ws =>
      refine loadEmptyObject_of_ne ?_ _
      rintro rfl
      exact absurd (hws _ List.mem_cons_self) (by decide)
  blank ws hws := by
    cases ws with
    | nil => rfl
    | cons x ws =>
      refine loadEmptyObject_of_ne ?_ _
      rintro rfl
      exact absurd (hws _ List.mem_cons_self) (by decide)

/-- Two messages, the first cut in half. -/
theorem monitorRun_log_split :
    ∃ s, monitorRun loadEmptyObject MonState.init [[0x7b], [0x7d, 0x7b, 0x7d]] = some s ∧
      (s.log = logOf [emptyObject, emptyObject] ↔
        ¬ OrphansByte [emptyObject, emptyObject] 0 [[0x7b], [0x7d, 0x7b, 0x7d]]) :=
  monitorRun_log_iff loadEmptyObject [emptyObject, emptyObject] _ (jsonLoadb_loadEmptyObject 2)
    (by simp [emptyObject, jsonBuflenMonmax]) rfl
    ⟨by simp, by decide, fun s' h => by
      cases h
      exact ⟨by simp, by decide, fun _ _ => trivial⟩⟩

/-- The same two messages, cut one byte into the second: it is never dispatched. -/
theorem monitorRun_loses_message :
    JsonLoadb loadEmptyObject [emptyObject, emptyObject] ∧
      ([[0x7b, 0x7d, 0x7b], [0x7d]] : List (List UInt8)).flatten =
        stream [emptyObject, emptyObject] ∧
      Fits loadEmptyObject MonState.init [[0x7b, 0x7d, 0x7b], [0x7d]] ∧
      ∃ s, monitorRun loadEmptyObject MonState.init [[0x7b, 0x7d, 0x7b], [0x7d]] = some s ∧
        s.log = logOf [emptyObject] ∧ s.log ≠ logOf [emptyObject, emptyObject] := by
  refine ⟨jsonLoadb_loadEmptyObject 2, rfl, ⟨by simp, by decide, fun s' h => ?_⟩, _, rfl, rfl,
    fun h => absurd (congrArg List.length h) (by decide)⟩
  cases h
  exact ⟨by simp, by decide, fun _ _ => trivial⟩

end Srn
