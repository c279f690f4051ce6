import Srn.Flowstate.Reject
import Srn.Lib.Pool
import Srn.Lib.Transition
import Srn.Proxy.Edns

/-!
# Srn.Proxy.Pipeline

The DNS proxy as a whole, from the datagram of an application to the datagram that answers it.  A
query passes from thread to thread:

* `server_producer_process` reads a datagram and puts it in `queries`;
* `server_consumer_main` parses it and asks the DNS server;
* `client_callback` keeps the answer in `inner_queue`, and `client_producer_main` moves it to
  `replies` when it has an address;
* `client_consumer_main` gives it a request id, puts it in `replies_waiting_controller` and inserts
  a row in `FlowReq`;
* `read_flowreq` and `read_flowstate` take it out when the controller has decided, and answer.

All five run concurrently, the DNS server answers in any order, and the rows of the database change
at any time after they were inserted.  The runs end with `mqueue_close`, and a callback is one step;
`Srn.Proxy` has what a close and two callbacks at once do.  A reply that waits for room in the next
queue counts to the one it was in, and a step that touches memory it does not own has no successor.
-/

namespace Srn

/-! ## What is passed on

A character array is given by the text in it, which `strncpy` copies to another array of `SLEN + 1`
characters; a text with more than `SLEN` has no end there. -/

/-- `struct query`, with the port of its sender. -/
structure QueuedQuery where
  port : BitVec 16
  query : Query
  deriving DecidableEq

/-- `struct callback_args` of the proxy. -/
structure QueryArgs where
  qid : BitVec 16
  addr : In6Addr
  port : BitVec 16
  bandwidthReq : BitVec 32
  latencyReq : BitVec 32
  appNameReq : List Dns.Byte
  deriving DecidableEq

/-- `struct reply`. -/
structure Reply (padding : Fin 8) where
  addr : In6Addr
  port : BitVec 16
  bandwidthReq : BitVec 32
  latencyReq : BitVec 32
  appNameReq : List Dns.Byte
  ovsdbReqUuid : List Char
  destination : List Dns.Byte
  destinationAddr : List Char
  buf : ReplyBuf padding

/-- The columns of `FlowReq` that are sent to the database. -/
structure FlowreqRow where
  requestId : List Char
  destination : List Dns.Byte
  dstaddr : List Char
  source : List Dns.Byte
  srcaddr : List Char
  bandwidth : Int32
  delay : Int32
  proxy : List Char
  status : ReqStatus
  deriving DecidableEq

/-- The libraries, the configuration and the id of the client consumer.  The function `parseAaaa` is
`ares_parse_aaaa_reply` with the name and the addresses of the host. -/
structure ProxyEnv where
  expandName : List Dns.Byte → ℕ → Option (List Dns.Byte × ℕ)
  inetNtop : In6Addr → AddrText
  inetPton : List Char → Option In6Addr
  parseAaaa : List Dns.Byte → Option (List Dns.Byte × List In6Addr)
  loads : List Char → Option Json
  threadId : List Char
  routerName : List Char
  maxQueries : ℕ

variable {padding : Fin 8}

/-- What `server_consumer_main` makes of a query: `none` if the memory it reads is not its own, and
`some none` if it drops the query.  Parsing changes neither the sender nor the datagram. -/
def ProxyEnv.forward (env : ProxyEnv) (q : QueuedQuery) : Option (Option QueryArgs) :=
  match dnsParseEdns env.expandName env.inetNtop q.query with
  | .error _ => none
  | .ok (none, _) => some none
  | .ok (some _, query) => (Dns.word16At q.query.data 0).map fun qid =>
    some ⟨qid, q.query.addr, q.port, query.bandwidthReq, query.latencyReq,
      query.appNameReq.takeWhile fun c => c ≠ 0⟩

/-- What a query asks for, if it is forwarded. -/
def ProxyEnv.ask (env : ProxyEnv) (q : QueuedQuery) : Option QueryArgs := (env.forward q).join

namespace Reply

/-- `client_callback`, in what `malloc` returned. -/
def clientCallback (args : QueryArgs) (abuf : List Dns.Byte) (reply : Reply padding) :
    Option (Reply padding) := do
  -- `DNS_HEADER_ARCOUNT(abuf)` is kept in a field that nothing reads.
  let _ ← Dns.word16At abuf 10
  let buf ← reply.buf.clientCallback args.qid abuf
  return { reply with
    addr := args.addr
    port := args.port
    bandwidthReq := args.bandwidthReq
    latencyReq := args.latencyReq
    appNameReq := args.appNameReq
    buf }

/-- `parse_aaaa_reply`: `none` if the host has no address, whose text is then read through a null
pointer, and `some none` for a return value of -1. -/
def parseAaaaReply (env : ProxyEnv) (reply : Reply padding) : Option (Option (Reply padding)) :=
  match env.parseAaaa (reply.buf.mem.take reply.buf.dataLength) with
  | none => some none
  | some (name, addrs) => addrs.head?.map fun addr =>
    some { reply with
      destination := name.take (slen + 1)
      destinationAddr := (env.inetNtop addr).chars }

/-- The row that `client_consumer_main` inserts; `none` if a text has no end. -/
def row (env : ProxyEnv) (reply : Reply padding) : Option FlowreqRow :=
  if reply.destination.length ≤ slen ∧ reply.appNameReq.length ≤ slen then
    some {
      requestId := reply.ovsdbReqUuid
      destination := reply.destination
      dstaddr := reply.destinationAddr
      source := reply.appNameReq
      srcaddr := (env.inetNtop reply.addr).chars
      bandwidth := Int32.ofBitVec reply.bandwidthReq
      delay := Int32.ofBitVec reply.latencyReq
      proxy := env.routerName
      status := .pending }
  else none

/-- The arguments with which a reply was asked for. -/
def args (reply : Reply padding) : QueryArgs where
  qid := (Dns.word16At reply.buf.mem 0).getD 0
  addr := reply.addr
  port := reply.port
  bandwidthReq := reply.bandwidthReq
  latencyReq := reply.latencyReq
  appNameReq := reply.appNameReq

end Reply

/-- The text `"%s-%ld"` of the thread id and a counter of 64 bits. -/
def ProxyEnv.requestId (env : ProxyEnv) (reqCounter : ℕ) : List Char :=
  (env.threadId ++ '-' :: CString.ld (BitVec.ofNat 64 reqCounter).toInt).take slen

/-! ## The threads -/

/-- A reply that a callback has taken, and the datagram it sent. -/
structure Taken (padding : Fin 8) where
  reply : Reply padding
  sent : Option (List Dns.Byte)

/-- The queues, the queries that the DNS server has not answered, the reply that the client consumer
is at, and the rows it has inserted.  The rest is history: the queries that were received, the
replies that were taken, and what the queries and replies asked for that were dropped. -/
structure Pipeline (padding : Fin 8) where
  queries : List QueuedQuery
  pending : List QueryArgs
  inner : List (Reply padding)
  replies : List (Reply padding)
  inserting : Option (Reply padding)
  reqCounter : ℕ
  waiting : List (Reply padding)
  rows : List FlowreqRow
  received : List QueuedQuery
  taken : List (Taken padding)
  dropped : List QueryArgs

/-- One step of a thread. -/
inductive PipelineEvent (padding : Fin 8) where
  /-- `server_producer_process`, with what `malloc` returned. -/
  | recv (malloc : Query) (addr : In6Addr) (port : BitVec 16) (datagram : List Dns.Byte)
  /-- A round of `server_consumer_main`; it may fail to allocate or to lock. -/
  | forward (ok : Bool)
  /-- c-ares calls `client_callback` for a query, with an answer and what `malloc` returned, or with
  neither. -/
  | resolve (i : ℕ) (answer : Option (Reply padding × List Dns.Byte))
  /-- A round of the loop of `client_producer_main` over the replies. -/
  | transfer
  /-- A round of `client_consumer_main` up to its `mqueue_append`. -/
  | take
  /-- The rest of the round: the row is committed, or the transaction fails. -/
  | insert (ok : Bool)
  /-- `read_flowreq`, for a row that is refused. -/
  | reject (requestId : List Char)
  /-- `read_flowstate`, for a row that is running. -/
  | accept (entry : SrdbEntry FlowField)

namespace Pipeline

/-- No query yet. -/
def init : Pipeline padding := ⟨[], [], [], [], none, 0, [], [], [], [], []⟩

/-- A row with the request id may change: the client consumer has inserted it, or another thread,
which has another id. -/
def Notifies (env : ProxyEnv) (s : Pipeline padding) (requestId : List Char) : Prop :=
  requestId ∈ s.rows.map FlowreqRow.requestId ∨ ¬ env.threadId ++ ['-'] <+: requestId

instance (env : ProxyEnv) (s : Pipeline padding) (requestId : List Char) :
    Decidable (s.Notifies env requestId) :=
  inferInstanceAs (Decidable (_ ∨ ¬ _))

/-- The callbacks walk the queue for the reply of a request; if there is one, they remove it and
answer. -/
def answer (env : ProxyEnv) (s : Pipeline padding) (requestId : List Char)
    (send : Reply padding → Option (Option (List Dns.Byte))) : Option (Pipeline padding) :=
  if s.Notifies env requestId then
    match s.waiting.find? fun reply => reply.ovsdbReqUuid = requestId with
    | none => some s
    | some reply => (send reply).map fun sent => { s with
        waiting := s.waiting.eraseP fun reply => reply.ovsdbReqUuid = requestId
        taken := s.taken ++ [⟨reply, sent⟩] }
  else none

/-- One step.  `none` when the step is not enabled. -/
def step (env : ProxyEnv) (s : Pipeline padding) :
    PipelineEvent padding → Option (Pipeline padding)
  | .recv malloc addr port datagram =>
    if s.queries.length < env.maxQueries then
      let q : QueuedQuery := ⟨port, serverProducerProcess malloc addr datagram⟩
      some { s with queries := s.queries ++ [q], received := s.received ++ [q] }
    else none
  | .forward ok =>
    match s.queries with
    | [] => none
    | q :: queries => (env.forward q).map fun args => { s with
        queries
        pending := s.pending ++ if ok then args.toList else []
        dropped := s.dropped ++ if ok then [] else args.toList }
  | .resolve i answer =>
    match s.pending[i]?, answer with
    | none, _ => none
    | some args, none => some { s with
        pending := s.pending.eraseIdx i
        dropped := s.dropped ++ [args] }
    | some args, some (malloc, abuf) =>
      (malloc.clientCallback args abuf).map fun reply => { s with
        pending := s.pending.eraseIdx i
        inner := s.inner ++ [reply] }
  | .transfer =>
    match s.inner with
    | [] => none
    | reply :: inner =>
      match reply.parseAaaaReply env with
      | none => none
      | some none => some { s with inner, dropped := s.dropped ++ [reply.args] }
      | some (some reply) =>
        if s.replies.length < env.maxQueries then
          some { s with inner, replies := s.replies ++ [reply] }
        else none
  | .take =>
    match s.inserting, s.replies with
    | none, reply :: replies =>
      if s.waiting.length < env.maxQueries then
        let reply := { reply with ovsdbReqUuid := env.requestId s.reqCounter }
        some { s with
          replies
          waiting := s.waiting ++ [reply]
          inserting := some reply }
      else none
    | _, _ => none
  | .insert ok =>
    match s.inserting with
    | none => none
    | some reply => (reply.row env).map fun row => { s with
        inserting := none
        rows := if ok then s.rows ++ [row] else s.rows
        reqCounter := s.reqCounter + 1 }
  | .reject requestId =>
    s.answer env requestId fun reply => reply.buf.rejected.map some
  | .accept entry =>
    s.answer env (entry.str .requestId) fun reply =>
      (reply.buf.readFlowstate env.loads env.inetPton entry).map ReplyBuf.sent

/-- The state after a sequence of steps. -/
abbrev run (env : ProxyEnv) :
    Pipeline padding → List (PipelineEvent padding) → Option (Pipeline padding) :=
  Transition.run (step env)

end Pipeline

/-! ## What is kept of a reply -/

namespace ReplyBuf

variable {n : ℕ} {r r' r₁ r₂ : ReplyBuf padding}

/-- The first `n` bytes stay. -/
structure Keeps (n : ℕ) (r r' : ReplyBuf padding) : Prop where
  mem : r'.mem.take n = r.mem.take n
  dataLength : n ≤ r.dataLength → n ≤ r'.dataLength

theorem Keeps.rfl : Keeps n r r := ⟨Eq.refl _, id⟩

theorem Keeps.trans (h : Keeps n r r₁) (h' : Keeps n r₁ r₂) : Keeps n r r₂ :=
  ⟨h'.mem.trans h.mem, fun hn => h'.dataLength (h.dataLength hn)⟩

theorem write_eq_some_iff {pos : ℕ} {bytes : List Dns.Byte} :
    r.write pos bytes = some r' ↔ pos + bytes.length ≤ dataCapacity padding ∧
      r'.dataLength = r.dataLength ∧
      r'.mem = r.mem.take pos ++ bytes ++ r.mem.drop (pos + bytes.length) := by
  by_cases hfits : pos + bytes.length ≤ dataCapacity padding
  · obtain ⟨r₁, hwrite, hlength, hmem⟩ := write_eq_some (r := r) hfits
    simp [hwrite, hfits, ReplyBuf.ext_iff, hlength, hmem, and_comm, eq_comm]
  · simp [write_eq_none (r := r) (Nat.lt_of_not_le hfits), hfits]

theorem keeps_write {pos : ℕ} {bytes : List Dns.Byte} (h : r.write pos bytes = some r')
    (hpos : n ≤ pos) : Keeps n r r' := by
  have hcap := r.length_mem
  obtain ⟨hfits, hlength, hmem⟩ := write_eq_some_iff.mp h
  refine ⟨?_, fun hn => hlength ▸ hn⟩
  rw [hmem, List.append_assoc, List.take_append_of_le_length (by rw [List.length_take]; omega),
    List.take_take, Nat.min_eq_left hpos]

/-- **Run lemma** of the loop that copies the name. -/
theorem keeps_copyName {fuel j k : ℕ} (h : copyName fuel j r = some (r', k))
    (hn : n ≤ r.dataLength) : Keeps n r r' := by
  induction fuel generalizing j r with
  | zero => contradiction
  | succ fuel ih =>
    obtain ⟨c, -, h⟩ := Option.bind_eq_some_iff.mp h
    obtain ⟨r₁, hwrite, h⟩ := Option.bind_eq_some_iff.mp h
    have hkeeps := keeps_write hwrite (show n ≤ r.dataLength + j by omega)
    split at h
    · obtain ⟨rfl, -⟩ := Prod.mk.inj (Option.some.inj h)
      exact hkeeps
    · exact hkeeps.trans (ih h (hkeeps.dataLength hn))

theorem keeps_startRecord (h : r.startRecord = some r') (hn : n ≤ 10) (hr : n ≤ r.dataLength) :
    Keeps n r r' := by
  obtain ⟨arcount, -, h⟩ := Option.bind_eq_some_iff.mp h
  obtain ⟨r₁, hwrite, h⟩ := Option.bind_eq_some_iff.mp h
  obtain ⟨⟨r₂, j⟩, hcopy, h⟩ := Option.bind_eq_some_iff.mp h
  have hkeeps := keeps_write hwrite hn
  have hname := hkeeps.trans (keeps_copyName hcopy (hkeeps.dataLength hr))
  rw [← Option.some.inj h]
  exact ⟨hname.mem, fun hr => Nat.le_trans (hname.dataLength hr) (by simp; omega)⟩

variable {inetPton : List Char → Option In6Addr}

theorem keeps_fillRecord {fields : SrhFields} {out : Except (ReplyBuf padding) (ReplyBuf padding)}
    (h : r.fillRecord inetPton fields = some out) (hn : n ≤ r.dataLength) :
    Keeps n r (atEnd out) := by
  obtain ⟨r₁, hfixed, h⟩ := Option.bind_eq_some_iff.mp h
  obtain ⟨r₂, hpriority, h⟩ := Option.bind_eq_some_iff.mp h
  have hkeeps := (keeps_write hfixed hn).trans (keeps_write hpriority (by omega))
  split at h
  · rw [← Option.some.inj h]
    exact hkeeps
  · obtain ⟨r₃, haddr, h⟩ := Option.bind_eq_some_iff.mp h
    obtain ⟨r₄, hlen, h⟩ := Option.bind_eq_some_iff.mp h
    have hkeeps := (hkeeps.trans (keeps_write haddr (by omega))).trans
      (keeps_write hlen (by omega))
    split at h
    · rw [← Option.some.inj h]
      exact hkeeps
    · obtain ⟨r₅, hbsid, h⟩ := Option.bind_eq_some_iff.mp h
      have hkeeps := hkeeps.trans (keeps_write hbsid (by omega))
      rw [← Option.some.inj h]
      exact ⟨hkeeps.mem, fun hn => by simp only [atEnd]; omega⟩

theorem keeps_appendRecord {provider : Json} {bsid : Option Json}
    {out : Except (ReplyBuf padding) (ReplyBuf padding)}
    (h : r.appendRecord inetPton provider bsid = some out) (hn : n ≤ 10) (hr : n ≤ r.dataLength) :
    Keeps n r (atEnd out) := by
  unfold appendRecord at h
  split at h
  · rw [← Option.some.inj h]
    exact Keeps.rfl
  · obtain ⟨r₁, hstart, h⟩ := Option.bind_eq_some_iff.mp h
    have hkeeps := keeps_startRecord hstart hn hr
    exact hkeeps.trans (keeps_fillRecord h (hkeeps.dataLength hr))

/-- **Run lemma** of the loop over the providers. -/
theorem keeps_appendRecords {bsids : Option Json} {i : ℕ} {providers : List Json}
    {out : Except (ReplyBuf padding) (ReplyBuf padding)}
    (h : r.appendRecords inetPton bsids i providers = some out) (hn : n ≤ 10)
    (hr : n ≤ r.dataLength) : Keeps n r (atEnd out) := by
  induction providers generalizing i r with
  | nil =>
    rw [← Option.some.inj h]
    exact Keeps.rfl
  | cons provider providers ih =>
    obtain ⟨round, hround, h⟩ := Option.bind_eq_some_iff.mp h
    have hkeeps := keeps_appendRecord hround hn hr
    cases round with
    | error r₁ =>
      rw [← Option.some.inj h]
      exact hkeeps
    | ok r₁ => exact hkeeps.trans (ih h (hkeeps.dataLength hr))

theorem keeps_reject (h : r.reject = some r') (hn : n ≤ 3) :
    Keeps n r r' ∧ 12 < r'.dataLength := by
  obtain ⟨flags, -, h⟩ := Option.bind_eq_some_iff.mp h
  obtain ⟨r₁, hflags, h⟩ := Option.bind_eq_some_iff.mp h
  obtain ⟨r₂, hancount, h⟩ := Option.bind_eq_some_iff.mp h
  obtain ⟨r₃, hnscount, h⟩ := Option.bind_eq_some_iff.mp h
  obtain ⟨r₄, harcount, h⟩ := Option.bind_eq_some_iff.mp h
  obtain ⟨i, -, h⟩ := Option.bind_eq_some_iff.mp h
  have hkeeps := (((keeps_write hflags hn).trans (keeps_write hancount (by omega))).trans
    (keeps_write hnscount (by omega))).trans (keeps_write harcount (by omega))
  rw [← Option.some.inj h]
  exact ⟨⟨hkeeps.mem, fun _ => by simp only; omega⟩, by simp only; omega⟩

/-- The first two bytes of what is sent are those of the reply. -/
theorem word16At_take (h : Keeps 2 r r') (hlength : 2 ≤ r'.dataLength) :
    Dns.word16At (r'.mem.take r'.dataLength) 0 = Dns.word16At r.mem 0 := by
  have hfirst := congrArg (fun bytes => Dns.word16At bytes 0) h.mem
  have htake : ∀ k, 2 ≤ k → ∀ bytes, Dns.word16At (List.take k bytes) 0 = Dns.word16At bytes 0 := by
    intro k hk bytes
    unfold Dns.word16At
    rw [List.getElem?_take_of_lt (by omega), List.getElem?_take_of_lt (by omega)]
  rw [htake _ hlength]
  simpa only [htake 2 (Nat.le_refl 2)] using hfirst

/-- A reject has the identifier of the reply. -/
theorem word16At_rejected {bytes : List Dns.Byte} (h : r.rejected = some bytes) :
    Dns.word16At bytes 0 = Dns.word16At r.mem 0 := by
  obtain ⟨r', hreject, h⟩ := Option.bind_eq_some_iff.mp h
  split at h
  · rw [← Option.some.inj h]
    obtain ⟨hkeeps, hlength⟩ := keeps_reject hreject (show 2 ≤ 3 by decide)
    exact word16At_take hkeeps (by omega)
  · contradiction

/-- So has an answer. -/
theorem word16At_sent {loads : List Char → Option Json} {entry : SrdbEntry FlowField}
    {out : Except (ReplyBuf padding) (ReplyBuf padding)} {bytes : List Dns.Byte}
    (h : r.readFlowstate loads inetPton entry = some out) (hr : 2 ≤ r.dataLength)
    (hsent : sent out = some bytes) : Dns.word16At bytes 0 = Dns.word16At r.mem 0 := by
  have hkeeps := keeps_appendRecords h (show 2 ≤ 10 by decide) hr
  cases out with
  | error r' => contradiction
  | ok r' =>
    rw [← Option.some.inj hsent]
    exact word16At_take hkeeps (hkeeps.dataLength hr)

end ReplyBuf

/-- The arguments of a query have its sender and its identifier. -/
theorem ProxyEnv.forward_eq {env : ProxyEnv} {q : QueuedQuery} {args : QueryArgs}
    (h : env.forward q = some (some args)) : args.addr = q.query.addr ∧ args.port = q.port ∧
      Dns.word16At q.query.data 0 = some args.qid := by
  unfold forward at h
  split at h
  · contradiction
  · exact absurd (Option.some.inj h) (by simp)
  · obtain ⟨qid, hqid, heq⟩ := Option.map_eq_some_iff.mp h
    obtain rfl := Option.some.inj heq
    exact ⟨rfl, rfl, hqid⟩

/-- A reply has the arguments of its query, and a header. -/
theorem Reply.clientCallback_eq {args : QueryArgs} {abuf : List Dns.Byte}
    {malloc reply : Reply padding} (h : malloc.clientCallback args abuf = some reply) :
    reply.args = args ∧ 2 ≤ reply.buf.dataLength := by
  obtain ⟨arcount, harcount, h⟩ := Option.bind_eq_some_iff.mp h
  obtain ⟨buf, hbuf, h⟩ := Option.bind_eq_some_iff.mp h
  have hheader := Dns.exists_word16At_iff.mp ⟨arcount, harcount⟩
  obtain ⟨buf₁, hcopy, hqid⟩ := Option.bind_eq_some_iff.mp hbuf
  obtain ⟨-, hlength₁, -⟩ := ReplyBuf.write_eq_some_iff.mp hcopy
  obtain ⟨-, hlength, hmem⟩ := ReplyBuf.write_eq_some_iff.mp hqid
  have hword : Dns.word16At buf.mem 0 = some args.qid := by
    simp [hmem, Dns.word16, Dns.word16At, Dns.append_extractLsb']
  obtain rfl := Option.some.inj h
  refine ⟨?_, ?_⟩
  · simp [Reply.args, hword]
  · simp only [hlength, hlength₁]
    omega

/-- The address of the host changes nothing of the arguments. -/
theorem Reply.parseAaaaReply_eq {env : ProxyEnv} {reply reply' : Reply padding}
    (h : reply.parseAaaaReply env = some (some reply')) :
    reply'.args = reply.args ∧ reply'.buf = reply.buf := by
  unfold parseAaaaReply at h
  split at h
  · exact absurd (Option.some.inj h) (by simp)
  · obtain ⟨addr, -, heq⟩ := Option.map_eq_some_iff.mp h
    obtain rfl := Option.some.inj heq
    exact ⟨rfl, rfl⟩

/-! ## What a step can do -/

namespace Pipeline

variable {env : ProxyEnv} {s s' : Pipeline padding}

/-- What a step can do, with its guard. -/
inductive Change (env : ProxyEnv) (s : Pipeline padding) : Pipeline padding → Prop
  | recv (q : QueuedQuery) :
      Change env s { s with queries := s.queries ++ [q], received := s.received ++ [q] }
  | forward {q queries args} : s.queries = q :: queries → env.forward q = some (some args) →
      Change env s { s with queries, pending := s.pending ++ [args] }
  | dropQuery {q queries} : s.queries = q :: queries →
      Change env s { s with queries, dropped := s.dropped ++ (env.ask q).toList }
  | lose {i args} : s.pending[i]? = some args →
      Change env s { s with pending := s.pending.eraseIdx i, dropped := s.dropped ++ [args] }
  | resolve {i args abuf reply} {malloc : Reply padding} : s.pending[i]? = some args →
      malloc.clientCallback args abuf = some reply →
      Change env s { s with pending := s.pending.eraseIdx i, inner := s.inner ++ [reply] }
  | dropReply {reply inner} : s.inner = reply :: inner →
      Change env s { s with inner, dropped := s.dropped ++ [reply.args] }
  | transfer {reply reply' inner} : s.inner = reply :: inner →
      reply.parseAaaaReply env = some (some reply') →
      Change env s { s with inner, replies := s.replies ++ [reply'] }
  | take {reply replies reply'} : s.inserting = none → s.waiting.length < env.maxQueries →
      s.replies = reply :: replies →
      reply' = { reply with ovsdbReqUuid := env.requestId s.reqCounter } →
      Change env s { s with
        replies
        waiting := s.waiting ++ [reply']
        inserting := some reply' }
  | insert {reply row rows} : s.inserting = some reply → reply.row env = some row →
      rows = s.rows ++ [row] ∨ rows = s.rows →
      Change env s { s with inserting := none, rows, reqCounter := s.reqCounter + 1 }
  | unknown : Change env s s
  | answer {before after : List (Reply padding)} {reply sent} :
      s.waiting = before ++ reply :: after → s.Notifies env reply.ovsdbReqUuid →
      (∀ bytes, sent = some bytes → 2 ≤ reply.buf.dataLength →
        Dns.word16At bytes 0 = Dns.word16At reply.buf.mem 0) →
      Change env s { s with waiting := before ++ after, taken := s.taken ++ [⟨reply, sent⟩] }

theorem change_answer {requestId : List Char}
    {send : Reply padding → Option (Option (List Dns.Byte))}
    (hsend : ∀ reply sent, send reply = some sent → ∀ bytes, sent = some bytes →
      2 ≤ reply.buf.dataLength → Dns.word16At bytes 0 = Dns.word16At reply.buf.mem 0)
    (h : s.answer env requestId send = some s') : Change env s s' := by
  unfold answer at h
  split at h
  · next hnotifies =>
    split at h
    · obtain rfl := Option.some.inj h
      exact .unknown
    · next reply hfind =>
      obtain ⟨sent, hsent, rfl⟩ := Option.map_eq_some_iff.mp h
      obtain ⟨hid, before, after, hsplit, hbefore⟩ := List.find?_eq_some_iff_append.mp hfind
      obtain rfl := of_decide_eq_true hid
      have herase : s.waiting.eraseP (fun r => r.ovsdbReqUuid = reply.ovsdbReqUuid) =
          before ++ after := by
        rw [hsplit, List.eraseP_append_right _ (fun a ha => by simpa using hbefore a ha),
          List.eraseP_cons_of_pos (by simp)]
      rw [herase]
      exact .answer hsplit hnotifies (hsend reply sent hsent)
  · contradiction

theorem change_of_step {e : PipelineEvent padding} (h : step env s e = some s') :
    Change env s s' := by
  cases e with
  | recv malloc addr port datagram =>
    simp only [step] at h
    split at h
    · obtain rfl := Option.some.inj h
      exact .recv _
    · contradiction
  | forward ok =>
    simp only [step] at h
    split at h
    · contradiction
    · next q queries hqueries =>
      obtain ⟨args, hargs, rfl⟩ := Option.map_eq_some_iff.mp h
      have hdrop : Change env s _ := .dropQuery hqueries
      rw [show env.ask q = args by simp [ProxyEnv.ask, hargs]] at hdrop
      cases ok with
      | false => simpa using hdrop
      | true =>
        cases args with
        | none => simpa using hdrop
        | some args => simpa using Change.forward hqueries hargs
  | resolve i answer =>
    simp only [step] at h
    split at h
    · contradiction
    · next args hargs =>
      obtain rfl := Option.some.inj h
      exact .lose hargs
    · next args malloc abuf hargs =>
      obtain ⟨reply, hreply, rfl⟩ := Option.map_eq_some_iff.mp h
      exact .resolve hargs hreply
  | transfer =>
    simp only [step] at h
    split at h
    · contradiction
    · next reply inner hinner =>
      split at h
      · contradiction
      · obtain rfl := Option.some.inj h
        exact .dropReply hinner
      · next reply' hparsed =>
        split at h
        · obtain rfl := Option.some.inj h
          exact .transfer hinner hparsed
        · contradiction
  | take =>
    simp only [step] at h
    split at h
    · next reply replies hinserting hreplies =>
      split at h
      · next hroom =>
        obtain rfl := Option.some.inj h
        exact .take hinserting hroom hreplies rfl
      · contradiction
    · contradiction
  | insert ok =>
    simp only [step] at h
    split at h
    · contradiction
    · next reply hinserting =>
      obtain ⟨row, hrow, rfl⟩ := Option.map_eq_some_iff.mp h
      refine .insert hinserting hrow ?_
      cases ok <;> simp
  | reject requestId =>
    refine change_answer (fun reply sent hsent bytes hbytes _ => ?_) h
    obtain ⟨bytes', hrejected, rfl⟩ := Option.map_eq_some_iff.mp hsent
    obtain rfl := Option.some.inj hbytes
    exact ReplyBuf.word16At_rejected hrejected
  | accept entry =>
    refine change_answer (fun reply sent hsent bytes hbytes hlength => ?_) h
    obtain ⟨out, hout, rfl⟩ := Option.map_eq_some_iff.mp hsent
    exact ReplyBuf.word16At_sent hout hlength hbytes

/-! ## No query is lost or answered twice -/

/-- The replies that have a request id. -/
def issued (s : Pipeline padding) : List (Reply padding) := s.taken.map Taken.reply ++ s.waiting

/-- What the queries and the replies in the proxy ask for, and those that were taken or dropped. -/
def asks (env : ProxyEnv) (s : Pipeline padding) : List QueryArgs :=
  s.queries.filterMap env.ask ++ s.pending ++
    (s.inner ++ s.replies ++ s.issued).map Reply.args ++ s.dropped

/-- Every step passes on what a query asks for exactly once. -/
theorem Change.count_asks (h : Change env s s') (a : QueryArgs) :
    (s'.asks env).count a + (s.received.filterMap env.ask).count a =
      (s.asks env).count a + (s'.received.filterMap env.ask).count a := by
  cases h with
  | recv q =>
    simp only [asks, issued, List.filterMap_append, List.map_append, List.count_append]
    omega
  | @forward q queries args hqueries hargs =>
    have hask : env.ask q = some args := by simp [ProxyEnv.ask, hargs]
    simp only [asks, issued, hqueries, List.filterMap_cons_some hask, List.map_append,
      List.count_append, List.count_cons, List.count_nil]
    omega
  | @dropQuery q queries hqueries =>
    cases hask : env.ask q <;>
      simp [asks, issued, hqueries, hask, List.count_append, List.count_cons]
    omega
  | @lose i args hargs =>
    have hcount := Pool.countP_eraseIdx (p := (· == a)) hargs
    simp only [asks, issued, List.map_append, List.count_append, List.count_cons, List.count_nil]
    simp only [List.count] at hcount ⊢
    omega
  | @resolve i args abuf reply malloc hargs hreply =>
    have hcount := Pool.countP_eraseIdx (p := (· == a)) hargs
    simp only [asks, issued, List.map_append, List.count_append, List.map_cons, List.map_nil,
      (Reply.clientCallback_eq hreply).1, List.count_cons, List.count_nil]
    simp only [List.count] at hcount ⊢
    omega
  | @dropReply reply inner hinner =>
    simp only [asks, issued, hinner, List.map_append, List.count_append, List.map_cons,
      List.count_cons, List.count_nil]
    omega
  | @transfer reply reply' inner hinner hreply =>
    simp only [asks, issued, hinner, List.map_append, List.count_append, List.map_cons,
      List.map_nil, (Reply.parseAaaaReply_eq hreply).1, List.count_cons, List.count_nil]
    omega
  | @take reply replies reply' hinserting hroom hreplies hreply =>
    have hargs : reply'.args = reply.args := by rw [hreply]; rfl
    simp only [asks, issued, hreplies, List.map_append, List.count_append, List.map_cons,
      List.map_nil, hargs, List.count_cons, List.count_nil]
    omega
  | insert hinserting hrow hrows => rfl
  | unknown => rfl
  | @answer before after reply sent hsplit hnotifies hsent =>
    simp only [asks, issued, hsplit, List.map_append, List.count_append, List.map_cons,
      List.map_nil, List.count_cons, List.count_nil]
    omega

/-- Nothing that was asked for is lost, replies have a header, and the datagrams that were sent have
the identifiers of their replies. -/
structure Conserves (env : ProxyEnv) (s : Pipeline padding) : Prop where
  asks : (s.asks env).Perm (s.received.filterMap env.ask)
  header : ∀ reply ∈ s.inner ++ s.replies ++ s.waiting, 2 ≤ reply.buf.dataLength
  sent : ∀ t ∈ s.taken, ∀ bytes, t.sent = some bytes →
    Dns.word16At bytes 0 = Dns.word16At t.reply.buf.mem 0

/-- **Step lemma.** -/
theorem Conserves.step (h : Conserves env s) (hchange : Change env s s') : Conserves env s' := by
  have hasks : (s'.asks env).Perm (s'.received.filterMap env.ask) := by
    refine List.perm_iff_count.mpr fun a => ?_
    have hold := h.asks.count_eq a
    have hstep := hchange.count_asks a
    omega
  cases hchange with
  | recv | forward | dropQuery | lose | insert => exact ⟨hasks, h.header, h.sent⟩
  | @resolve i args abuf reply malloc hargs hreply =>
    refine ⟨hasks, ?_, h.sent⟩
    have hheader := h.header
    simp only [List.mem_append, or_imp, forall_and, List.mem_singleton, forall_eq] at hheader ⊢
    exact ⟨⟨⟨hheader.1.1, (Reply.clientCallback_eq hreply).2⟩, hheader.1.2⟩, hheader.2⟩
  | @dropReply reply inner hinner =>
    have hheader := h.header
    rw [hinner] at hheader
    exact ⟨hasks, fun r hr => hheader r (List.mem_cons_of_mem reply hr), h.sent⟩
  | @transfer reply reply' inner hinner hreply =>
    refine ⟨hasks, ?_, h.sent⟩
    have hheader := h.header
    simp only [hinner, List.mem_append, List.mem_cons, or_imp, forall_and, List.not_mem_nil,
      false_imp_iff, and_true, forall_eq] at hheader ⊢
    exact ⟨⟨hheader.1.1.2, hheader.1.2, (Reply.parseAaaaReply_eq hreply).2 ▸ hheader.1.1.1⟩,
      hheader.2⟩
  | @take reply replies reply' hinserting hroom hreplies hreply =>
    refine ⟨hasks, ?_, h.sent⟩
    have hbuf : reply'.buf = reply.buf := by rw [hreply]
    have hheader := h.header
    simp only [hreplies, List.mem_append, List.mem_cons, or_imp, forall_and, List.not_mem_nil,
      false_imp_iff, and_true, forall_eq] at hheader ⊢
    exact ⟨⟨hheader.1.1, hheader.1.2.2⟩, hheader.2, hbuf ▸ hheader.1.2.1⟩
  | unknown => exact h
  | @answer before after reply sent hsplit hnotifies hsent =>
    have hheader := h.header
    simp only [hsplit, List.mem_append, List.mem_cons, or_imp, forall_and, forall_eq] at hheader
    refine ⟨hasks, ?_, ?_⟩
    · simp only [List.mem_append, or_imp, forall_and]
      exact ⟨hheader.1, hheader.2.1, hheader.2.2.2⟩
    · simp only [List.mem_append, List.mem_singleton, or_imp, forall_and, forall_eq]
      exact ⟨h.sent, fun bytes hbytes => hsent bytes hbytes hheader.2.2.1⟩

/-- **Run lemma.** -/
theorem conserves_of_run {es : List (PipelineEvent padding)} (hrun : run env init es = some s) :
    Conserves env s := by
  refine Transition.run_invariant (fun s e s' h hstep => h.step (change_of_step hstep)) ?_ hrun
  exact ⟨by simp [Pipeline.asks, issued, init], by simp [init], by simp [init]⟩

theorem Conserves.subperm (h : Conserves env s) :
    (s.issued.map Reply.args).Subperm (s.received.filterMap env.ask) := by
  refine List.Subperm.trans ?_ h.asks.subperm
  unfold Pipeline.asks
  rw [List.map_append]
  exact (((List.sublist_append_right _ _).trans (List.sublist_append_right _ _)).trans
    (List.sublist_append_left _ _)).subperm

/-- The datagrams that were sent, with the address and the port they were sent to. -/
def answers (s : Pipeline padding) : List (In6Addr × BitVec 16 × List Dns.Byte) :=
  s.taken.filterMap fun t => t.sent.map fun bytes => (t.reply.addr, t.reply.port, bytes)

end Pipeline

/-- The sender of a query and the identifier it chose. -/
def QueuedQuery.origin (q : QueuedQuery) : In6Addr × BitVec 16 × Option (BitVec 16) :=
  (q.query.addr, q.port, Dns.word16At q.query.data 0)

def QueryArgs.origin (args : QueryArgs) : In6Addr × BitVec 16 × Option (BitVec 16) :=
  (args.addr, args.port, some args.qid)

theorem ProxyEnv.origin_ask {env : ProxyEnv} {q : QueuedQuery} {args : QueryArgs}
    (h : env.ask q = some args) : args.origin = q.origin := by
  obtain ⟨haddr, hport, hqid⟩ := forward_eq (Option.join_eq_some_iff.mp h)
  simp [QueryArgs.origin, QueuedQuery.origin, haddr, hport, hqid]

theorem Reply.word16At_mem (reply : Reply padding) :
    Dns.word16At reply.buf.mem 0 = some reply.args.qid := by
  have hcap := reply.buf.length_mem
  obtain ⟨v, hv⟩ := Dns.exists_word16At_iff.mpr
    (show 0 + 2 ≤ reply.buf.mem.length by rw [hcap, dataCapacity]; omega)
  simp [args, hv]

/-- **Main theorem.**  However the threads interleave and whatever the DNS server and the controller
answer, the datagrams that the proxy sends go to senders of queries and have the identifiers of
these queries, and no query is answered twice. -/
theorem pipeline_answers (env : ProxyEnv) (es : List (PipelineEvent padding))
    (s : Pipeline padding) (hrun : Pipeline.run env Pipeline.init es = some s) :
    (s.answers.map fun answer => (answer.1, answer.2.1, Dns.word16At answer.2.2 0)).Subperm
      (s.received.map QueuedQuery.origin) := by
  have h := Pipeline.conserves_of_run hrun
  have hsent : (s.answers.map fun answer =>
      (answer.1, answer.2.1, Dns.word16At answer.2.2 0)).Sublist
        (s.taken.map fun t => t.reply.args.origin) := by
    rw [Pipeline.answers, List.map_filterMap]
    refine Pool.filterMap_sublist_map fun t ht b hb => ?_
    simp only [Option.map_map, Option.map_eq_some_iff] at hb
    obtain ⟨bytes, hbytes, rfl⟩ := hb
    rw [Function.comp_apply, h.sent t ht bytes hbytes, t.reply.word16At_mem]
    rfl
  have htaken : (s.taken.map fun t => t.reply.args.origin).Sublist
      ((s.issued.map Reply.args).map QueryArgs.origin) := by
    rw [Pipeline.issued, List.map_append, List.map_append, List.map_map, List.map_map]
    exact List.sublist_append_left _ _
  have hreceived : ((s.received.filterMap env.ask).map QueryArgs.origin).Sublist
      (s.received.map QueuedQuery.origin) := by
    rw [List.map_filterMap]
    refine Pool.filterMap_sublist_map fun q _ b hb => ?_
    obtain ⟨args, hargs, rfl⟩ := Option.map_eq_some_iff.mp hb
    exact ProxyEnv.origin_ask hargs
  exact ((hsent.trans htaken).subperm.trans (Pool.subperm_map h.subperm)).trans
    hreceived.subperm

/-- Libraries that know the name `a`, and a client consumer with the id `t`. -/
def smallEnv : ProxyEnv where
  expandName := expandLabels
  inetNtop _ := shortAddr
  inetPton := unspecifiedPton
  parseAaaa _ := some ([97], [1])
  loads := providersLoads 1
  threadId := ['t']
  routerName := ['r']
  maxQueries := 2

/-- A row with one provider and the request id `t-0`. -/
def acceptedRow : SrdbEntry FlowField :=
  { providersRow 1 with str := fun field => if field = .requestId then ['t', '-', '0'] else [] }

/-- Two queries with the same identifier; the DNS server answers the second one first, and the
controller refuses the request that was inserted last. -/
def twoQueries (buf : ReplyBuf padding) : List (PipelineEvent padding) :=
  let malloc := ⟨0, 0, 0, 0, [], [], [], [], buf⟩
  [.recv freshQuery 5 1000 fourOptions.encode, .recv freshQuery 6 2000 fourOptions.encode,
    .forward true, .forward true, .resolve 1 (some (malloc, answerA)),
    .resolve 0 (some (malloc, answerA)), .transfer, .transfer, .take, .insert true, .take,
    .insert true, .reject ['t', '-', '1'], .accept acceptedRow]

/-- Both are answered. -/
theorem pipeline_answers_two :
    ∃ s : Pipeline 0, Pipeline.run smallEnv Pipeline.init (twoQueries zeroedReply) = some s ∧
      s.answers.length = 2 ∧
      (s.answers.map fun answer => (answer.1, answer.2.1, Dns.word16At answer.2.2 0)).Subperm
        (s.received.map QueuedQuery.origin) := by
  have hrun : (Pipeline.run smallEnv Pipeline.init (twoQueries zeroedReply)).map
      (fun s => s.answers.length) = some 2 := by
    decide +kernel
  obtain ⟨s, hs, hlength⟩ := Option.map_eq_some_iff.mp hrun
  exact ⟨s, hs, hlength, pipeline_answers smallEnv _ s hs⟩

/-- **Main theorem.**  No query is lost without a trace: each one that can be forwarded is at every
time in exactly one of the queues, at the DNS server, taken by a callback, or dropped. -/
theorem pipeline_conserves (env : ProxyEnv) (es : List (PipelineEvent padding))
    (s : Pipeline padding) (hrun : Pipeline.run env Pipeline.init es = some s) :
    (s.asks env).Perm (s.received.filterMap env.ask) :=
  (Pipeline.conserves_of_run hrun).asks

/-- The two queries wait under their request ids. -/
theorem pipeline_conserves_two :
    ∃ s : Pipeline 0, s.waiting.length = 2 ∧
      (s.asks smallEnv).Perm (s.received.filterMap smallEnv.ask) := by
  have hrun : (Pipeline.run smallEnv Pipeline.init ((twoQueries zeroedReply).take 12)).map
      (fun s => s.waiting.length) = some 2 := by
    decide +kernel
  obtain ⟨s, hs, hlength⟩ := Option.map_eq_some_iff.mp hrun
  exact ⟨s, hlength, pipeline_conserves smallEnv _ s hs⟩

/-! ## Request ids -/

namespace ProxyEnv

-- A thread id of at most 100 characters leaves room for the counter.
variable {env : ProxyEnv} (hid : env.threadId.length ≤ 100)

include hid

theorem requestId_eq (n : ℕ) :
    env.requestId n = env.threadId ++ '-' :: CString.ld (BitVec.ofNat 64 n).toInt := by
  have hlength := CString.length_ld_le (n := (BitVec.ofNat 64 n).toInt) (by
    have hle := BitVec.le_toInt (BitVec.ofNat 64 n)
    have hlt := BitVec.toInt_lt (x := BitVec.ofNat 64 n)
    omega)
  refine List.take_of_length_le ?_
  simp only [List.length_append, List.length_cons, slen]
  omega

theorem requestId_begins (n : ℕ) : env.threadId ++ ['-'] <+: env.requestId n := by
  rw [requestId_eq hid]
  exact ⟨_, List.append_assoc _ _ _⟩

/-- The ids of the first 2 ^ 64 requests are different. -/
theorem requestId_inj {m n : ℕ} (hm : m < 18446744073709551616) (hn : n < 18446744073709551616)
    (h : env.requestId m = env.requestId n) : m = n := by
  rw [requestId_eq hid, requestId_eq hid] at h
  have hld := (List.cons.inj (List.append_cancel_left h)).2
  have hbits := BitVec.eq_of_toInt_eq (CString.ld_injective hld)
  have hnat := congrArg BitVec.toNat hbits
  simpa only [BitVec.toNat_ofNat, Nat.reducePow, Nat.mod_eq_of_lt hm, Nat.mod_eq_of_lt hn]
    using hnat

/-- The next id is none of the earlier ones. -/
theorem requestId_notMem {n : ℕ} (hn : n < 18446744073709551616) {ids : List (List Char)}
    (hids : ∀ id ∈ ids, ∃ m < n, id = env.requestId m) : env.requestId n ∉ ids := by
  intro hmem
  obtain ⟨m, hm, heq⟩ := hids _ hmem
  have := requestId_inj hid hn (by omega) heq
  omega

end ProxyEnv

theorem Reply.requestId_row {env : ProxyEnv} {reply : Reply padding} {row : FlowreqRow}
    (h : reply.row env = some row) : row.requestId = reply.ovsdbReqUuid := by
  unfold Reply.row at h
  split at h
  · rw [← Option.some.inj h]
  · contradiction

namespace Pipeline

variable {env : ProxyEnv} {s s' : Pipeline padding}

/-- The reply that the client consumer is at waits and has the next request id; other replies and
the rows have earlier ones, and none has the id of another.  A row is the row of a reply. -/
structure Issued (env : ProxyEnv) (s : Pipeline padding) : Prop where
  nodup : (s.issued.map Reply.ovsdbReqUuid).Nodup
  ids : ∀ reply ∈ s.issued, s.inserting = some reply ∨
    ∃ n < s.reqCounter, reply.ovsdbReqUuid = env.requestId n
  current : ∀ reply, s.inserting = some reply →
    reply ∈ s.waiting ∧ reply.ovsdbReqUuid = env.requestId s.reqCounter
  rowsNodup : (s.rows.map FlowreqRow.requestId).Nodup
  rowIds : ∀ row ∈ s.rows, ∃ n < s.reqCounter, row.requestId = env.requestId n
  owned : ∀ row ∈ s.rows, ∃ reply ∈ s.issued, reply.row env = some row

section

variable (hid : env.threadId.length ≤ 100)

include hid

theorem Issued.take (h : Issued env s) (hcount : s.reqCounter < 18446744073709551616)
    {reply : Reply padding} {replies : List (Reply padding)} (hinserting : s.inserting = none)
    (hreply : reply.ovsdbReqUuid = env.requestId s.reqCounter) :
    Issued env { s with
      replies
      waiting := s.waiting ++ [reply]
      inserting := some reply } := by
  have hold : ∀ r ∈ s.issued, ∃ n < s.reqCounter, r.ovsdbReqUuid = env.requestId n := by
    intro r hr
    simpa [hinserting] using h.ids r hr
  have hnew : reply.ovsdbReqUuid ∉ s.issued.map Reply.ovsdbReqUuid :=
    hreply ▸ ProxyEnv.requestId_notMem hid hcount (List.forall_mem_map.mpr hold)
  have hissued : Pipeline.issued { s with
      replies, waiting := s.waiting ++ [reply], inserting := some reply } = s.issued ++ [reply] :=
    (List.append_assoc _ _ _).symm
  refine ⟨?_, ?_, ?_, h.rowsNodup, h.rowIds, ?_⟩
  · rw [hissued, List.map_append]
    exact List.nodup_append'.mpr ⟨h.nodup, by simp, by simpa using hnew⟩
  · rw [hissued]
    simp only [List.mem_append, List.mem_singleton]
    rintro r (hr | rfl)
    · exact .inr (hold r hr)
    · exact .inl rfl
  · rintro r hr
    obtain rfl := Option.some.inj hr
    exact ⟨by simp, hreply⟩
  · intro row hrow
    obtain ⟨r, hr, hreplyRow⟩ := h.owned row hrow
    exact ⟨r, hissued ▸ List.mem_append_left _ hr, hreplyRow⟩

theorem Issued.insert (h : Issued env s) (hcount : s.reqCounter < 18446744073709551616)
    {reply : Reply padding} {row : FlowreqRow} {rows : List FlowreqRow}
    (hinserting : s.inserting = some reply) (hrow : reply.row env = some row)
    (hrows : rows = s.rows ++ [row] ∨ rows = s.rows) :
    Issued env { s with inserting := none, rows, reqCounter := s.reqCounter + 1 } := by
  obtain ⟨hwaits, hcurrent⟩ := h.current reply hinserting
  have hrowId : row.requestId = env.requestId s.reqCounter :=
    (Reply.requestId_row hrow).trans hcurrent
  have hids : ∀ r ∈ s.issued, ∃ n < s.reqCounter + 1, r.ovsdbReqUuid = env.requestId n := by
    intro r hr
    rcases h.ids r hr with hr | ⟨n, hn, hr⟩
    · obtain rfl := Option.some.inj (hinserting.symm.trans hr)
      exact ⟨s.reqCounter, Nat.lt_succ_self _, hcurrent⟩
    · exact ⟨n, by omega, hr⟩
  have hrowIds : ∀ r ∈ s.rows, ∃ n < s.reqCounter + 1, r.requestId = env.requestId n := by
    intro r hr
    obtain ⟨n, hn, heq⟩ := h.rowIds r hr
    exact ⟨n, by omega, heq⟩
  have hnew : row.requestId ∉ s.rows.map FlowreqRow.requestId :=
    hrowId ▸ ProxyEnv.requestId_notMem hid hcount (List.forall_mem_map.mpr h.rowIds)
  rcases hrows with rfl | rfl
  · refine ⟨h.nodup, fun r hr => .inr (hids r hr), by simp, ?_, ?_, ?_⟩
    · simp only [List.map_append, List.map_cons, List.map_nil]
      exact List.nodup_append'.mpr ⟨h.rowsNodup, by simp, by simpa using hnew⟩
    · simp only [List.mem_append, List.mem_singleton]
      rintro r (hr | rfl)
      · exact hrowIds r hr
      · exact ⟨_, Nat.lt_succ_self _, hrowId⟩
    · simp only [List.mem_append, List.mem_singleton]
      rintro r (hr | rfl)
      · exact h.owned r hr
      · exact ⟨reply, List.mem_append_right _ hwaits, hrow⟩
  · exact ⟨h.nodup, fun r hr => .inr (hids r hr), by simp, h.rowsNodup, hrowIds, h.owned⟩

/-- Only a row that the client consumer has inserted makes a callback find a reply. -/
theorem Issued.mem_of_notifies (h : Issued env s) {reply : Reply padding}
    (hreply : reply ∈ s.waiting) {t : Pipeline padding}
    (hnotifies : t.Notifies env reply.ovsdbReqUuid) :
    reply.ovsdbReqUuid ∈ t.rows.map FlowreqRow.requestId := by
  have hown : env.threadId ++ ['-'] <+: reply.ovsdbReqUuid := by
    rcases h.ids reply (List.mem_append_right _ hreply) with hr | ⟨n, -, hr⟩
    · rw [(h.current reply hr).2]
      exact ProxyEnv.requestId_begins hid _
    · rw [hr]
      exact ProxyEnv.requestId_begins hid _
  exact hnotifies.resolve_right fun hforeign => hforeign hown

/-- The reply that a callback finds has a row. -/
theorem Issued.row_of_notifies (h : Issued env s) {reply : Reply padding}
    (hreply : reply ∈ s.waiting) (hnotifies : s.Notifies env reply.ovsdbReqUuid) :
    ∃ row ∈ s.rows, reply.row env = some row := by
  obtain ⟨row, hrow, hrowId⟩ := List.mem_map.mp (h.mem_of_notifies hid hreply hnotifies)
  obtain ⟨r, hr, hreplyRow⟩ := h.owned row hrow
  have heq : r = reply := List.inj_on_of_nodup_map h.nodup hr (List.mem_append_right _ hreply)
    ((Reply.requestId_row hreplyRow).symm.trans hrowId)
  exact ⟨row, hrow, heq ▸ hreplyRow⟩

theorem Issued.answer (h : Issued env s) (hcount : s.reqCounter < 18446744073709551616)
    {before after : List (Reply padding)} {reply : Reply padding} {sent : Option (List Dns.Byte)}
    (hsplit : s.waiting = before ++ reply :: after)
    (hnotifies : s.Notifies env reply.ovsdbReqUuid) :
    Issued env { s with waiting := before ++ after, taken := s.taken ++ [⟨reply, sent⟩] } := by
  obtain ⟨row, hrow, hreplyRow⟩ := h.row_of_notifies hid (hsplit ▸ by simp) hnotifies
  have hperm : (Pipeline.issued { s with
      waiting := before ++ after, taken := s.taken ++ [⟨reply, sent⟩] }).Perm s.issued := by
    have hmiddle : (reply :: (before ++ after)).Perm (before ++ reply :: after) :=
      List.perm_middle.symm
    rw [Pipeline.issued, Pipeline.issued, hsplit, List.map_append, List.append_assoc]
    exact hmiddle.append_left _
  refine ⟨?_, ?_, ?_, h.rowsNodup, h.rowIds, ?_⟩
  · exact (hperm.map Reply.ovsdbReqUuid).nodup_iff.mpr h.nodup
  · exact fun r hr => h.ids r (hperm.mem_iff.mp hr)
  · intro r hr
    obtain ⟨hwaits, hcurrent⟩ := h.current r hr
    refine ⟨?_, hcurrent⟩
    -- The row of the reply that was taken is older than the one that the consumer is at.
    have hne : r ≠ reply := by
      rintro rfl
      refine ProxyEnv.requestId_notMem hid hcount (List.forall_mem_map.mpr h.rowIds) ?_
      rw [← hcurrent, ← Reply.requestId_row hreplyRow]
      exact List.mem_map_of_mem hrow
    simpa [hsplit, hne] using hwaits
  · intro r hr
    obtain ⟨reply', hreply', heq⟩ := h.owned r hr
    exact ⟨reply', hperm.mem_iff.mpr hreply', heq⟩

/-- **Step lemma.** -/
theorem Issued.step (h : Issued env s) (hcount : s.reqCounter < 18446744073709551616)
    (hchange : Change env s s') : Issued env s' := by
  cases hchange with
  | take hinserting hroom hreplies hreply =>
    exact h.take hid hcount hinserting (by rw [hreply])
  | insert hinserting hrow hrows => exact h.insert hid hcount hinserting hrow hrows
  | answer hsplit hnotifies hsent => exact h.answer hid hcount hsplit hnotifies
  | unknown => exact h
  | recv | forward | dropQuery | lose | resolve | dropReply | transfer =>
    exact ⟨h.nodup, h.ids, h.current, h.rowsNodup, h.rowIds, h.owned⟩

end

theorem Change.reqCounter_le (h : Change env s s') : s.reqCounter ≤ s'.reqCounter := by
  cases h with
  | insert => exact Nat.le_succ _
  | recv | forward | dropQuery | lose | resolve | dropReply | transfer | take | unknown | answer =>
    exact Nat.le_refl _

/-- **Run lemma.** -/
theorem issued_of_run (hid : env.threadId.length ≤ 100) {es : List (PipelineEvent padding)}
    (hrun : run env init es = some s) (hcount : s.reqCounter < 18446744073709551616) :
    Issued env s := by
  have hstep : ∀ (s : Pipeline padding) e s',
      (s.reqCounter < 18446744073709551616 → Issued env s) → Pipeline.step env s e = some s' →
        s'.reqCounter < 18446744073709551616 → Issued env s' := by
    intro s e s' h hstep hcount
    have hchange := change_of_step hstep
    have hle := hchange.reqCounter_le
    exact (h (by omega)).step hid (by omega) hchange
  refine Transition.run_invariant hstep (fun _ => ?_) hrun hcount
  exact ⟨by simp [issued, init], by simp [issued, init], by simp [init], by simp [init],
    by simp [init], by simp [init]⟩

end Pipeline

/-- Nothing has happened at the controller's side since a state. -/
structure Pipeline.Blocked (s t : Pipeline padding) : Prop where
  waiting : t.waiting = s.waiting
  inserting : t.inserting = s.inserting
  rows : t.rows = s.rows
  taken : t.taken = s.taken

/-- **Main theorem.**  `client_consumer_main` ignores the result of its insertion, and the reply of
a row that was not inserted stays in the queue.  Once the queue is full of such replies, the proxy
inserts no row and answers no query any more, whatever happens. -/
theorem pipeline_blocks (env : ProxyEnv) (hid : env.threadId.length ≤ 100)
    (es : List (PipelineEvent padding)) (s : Pipeline padding)
    (hrun : Pipeline.run env Pipeline.init es = some s)
    (hcount : s.reqCounter < 18446744073709551616) (hidle : s.inserting = none)
    (hfull : env.maxQueries ≤ s.waiting.length)
    (hlost : ∀ reply ∈ s.waiting, reply.ovsdbReqUuid ∉ s.rows.map FlowreqRow.requestId)
    (later : List (PipelineEvent padding)) (t : Pipeline padding)
    (hlater : Pipeline.run env s later = some t) : s.Blocked t := by
  have h := Pipeline.issued_of_run hid hrun hcount
  refine Transition.run_invariant (fun t e t' hblocked hstep => ?_) ⟨rfl, rfl, rfl, rfl⟩ hlater
  cases Pipeline.change_of_step hstep with
  | take _ hroom =>
    rw [hblocked.waiting] at hroom
    omega
  | insert hinserting =>
    rw [hblocked.inserting, hidle] at hinserting
    contradiction
  | @answer before after reply sent hsplit hnotifies =>
    have hreply : reply ∈ s.waiting := hblocked.waiting ▸ hsplit ▸ by simp
    have hrow := h.mem_of_notifies hid hreply hnotifies
    exact absurd (hblocked.rows ▸ hrow) (hlost reply hreply)
  | recv | forward | dropQuery | lose | resolve | dropReply | transfer | unknown =>
    exact ⟨hblocked.waiting, hblocked.inserting, hblocked.rows, hblocked.taken⟩

/-- Two transactions fail; a third query is received and is not answered. -/
theorem pipeline_blocks_two :
    ∃ s t : Pipeline 0, t.received.length = 3 ∧ s.waiting.length = 2 ∧ s.Blocked t := by
  have hrun : (Pipeline.run smallEnv Pipeline.init
      ((twoQueries zeroedReply).take 8 ++ [.take, .insert false, .take, .insert false])).map
      (fun s => ((s.reqCounter, s.inserting.isNone, s.waiting.length, s.rows.length),
        (Pipeline.run smallEnv s [.recv freshQuery 7 3000 fourOptions.encode]).map
          fun t => t.received.length)) = some ((2, true, 2, 0), some 3) := by
    decide +kernel
  obtain ⟨s, hs, heq⟩ := Option.map_eq_some_iff.mp hrun
  simp only [Prod.mk.injEq, Option.isNone_iff_eq_none, List.length_eq_zero_iff,
    Option.map_eq_some_iff] at heq
  obtain ⟨⟨hcounter, hidle, hwaiting, hrows⟩, t, ht, hreceived⟩ := heq
  refine ⟨s, t, hreceived, hwaiting, pipeline_blocks smallEnv (by decide) _ s hs (by omega) hidle
    (by rw [hwaiting]; decide) ?_ _ t ht⟩
  simp [hrows]

end Srn
