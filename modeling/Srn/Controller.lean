import Srn.Lib.Fault
import Srn.NetState
import Srn.Srdb

/-!
# Srn.Controller

The flows of the controller, in `sr-ctrl/sr-ctrl.c`: `process_request`, which admits a flow and
puts it in the table of flows, `recompute_flows`, which moves the flows that a new graph
affects, and `gc_flows`, which drops flows that have expired.

The functions are first given as what they compute on the network state.  `CtrlState.step` then
interleaves them: any number of workers in `process_request`, the callbacks of the network
state, and the thread that runs `gc_flows`, `netstate_graph_sync` and `recompute_flows`.  A step
ends where a lock is taken or released or a transaction with the database is waited for.
Allocations succeed unless a flag says otherwise.
-/

namespace Srn

/-! ## Rules and requests -/

/-- `enum ruletype`, without the value that `parse_rule` rejects. -/
inductive RuleType where
  | allow
  | deny
  deriving DecidableEq, Repr

/-- `struct rule`.  The texts of a `via` list are passed on as pointers to nodes; `path` lists
the ids that are read there. -/
structure Rule where
  type : RuleType
  fromName : String
  toName : String
  path : List NodeId
  bw : Int32
  delay : Int32
  ttl : Int32
  deriving DecidableEq, Repr

/-- `struct srdb_flowreq_entry`. -/
structure FlowreqEntry where
  source : String
  destination : String
  srcaddr : In6Addr
  dstaddr : In6Addr
  bandwidth : Int32
  delay : Int32
  status : ReqStatus
  deriving DecidableEq, Repr

/-- `match_rule`. -/
def matchRule (rule : Rule) (fromName toName : String) : Bool :=
  rule.fromName = fromName && rule.toName = toName

/-- `match_rules`: the last rule that matches. -/
def matchRules (rules : List Rule) (fromName toName : String) : Option Rule :=
  rules.foldl (fun res r => if matchRule r fromName toName then some r else res) none

/-- The part of `_cfg` that admission depends on. -/
structure CtrlConfig where
  rules : List Rule
  defrule : Rule
  nbProviders : ℕ
  deriving DecidableEq, Repr

/-- The rule that `process_request` applies. -/
def CtrlConfig.ruleFor (cfg : CtrlConfig) (req : FlowreqEntry) : Rule :=
  (matchRules cfg.rules req.source req.destination).getD cfg.defrule

/-- `x ?: y`, stored as an unsigned number. -/
def orElse (x y : Int32) : UInt32 := if x ≠ 0 then x.toUInt32 else y.toUInt32

/-! ## Flows -/

/-- `struct src_prefix`. -/
structure SrcPrefix where
  bsid : In6Addr
  segs : List (Segment Link)
  epath : Option (List (Edge Link))
  deriving DecidableEq, Repr

/-- `struct flow`, with the node ids of its two routers. -/
structure FlowObj extends Flow where
  ttl : UInt32
  srcrt : NodeId
  dstrt : NodeId
  srcPrefixes : List SrcPrefix
  timestamp : ℕ
  status : FlowStatus
  refcount : ℕ
  deriving DecidableEq, Repr

/-- The ways in which the controller can go wrong. -/
inductive CtrlFault where
  | nullDereference
  | lpm (fault : LpmFault)
  | graph (fault : GraphFault)
  deriving DecidableEq, Repr

/-- `lpm_lookup` of a router. -/
def lookupRouter (net : NetState) (addr : In6Addr) : Except CtrlFault (Option Router) :=
  match lpmLookup net.prefixes addr with
  | .error fault => .error (.lpm fault)
  | .ok none => .ok none
  | .ok (some name) =>
    match net.routers.get name with
    | none => .error .nullDereference
    | some rt => .ok (some rt)

/-- The constraints that `process_request` gives a flow. -/
def flowOf (rule : Rule) (req : FlowreqEntry) : Flow where
  bw := orElse rule.bw req.bandwidth
  delay := orElse rule.delay req.delay

/-- `process_request` from the lock of the network state up to the lock of the flows: the status
that is written when the request is rejected, or the flow.  `mem` tells whether the allocation
of `select_providers` succeeds.  The copies for the other prefixes, which the code makes under
the second lock, are there from the start. -/
def admitFlow (cfg : CtrlConfig) (net : NetState) (req : FlowreqEntry) (mem : Bool) (now : ℕ) :
    Except CtrlFault (Except ReqStatus FlowObj) := do
  let rule := cfg.ruleFor req
  let fl := flowOf rule req
  match ← lookupRouter net req.srcaddr with
  | none => return .error .noPrefix
  | some rt =>
    match ← lookupRouter net req.dstaddr with
    | none => return .error .noPrefix
    | some dstrt =>
      if rt.nodeId ∉ net.tables.nodes ∨ dstrt.nodeId ∉ net.tables.nodes then
        return .error .unavailable
      else if !mem ∨ cfg.nbProviders = 0 then return .error .error
      else
        match buildSegpath net.tables (flowPathspec fl rt.nodeId dstrt.nodeId rule.path) with
        | .error fault => .error (.graph fault)
        | .ok none => return .error .unavailable
        | .ok (some (segs, epath)) => return .ok {
            fl with
            ttl := rule.ttl.toUInt32
            srcrt := rt.nodeId
            dstrt := dstrt.nodeId
            srcPrefixes := List.replicate cfg.nbProviders ⟨0, segs, epath⟩
            timestamp := now
            status := .active
            refcount := 1 }

/-- What `process_request` knows about a flow that it admits. -/
structure Admitted (cfg : CtrlConfig) (net : NetState) (req : FlowreqEntry) (fl : FlowObj)
    (segs : List (Segment Link)) (epath : Option (List (Edge Link))) : Prop where
  path : buildSegpath net.tables
    (flowPathspec fl.toFlow fl.srcrt fl.dstrt (cfg.ruleFor req).path) = .ok (some (segs, epath))
  flow : fl.toFlow = flowOf (cfg.ruleFor req) req
  source : ∃ rt, lookupRouter net req.srcaddr = .ok (some rt) ∧ rt.nodeId = fl.srcrt
  destination : ∃ rt, lookupRouter net req.dstaddr = .ok (some rt) ∧ rt.nodeId = fl.dstrt
  srcrt : fl.srcrt ∈ net.tables.nodes
  dstrt : fl.dstrt ∈ net.tables.nodes
  providers : cfg.nbProviders ≠ 0
  srcPrefixes : fl.srcPrefixes = List.replicate cfg.nbProviders ⟨0, segs, epath⟩
  status : fl.status = .active
  refcount : fl.refcount = 1

/-- Where `process_request` has looked up its routers and its path: it rejects the request, or it
admits a flow. -/
theorem admitFlow_cases {cfg : CtrlConfig} {net : NetState} {req : FlowreqEntry} {mem : Bool}
    {now : ℕ} {out : Except ReqStatus FlowObj} (h : admitFlow cfg net req mem now = .ok out) :
    (∃ status, out = .error status ∧ status ≠ .allowed) ∨
      ∃ fl segs epath, out = .ok fl ∧ Admitted cfg net req fl segs epath := by
  unfold admitFlow at h
  obtain ⟨rt, hsrc, h⟩ := Fault.bind_eq_ok_iff.mp h
  cases rt with
  | none => exact .inl ⟨.noPrefix, (Except.ok.inj h).symm, by decide⟩
  | some rt =>
    obtain ⟨dstrt, hdst, h⟩ := Fault.bind_eq_ok_iff.mp h
    cases dstrt with
    | none => exact .inl ⟨.noPrefix, (Except.ok.inj h).symm, by decide⟩
    | some dstrt =>
      simp only at h
      split_ifs at h with hnodes hproviders
      · exact .inl ⟨.unavailable, (Except.ok.inj h).symm, by decide⟩
      · exact .inl ⟨.error, (Except.ok.inj h).symm, by decide⟩
      · split at h
        · cases h
        · exact .inl ⟨.unavailable, (Except.ok.inj h).symm, by decide⟩
        · next segs epath hpath =>
          rw [not_or, not_not, not_not] at hnodes
          rw [not_or] at hproviders
          exact .inr ⟨_, segs, epath, (Except.ok.inj h).symm, hpath, rfl, ⟨rt, hsrc, rfl⟩,
            ⟨dstrt, hdst, rfl⟩, hnodes.1, hnodes.2, hproviders.2, rfl, rfl, rfl⟩

theorem admitted_of_admitFlow {cfg : CtrlConfig} {net : NetState} {req : FlowreqEntry} {mem : Bool}
    {now : ℕ} {fl : FlowObj} (h : admitFlow cfg net req mem now = .ok (.ok fl)) :
    ∃ segs epath, Admitted cfg net req fl segs epath := by
  obtain ⟨status, hstatus, -⟩ | ⟨fl', segs, epath, hfl, hadmitted⟩ := admitFlow_cases h
  · cases hstatus
  · cases hfl
    exact ⟨segs, epath, hadmitted⟩

/-- The allocations of `process_request` that can fail. -/
structure RequestMem where
  flow : Bool
  providers : Bool
  deriving DecidableEq, Repr

/-- `process_request` by itself: the status with which it leaves the request, and the flow it
leaves behind.  `commit` tells whether `commit_flow` succeeds. -/
def processRequest (cfg : CtrlConfig) (net : NetState) (req : FlowreqEntry) (mem : RequestMem)
    (now : ℕ) (commit : Bool) : Except CtrlFault (ReqStatus × Option FlowObj) :=
  if req.status ≠ .pending then .ok (req.status, none)
  else if (cfg.ruleFor req).type = .deny then .ok (.denied, none)
  else if !mem.flow then .ok (.error, none)
  else
    match admitFlow cfg net req mem.providers now with
    | .error fault => .error fault
    | .ok (.error status) => .ok (status, none)
    | .ok (.ok fl) => if commit then .ok (.allowed, some fl) else .ok (.error, none)

/-- A request is allowed only with a flow that was admitted. -/
theorem admitted_of_processRequest {cfg : CtrlConfig} {net : NetState} {req : FlowreqEntry}
    {mem : RequestMem} {now : ℕ} {commit : Bool} {fl : FlowObj}
    (h : processRequest cfg net req mem now commit = .ok (.allowed, some fl)) :
    ∃ segs epath, Admitted cfg net req fl segs epath := by
  unfold processRequest at h
  split at h
  · simp at h
  · split at h
    · simp at h
    · split at h
      · simp at h
      · split at h
        · contradiction
        · simp at h
        · next fl' hadmitted =>
          split at h
          · obtain rfl : fl' = fl := by simpa using h
            exact admitted_of_admitFlow hadmitted
          · simp at h

/-- The test of one edge in `flow_affected`. -/
def edgeAffected (g : Graph Link) (e1 : Edge Link) : Bool :=
  match g.edges.find? fun e => e.id = e1.id with
  | none => true
  | some e2 => e1.metric ≠ e2.metric

/-- `flow_affected`, on the remaining prefixes. -/
def flowAffected (g : Graph Link) : List SrcPrefix → Except CtrlFault Bool
  | [] => .ok false
  | sp :: rest =>
    match sp.epath with
    | none => .error .nullDereference
    | some es => if es.any (edgeAffected g) then .ok true else flowAffected g rest

/-- `recompute_flow`, without the row it writes. -/
def recomputeFlow (g : Graph Link) (fl : FlowObj) : Except CtrlFault FlowObj :=
  if fl.srcrt ∉ g.nodes ∨ fl.dstrt ∉ g.nodes then .ok { fl with status := .orphan }
  else
    match buildSegpath g (flowPathspec fl.toFlow fl.srcrt fl.dstrt []) with
    | .error fault => .error (.graph fault)
    | .ok none => .ok fl
    | .ok (some (segs, epath)) =>
      .ok { fl with srcPrefixes := fl.srcPrefixes.map fun sp => { sp with segs, epath } }

/-- The test of `gc_flows`. -/
def FlowObj.expired (fl : FlowObj) (now : ℕ) : Bool :=
  (fl.ttl ≠ 0 && fl.timestamp + fl.ttl.toNat < now) || fl.status = .orphan

/-! ## Interleavings -/

/-- A call of `process_request` that holds the lock of the network state. -/
inductive CtrlCall where
  /-- The status of a rejected request is being written. -/
  | rejecting
  /-- The flow is built; the lock of the flows is next. -/
  | built (fl : ℕ)
  /-- The flow is in the table and `commit_flow` is running. -/
  | committing (fl : ℕ)
  /-- `commit_flow` succeeded, and the last status is being written. -/
  | committed
  /-- `commit_flow` failed, and the last status is being written. -/
  | failed (fl : ℕ)
  /-- The flow is no longer in the table; it is freed next. -/
  | unlinked (fl : ℕ)
  deriving DecidableEq, Repr

/-- Where `thread_netmon` stands. -/
inductive Netmon where
  | idle
  /-- `gc_flows` has these flows left to release. -/
  | expiring (fls : List ℕ)
  /-- `netstate_graph_sync` has returned; `recompute_flows` is next. -/
  | synced
  /-- `recompute_flows` has these flows left to recompute. -/
  | sweeping (fls : List ℕ)
  deriving DecidableEq, Repr

/-- The controller.  A flow is an index in `heap`; it is freed when its `refcount` is zero. -/
structure CtrlState where
  net : NetState
  flows : Table In6Addr ℕ
  heap : List FlowObj
  calls : List CtrlCall
  netmon : Netmon
  now : ℕ

/-- One step; `i` is the position of a call of `process_request`. -/
inductive CtrlEvent where
  /-- Time passes. -/
  | tick (seconds : ℕ)
  /-- A callback of the network state. -/
  | notify (ev : NetEvent)
  /-- A worker takes a request and runs up to the lock of the flows. -/
  | request (req : FlowreqEntry) (mem : RequestMem)
  /-- The flow gets a free `bsid` and is put in the table. -/
  | publish (i : ℕ) (bsid : In6Addr)
  /-- `commit_flow` returns. -/
  | commit (i : ℕ) (ok : Bool)
  /-- A flow that was not committed is taken out of the table. -/
  | unlink (i : ℕ)
  /-- `process_request` returns. -/
  | finish (i : ℕ)
  /-- `gc_flows` takes flows out of the table. -/
  | gc
  /-- `gc_flows` releases a flow, or returns. -/
  | expire
  /-- `netstate_graph_sync`. -/
  | sync (mem : Bool)
  /-- `recompute_flows` collects the affected flows. -/
  | collect
  /-- `recompute_flows` recomputes and releases a flow, or returns. -/
  | recompute
  deriving DecidableEq, Repr

namespace CtrlState

/-- The start of the controller. -/
def init : CtrlState where
  net := netInit
  flows := .empty
  heap := []
  calls := []
  netmon := .idle
  now := 0

/-- An assignment to fields of a flow. -/
def modifyFlow (s : CtrlState) (fl : ℕ) (f : FlowObj → FlowObj) : CtrlState :=
  { s with heap := s.heap.modify fl f }

/-- `flow_hold`. -/
def flowHold (s : CtrlState) (fl : ℕ) : CtrlState :=
  s.modifyFlow fl fun obj => { obj with refcount := obj.refcount + 1 }

/-- `flow_release`. -/
def flowRelease (s : CtrlState) (fl : ℕ) : CtrlState :=
  s.modifyFlow fl fun obj => { obj with refcount := obj.refcount - 1 }

/-- The first loop of `recompute_flows`. -/
def collectAffected (s : CtrlState) : List ℕ → Except CtrlFault (List ℕ)
  | [] => .ok []
  | fl :: rest =>
    match s.heap[fl]? with
    | none => .error .nullDereference
    | some obj => do
      let affected ← flowAffected s.net.tables obj.srcPrefixes
      let fls ← collectAffected s rest
      return if affected then fl :: fls else fls

/-- One round of the first loop of `recompute_flows`. -/
theorem collectAffected_cons {s : CtrlState} {fl : ℕ} {rest fls : List ℕ}
    (h : s.collectAffected (fl :: rest) = .ok fls) :
    ∃ obj affected fls', s.heap[fl]? = some obj ∧
      flowAffected s.net.tables obj.srcPrefixes = .ok affected ∧
      s.collectAffected rest = .ok fls' ∧ fls = if affected then fl :: fls' else fls' := by
  rw [collectAffected] at h
  split at h
  · contradiction
  · next obj hobj =>
    cases haff : flowAffected s.net.tables obj.srcPrefixes with
    | error fault =>
      rw [haff] at h
      contradiction
    | ok affected =>
      cases hrest : s.collectAffected rest with
      | error fault =>
        rw [haff, hrest] at h
        contradiction
      | ok fls' =>
        rw [haff, hrest] at h
        exact ⟨obj, affected, fls', hobj, haff, rfl, (Except.ok.inj h).symm⟩

/-- The test of `gc_flows` for an entry of the table. -/
def isExpired (s : CtrlState) (entry : In6Addr × ℕ) : Bool :=
  s.heap[entry.2]?.any fun obj => obj.expired s.now

/-- A callback runs only while it can take the lock of the network state: `nodestate_read`
needs it for itself, and the synchronisation is not a callback. -/
def mayNotify (s : CtrlState) : NetEvent → Bool
  | .nodestateRead _ _ => s.calls = []
  | .graphSync _ => false
  | _ => true

/-- One step.  `none` when the step is not enabled or goes wrong. -/
def step (cfg : CtrlConfig) (s : CtrlState) : CtrlEvent → Option CtrlState
  | .tick seconds => some { s with now := s.now + seconds }
  | .notify ev =>
    if s.mayNotify ev then (netStep s.net ev).map fun net => { s with net } else none
  | .request req mem =>
    if req.status ≠ .pending ∨ (cfg.ruleFor req).type = .deny ∨ !mem.flow then some s
    else
      match admitFlow cfg s.net req mem.providers s.now with
      | .error _ => none
      | .ok (.error _) => some { s with calls := .rejecting :: s.calls }
      | .ok (.ok obj) => some { s with
          heap := s.heap ++ [obj]
          calls := .built s.heap.length :: s.calls }
  | .publish i bsid =>
    match s.calls[i]? with
    | some (.built fl) =>
      if (s.flows.get bsid).isSome then none
      else some { s.modifyFlow fl fun obj =>
          { obj with srcPrefixes := obj.srcPrefixes.map fun sp => { sp with bsid } } with
        flows := s.flows.set bsid fl
        calls := s.calls.set i (.committing fl) }
    | _ => none
  | .commit i ok =>
    match s.calls[i]? with
    | some (.committing fl) => some { s with
        calls := s.calls.set i (if ok then .committed else .failed fl) }
    | _ => none
  | .unlink i =>
    match s.calls[i]? with
    | some (.failed fl) =>
      s.heap[fl]?.map fun obj => { s with
        flows := obj.srcPrefixes.foldl (fun flows sp => flows.erase sp.bsid) s.flows
        calls := s.calls.set i (.unlinked fl) }
    | _ => none
  | .finish i =>
    match s.calls[i]? with
    | some .rejecting | some .committed => some { s with calls := s.calls.eraseIdx i }
    | some (.unlinked fl) => some { s.modifyFlow fl fun obj => { obj with refcount := 0 } with
        calls := s.calls.eraseIdx i }
    | _ => none
  | .gc =>
    match s.netmon with
    | .idle => some { s with
        flows := ⟨s.flows.entries.filter fun entry => !s.isExpired entry⟩
        netmon := .expiring ((s.flows.entries.filter s.isExpired).map Prod.snd) }
    | _ => none
  | .expire =>
    match s.netmon with
    | .expiring [] => some { s with netmon := .idle }
    | .expiring (fl :: fls) => some {
        (s.modifyFlow fl fun obj => { obj with status := .expired }).flowRelease fl with
        netmon := .expiring fls }
    | _ => none
  | .sync mem =>
    match s.netmon with
    | .idle =>
      if s.calls ≠ [] then none
      else (netCall s.net (.graphSync mem)).toOption.map fun (net, ret) =>
        { s with net, netmon := if ret < (0 : Int) then .idle else .synced }
    | _ => none
  | .collect =>
    match s.netmon with
    | .synced => (s.collectAffected (s.flows.entries.map Prod.snd)).toOption.map fun fls =>
      { fls.foldl flowHold s with netmon := .sweeping fls }
    | _ => none
  | .recompute =>
    match s.netmon with
    | .sweeping [] => some { s with netmon := .idle }
    | .sweeping (fl :: fls) =>
      match s.heap[fl]? with
      | none => none
      | some obj => (recomputeFlow s.net.tables obj).toOption.map fun obj =>
        { { s with heap := s.heap.set fl obj }.flowRelease fl with netmon := .sweeping fls }
    | _ => none

/-- The state after a sequence of steps. -/
abbrev run (cfg : CtrlConfig) : CtrlState → List CtrlEvent → Option CtrlState :=
  Transition.run (step cfg)

/-- What a step can do, with its guard. -/
inductive Change (cfg : CtrlConfig) (s : CtrlState) : CtrlEvent → CtrlState → Prop
  | tick {seconds} : Change cfg s (.tick seconds) { s with now := s.now + seconds }
  | notify {ev net} : netStep s.net ev = some net → (∀ mem, ev ≠ .graphSync mem) →
      Change cfg s (.notify ev) { s with net }
  | ignore {req mem} : Change cfg s (.request req mem) s
  | reject {req mem} : Change cfg s (.request req mem) { s with calls := .rejecting :: s.calls }
  | admitted {req} {mem : RequestMem} {obj} :
      admitFlow cfg s.net req mem.providers s.now = .ok (.ok obj) →
      Change cfg s (.request req mem) { s with
        heap := s.heap ++ [obj]
        calls := .built s.heap.length :: s.calls }
  | publish {i bsid fl} : s.calls[i]? = some (.built fl) → s.flows.get bsid = none →
      Change cfg s (.publish i bsid) { s.modifyFlow fl fun obj =>
          { obj with srcPrefixes := obj.srcPrefixes.map fun sp => { sp with bsid } } with
        flows := s.flows.set bsid fl
        calls := s.calls.set i (.committing fl) }
  | commit {i ok fl c} : s.calls[i]? = some (.committing fl) → c = .committed ∨ c = .failed fl →
      Change cfg s (.commit i ok) { s with calls := s.calls.set i c }
  | unlink {i fl obj} : s.calls[i]? = some (.failed fl) → s.heap[fl]? = some obj →
      Change cfg s (.unlink i) { s with
        flows := obj.srcPrefixes.foldl (fun flows sp => flows.erase sp.bsid) s.flows
        calls := s.calls.set i (.unlinked fl) }
  | finish {i c} : s.calls[i]? = some c → c = .rejecting ∨ c = .committed →
      Change cfg s (.finish i) { s with calls := s.calls.eraseIdx i }
  | free {i fl} : s.calls[i]? = some (.unlinked fl) →
      Change cfg s (.finish i) { s.modifyFlow fl fun obj => { obj with refcount := 0 } with
        calls := s.calls.eraseIdx i }
  | gc : s.netmon = .idle →
      Change cfg s .gc { s with
        flows := ⟨s.flows.entries.filter fun entry => !s.isExpired entry⟩
        netmon := .expiring ((s.flows.entries.filter s.isExpired).map Prod.snd) }
  | expired : s.netmon = .expiring [] → Change cfg s .expire { s with netmon := .idle }
  | expire {fl fls} : s.netmon = .expiring (fl :: fls) →
      Change cfg s .expire {
        (s.modifyFlow fl fun obj => { obj with status := .expired }).flowRelease fl with
        netmon := .expiring fls }
  | sync {mem net ret} : s.netmon = .idle → s.calls = [] →
      netCall s.net (.graphSync mem) = .ok (net, ret) →
      Change cfg s (.sync mem) { s with net, netmon := if ret < 0 then .idle else .synced }
  | collect {fls} : s.netmon = .synced →
      s.collectAffected (s.flows.entries.map Prod.snd) = .ok fls →
      Change cfg s .collect { fls.foldl flowHold s with netmon := .sweeping fls }
  | swept : s.netmon = .sweeping [] → Change cfg s .recompute { s with netmon := .idle }
  | recompute {fl fls obj obj'} : s.netmon = .sweeping (fl :: fls) → s.heap[fl]? = some obj →
      recomputeFlow s.net.tables obj = .ok obj' →
      Change cfg s .recompute
        { { s with heap := s.heap.set fl obj' }.flowRelease fl with netmon := .sweeping fls }

theorem toOption_eq_some_iff {α β : Type} {x : Except α β} {b : β} :
    x.toOption = some b ↔ x = .ok b := by
  cases x <;> simp [Except.toOption]

theorem change_of_step {cfg : CtrlConfig} {s s' : CtrlState} {e : CtrlEvent}
    (h : s.step cfg e = some s') : s.Change cfg e s' := by
  cases e with
  | tick seconds => exact Option.some.inj h ▸ .tick
  | notify ev =>
    simp only [step] at h
    split at h
    · next hmay =>
      obtain ⟨net, hnet, rfl⟩ := Option.map_eq_some_iff.mp h
      refine .notify hnet fun mem hev => ?_
      subst hev
      simp [mayNotify] at hmay
    · contradiction
  | request req mem =>
    simp only [step] at h
    split at h
    · exact Option.some.inj h ▸ .ignore
    · split at h
      · contradiction
      · exact Option.some.inj h ▸ .reject
      · next hadmitted => exact Option.some.inj h ▸ .admitted hadmitted
  | publish i bsid =>
    simp only [step] at h
    split at h
    · next hi =>
      split at h
      · contradiction
      · next hfree => exact Option.some.inj h ▸ .publish hi (by simpa using hfree)
    · contradiction
  | commit i ok =>
    simp only [step] at h
    split at h
    · next hi =>
      refine Option.some.inj h ▸ .commit hi ?_
      cases ok <;> simp
    · contradiction
  | unlink i =>
    simp only [step] at h
    split at h
    · next hi =>
      obtain ⟨obj, hobj, rfl⟩ := Option.map_eq_some_iff.mp h
      exact .unlink hi hobj
    · contradiction
  | finish i =>
    simp only [step] at h
    split at h
    · next hi => exact Option.some.inj h ▸ .finish hi (.inl rfl)
    · next hi => exact Option.some.inj h ▸ .finish hi (.inr rfl)
    · next hi => exact Option.some.inj h ▸ .free hi
    · contradiction
  | gc =>
    simp only [step] at h
    split at h
    · next hidle => exact Option.some.inj h ▸ .gc hidle
    · contradiction
  | expire =>
    simp only [step] at h
    split at h
    · next hmon => exact Option.some.inj h ▸ .expired hmon
    · next hmon => exact Option.some.inj h ▸ .expire hmon
    · contradiction
  | sync mem =>
    simp only [step] at h
    split at h
    · next hidle =>
      split at h
      · contradiction
      · next hcalls =>
        obtain ⟨⟨net, ret⟩, hcall, rfl⟩ := Option.map_eq_some_iff.mp h
        exact .sync hidle (by simpa using hcalls) (toOption_eq_some_iff.mp hcall)
    · contradiction
  | collect =>
    simp only [step] at h
    split at h
    · next hmon =>
      obtain ⟨fls, hfls, rfl⟩ := Option.map_eq_some_iff.mp h
      exact .collect hmon (toOption_eq_some_iff.mp hfls)
    · contradiction
  | recompute =>
    simp only [step] at h
    split at h
    · next hmon => exact Option.some.inj h ▸ .swept hmon
    · next hmon =>
      split at h
      · contradiction
      · next obj hobj =>
        obtain ⟨obj', hobj', rfl⟩ := Option.map_eq_some_iff.mp h
        exact .recompute hmon hobj (toOption_eq_some_iff.mp hobj')
    · contradiction

/-- Routers `A` and `B` with a prefix each, a link between them, and a synchronisation with the
sweep that follows. -/
def linkUp : List CtrlEvent :=
  [.notify (.nodestateRead ⟨"A", 1, [⟨1 <<< 120, 8⟩], none⟩ ⟨true, true⟩),
    .notify (.nodestateRead ⟨"B", 2, [⟨2 <<< 120, 8⟩], none⟩ ⟨true, true⟩),
    .notify (.linkstateRead ⟨"A", 3, "B", 4, 10, 100, 50, 7⟩ ⟨true, true, true, true⟩),
    .sync true, .collect, .recompute]

/-- One provider, and a rule that allows everything for five seconds. -/
def allowAll : CtrlConfig := ⟨[], ⟨.allow, "", "", [], 0, 0, 5⟩, 1⟩

/-- A request from the prefix of `A` to that of `B`. -/
def requestAB : FlowreqEntry := ⟨"a", "b", 1 <<< 120, 2 <<< 120, 0, 0, .pending⟩

end CtrlState

/-- A request between two hosts behind router `A`. -/
def requestAA (delay : Int32) : FlowreqEntry :=
  ⟨"a", "a", 1 <<< 120, 1 <<< 120, 0, delay, .pending⟩

end Srn
