import Srn.Controller.Delay
import Srn.Controller.Recompute

/-!
# Srn.Controller.Request

One call of `process_request` from its start to its return: the status it writes, the table of flows
it leaves and the locks it takes, for every outcome of the allocations and of the transactions with
the database.

`admitFlow` says what the call computes before it takes the lock of the flows.  After that it
searches for a `bsid` that is not in the table, by drawing random bytes until one is found; this
loop may not end, and then the call neither writes a status nor releases the lock of the network
state.
-/

namespace Srn

open Transition

/-! ## Binding segment identifiers -/

/-- The ways in which a call can go wrong. -/
inductive RequestFault where
  | ctrl (fault : CtrlFault)
  | outOfBounds
  | outOfFuel
  deriving DecidableEq, Repr

/-- The number of random bytes in `generate_bsid`. -/
def bsidLen (pbsid : Prefix) : ℤ := Int.shiftRight (128 - pbsid.len.toInt) 3

/-- The random bytes are bytes of the address. -/
def Prefix.InBounds (pbsid : Prefix) : Prop := 0 ≤ bsidLen pbsid ∧ bsidLen pbsid ≤ 16

instance (pbsid : Prefix) : Decidable pbsid.InBounds :=
  inferInstanceAs (Decidable (0 ≤ bsidLen pbsid ∧ bsidLen pbsid ≤ 16))

/-- The address with its last bytes drawn. -/
def bsidOf (pbsid : Prefix) (draw : In6Addr) : In6Addr :=
  let mask := BitVec.allOnes 128 >>> (128 - 8 * (bsidLen pbsid).toNat)
  (pbsid.addr &&& ~~~mask) ||| (draw &&& mask)

/-- With a prefix of more than 120 bits nothing is drawn. -/
theorem bsidOf_of_bsidLen {pbsid : Prefix} (h : bsidLen pbsid = 0) (draw : In6Addr) :
    bsidOf pbsid draw = pbsid.addr := by
  have hmask : BitVec.allOnes 128 >>> (128 - 8 * (bsidLen pbsid).toNat) = 0#128 := by
    rw [h]
    decide
  have hones : ~~~0#128 = BitVec.allOnes 128 := by decide
  unfold bsidOf
  rw [hmask]
  show (pbsid.addr &&& ~~~0#128) ||| (draw &&& 0#128) = pbsid.addr
  rw [hones, BitVec.and_allOnes, BitVec.and_zero, BitVec.or_zero]

/-- `generate_bsid`; `draw` is what `get_random_bytes` yields. -/
def generateBsid (pbsid : Prefix) (draw : In6Addr) : Except RequestFault In6Addr :=
  if pbsid.InBounds then .ok (bsidOf pbsid draw) else .error .outOfBounds

/-- `generate_unique_bsid`, from draw number `k` on. -/
def generateUniqueBsid (flows : Table In6Addr ℕ) (pbsid : Prefix) (draws : ℕ → In6Addr) :
    ℕ → ℕ → Except RequestFault In6Addr
  | 0, _ => .error .outOfFuel
  | fuel + 1, k => do
    let res ← generateBsid pbsid (draws k)
    if (flows.get res).isSome then generateUniqueBsid flows pbsid draws fuel (k + 1)
    else return res

variable {flows : Table In6Addr ℕ} {pbsid : Prefix} {draws : ℕ → In6Addr}

/-- A `bsid` that is returned is a draw that is not in the table. -/
theorem generateUniqueBsid_spec {fuel k : ℕ} {bsid : In6Addr}
    (h : generateUniqueBsid flows pbsid draws fuel k = .ok bsid) :
    pbsid.InBounds ∧ flows.get bsid = none ∧ ∃ j, bsid = bsidOf pbsid (draws j) := by
  induction fuel generalizing k with
  | zero => simp [generateUniqueBsid] at h
  | succ fuel ih =>
    by_cases hbounds : pbsid.InBounds
    · simp only [generateUniqueBsid, generateBsid, if_pos hbounds, bind, Except.bind, pure,
        Except.pure] at h
      split_ifs at h with hget
      · exact ih h
      · obtain rfl := Except.ok.inj h
        exact ⟨hbounds, by simpa using hget, k, rfl⟩
    · simp [generateUniqueBsid, generateBsid, hbounds, bind, Except.bind] at h

/-- The loop ends if some draw is free. -/
theorem exists_generateUniqueBsid (hbounds : pbsid.InBounds) {j : ℕ}
    (hfree : flows.get (bsidOf pbsid (draws j)) = none) (k : ℕ) (hk : k ≤ j) :
    ∃ fuel bsid, generateUniqueBsid flows pbsid draws fuel k = .ok bsid := by
  obtain ⟨n, rfl⟩ := Nat.exists_eq_add_of_le hk
  induction n generalizing k with
  | zero =>
    refine ⟨1, bsidOf pbsid (draws k), ?_⟩
    simp only [Nat.add_zero] at hfree
    simp [generateUniqueBsid, generateBsid, hbounds, hfree, bind, Except.bind, pure, Except.pure]
  | succ n ih =>
    by_cases hget : (flows.get (bsidOf pbsid (draws k))).isSome
    · have hshift : k + (n + 1) = k + 1 + n := by omega
      obtain ⟨fuel, bsid, hrest⟩ := ih (k + 1) (hshift ▸ hfree) (by omega)
      exact ⟨fuel + 1, bsid, by
        simp [generateUniqueBsid, generateBsid, hbounds, hget, hrest, bind, Except.bind]⟩
    · exact ⟨1, bsidOf pbsid (draws k), by
        simp [generateUniqueBsid, generateBsid, hbounds, hget, bind, Except.bind, pure,
          Except.pure]⟩

/-- The loop can draw a `bsid` that is not in the table. -/
def FreeBsid (flows : Table In6Addr ℕ) (pbsid : Prefix) (draws : ℕ → In6Addr) : Prop :=
  pbsid.InBounds ∧ ∃ k, flows.get (bsidOf pbsid (draws k)) = none

/-- **The loop ends exactly then.** -/
theorem generateUniqueBsid_ok_iff :
    (∃ fuel bsid, generateUniqueBsid flows pbsid draws fuel 0 = .ok bsid) ↔
      FreeBsid flows pbsid draws := by
  constructor
  · rintro ⟨fuel, bsid, h⟩
    obtain ⟨hbounds, hfree, k, rfl⟩ := generateUniqueBsid_spec h
    exact ⟨hbounds, k, hfree⟩
  · rintro ⟨hbounds, k, hfree⟩
    exact exists_generateUniqueBsid hbounds hfree 0 (Nat.zero_le k)

/-! ## The call -/

/-- What a call does that others can see. -/
inductive RequestEffect where
  | netLock
  | netUnlock
  | flowsLock
  | flowsUnlock
  /-- `commit_flow`, and whether it succeeds. -/
  | commit (ok : Bool)
  /-- `set_flowreq_status`. -/
  | setStatus (status : ReqStatus)
  | zlogError
  deriving DecidableEq, Repr

/-- The outcomes that a call depends on: the allocations, the memory in which a router has its
`pbsid` if it was given none, the random bytes, and whether `commit_flow` and
`set_flowreq_status` succeed. -/
structure RequestEnv where
  mem : RequestMem
  junk : Prefix
  draws : ℕ → In6Addr
  commit : Bool
  written : Bool

/-- What a call leaves. -/
structure RequestResult where
  flows : Table In6Addr ℕ
  heap : List FlowObj
  log : List RequestEffect

/-- `set_flowreq_status`, where a failure is logged. -/
def setStatusLogged (env : RequestEnv) (status : ReqStatus) : List RequestEffect :=
  .setStatus status :: if env.written then [] else [.zlogError]

/-- The exits before the lock of the flows; only the one of `select_providers` logs. -/
def rejectLog (env : RequestEnv) (status : ReqStatus) : List RequestEffect :=
  .netLock :: (if status = .error then setStatusLogged env status else [.setStatus status]) ++
    [.netUnlock]

/-- The flow with its `bsid`, which all its prefixes share. -/
def FlowObj.withBsid (fl : FlowObj) (bsid : In6Addr) : FlowObj :=
  { fl with srcPrefixes := fl.srcPrefixes.map fun sp => { sp with bsid } }

/-- `process_request` from the lock of the flows on. -/
def publishFlow (s : CtrlState) (env : RequestEnv) (rt : Router) (fl : FlowObj) (fuel : ℕ) :
    Except RequestFault RequestResult := do
  let bsid ← generateUniqueBsid s.flows (rt.pbsid.getD env.junk) env.draws fuel 0
  let fl := fl.withBsid bsid
  let flows := s.flows.set bsid s.heap.length
  if env.commit then
    return ⟨flows, s.heap ++ [fl], [.netLock, .flowsLock, .flowsUnlock, .commit true,
      .setStatus .allowed, .netUnlock]⟩
  else
    return ⟨fl.srcPrefixes.foldl (fun flows sp => flows.erase sp.bsid) flows,
      s.heap ++ [{ fl with refcount := 0 }], [.netLock, .flowsLock, .flowsUnlock, .commit false,
        .setStatus .error, .flowsLock, .flowsUnlock, .netUnlock]⟩

/-- `process_request`.  The router of the source is the one that `admitFlow` has looked up. -/
def runRequest (cfg : CtrlConfig) (s : CtrlState) (req : FlowreqEntry) (env : RequestEnv)
    (fuel : ℕ) : Except RequestFault RequestResult :=
  if req.status ≠ .pending then .ok ⟨s.flows, s.heap, []⟩
  else if (cfg.ruleFor req).type = .deny then
    .ok ⟨s.flows, s.heap, setStatusLogged env .denied⟩
  else if !env.mem.flow then .ok ⟨s.flows, s.heap, [.setStatus .error]⟩
  else
    match admitFlow cfg s.net req env.mem.providers s.now, lookupRouter s.net req.srcaddr with
    | .error fault, _ => .error (.ctrl fault)
    | .ok (.error status), _ => .ok ⟨s.flows, s.heap, rejectLog env status⟩
    | .ok (.ok fl), .ok (some rt) => publishFlow s env rt fl fuel
    | .ok (.ok _), _ => .error (.ctrl .nullDereference)

/-! ## The contract -/

/-- The statuses that are written. -/
def RequestResult.statuses (r : RequestResult) : List ReqStatus :=
  r.log.filterMap fun
    | .setStatus status => some status
    | _ => none

/-- The operations on the lock of the network state. -/
def RequestResult.locks (r : RequestResult) : List RequestEffect :=
  r.log.filter fun effect => effect = .netLock ∨ effect = .netUnlock

/-- One status is written if the request is pending; it is `ALLOWED` if the flow was committed, and
then the table has one new binding, of a new `bsid` to the new flow; else the table is as before.
The lock of the network state is released once if it was taken. -/
structure Meets (s : CtrlState) (req : FlowreqEntry) (r : RequestResult) : Prop where
  writes : if req.status = .pending then r.statuses.length = 1 else r.statuses = []
  allowed : .allowed ∈ r.statuses ↔ .commit true ∈ r.log
  gained : .allowed ∈ r.statuses → ∃ bsid fl, s.flows.get bsid = none ∧
    r.flows = s.flows.set bsid s.heap.length ∧ r.heap = s.heap ++ [fl] ∧
    ∀ sp ∈ fl.srcPrefixes, sp.bsid = bsid
  unchanged : .allowed ∉ r.statuses → r.flows = s.flows
  locks : r.locks = [] ∨ r.locks = [.netLock, .netUnlock]

theorem Table.erase_of_get {κ α : Type} [DecidableEq κ] {t : Table κ α} {k : κ}
    (h : t.get k = none) : t.erase k = t := by
  have hnone := (OMap.get_eq_none_iff k).mp h
  exact congrArg Table.mk (List.eraseP_of_forall_not fun e he => by simpa using hnone e he)

theorem Table.erase_set {κ α : Type} [DecidableEq κ] {t : Table κ α} {k : κ} (v : α)
    (h : t.get k = none) : (t.set k v).erase k = t := by
  have hnone := (OMap.get_eq_none_iff k).mp h
  unfold Table.erase Table.set
  rw [OMap.set_eq_append k v h, OMap.erase,
    List.eraseP_append_right _ fun e he => by simpa using hnone e he]
  simp

/-- The rollback takes the `bsid` out of the table again, though it does so once per prefix. -/
theorem foldl_erase_withBsid (fl : FlowObj) (hne : fl.srcPrefixes ≠ []) {bsid : In6Addr} (v : ℕ)
    (h : flows.get bsid = none) :
    (fl.withBsid bsid).srcPrefixes.foldl (fun flows sp => flows.erase sp.bsid)
      (flows.set bsid v) = flows := by
  have hrest : ∀ sps : List SrcPrefix, (sps.map fun sp => { sp with bsid }).foldl
      (fun flows sp => flows.erase sp.bsid) flows = flows := by
    intro sps
    induction sps with
    | nil => rfl
    | cons sp sps ih =>
      rw [List.map_cons, List.foldl_cons, Table.erase_of_get h]
      exact ih
  obtain ⟨sp, sps, hsps⟩ := List.exists_cons_of_ne_nil hne
  rw [FlowObj.withBsid, hsps, List.map_cons, List.foldl_cons, Table.erase_set v h]
  exact hrest sps

variable {cfg : CtrlConfig} {s : CtrlState} {req : FlowreqEntry} {env : RequestEnv} {fuel : ℕ}
  {r : RequestResult}

/-- A request that is rejected before the flows are locked is not allowed. -/
theorem ne_allowed_of_admitFlow {net : NetState} {mem : Bool} {now : ℕ} {status : ReqStatus}
    (h : admitFlow cfg net req mem now = .ok (.error status)) : status ≠ .allowed := by
  obtain ⟨status', hstatus, hne⟩ | ⟨fl, segs, epath, hfl, -⟩ := admitFlow_cases h
  · cases hstatus
    exact hne
  · cases hfl

/-- An exit that writes one status, and takes and releases the lock, or does neither. -/
theorem meets_of_log (status : ReqStatus) (hpending : req.status = .pending)
    {log : List RequestEffect} (hwrites : RequestResult.statuses ⟨s.flows, s.heap, log⟩ = [status])
    (hstatus : status ≠ .allowed) (hcommit : .commit true ∉ log)
    (hlocks : RequestResult.locks ⟨s.flows, s.heap, log⟩ = [] ∨
      RequestResult.locks ⟨s.flows, s.heap, log⟩ = [.netLock, .netUnlock]) :
    Meets s req ⟨s.flows, s.heap, log⟩ where
  writes := by rw [if_pos hpending, hwrites]; rfl
  allowed := by simp [hwrites, hcommit, hstatus.symm]
  gained := by simp [hwrites, hstatus.symm]
  unchanged _ := rfl
  locks := hlocks

theorem statuses_setStatusLogged (env : RequestEnv) (status : ReqStatus)
    (flows : Table In6Addr ℕ) (heap : List FlowObj) :
    RequestResult.statuses ⟨flows, heap, setStatusLogged env status⟩ = [status] := by
  cases hwritten : env.written <;> simp [RequestResult.statuses, setStatusLogged, hwritten]

theorem statuses_rejectLog (env : RequestEnv) (status : ReqStatus) (flows : Table In6Addr ℕ)
    (heap : List FlowObj) :
    RequestResult.statuses ⟨flows, heap, rejectLog env status⟩ = [status] := by
  by_cases herror : status = .error
  · cases hwritten : env.written <;>
      simp [RequestResult.statuses, rejectLog, setStatusLogged, herror, hwritten]
  · simp [RequestResult.statuses, rejectLog, herror]

theorem meets_of_rejectLog (hpending : req.status = .pending) {status : ReqStatus}
    (hstatus : status ≠ .allowed) : Meets s req ⟨s.flows, s.heap, rejectLog env status⟩ := by
  have hwrites := statuses_rejectLog env status s.flows s.heap
  by_cases herror : status = .error
  · cases hwritten : env.written <;>
      exact meets_of_log status hpending hwrites hstatus
        (by simp [rejectLog, setStatusLogged, herror, hwritten])
        (.inr (by simp [RequestResult.locks, rejectLog, setStatusLogged, herror, hwritten]))
  · exact meets_of_log status hpending hwrites hstatus (by simp [rejectLog, herror])
      (.inr (by simp [RequestResult.locks, rejectLog, herror]))

/-- How `publishFlow` returns: with a free BSID, and the flow in the table or withdrawn. -/
theorem publishFlow_cases {rt : Router} {fl : FlowObj}
    (h : publishFlow s env rt fl fuel = .ok r) :
    ∃ bsid, s.flows.get bsid = none ∧
      (env.commit = true ∧ r = ⟨s.flows.set bsid s.heap.length, s.heap ++ [fl.withBsid bsid],
          [.netLock, .flowsLock, .flowsUnlock, .commit true, .setStatus .allowed, .netUnlock]⟩ ∨
        env.commit = false ∧ r = ⟨(fl.withBsid bsid).srcPrefixes.foldl
            (fun flows sp => flows.erase sp.bsid) (s.flows.set bsid s.heap.length),
          s.heap ++ [{ fl.withBsid bsid with refcount := 0 }], [.netLock, .flowsLock,
            .flowsUnlock, .commit false, .setStatus .error, .flowsLock, .flowsUnlock,
            .netUnlock]⟩) := by
  obtain ⟨bsid, hbsid, h⟩ := Fault.bind_eq_ok_iff.mp h
  obtain ⟨-, hfree, -⟩ := generateUniqueBsid_spec hbsid
  refine ⟨bsid, hfree, ?_⟩
  cases hcommit : env.commit with
  | true =>
    rw [hcommit, if_pos rfl] at h
    exact .inl ⟨rfl, (Except.ok.inj h).symm⟩
  | false =>
    rw [hcommit, if_neg (by decide)] at h
    exact .inr ⟨rfl, (Except.ok.inj h).symm⟩

theorem meets_of_publishFlow (hpending : req.status = .pending) {rt : Router} {fl : FlowObj}
    (hne : fl.srcPrefixes ≠ []) (h : publishFlow s env rt fl fuel = .ok r) : Meets s req r := by
  obtain ⟨bsid, hfree, ⟨-, rfl⟩ | ⟨-, rfl⟩⟩ := publishFlow_cases h
  · refine ⟨by simp [hpending, RequestResult.statuses], by simp [RequestResult.statuses],
      fun _ => ⟨bsid, fl.withBsid bsid, hfree, rfl, rfl, ?_⟩,
      by simp [RequestResult.statuses], .inr (by simp [RequestResult.locks])⟩
    simp [FlowObj.withBsid]
  · exact ⟨by simp [hpending, RequestResult.statuses], by simp [RequestResult.statuses],
      by simp [RequestResult.statuses], fun _ => foldl_erase_withBsid fl hne _ hfree,
      .inr (by simp [RequestResult.locks])⟩

/-- **Whenever the call returns, it meets its contract.** -/
theorem meets_of_runRequest (h : runRequest cfg s req env fuel = .ok r) : Meets s req r := by
  unfold runRequest at h
  split_ifs at h with hpending hdeny hmem
  · obtain rfl := Except.ok.inj h
    refine ⟨?_, by simp [RequestResult.statuses], by simp [RequestResult.statuses], fun _ => rfl,
      .inl rfl⟩
    rw [if_neg hpending]
    rfl
  · obtain rfl := Except.ok.inj h
    have hpending := not_not.mp hpending
    cases hwritten : env.written <;>
      exact meets_of_log .denied hpending (statuses_setStatusLogged env .denied _ _) (by simp)
        (by simp [setStatusLogged, hwritten])
        (.inl (by simp [RequestResult.locks, setStatusLogged, hwritten]))
  · obtain rfl := Except.ok.inj h
    exact meets_of_log .error (not_not.mp hpending) (by simp [RequestResult.statuses])
      (by simp) (by simp) (.inl (by simp [RequestResult.locks]))
  · have hpending := not_not.mp hpending
    cases hadmitted : admitFlow cfg s.net req env.mem.providers s.now with
    | error fault => simp [hadmitted] at h
    | ok out =>
      cases out with
      | error status =>
        simp only [hadmitted, Except.ok.injEq] at h
        subst h
        exact meets_of_rejectLog hpending (ne_allowed_of_admitFlow hadmitted)
      | ok fl =>
        obtain ⟨segs, epath, hflow⟩ := admitted_of_admitFlow hadmitted
        obtain ⟨rt, hrt, -⟩ := hflow.source
        simp only [hadmitted, hrt] at h
        refine meets_of_publishFlow hpending ?_ h
        rw [hflow.srcPrefixes]
        simp [hflow.providers]

/-- The status and the flow are those of `processRequest`. -/
theorem processRequest_of_runRequest (hpending : req.status = .pending)
    (h : runRequest cfg s req env fuel = .ok r) :
    ∃ status fl, processRequest cfg s.net req env.mem s.now env.commit = .ok (status, fl) ∧
      r.statuses = [status] ∧
      ∀ fl', fl = some fl' → ∃ bsid, r.heap = s.heap ++ [fl'.withBsid bsid] := by
  unfold runRequest at h
  unfold processRequest
  rw [if_neg (not_not.mpr hpending)] at h ⊢
  by_cases hdeny : (cfg.ruleFor req).type = .deny
  · rw [if_pos hdeny] at h ⊢
    obtain rfl := Except.ok.inj h
    exact ⟨.denied, none, rfl, statuses_setStatusLogged env .denied _ _, by simp⟩
  rw [if_neg hdeny] at h ⊢
  by_cases hmem : !env.mem.flow
  · rw [if_pos hmem] at h ⊢
    obtain rfl := Except.ok.inj h
    exact ⟨.error, none, rfl, rfl, by simp⟩
  · rw [if_neg hmem] at h ⊢
    cases hadmitted : admitFlow cfg s.net req env.mem.providers s.now with
    | error fault => simp [hadmitted] at h
    | ok out =>
      cases out with
      | error status =>
        simp only [hadmitted, Except.ok.injEq] at h
        subst h
        exact ⟨status, none, rfl, statuses_rejectLog env status _ _, by simp⟩
      | ok fl =>
        obtain ⟨segs, epath, hflow⟩ := admitted_of_admitFlow hadmitted
        obtain ⟨rt, hrt, -⟩ := hflow.source
        simp only [hadmitted, hrt] at h
        obtain ⟨bsid, -, ⟨hcommit, rfl⟩ | ⟨hcommit, rfl⟩⟩ := publishFlow_cases h
        · rw [hcommit]
          exact ⟨.allowed, some fl, rfl, rfl, fun fl' hfl' =>
            ⟨bsid, by rw [Option.some.inj hfl']⟩⟩
        · rw [hcommit]
          exact ⟨.error, none, rfl, rfl, by simp⟩

/-! ## When the call returns -/

/-- The request reaches the lock of the network state. -/
structure Reaches (cfg : CtrlConfig) (req : FlowreqEntry) (env : RequestEnv) : Prop where
  pending : req.status = .pending
  allow : (cfg.ruleFor req).type = .allow
  mem : env.mem.flow = true

/-- The path that the request asks for. -/
def requestPathspec (cfg : CtrlConfig) (req : FlowreqEntry) (rt dstrt : Router) :
    Pathspec Link Unit :=
  flowPathspec (flowOf (cfg.ruleFor req) req) rt.nodeId dstrt.nodeId (cfg.ruleFor req).path

/-- What a call needs in order to return: lookups that do not fault, waypoints in the graph as far
as the path gets, and, if there is a path, a `pbsid` of a sound length and a draw that is free. -/
structure Completes (cfg : CtrlConfig) (s : CtrlState) (req : FlowreqEntry) (env : RequestEnv) :
    Prop where
  source : Reaches cfg req env → ∃ found, lookupRouter s.net req.srcaddr = .ok found
  destination : Reaches cfg req env → ∀ rt, lookupRouter s.net req.srcaddr = .ok (some rt) →
    ∃ found, lookupRouter s.net req.dstaddr = .ok found
  path : ∀ rt dstrt, Routable cfg s.net req rt dstrt → env.mem = ⟨true, true⟩ →
    ¬ (requestPathspec cfg req rt dstrt).Leaves s.net.tables ∧
      ((requestPathspec cfg req rt dstrt).Lacks s.net.tables ∨
        FreeBsid s.flows (rt.pbsid.getD env.junk) env.draws)

/-- A request that does not reach the lock returns at once. -/
theorem runRequest_of_not_reaches (h : ¬ Reaches cfg req env) (fuel : ℕ) :
    ∃ log, runRequest cfg s req env fuel = .ok ⟨s.flows, s.heap, log⟩ := by
  unfold runRequest
  split_ifs with hpending hdeny hmem
  · exact ⟨_, rfl⟩
  · exact ⟨_, rfl⟩
  · exact ⟨_, rfl⟩
  · refine absurd ⟨not_not.mp hpending, ?_, by simpa using hmem⟩ h
    cases hrule : (cfg.ruleFor req).type with
    | allow => rfl
    | deny => exact absurd hrule hdeny

theorem runRequest_of_reaches (h : Reaches cfg req env) (fuel : ℕ) :
    runRequest cfg s req env fuel =
      match admitFlow cfg s.net req env.mem.providers s.now, lookupRouter s.net req.srcaddr with
      | .error fault, _ => .error (.ctrl fault)
      | .ok (.error status), _ => .ok ⟨s.flows, s.heap, rejectLog env status⟩
      | .ok (.ok fl), .ok (some rt) => publishFlow s env rt fl fuel
      | .ok (.ok _), _ => .error (.ctrl .nullDereference) := by
  simp [runRequest, h.pending, h.allow, h.mem]

/-- What `admitFlow` makes of a request that gets to `build_segpath`. -/
theorem Routable.admitFlow_eq {net : NetState} {rt dstrt : Router}
    (h : Routable cfg net req rt dstrt) (now : ℕ) :
    admitFlow cfg net req true now =
      match buildSegpath net.tables (requestPathspec cfg req rt dstrt) with
      | .error fault => .error (.graph fault)
      | .ok none => .ok (.error .unavailable)
      | .ok (some (segs, epath)) =>
        .ok (.ok (newFlow cfg req rt.nodeId dstrt.nodeId now segs epath)) := by
  have hproviders := h.providers
  simp only [admitFlow, h.source, h.destination, h.srcNode, h.dstNode, hproviders, bind,
    Except.bind, pure, Except.pure, not_true_eq_false, or_self, if_false, Bool.not_true,
    Bool.false_eq_true]
  rfl

/-- And of one that does not. -/
theorem exists_admitFlow_error {net : NetState} (mem : Bool) (now : ℕ)
    (hpending : req.status = .pending) (hallow : (cfg.ruleFor req).type = .allow)
    (hsrc : ∃ found, lookupRouter net req.srcaddr = .ok found)
    (hdst : ∀ rt, lookupRouter net req.srcaddr = .ok (some rt) →
      ∃ found, lookupRouter net req.dstaddr = .ok found)
    (hnot : ∀ rt dstrt, Routable cfg net req rt dstrt → mem = false) :
    ∃ status, admitFlow cfg net req mem now = .ok (.error status) := by
  obtain ⟨found, hsrc⟩ := hsrc
  cases found with
  | none => exact ⟨.noPrefix, by simp [admitFlow, hsrc, bind, Except.bind, pure, Except.pure]⟩
  | some rt =>
    obtain ⟨found, hdst⟩ := hdst rt hsrc
    cases found with
    | none =>
      exact ⟨.noPrefix, by simp [admitFlow, hsrc, hdst, bind, Except.bind, pure, Except.pure]⟩
    | some dstrt =>
      by_cases hnodes : rt.nodeId ∉ net.tables.nodes ∨ dstrt.nodeId ∉ net.tables.nodes
      · exact ⟨.unavailable, by
          simp only [admitFlow, hsrc, hdst, hnodes, bind, Except.bind, pure, Except.pure,
            if_true]⟩
      · by_cases hmem : !mem ∨ cfg.nbProviders = 0
        · exact ⟨.error, by
            simp only [admitFlow, hsrc, hdst, hnodes, hmem, bind, Except.bind, pure,
              Except.pure, if_true, if_false]⟩
        · rw [not_or] at hnodes hmem
          have := hnot rt dstrt ⟨hpending, hallow, hsrc, hdst, not_not.mp hnodes.1,
            not_not.mp hnodes.2, hmem.2⟩
          simp [this] at hmem

theorem publishFlow_ok_iff (rt : Router) (fl : FlowObj) :
    (∃ fuel r, publishFlow s env rt fl fuel = .ok r) ↔
      FreeBsid s.flows (rt.pbsid.getD env.junk) env.draws := by
  rw [← generateUniqueBsid_ok_iff]
  refine exists_congr fun fuel => ?_
  unfold publishFlow
  cases hbsid : generateUniqueBsid s.flows (rt.pbsid.getD env.junk) env.draws fuel 0 with
  | error fault => simp [bind, Except.bind]
  | ok bsid =>
    by_cases hcommit : env.commit <;> simp [hcommit, bind, Except.bind, pure, Except.pure]

/-- A request that gets to `build_segpath` needs a path that stays in the graph, and a `bsid` if
there is one. -/
theorem Routable.runRequest_ok_iff {rt dstrt : Router} (h : Routable cfg s.net req rt dstrt)
    (hnet : Finalized s.net.tables) (hmem : env.mem = ⟨true, true⟩) :
    (∃ fuel r, runRequest cfg s req env fuel = .ok r) ↔
      ¬ (requestPathspec cfg req rt dstrt).Leaves s.net.tables ∧
        ((requestPathspec cfg req rt dstrt).Lacks s.net.tables ∨
          FreeBsid s.flows (rt.pbsid.getD env.junk) env.draws) := by
  have hgc : IsSubgraph ((requestPathspec cfg req rt dstrt).constrained s.net.tables)
      s.net.tables := isSubgraph_flow hnet _ _ _ _
  have hok := buildSegpath_ok_iff hnet hgc
  have hreaches : Reaches cfg req env := ⟨h.pending, h.allow, by rw [hmem]⟩
  have hproviders : env.mem.providers = true := by rw [hmem]
  simp only [runRequest_of_reaches hreaches, hproviders, h.source, h.admitFlow_eq s.now]
  cases hbuild : buildSegpath s.net.tables (requestPathspec cfg req rt dstrt) with
  | error fault =>
    have hleaves := hok.not.mp (by simp [hbuild])
    simp [not_not.mp hleaves]
  | ok out =>
    have hleaves := hok.mp ⟨out, hbuild⟩
    have hnone := buildSegpath_noPath_iff hnet hgc hbuild
    cases out with
    | none => simp [hleaves, hnone.mp rfl]
    | some out =>
      have hpath : ¬ (requestPathspec cfg req rt dstrt).Lacks s.net.tables :=
        fun hlacks => by simpa using hnone.mpr hlacks
      simp only [hleaves, hpath, not_false_eq_true, true_and, false_or]
      exact publishFlow_ok_iff rt _

/-- **The call returns exactly if it completes.** -/
theorem runRequest_ok_iff (hnet : Finalized s.net.tables) :
    (∃ fuel r, runRequest cfg s req env fuel = .ok r) ↔ Completes cfg s req env := by
  constructor
  · intro hrun
    refine ⟨fun hreaches => ?_, fun hreaches rt hrt => ?_, fun rt dstrt hroutable hmem =>
      (hroutable.runRequest_ok_iff hnet hmem).mp hrun⟩
    · obtain ⟨fuel, r, hrun⟩ := hrun
      rw [runRequest_of_reaches hreaches] at hrun
      cases hsrc : lookupRouter s.net req.srcaddr with
      | error fault => simp [admitFlow, hsrc, bind, Except.bind] at hrun
      | ok found => exact ⟨found, rfl⟩
    · obtain ⟨fuel, r, hrun⟩ := hrun
      rw [runRequest_of_reaches hreaches] at hrun
      cases hdst : lookupRouter s.net req.dstaddr with
      | error fault => simp [admitFlow, hrt, hdst, bind, Except.bind] at hrun
      | ok found => exact ⟨found, rfl⟩
  · intro hcompletes
    by_cases hreaches : Reaches cfg req env
    · by_cases hroutable : ∃ rt dstrt, Routable cfg s.net req rt dstrt ∧ env.mem.providers = true
      · obtain ⟨rt, dstrt, hroutable, hproviders⟩ := hroutable
        have hmem : env.mem = ⟨true, true⟩ := by
          cases hboth : env.mem with
          | mk flow providers =>
            have hflow := hreaches.mem
            rw [hboth] at hflow hproviders
            exact congrArg₂ RequestMem.mk hflow hproviders
        exact (hroutable.runRequest_ok_iff hnet hmem).mpr (hcompletes.path rt dstrt hroutable hmem)
      · obtain ⟨status, hstatus⟩ := exists_admitFlow_error env.mem.providers s.now
          hreaches.pending hreaches.allow (hcompletes.source hreaches)
          (hcompletes.destination hreaches) fun rt dstrt hr => by
            by_contra hproviders
            exact hroutable ⟨rt, dstrt, hr, by simpa using hproviders⟩
        refine ⟨0, ⟨s.flows, s.heap, rejectLog env status⟩, ?_⟩
        rw [runRequest_of_reaches hreaches, hstatus]
    · obtain ⟨log, hlog⟩ := runRequest_of_not_reaches (s := s) hreaches 0
      exact ⟨0, _, hlog⟩

/-- **Main theorem.** Whenever a call of `process_request` returns, it meets its contract; and it
returns exactly if no lookup faults, the path stays in the graph, and a free `bsid` is drawn if
there is a path. -/
theorem request_meets_iff (cfg : CtrlConfig) (s : CtrlState) (req : FlowreqEntry) (env : RequestEnv)
    (hnet : Finalized s.net.tables) :
    (∀ fuel r, runRequest cfg s req env fuel = .ok r → Meets s req r) ∧
      ((∃ fuel r, runRequest cfg s req env fuel = .ok r ∧ Meets s req r) ↔
        Completes cfg s req env) := by
  refine ⟨fun fuel r h => meets_of_runRequest h, ?_⟩
  rw [← runRequest_ok_iff hnet]
  constructor
  · rintro ⟨fuel, r, h, -⟩
    exact ⟨fuel, r, h⟩
  · rintro ⟨fuel, r, h⟩
    exact ⟨fuel, r, h, meets_of_runRequest h⟩

/-- A controller without flows. -/
def noFlows (net : NetState) : CtrlState := ⟨net, .empty, [], [], .idle, 0⟩

/-- All allocations and transactions succeed, and half of a `bsid` is random. -/
def allSucceed : RequestEnv := ⟨⟨true, true⟩, ⟨0, 64⟩, BitVec.ofNat 128, true, true⟩

/-- The request over the link between `A` and `B` is allowed. -/
theorem request_meets_AB :
    ∃ net r, netRun netInit linkAB = some net ∧
      runRequest CtrlState.allowAll (noFlows net) CtrlState.requestAB allSucceed 1 = .ok r ∧
      r.statuses = [.allowed] ∧ Meets (noFlows net) CtrlState.requestAB r := by
  have hfacts : (netRun netInit linkAB).map (fun net => (net.graphStaging.nodes.length,
      (runRequest CtrlState.allowAll (noFlows net) CtrlState.requestAB allSucceed 1).map
        RequestResult.statuses)) = some (2, .ok [.allowed]) := by
    decide +kernel
  obtain ⟨net, hnet, hfacts⟩ := Option.map_eq_some_iff.mp hfacts
  obtain ⟨hstaging, hrun⟩ := Prod.mk.inj hfacts
  have hfinal := (netRun_finalized hnet (by rw [hstaging]; decide)).1
  cases hresult : runRequest CtrlState.allowAll (noFlows net) CtrlState.requestAB allSucceed 1 with
  | error fault => simp [hresult, Except.map] at hrun
  | ok r =>
    rw [hresult] at hrun
    refine ⟨net, r, hnet, hresult, Except.ok.inj hrun, ?_⟩
    exact (request_meets_iff CtrlState.allowAll (noFlows net) CtrlState.requestAB allSucceed
      hfinal).1 1 r hresult

/-- The loop goes on as long as all draws are taken. -/
theorem generateUniqueBsid_outOfFuel (hbounds : pbsid.InBounds)
    (htaken : ∀ k, (flows.get (bsidOf pbsid (draws k))).isSome) (fuel k : ℕ) :
    generateUniqueBsid flows pbsid draws fuel k = .error .outOfFuel := by
  induction fuel generalizing k with
  | zero => rfl
  | succ fuel ih =>
    simp [generateUniqueBsid, generateBsid, hbounds, htaken, ih, bind, Except.bind]

/-- Router `A` has a single `bsid`, and a first flow gets it. -/
def takeBsid : List CtrlEvent :=
  [.notify (.nodestateRead ⟨"A", 1, [⟨1 <<< 120, 8⟩], some ⟨9, 128⟩⟩ ⟨true, true⟩),
    .notify (.nodestateRead ⟨"B", 2, [⟨2 <<< 120, 8⟩], none⟩ ⟨true, true⟩),
    .notify (.linkstateRead ⟨"A", 3, "B", 4, 10, 100, 50, 7⟩ ⟨true, true, true, true⟩), .sync true,
    .request CtrlState.requestAB ⟨true, true⟩, .publish 0 9, .commit 0 true, .finish 0]

/-- The second request is never answered: it goes on drawing the same `bsid`. -/
theorem request_never_returns :
    ∃ s, CtrlState.run CtrlState.allowAll .init takeBsid = some s ∧
      ∀ draws fuel, runRequest CtrlState.allowAll s CtrlState.requestAB
        ⟨⟨true, true⟩, ⟨0, 0⟩, draws, true, true⟩ fuel = .error .outOfFuel := by
  have hfacts : (CtrlState.run CtrlState.allowAll .init takeBsid).map (fun s => (s.flows.get 9,
      lookupRouter s.net CtrlState.requestAB.srcaddr,
      admitFlow CtrlState.allowAll s.net CtrlState.requestAB true s.now)) =
        some (some 0, .ok (some ⟨"A", 1, some ⟨9, 128⟩, [⟨1 <<< 120, 8⟩], 1⟩),
          .ok (.ok (flowAB 0))) := by
    decide +kernel
  obtain ⟨s, hs, hfacts⟩ := Option.map_eq_some_iff.mp hfacts
  obtain ⟨hget, hfacts⟩ := Prod.mk.inj hfacts
  obtain ⟨hrt, hfl⟩ := Prod.mk.inj hfacts
  refine ⟨s, hs, fun draws fuel => ?_⟩
  rw [runRequest_of_reaches ⟨rfl, rfl, rfl⟩]
  simp only [hrt, hfl]
  unfold publishFlow
  rw [Option.getD_some, generateUniqueBsid_outOfFuel (by decide) fun k => by
    rw [bsidOf_of_bsidLen (by decide), hget]
    rfl]
  rfl

/-! ## The steps of the call -/

namespace CtrlState

theorem modify_length {α : Type} (l : List α) (a : α) (f : α → α) :
    (l ++ [a]).modify l.length f = l ++ [f a] := by
  induction l with
  | nil => rfl
  | cons b l ih => simp [ih]

/-- The state in which a call has built a flow. -/
def withBuilt (s : CtrlState) (fl : FlowObj) : CtrlState :=
  { s with heap := s.heap ++ [fl], calls := .built s.heap.length :: s.calls }

/-- The state in which it has put the flow in the table. -/
def withPublished (s : CtrlState) (fl : FlowObj) (bsid : In6Addr) (call : CtrlCall) : CtrlState :=
  { s with
    heap := s.heap ++ [fl.withBsid bsid]
    flows := s.flows.set bsid s.heap.length
    calls := call :: s.calls }

theorem step_request (h : Reaches cfg req env) {fl : FlowObj}
    (hfl : admitFlow cfg s.net req env.mem.providers s.now = .ok (.ok fl)) :
    s.step cfg (.request req env.mem) = some (s.withBuilt fl) := by
  simp [step, withBuilt, h.pending, h.allow, h.mem, hfl]

theorem step_publish {fl : FlowObj} {bsid : In6Addr} (hfree : s.flows.get bsid = none) :
    (s.withBuilt fl).step cfg (.publish 0 bsid) =
      some (s.withPublished fl bsid (.committing s.heap.length)) := by
  simp [step, withBuilt, withPublished, hfree, modifyFlow, modify_length, FlowObj.withBsid]

theorem step_commit (fl : FlowObj) (bsid : In6Addr) (ok : Bool) :
    (s.withPublished fl bsid (.committing s.heap.length)).step cfg (.commit 0 ok) =
      some (s.withPublished fl bsid (if ok then .committed else .failed s.heap.length)) := by
  simp [step, withPublished]

/-- The steps of a call that commits its flow. -/
theorem run_committed (h : Reaches cfg req env) {fl : FlowObj}
    (hfl : admitFlow cfg s.net req env.mem.providers s.now = .ok (.ok fl)) {bsid : In6Addr}
    (hfree : s.flows.get bsid = none) :
    run cfg s [.request req env.mem, .publish 0 bsid, .commit 0 true, .finish 0] =
      some { s with
        flows := s.flows.set bsid s.heap.length, heap := s.heap ++ [fl.withBsid bsid] } := by
  rw [run, run_cons, step_request h hfl, Option.bind_some, run_cons, step_publish hfree,
    Option.bind_some, run_cons, step_commit, Option.bind_some]
  rfl

/-- The steps of a call that does not. -/
theorem run_failed (h : Reaches cfg req env) {fl : FlowObj}
    (hfl : admitFlow cfg s.net req env.mem.providers s.now = .ok (.ok fl)) {bsid : In6Addr}
    (hfree : s.flows.get bsid = none) :
    run cfg s [.request req env.mem, .publish 0 bsid, .commit 0 false, .unlink 0, .finish 0] =
      some { s with
        flows := (fl.withBsid bsid).srcPrefixes.foldl (fun flows sp => flows.erase sp.bsid)
          (s.flows.set bsid s.heap.length)
        heap := s.heap ++ [{ fl.withBsid bsid with refcount := 0 }] } := by
  rw [run, run_cons, step_request h hfl, Option.bind_some, run_cons, step_publish hfree,
    Option.bind_some, run_cons, step_commit, Option.bind_some]
  simp [run_cons, step, withPublished, modifyFlow, modify_length]

/-- A call that nothing interrupts is a run of the controller. -/
theorem exists_run_of_runRequest (h : runRequest cfg s req env fuel = .ok r) :
    ∃ events, run cfg s events = some { s with flows := r.flows, heap := r.heap } := by
  by_cases hreaches : Reaches cfg req env
  · rw [runRequest_of_reaches hreaches] at h
    cases hfl : admitFlow cfg s.net req env.mem.providers s.now with
    | error fault => simp [hfl] at h
    | ok out =>
      cases out with
      | error status =>
        simp only [hfl, Except.ok.injEq] at h
        subst h
        refine ⟨[.request req env.mem, .finish 0], ?_⟩
        simp [run, run_cons, step, hreaches.pending, hreaches.allow, hreaches.mem, hfl]
      | ok fl =>
        obtain ⟨segs, epath, hflow⟩ := admitted_of_admitFlow hfl
        obtain ⟨rt, hrt, -⟩ := hflow.source
        simp only [hfl, hrt] at h
        obtain ⟨bsid, hfree, ⟨-, rfl⟩ | ⟨-, rfl⟩⟩ := publishFlow_cases h
        · exact ⟨_, run_committed hreaches hfl hfree⟩
        · exact ⟨_, run_failed hreaches hfl hfree⟩
  · obtain ⟨log, hlog⟩ := runRequest_of_not_reaches (s := s) hreaches fuel
    obtain rfl := Except.ok.inj (hlog.symm.trans h)
    exact ⟨[], rfl⟩

/-- The call for the link between `A` and `B`. -/
theorem exists_run_of_request_AB :
    ∃ net r events, runRequest allowAll (noFlows net) requestAB allSucceed 1 = .ok r ∧
      r.statuses = [.allowed] ∧
      run allowAll (noFlows net) events = some { noFlows net with
        flows := r.flows, heap := r.heap } := by
  have hfacts : (netRun netInit linkAB).map (fun net =>
      (runRequest allowAll (noFlows net) requestAB allSucceed 1).map RequestResult.statuses) =
        some (.ok [.allowed]) := by
    decide +kernel
  obtain ⟨net, -, hmap⟩ := Option.map_eq_some_iff.mp hfacts
  obtain ⟨r, hr, hstatuses⟩ := Fault.map_eq_ok_iff.mp hmap
  obtain ⟨events, hevents⟩ := exists_run_of_runRequest hr
  exact ⟨net, r, events, hr, hstatuses, hevents⟩

end CtrlState

end Srn
