import Srn.Controller.Sweep
import Srn.NetState.Identity

/-!
# Srn.Controller.Affected

`flow_affected` compares the edges that a flow was routed over, which belong to graphs that are
no longer published, with the published graph by their ids alone.  In every run of the controller
that adds fewer than 2^32 edges this is sound: an id stands for the same link in all graphs that
were published, so a flow is not affected exactly when all its edges are still there
(`flow_affected_iff_survives`).
-/

namespace Srn

/-! ## One comparison -/

namespace FlowObj

/-- The edges on the paths of a flow. -/
def storedEdges (fl : FlowObj) : List (Edge Link) :=
  fl.srcPrefixes.flatMap fun sp => sp.epath.getD []

/-- Every edge of the flow is still in the graph, as the same link with the same metric. -/
def Survives (fl : FlowObj) (g : Graph Link) : Prop :=
  ∀ e ∈ fl.storedEdges, ∃ e' ∈ g.edges,
    e'.id = e.id ∧ e'.identity = e.identity ∧ e'.metric = e.metric

end FlowObj

variable {g : Graph Link} {log : List EdgeIdentity}

/-- In a graph whose edges have different ids the test of one edge finds the edge. -/
theorem edgeAffected_eq_false_iff (hnodup : (g.edges.map Edge.id).Nodup) (e : Edge Link) :
    edgeAffected g e = false ↔ ∃ e' ∈ g.edges, e'.id = e.id ∧ e'.metric = e.metric := by
  constructor
  · intro h
    exact FlowObj.exists_of_not_edgeAffected (by simp [h])
  · rintro ⟨e', he', hid, hmetric⟩
    obtain ⟨found, hfound⟩ : ∃ found, g.edges.find? (fun x => x.id = e.id) = some found :=
      Option.isSome_iff_exists.mp (List.find?_isSome.mpr ⟨e', he', by simpa using hid⟩)
    have hfoundId : found.id = e.id := by simpa using List.find?_some hfound
    obtain rfl : found = e' := List.inj_on_of_nodup_map hnodup (List.mem_of_find?_eq_some hfound)
      he' (hfoundId.trans hid.symm)
    simp [edgeAffected, hfound, hmetric]

/-- `flow_affected` on paths that are there. -/
theorem flowAffected_eq_false_iff {sps : List SrcPrefix} (hpaths : ∀ sp ∈ sps, sp.epath ≠ none) :
    flowAffected g sps = .ok false ↔
      ∀ e ∈ sps.flatMap fun sp => sp.epath.getD [], edgeAffected g e = false := by
  induction sps with
  | nil => simp [flowAffected]
  | cons sp sps ih =>
    obtain ⟨es, hes⟩ := Option.ne_none_iff_exists'.mp (hpaths sp List.mem_cons_self)
    have hrest := ih fun sp' hsp' => hpaths sp' (List.mem_cons_of_mem _ hsp')
    rw [flowAffected, hes, List.flatMap_cons, hes, Option.getD_some, List.forall_mem_append]
    by_cases hany : es.any (edgeAffected g)
    · have hnot : ¬ ∀ e ∈ es, edgeAffected g e = false := by
        obtain ⟨e, he, haff⟩ := List.any_eq_true.mp hany
        exact fun hall => by simp [hall e he] at haff
      simp [hany, hnot]
    · have hall : ∀ e ∈ es, edgeAffected g e = false := fun e he => by
        simpa using fun haff => hany (List.any_eq_true.mpr ⟨e, he, haff⟩)
      simp only [hany, Bool.false_eq_true, if_false, hrest]
      exact ⟨fun h => ⟨hall, h⟩, fun h => h.2⟩

/-- What the comparison by ids decides, when both the edges of the flow and those of the graph are
in the log. -/
theorem flowAffected_iff_survives (hlog : log.length < UInt32.size) (hg : Listed log g.edges)
    {fl : FlowObj} (hpaths : ∀ sp ∈ fl.srcPrefixes, sp.epath ≠ none)
    (hstored : ∀ e ∈ fl.storedEdges, Given log e) :
    flowAffected g fl.srcPrefixes = .ok false ↔ fl.Survives g := by
  rw [flowAffected_eq_false_iff hpaths]
  refine forall₂_congr fun e he => ?_
  rw [edgeAffected_eq_false_iff (hg.distinct hlog)]
  constructor
  · rintro ⟨e', he', hid, hmetric⟩
    exact ⟨e', he', hid, (hg.given e' he').identity_eq (hstored e he) hlog hid, hmetric⟩
  · rintro ⟨e', he', hid, -, hmetric⟩
    exact ⟨e', he', hid, hmetric⟩

/-! ## The published graph -/

/-- The tables that are published with the graph have its edges. -/
theorem NetWf.edges_tables {s : NetState} (hs : NetWf s) :
    (view s.heap s.graph).2 = s.tables.edges.map some := by
  obtain ⟨value, hvalue, hcache⟩ := hs.tables
  rw [(graphBuildCache_same hcache).1]
  obtain ⟨nodes, -, hvalue⟩ := Option.bind_eq_some_iff.mp hvalue
  obtain ⟨edges, hedges, hvalue⟩ := Option.bind_eq_some_iff.mp hvalue
  cases hvalue
  exact (List.map_id _).symm.trans (Fault.mapM_eq_some_iff.mp hedges)

theorem Recorded.listed {s : NetState} (hs : Recorded s log) : Listed log s.tables.edges := by
  obtain ⟨edges, hedges, hlisted⟩ := hs.published
  rw [hs.wf.edges_tables] at hedges
  rw [List.map_injective_iff.mpr (fun _ _ => Option.some.inj) hedges]
  exact hlisted

/-! ## Flows -/

/-- The edges of an admitted flow are edges of the published graph. -/
theorem storedEdges_of_admitFlow {cfg : CtrlConfig} {net : NetState} {req : FlowreqEntry}
    {mem : Bool} {now : ℕ} {obj : FlowObj} (hnet : NetWf net)
    (h : admitFlow cfg net req mem now = .ok (.ok obj)) :
    ∀ e ∈ obj.storedEdges, e ∈ net.tables.edges := by
  obtain ⟨segs, epath, hadmitted⟩ := admitted_of_admitFlow h
  intro e he
  obtain ⟨sp, hsp, he⟩ := List.mem_flatMap.mp he
  rw [hadmitted.srcPrefixes] at hsp
  obtain rfl := List.eq_of_mem_replicate hsp
  cases epath with
  | none => simp at he
  | some es => exact hnet.mem_edges_of_buildSegpath hadmitted.path he

/-- A recomputed flow keeps its edges or gets edges of the published graph. -/
theorem storedEdges_of_recomputeFlow {net : NetState} {obj obj' : FlowObj} (hnet : NetWf net)
    (h : recomputeFlow net.tables obj = .ok obj') :
    ∀ e ∈ obj'.storedEdges, e ∈ obj.storedEdges ∨ e ∈ net.tables.edges := by
  intro e he
  unfold recomputeFlow at h
  split at h
  · obtain rfl := Except.ok.inj h
    exact .inl he
  · split at h
    · contradiction
    · obtain rfl := Except.ok.inj h
      exact .inl he
    · next segs epath hpath =>
      obtain rfl := Except.ok.inj h
      obtain ⟨sp, hsp, he⟩ := List.mem_flatMap.mp he
      obtain ⟨sp₀, -, rfl⟩ := List.mem_map.mp hsp
      cases epath with
      | none => simp at he
      | some es => exact .inr (hnet.mem_edges_of_buildSegpath hpath he)

namespace CtrlState

/-- An edge of one of the flows. -/
def Stored (heap : List FlowObj) (e : Edge Link) : Prop := ∃ obj ∈ heap, e ∈ obj.storedEdges

theorem stored_of_modifyFlow {s : CtrlState} {fl : ℕ} {f : FlowObj → FlowObj} {e : Edge Link}
    (hf : ∀ obj : FlowObj, (f obj).storedEdges = obj.storedEdges)
    (h : Stored (s.modifyFlow fl f).heap e) : Stored s.heap e := by
  obtain ⟨obj, hobj, he⟩ := h
  obtain ⟨i, hi⟩ := List.mem_iff_getElem?.mp hobj
  rw [getElem?_modifyFlow] at hi
  split at hi
  · obtain ⟨obj₀, hobj₀, rfl⟩ := Option.map_eq_some_iff.mp hi
    exact ⟨obj₀, List.mem_of_getElem? hobj₀, hf obj₀ ▸ he⟩
  · exact ⟨obj, List.mem_of_getElem? hi, he⟩

theorem stored_of_flowRelease {s : CtrlState} {fl : ℕ} {e : Edge Link}
    (h : Stored (s.flowRelease fl).heap e) : Stored s.heap e := by
  refine stored_of_modifyFlow (fun obj => ?_) h
  rfl

theorem stored_of_sameRoutes {heap heap' : List FlowObj} {e : Edge Link}
    (hsame : SameRoutes heap heap') (h : Stored heap' e) : Stored heap e := by
  obtain ⟨obj', hobj', he⟩ := h
  obtain ⟨i, hi⟩ := List.mem_iff_getElem?.mp hobj'
  obtain ⟨obj, hobj, hroute⟩ := hsame.same i obj' hi
  refine ⟨obj, List.mem_of_getElem? hobj, ?_⟩
  have hepaths := congrArg (List.flatMap fun epath => epath.getD []) hroute.epaths
  rw [List.flatMap_map, List.flatMap_map] at hepaths
  exact (show obj'.storedEdges = obj.storedEdges from hepaths) ▸ he

/-- **Step lemma.** A step stores only edges that were stored or are published. -/
theorem stored_of_change {cfg : CtrlConfig} {s s' : CtrlState} {ev : CtrlEvent} {e : Edge Link}
    (hnet : NetWf s.net) (hchange : s.Change cfg ev s') (h : Stored s'.heap e) :
    Stored s.heap e ∨ e ∈ s.net.tables.edges := by
  cases hchange with
  | admitted hadmit =>
    obtain ⟨obj, hobj, he⟩ := h
    obtain hobj | hobj := List.mem_append.mp hobj
    · exact .inl ⟨obj, hobj, he⟩
    · rw [List.mem_singleton.mp hobj] at he
      exact .inr (storedEdges_of_admitFlow hnet hadmit e he)
  | publish hcall hfree =>
    refine .inl (stored_of_modifyFlow (fun obj => ?_) h)
    simp only [FlowObj.storedEdges, List.flatMap_map]
  | free hcall =>
    refine .inl (stored_of_modifyFlow (fun obj => ?_) h)
    rfl
  | expire hmon =>
    refine .inl (stored_of_modifyFlow (fun obj => ?_) (stored_of_flowRelease h))
    rfl
  | collect hmon hfls => exact .inl (stored_of_sameRoutes (foldl_flowHold _ s).1 h)
  | recompute hmon hobj hrec =>
    obtain ⟨obj', hobj', he⟩ := stored_of_flowRelease h
    obtain hmem | rfl := List.mem_or_eq_of_mem_set hobj'
    · exact .inl ⟨obj', hmem, he⟩
    · exact (storedEdges_of_recomputeFlow hnet hrec e he).imp_left fun hold =>
        ⟨_, List.mem_of_getElem? hobj, hold⟩
  | _ => exact .inl h

/-! ## Runs -/

/-- The number of edges that are added to the staging graph in a run. -/
def edgesAdded (cfg : CtrlConfig) : CtrlState → List CtrlEvent → ℕ :=
  Transition.total (step cfg) fun s s' => newEdges s.net s'.net

/-- The edges of the graphs and of the flows are in the log. -/
structure Logged (s : CtrlState) (log : List EdgeIdentity) : Prop where
  net : Recorded s.net log
  flows : ∀ e, Stored s.heap e → Given log e

theorem logged_init : Logged init [] := ⟨recorded_netInit, fun _ ⟨_, hobj, _⟩ => by cases hobj⟩

theorem net_of_change {cfg : CtrlConfig} {s s' : CtrlState} {ev : CtrlEvent}
    (hchange : s.Change cfg ev s') : s'.net = s.net ∨ ∃ ev, netStep s.net ev = some s'.net := by
  cases hchange with
  | notify hstep hev => exact .inr ⟨_, hstep⟩
  | sync hidle hcalls hcall => exact .inr ⟨_, netStep_of_netCall hcall⟩
  | collect hmon hfls =>
    refine .inl ?_
    rw [(foldl_flowHold _ s).2]
  | _ => exact .inl rfl

/-- **Step lemma.** -/
theorem Logged.step {cfg : CtrlConfig} {s s' : CtrlState} {ev : CtrlEvent} (hs : Logged s log)
    (hstep : s.step cfg ev = some s') :
    ∃ more, more.length = newEdges s.net s'.net ∧ Logged s' (log ++ more) := by
  have hchange := change_of_step hstep
  have hflows : ∀ e, Stored s'.heap e → Given log e := fun e he =>
    (stored_of_change hs.net.wf hchange he).elim (hs.flows e) (hs.net.listed.given e)
  obtain hnet | ⟨nev, hnet⟩ := net_of_change hchange
  · refine ⟨[], ?_, ?_⟩
    · rw [hnet, newEdges_of_subset (List.Subset.refl _)]
      rfl
    · rw [List.append_nil]
      exact ⟨hnet ▸ hs.net, hflows⟩
  · obtain ⟨more, hlength, hrec⟩ := hs.net.step hnet
    exact ⟨more, hlength, hrec, fun e he => (hflows e he).append more⟩

/-- A graph that shares no link with the staging graph keeps its nodes and edges. -/
theorem separated_run {cfg : CtrlConfig} {s s' : CtrlState} {events : List CtrlEvent}
    {g : GraphObj} {log : List EdgeIdentity} (hs : Logged s log)
    (hsep : Separated s.net.heap s.net.graphStaging g) (hrun : run cfg s events = some s') :
    view s'.net.heap g = view s.net.heap g := by
  have hstep : ∀ (t : CtrlState) ev t', (NetWf t.net ∧ Separated t.net.heap t.net.graphStaging g ∧
      view t.net.heap g = view s.net.heap g) → t.step cfg ev = some t' → NetWf t'.net ∧
        Separated t'.net.heap t'.net.graphStaging g ∧ view t'.net.heap g = view s.net.heap g := by
    rintro t ev t' ⟨hwf, hsep, hview⟩ hstep
    obtain hnet | ⟨nev, hnet⟩ := net_of_change (change_of_step hstep)
    · rw [hnet]
      exact ⟨hwf, hsep, hview⟩
    · obtain ⟨hsep', hview'⟩ := separated_netStep hwf hsep hnet
      exact ⟨hwf.netStep hnet, hsep', hview'.trans hview⟩
  exact (Transition.run_invariant hstep ⟨hs.net.wf, hsep, rfl⟩ hrun).2.2

/-- **Main theorem.** Take any two graphs that are published in a run which adds fewer than 2^32
edges to the staging graph.  The objects of the first stay as they are; two edges of them with the
same id have the same ends and the addresses of the same link; and for every flow whose paths are
there `flow_affected` returns `false` exactly when every edge of the flow is still in the graph that
is published now, as the same link with the same metric. -/
theorem flow_affected_iff_survives (cfg : CtrlConfig) (past events : List CtrlEvent)
    (s₁ s₂ : CtrlState) (hpast : run cfg init past = some s₁) (hrun : run cfg s₁ events = some s₂)
    (hadded : edgesAdded cfg init (past ++ events) < UInt32.size) :
    view s₂.net.heap s₁.net.graph = view s₁.net.heap s₁.net.graph ∧
      (∀ e₁ ∈ s₁.net.tables.edges, ∀ e₂ ∈ s₂.net.tables.edges, e₁.id = e₂.id →
        e₁.localId = e₂.localId ∧ e₁.remoteId = e₂.remoteId ∧
        e₁.data.localAddr = e₂.data.localAddr ∧ e₁.data.remoteAddr = e₂.data.remoteAddr) ∧
      ∀ fl ∈ s₂.heap, (∀ sp ∈ fl.srcPrefixes, sp.epath ≠ none) →
        (flowAffected s₂.net.tables fl.srcPrefixes = .ok false ↔ fl.Survives s₂.net.tables) := by
  have hstep : ∀ s ev s' log, Logged s log → step cfg s ev = some s' →
      ∃ more : List EdgeIdentity, more.length = newEdges s.net s'.net ∧ Logged s' (log ++ more) :=
    fun _ _ _ _ hs => hs.step
  obtain ⟨log, hlength, hlog⟩ := Transition.run_log hstep logged_init hpast
  rw [List.nil_append] at hlog
  obtain ⟨more, hlength', hlog'⟩ := Transition.run_log hstep hlog hrun
  rw [edgesAdded, Transition.total_append hpast, ← hlength, ← hlength', ← List.length_append]
    at hadded
  refine ⟨separated_run hlog hlog.net.wf.separated hrun, fun e₁ he₁ e₂ he₂ hid => ?_,
    fun fl hfl hpaths => ?_⟩
  · have heq := ((hlog.net.listed.given e₁ he₁).append more).identity_eq
      (hlog'.net.listed.given e₂ he₂) hadded hid
    exact EdgeIdentity.mk.inj heq
  · exact flowAffected_iff_survives hadded hlog'.net.listed hpaths fun e he =>
      hlog'.flows e ⟨fl, hfl, he⟩

/-- A flow is committed on the link between `A` and `B`. -/
def flowUp : List CtrlEvent :=
  linkUp ++ [.request requestAB ⟨true, true⟩, .publish 0 9, .commit 0 true, .finish 0]

/-- Its link gets another bandwidth, and the graph is published again: the flow has its edge. -/
theorem flow_affected_iff_survives_bandwidth :
    ∃ s₁ s₂ fl, run allowAll init flowUp = some s₁ ∧
      run allowAll s₁ [.notify (.linkstateUpdate ⟨"A", 3, "B", 4, 10, 200, 50, 7⟩ 0x40),
        .sync true] = some s₂ ∧
      s₂.net.tables.edges ≠ s₁.net.tables.edges ∧ s₂.heap = [fl] ∧ fl.storedEdges.length = 1 ∧
      fl.Survives s₂.net.tables := by
  have hfacts : ((run allowAll init flowUp).bind fun s₁ => (run allowAll s₁
      [.notify (.linkstateUpdate ⟨"A", 3, "B", 4, 10, 200, 50, 7⟩ 0x40), .sync true]).map fun s₂ =>
        (decide (s₂.net.tables.edges ≠ s₁.net.tables.edges), s₂.heap.map fun fl =>
          (fl.storedEdges.length, fl.srcPrefixes.all fun sp => sp.epath.isSome,
            (flowAffected s₂.net.tables fl.srcPrefixes).toOption))) =
      some (true, [(1, true, some false)]) := by
    decide +kernel
  obtain ⟨s₁, hpast, hfacts⟩ := Option.bind_eq_some_iff.mp hfacts
  obtain ⟨s₂, hrun, hfacts⟩ := Option.map_eq_some_iff.mp hfacts
  obtain ⟨hnew, hheap⟩ := Prod.mk.inj hfacts
  obtain ⟨fl, hfl, hfacts⟩ := List.map_eq_singleton_iff.mp hheap
  obtain ⟨hlength, hfacts⟩ := Prod.mk.inj hfacts
  obtain ⟨hpaths, haffected⟩ := Prod.mk.inj hfacts
  have hadded : edgesAdded allowAll init (flowUp ++
      [.notify (.linkstateUpdate ⟨"A", 3, "B", 4, 10, 200, 50, 7⟩ 0x40), .sync true]) <
        UInt32.size := by
    decide +kernel
  obtain ⟨-, -, hflows⟩ := flow_affected_iff_survives allowAll flowUp _ s₁ s₂ hpast hrun hadded
  refine ⟨s₁, s₂, fl, hpast, hrun, of_decide_eq_true hnew, hfl, hlength, ?_⟩
  refine (hflows fl (by rw [hfl]; exact List.mem_singleton_self fl) fun sp hsp hnone => ?_).mp
    (toOption_eq_some_iff.mp haffected)
  have hsome := List.all_eq_true.mp hpaths sp hsp
  simp [hnone] at hsome

end CtrlState

end Srn
