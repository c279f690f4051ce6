import Srn.Controller.Sweep

/-!
# Srn.Controller.Lifetime

How long a flow lives.  `process_request` puts a flow in the table with one reference, that of
the table, and goes on using it in `commit_flow`, which waits for the database, and in the
clean-up when that fails.  `gc_flows` drops the reference of a flow in the table whose time is
over, whether or not its `process_request` is done with it.
-/

namespace Srn

namespace CtrlState

/-! ## Flows in use -/

/-- The flow that a call has created and may still access. -/
def callFlow : CtrlCall → Option ℕ
  | .built fl | .committing fl | .failed fl | .unlinked fl => some fl
  | .rejecting | .committed => none

/-- The flows whose `process_request` may still access them. -/
def inProgress (s : CtrlState) : List ℕ := s.calls.filterMap callFlow

/-- The flows that `recompute_flows` holds. -/
def sweeping : Netmon → List ℕ
  | .sweeping fls => fls
  | _ => []

/-- `gc_flows` finds no flow in the table that has outlived its `ttl` while its
`process_request` is still in progress. -/
def GcSpares (s : CtrlState) : CtrlEvent → Prop
  | .gc => ∀ entry ∈ s.flows.entries, entry.2 ∈ s.inProgress →
      s.heap[entry.2]?.all (fun obj => obj.ttl = 0 || s.now ≤ obj.timestamp + obj.ttl.toNat) = true
  | _ => True

instance (s : CtrlState) (e : CtrlEvent) : Decidable (s.GcSpares e) := by
  unfold GcSpares
  split <;> infer_instance

/-- The flow has the reference of the table and `n` others, and its routers are in the graph. -/
structure Alive (g : Graph Link) (n : ℕ) (obj : FlowObj) : Prop where
  refcount : obj.refcount = 1 + n
  status : obj.status ≠ .orphan
  srcrt : obj.srcrt ∈ g.nodes
  dstrt : obj.dstrt ∈ g.nodes

theorem Alive.not_expired {g : Graph Link} {n now : ℕ} {obj : FlowObj} (h : Alive g n obj)
    (htime : (obj.ttl = 0 || now ≤ obj.timestamp + obj.ttl.toNat) = true) :
    obj.expired now = false := by
  have hstatus := h.status
  simp only [FlowObj.expired, Bool.or_eq_true, decide_eq_true_eq] at htime ⊢
  obtain hzero | hle := htime
  · simp [hzero, hstatus]
  · simp [hstatus, hle]

theorem Alive.hold {g : Graph Link} {n : ℕ} {obj : FlowObj} (h : Alive g n obj) (k : ℕ) :
    Alive g (n + k) { obj with refcount := obj.refcount + k } :=
  ⟨by rw [h.refcount, Nat.add_assoc], h.status, h.srcrt, h.dstrt⟩

theorem Alive.release {g : Graph Link} {n : ℕ} {obj : FlowObj} (h : Alive g (n + 1) obj) :
    Alive g n { obj with refcount := obj.refcount - 1 } :=
  ⟨by rw [h.refcount, ← Nat.add_assoc, Nat.add_sub_cancel], h.status, h.srcrt, h.dstrt⟩

/-- What holds in every state.  The flows in use are different from each other and from those
that `gc_flows` is about to release, and each has its reference. -/
structure LifeInv (s : CtrlState) : Prop where
  nodup : s.inProgress.Nodup
  alive : ∀ fl ∈ s.inProgress, ∃ obj, s.heap[fl]? = some obj ∧
    Alive s.net.tables ((sweeping s.netmon).count fl) obj
  swept : ∀ fl ∈ sweeping s.netmon, fl < s.heap.length
  kept : ∀ fl ∈ expiring s.netmon, fl < s.heap.length ∧ fl ∉ s.inProgress

theorem lifeInv_init : LifeInv init := by
  constructor <;> simp [init, inProgress, sweeping, expiring]

/-- A step that ends calls or leaves the flows in use alone keeps the invariant. -/
theorem LifeInv.mono {s s' : CtrlState} (h : s.LifeInv) (htables : s'.net.tables = s.net.tables)
    (hcalls : s'.inProgress.Subperm s.inProgress) (hlength : s'.heap.length = s.heap.length)
    (hheap : ∀ fl ∈ s'.inProgress, ∀ n obj, s.heap[fl]? = some obj → Alive s.net.tables n obj →
      ∃ obj', s'.heap[fl]? = some obj' ∧ Alive s.net.tables n obj')
    (hsweeping : sweeping s'.netmon = sweeping s.netmon)
    (hexpiring : ∀ fl ∈ expiring s'.netmon, fl < s.heap.length ∧ fl ∉ s.inProgress) :
    s'.LifeInv where
  nodup := nodup_of_subperm hcalls h.nodup
  alive fl hfl := by
    obtain ⟨obj, hobj, halive⟩ := h.alive fl (hcalls.subset hfl)
    rw [htables, hsweeping]
    exact hheap fl hfl _ obj hobj halive
  swept := by
    rw [hsweeping, hlength]
    exact h.swept
  kept fl hfl := by
    obtain ⟨hlt, hnot⟩ := hexpiring fl hfl
    exact ⟨hlength ▸ hlt, fun hmem => hnot (hcalls.subset hmem)⟩

/-- A call that goes on with the same flow, or with none. -/
theorem LifeInv.of_calls {s : CtrlState} (h : s.LifeInv) {calls : List CtrlCall}
    (hcalls : (calls.filterMap callFlow).Subperm s.inProgress) : LifeInv { s with calls } :=
  h.mono rfl hcalls rfl (fun _ _ _ obj hobj halive => ⟨obj, hobj, halive⟩) rfl h.kept

/-- Assignments to fields that do not matter here. -/
theorem exists_modifyFlow {s : CtrlState} {fl x n : ℕ} {f : FlowObj → FlowObj} {obj : FlowObj}
    {g : Graph Link} (hf : ∀ obj, Alive g n obj → Alive g n (f obj)) (hobj : s.heap[x]? = some obj)
    (h : Alive g n obj) : ∃ obj', (s.modifyFlow fl f).heap[x]? = some obj' ∧ Alive g n obj' := by
  rw [getElem?_modifyFlow, hobj]
  split
  · exact ⟨f obj, rfl, hf obj h⟩
  · exact ⟨obj, rfl, h⟩

/-- The references after the first loop of `recompute_flows`. -/
theorem getElem?_foldl_flowHold (fls : List ℕ) (s : CtrlState) (x : ℕ) :
    (fls.foldl flowHold s).heap[x]? =
      s.heap[x]?.map fun obj => { obj with refcount := obj.refcount + fls.count x } := by
  induction fls generalizing s with
  | nil => simp
  | cons fl fls ih =>
    rw [List.foldl_cons, ih, flowHold, getElem?_modifyFlow]
    split
    · next heq =>
      subst heq
      cases s.heap[fl]? <;> simp
      omega
    · next hne => simp [List.count_cons_of_ne hne]

/-- The first loop of `recompute_flows` collects flows of the heap. -/
theorem lt_of_collectAffected {s : CtrlState} {all fls : List ℕ}
    (h : s.collectAffected all = .ok fls) {fl : ℕ} (hfl : fl ∈ fls) : fl < s.heap.length := by
  induction all generalizing fls with
  | nil =>
    obtain rfl := Except.ok.inj h
    simp at hfl
  | cons x all ih =>
    obtain ⟨obj, affected, rest, hobj, -, hrest, rfl⟩ := collectAffected_cons h
    cases affected with
    | false => exact ih hrest hfl
    | true =>
      obtain rfl | hfl := List.mem_cons.mp hfl
      · exact (List.getElem?_eq_some_iff.mp hobj).1
      · exact ih hrest hfl

/-- A flow whose routers are in the graph is not orphaned, whatever `recompute_flow` finds. -/
theorem Alive.recomputeFlow {g : Graph Link} {n : ℕ} {obj obj' : FlowObj} (h : Alive g n obj)
    (hobj' : recomputeFlow g obj = .ok obj') : Alive g n obj' := by
  unfold Srn.recomputeFlow at hobj'
  rw [if_neg (not_or.mpr ⟨not_not.mpr h.srcrt, not_not.mpr h.dstrt⟩)] at hobj'
  split at hobj'
  · contradiction
  · exact Except.ok.inj hobj' ▸ h
  · exact Except.ok.inj hobj' ▸ ⟨h.refcount, h.status, h.srcrt, h.dstrt⟩

/-! ## All interleavings -/

/-- **Step lemma**: a worker has built a flow. -/
theorem LifeInv.admitted {cfg : CtrlConfig} {s : CtrlState} {req : FlowreqEntry} {mem : Bool}
    {obj : FlowObj} (h : s.LifeInv)
    (hadmitted : admitFlow cfg s.net req mem s.now = .ok (.ok obj)) :
    LifeInv { s with heap := s.heap ++ [obj], calls := .built s.heap.length :: s.calls } := by
  obtain ⟨segs, epath, hobj⟩ := admitted_of_admitFlow hadmitted
  have hlt : ∀ fl ∈ s.inProgress, fl < s.heap.length := fun fl hfl => by
    obtain ⟨obj, hget, -⟩ := h.alive fl hfl
    exact (List.getElem?_eq_some_iff.mp hget).1
  have hnew : s.heap.length ∉ s.inProgress := fun hmem => Nat.lt_irrefl _ (hlt _ hmem)
  refine ⟨List.nodup_cons.mpr ⟨hnew, h.nodup⟩, fun fl hfl => ?_, fun fl hfl => ?_,
    fun fl hfl => ?_⟩
  · obtain rfl | hfl := List.mem_cons.mp hfl
    · have hcount : (sweeping s.netmon).count s.heap.length = 0 :=
        List.count_eq_zero.mpr fun hmem => Nat.lt_irrefl _ (h.swept _ hmem)
      refine ⟨obj, List.getElem?_concat_length, ?_⟩
      rw [hcount]
      exact ⟨hobj.refcount, by rw [hobj.status]; decide, hobj.srcrt, hobj.dstrt⟩
    · rw [List.getElem?_append_left (hlt fl hfl)]
      exact h.alive fl hfl
  · rw [List.length_append]
    exact Nat.lt_add_right _ (h.swept fl hfl)
  · obtain ⟨hold, hnot⟩ := h.kept fl hfl
    rw [List.length_append]
    exact ⟨Nat.lt_add_right _ hold, List.not_mem_cons_of_ne_of_not_mem (Nat.ne_of_lt hold) hnot⟩

/-- **Step lemma**: `gc_flows` takes flows out of the table. -/
theorem LifeInv.gc {s : CtrlState} (h : s.LifeInv) (hspares : s.GcSpares .gc)
    (hidle : s.netmon = .idle) : LifeInv { s with
      flows := ⟨s.flows.entries.filter fun entry => !s.isExpired entry⟩
      netmon := .expiring ((s.flows.entries.filter s.isExpired).map Prod.snd) } := by
  refine h.mono rfl (.refl _) rfl (fun _ _ _ obj hobj halive => ⟨obj, hobj, halive⟩)
    (by simp [sweeping, hidle]) fun fl hfl => ?_
  obtain ⟨entry, hentry, rfl⟩ := List.mem_map.mp hfl
  obtain ⟨hin, hexpired⟩ := List.mem_filter.mp hentry
  cases hobj : s.heap[entry.2]? with
  | none => simp [isExpired, hobj] at hexpired
  | some obj =>
    refine ⟨(List.getElem?_eq_some_iff.mp hobj).1, fun hmem => ?_⟩
    obtain ⟨obj', hobj', halive⟩ := h.alive entry.2 hmem
    obtain rfl := Option.some.inj (hobj.symm.trans hobj')
    have htime := hspares entry hin hmem
    rw [hobj, Option.all_some] at htime
    rw [isExpired, hobj, Option.any_some, halive.not_expired htime] at hexpired
    contradiction

/-- **Step lemma**: `gc_flows` releases a flow that no call uses. -/
theorem LifeInv.expire {s : CtrlState} {fl : ℕ} {fls : List ℕ} (h : s.LifeInv)
    (hmon : s.netmon = .expiring (fl :: fls)) :
    LifeInv { (s.modifyFlow fl fun obj => { obj with status := .expired }).flowRelease fl with
      netmon := .expiring fls } := by
  have hkept := h.kept
  rw [hmon] at hkept
  refine h.mono rfl (.refl _) (by simp [flowRelease, modifyFlow]) (fun x hx n obj hobj halive => ?_)
    (by simp [sweeping, hmon]) fun x hx => hkept x (List.mem_cons_of_mem _ hx)
  have hne : fl ≠ x := fun heq => (hkept fl List.mem_cons_self).2 (heq ▸ hx)
  exact ⟨obj, (getElem?_expire s _ hne).trans hobj, halive⟩

/-- **Step lemma**: `recompute_flows` takes references to the affected flows. -/
theorem LifeInv.collect {s : CtrlState} {all fls : List ℕ} (h : s.LifeInv)
    (hmon : s.netmon = .synced) (hfls : s.collectAffected all = .ok fls) :
    LifeInv { fls.foldl flowHold s with netmon := .sweeping fls } := by
  obtain ⟨hsame, heq⟩ := foldl_flowHold fls s
  have hheap := getElem?_foldl_flowHold fls s
  rw [heq] at hheap ⊢
  refine ⟨h.nodup, fun fl hfl => ?_, fun fl hfl => ?_, by simp [expiring]⟩
  · obtain ⟨obj, hobj, halive⟩ := h.alive fl hfl
    rw [hmon] at halive
    have hhold := halive.hold (fls.count fl)
    simp only [sweeping, List.count_nil, Nat.zero_add] at hhold
    exact ⟨_, (hheap fl).trans (by rw [hobj, Option.map_some]), hhold⟩
  · rw [hsame.length]
    exact lt_of_collectAffected hfls hfl

/-- **Step lemma**: `recompute_flows` recomputes a flow and drops its own reference. -/
theorem LifeInv.recompute {s : CtrlState} {fl : ℕ} {fls : List ℕ} {obj obj' : FlowObj}
    (h : s.LifeInv) (hmon : s.netmon = .sweeping (fl :: fls)) (hobj : s.heap[fl]? = some obj)
    (hobj' : recomputeFlow s.net.tables obj = .ok obj') :
    LifeInv { { s with heap := s.heap.set fl obj' }.flowRelease fl with
      netmon := .sweeping fls } := by
  have hlt := (List.getElem?_eq_some_iff.mp hobj).1
  refine ⟨h.nodup, fun x hx => ?_, fun x hx => ?_, by simp [expiring]⟩
  · obtain ⟨o, ho, halive⟩ := h.alive x hx
    rw [hmon] at halive
    show ∃ o', (({ s with heap := s.heap.set fl obj' } : CtrlState).flowRelease fl).heap[x]? =
      some o' ∧ Alive s.net.tables (fls.count x) o'
    rw [flowRelease, getElem?_modifyFlow]
    split
    · next heq =>
      subst heq
      obtain rfl := Option.some.inj (ho.symm.trans hobj)
      rw [sweeping, List.count_cons_self] at halive
      exact ⟨_, by rw [List.getElem?_set_self hlt, Option.map_some],
        (halive.recomputeFlow hobj').release⟩
    · next hne =>
      rw [sweeping, List.count_cons_of_ne hne] at halive
      exact ⟨o, (List.getElem?_set_ne hne).trans ho, halive⟩
  · have hswept := h.swept x (by rw [hmon]; exact List.mem_cons_of_mem _ hx)
    simpa [flowRelease, modifyFlow] using hswept

/-- **Step lemma.** Every step that meets the condition keeps the invariant. -/
theorem LifeInv.change {cfg : CtrlConfig} {s s' : CtrlState} {e : CtrlEvent} (h : s.LifeInv)
    (hspares : s.GcSpares e) (hchange : s.Change cfg e s') : s'.LifeInv := by
  have hsame : ∀ fl ∈ s.inProgress, ∀ n obj, s.heap[fl]? = some obj → Alive s.net.tables n obj →
      ∃ obj', s.heap[fl]? = some obj' ∧ Alive s.net.tables n obj' :=
    fun _ _ _ obj hobj halive => ⟨obj, hobj, halive⟩
  have hmove : ∀ {i c} c', s.calls[i]? = some c → callFlow c' = callFlow c →
      ((s.calls.set i c').filterMap callFlow).Subperm s.inProgress :=
    fun _ hi hc => (Pool.perm_filterMap_set hi hc).subperm
  cases hchange with
  | tick => exact h.mono rfl (.refl _) rfl hsame rfl h.kept
  | notify hnet hev => exact h.mono (tables_of_netStep hnet hev) (.refl _) rfl hsame rfl h.kept
  | ignore => exact h
  | reject => exact h.of_calls (.refl _)
  | admitted hadmitted => exact h.admitted hadmitted
  | @publish i bsid fl hi hfree =>
    refine h.mono rfl (hmove (.committing fl) hi rfl) (by simp [modifyFlow])
      (fun x hx n obj hobj halive => exists_modifyFlow (fun _ ha => ?_) hobj halive) rfl h.kept
    exact ⟨ha.refcount, ha.status, ha.srcrt, ha.dstrt⟩
  | @commit i ok fl c hi hc =>
    obtain rfl | rfl := hc
    · have hperm := (Pool.perm_set (b := .committed) hi).filterMap callFlow
      exact h.of_calls ((List.sublist_cons_self fl _).subperm.trans hperm.subperm)
    · exact h.of_calls (hmove (.failed fl) hi rfl)
  | @unlink i fl obj hi hobj =>
    exact h.mono rfl (hmove (.unlinked fl) hi rfl) rfl
      (fun _ _ _ obj hobj halive => ⟨obj, hobj, halive⟩) rfl h.kept
  | @finish i c hi hc => exact h.of_calls ((List.eraseIdx_sublist _ i).filterMap callFlow).subperm
  | @free i fl hi =>
    have hperm : (fl :: (s.calls.eraseIdx i).filterMap callFlow).Perm s.inProgress :=
      Pool.perm_filterMap_eraseIdx (f := callFlow) hi
    have hnot := (List.nodup_cons.mp (hperm.nodup_iff.mpr h.nodup)).1
    refine h.mono rfl ((List.sublist_cons_self fl _).subperm.trans hperm.subperm)
      (by simp [modifyFlow]) (fun x hx n obj hobj halive => ⟨obj, ?_, halive⟩) rfl h.kept
    have hne : fl ≠ x := fun heq => hnot (heq ▸ hx)
    rw [getElem?_modifyFlow, if_neg hne, hobj]
  | gc hidle => exact h.gc hspares hidle
  | expired hmon =>
    exact h.mono rfl (.refl _) rfl hsame (by simp [sweeping, hmon]) (by simp [expiring])
  | expire hmon => exact h.expire hmon
  | @sync mem net ret hidle hcalls hcall =>
    refine ⟨by simp [inProgress, hcalls], by simp [inProgress, hcalls], ?_, ?_⟩
    · split <;> simp [sweeping]
    · split <;> simp [expiring]
  | collect hmon hfls => exact h.collect hmon hfls
  | swept hmon =>
    exact h.mono rfl (.refl _) rfl hsame (by simp [sweeping, hmon]) (by simp [expiring])
  | recompute hmon hobj hobj' => exact h.recompute hmon hobj hobj'

/-- **Main theorem.** Whatever the interleaving of the workers with `gc_flows` and
`recompute_flows`, and however time passes: as long as `gc_flows` never finds a flow that has
outlived its `ttl` while its `process_request` is in progress, every flow has a reference as long
as its `process_request` can access it. -/
theorem inProgress_referenced (cfg : CtrlConfig) (events : List CtrlEvent) (s : CtrlState)
    (hrun : run cfg init events = some s)
    (hspares : Transition.Along (step cfg) GcSpares init events) :
    ∀ fl ∈ s.inProgress, ∃ obj, s.heap[fl]? = some obj ∧ 0 < obj.refcount := by
  have hstep : ∀ s e s', LifeInv s → GcSpares s e → step cfg s e = some s' → LifeInv s' :=
    fun _ _ _ h hgc hs => h.change hgc (change_of_step hs)
  have h := Transition.run_invariant_along hstep lifeInv_init hspares hrun
  intro fl hfl
  obtain ⟨obj, hobj, halive⟩ := h.alive fl hfl
  exact ⟨obj, hobj, by rw [halive.refcount]; omega⟩

/-- A flow with a `ttl` of five seconds is put in the table; the transaction of its `commit_flow`
takes ten, and `gc_flows` meanwhile frees the flow. -/
theorem inProgress_freed :
    ∃ s, run allowAll init (linkUp ++ [.request requestAB ⟨true, true⟩, .publish 0 9, .tick 10, .gc,
        .expire]) = some s ∧
      s.calls = [.committing 0] ∧ 0 ∈ s.inProgress ∧ s.heap.map FlowObj.refcount = [0] := by
  have hfacts : (run allowAll init (linkUp ++ [.request requestAB ⟨true, true⟩, .publish 0 9,
      .tick 10, .gc, .expire])).map (fun s => (s.calls, s.heap.map FlowObj.refcount)) =
        some ([.committing 0], [0]) := by
    decide +kernel
  obtain ⟨s, hrun, hs⟩ := Option.map_eq_some_iff.mp hfacts
  obtain ⟨hcalls, hheap⟩ := Prod.mk.inj hs
  exact ⟨s, hrun, hcalls, by simp [inProgress, hcalls, callFlow], hheap⟩

/-- `gc_flows` runs while the transaction is under way, before the `ttl` is over. -/
theorem inProgress_referenced_committing :
    ∃ s, run allowAll init (linkUp ++ [.request requestAB ⟨true, true⟩, .publish 0 9, .tick 5, .gc,
        .expire, .tick 1]) = some s ∧
      s.calls = [.committing 0] ∧ ∃ obj, s.heap[0]? = some obj ∧ 0 < obj.refcount := by
  have hfacts : (run allowAll init (linkUp ++ [.request requestAB ⟨true, true⟩, .publish 0 9,
      .tick 5, .gc, .expire, .tick 1])).map CtrlState.calls = some [.committing 0] := by
    decide +kernel
  obtain ⟨s, hrun, hcalls⟩ := Option.map_eq_some_iff.mp hfacts
  exact ⟨s, hrun, hcalls, inProgress_referenced allowAll _ s hrun (by decide +kernel) 0
    (by simp [inProgress, hcalls, callFlow])⟩

end CtrlState

end Srn
