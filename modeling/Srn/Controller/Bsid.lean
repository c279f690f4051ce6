import Srn.Controller.Request
import Srn.Controller.Sweep

/-!
# Srn.Controller.Bsid

The binding segment identifiers of flows.  `generate_bsid` keeps the whole bytes that a prefix does
not leave free and draws the others, so it keeps every bit of the prefix, and up to seven more.
The first makes the identifiers lie in the prefix of their router (`bsids_distinct_in_prefix`);
the second makes addresses of the prefix out of reach, and the search for a free identifier may not
end while there are free ones (`generateUniqueBsid_exits_iff`).
-/

namespace Srn

open Transition

/-! ## What can be drawn -/

/-- The bits that `generate_bsid` keeps: those of the bytes in front of the drawn ones. -/
def fixedBits (pbsid : Prefix) : ℕ := 128 - 8 * (bsidLen pbsid).toNat

/-- The prefix has a length that an IPv6 prefix can have. -/
structure Prefix.IsLength (pbsid : Prefix) : Prop where
  nonneg : 0 ≤ pbsid.len.toInt
  le : pbsid.len.toInt ≤ 128

/-- The address is one of the prefix. -/
def Prefix.Contains (pbsid : Prefix) (a : In6Addr) : Prop :=
  Agree a pbsid.addr pbsid.len.toInt.toNat

variable {pbsid : Prefix}

theorem Prefix.IsLength.inBounds (h : pbsid.IsLength) : pbsid.InBounds := by
  have hshift : bsidLen pbsid = (128 - pbsid.len.toInt) / 8 := Int.shiftRight_eq_div_pow _ 3
  obtain ⟨hnonneg, hle⟩ := h
  exact ⟨by omega, by omega⟩

/-- The length is rounded up to whole bytes. -/
theorem Prefix.IsLength.fixedBits_eq (h : pbsid.IsLength) :
    fixedBits pbsid = 8 * ((pbsid.len.toInt.toNat + 7) / 8) := by
  have hshift : bsidLen pbsid = (128 - pbsid.len.toInt) / 8 := Int.shiftRight_eq_div_pow _ 3
  obtain ⟨hnonneg, hle⟩ := h
  rw [fixedBits]
  omega

theorem fixedBits_le (pbsid : Prefix) : fixedBits pbsid ≤ 128 := Nat.sub_le _ _

/-- A drawn address is the prefix with another tail. -/
theorem bsidOf_eq_graft (h : pbsid.InBounds) (draw : In6Addr) :
    bsidOf pbsid draw = graft pbsid.addr draw (fixedBits pbsid) := by
  have hlen : 8 * (bsidLen pbsid).toNat ≤ 128 := by
    have hle := h.2
    omega
  refine BitVec.eq_of_getMsbD_eq fun i hi => ?_
  have hmask : (BitVec.allOnes 128 >>> (128 - 8 * (bsidLen pbsid).toNat)).getMsbD i =
      !decide (i < fixedBits pbsid) := by
    rw [BitVec.getMsbD_ushiftRight, BitVec.getMsbD_allOnes, fixedBits]
    by_cases hlt : i < 128 - 8 * (bsidLen pbsid).toNat
    · simp [hlt]
    · simp only [hlt, hi, decide_false, Bool.not_false, decide_true, Bool.true_and]
      exact decide_eq_true (by omega)
  rw [getMsbD_graft _ _ (fixedBits_le pbsid) hi]
  unfold bsidOf
  simp only [BitVec.getMsbD_or, BitVec.getMsbD_and, BitVec.getMsbD_not, hmask]
  by_cases hlt : i < fixedBits pbsid <;> simp [hlt, hi]

/-- **The drawn addresses** are those that agree with the prefix on the whole bytes. -/
theorem exists_bsidOf_iff (h : pbsid.InBounds) (a : In6Addr) :
    (∃ draw, bsidOf pbsid draw = a) ↔ Agree a pbsid.addr (fixedBits pbsid) := by
  constructor
  · rintro ⟨draw, rfl⟩
    rw [bsidOf_eq_graft h]
    exact agree_graft _ _ (fixedBits_le pbsid)
  · intro hagree
    refine ⟨a, BitVec.eq_of_getMsbD_eq fun i hi => ?_⟩
    rw [bsidOf_eq_graft h, getMsbD_graft _ _ (fixedBits_le pbsid) hi]
    split_ifs with hlt
    · exact (hagree i hlt).symm
    · rfl

/-- They are addresses of the prefix. -/
theorem Prefix.IsLength.contains_bsidOf (h : pbsid.IsLength) (draw : In6Addr) :
    pbsid.Contains (bsidOf pbsid draw) := by
  have hagree := (exists_bsidOf_iff h.inBounds _).mp ⟨draw, rfl⟩
  refine hagree.mono ?_
  rw [h.fixedBits_eq]
  omega

/-! ## The search for a free address -/

/-- Some outcome of the generator makes the loop of `generate_unique_bsid` exit, with a free
address of the prefix. -/
def CanExit (flows : Table In6Addr ℕ) (pbsid : Prefix) : Prop :=
  ∃ draws fuel bsid, generateUniqueBsid flows pbsid draws fuel 0 = .ok bsid ∧
    pbsid.Contains bsid ∧ flows.get bsid = none

theorem canExit_iff (h : pbsid.IsLength) {flows : Table In6Addr ℕ} :
    CanExit flows pbsid ↔ ∃ a, Agree a pbsid.addr (fixedBits pbsid) ∧ flows.get a = none := by
  constructor
  · rintro ⟨draws, fuel, bsid, hrun, -, hfree⟩
    obtain ⟨-, -, j, rfl⟩ := generateUniqueBsid_spec hrun
    exact ⟨_, (exists_bsidOf_iff h.inBounds _).mp ⟨draws j, rfl⟩, hfree⟩
  · rintro ⟨a, hagree, hfree⟩
    obtain ⟨draw, rfl⟩ := (exists_bsidOf_iff h.inBounds a).mpr hagree
    obtain ⟨fuel, bsid, hrun⟩ : ∃ fuel bsid,
        generateUniqueBsid flows pbsid (fun _ => draw) fuel 0 = .ok bsid :=
      exists_generateUniqueBsid (j := 0) h.inBounds hfree 0 (Nat.le_refl 0)
    obtain ⟨-, hbsid, j, rfl⟩ := generateUniqueBsid_spec hrun
    exact ⟨_, fuel, _, hrun, h.contains_bsidOf _, hbsid⟩

/-- Finitely many flows can have every address of a kind. -/
theorem exists_table_taken (P : In6Addr → Prop) :
    ∃ flows : Table In6Addr ℕ, ∀ a, flows.get a = none ↔ ¬ P a := by
  classical
  have hall : ∀ w, ∃ l : List (BitVec w), ∀ a, a ∈ l := fun w =>
    ⟨(List.range (2 ^ w)).map (BitVec.ofNat w), fun a =>
      List.mem_map.mpr ⟨a.toNat, List.mem_range.mpr a.isLt, BitVec.ofNat_toNat w a ▸ by simp⟩⟩
  obtain ⟨l, hl⟩ := hall 128
  refine ⟨⟨(l.filter fun a => P a).map fun a => (a, 0)⟩, fun a => ?_⟩
  rw [Table.get, OMap.get_eq_none_iff]
  constructor
  · intro hnone hP
    have hmem : (a, 0) ∈ (l.filter fun a => P a).map fun a => (a, 0) :=
      List.mem_map.mpr ⟨a, List.mem_filter.mpr ⟨hl a, by simpa using hP⟩, rfl⟩
    simpa using hnone _ hmem
  · intro hP e he
    obtain ⟨b, hb, rfl⟩ := List.mem_map.mp he
    have hPb : P b := by simpa using (List.mem_filter.mp hb).2
    exact beq_false_of_ne fun heq => hP (heq ▸ hPb)

theorem Prefix.IsLength.canExit_iff_free {pbsid : Prefix} (h : pbsid.IsLength)
    (flows : Table In6Addr ℕ) : CanExit flows pbsid ↔
      ∃ a, Agree a pbsid.addr (8 * ((pbsid.len.toInt.toNat + 7) / 8)) ∧ flows.get a = none := by
  rw [canExit_iff h, h.fixedBits_eq]

/-- If a prefix does not end with a byte, every address that can be drawn may be taken while the
one with the next bit changed is free. -/
theorem Prefix.IsLength.exists_stuck {pbsid : Prefix} (h : pbsid.IsLength)
    (hdvd : ¬ 8 ∣ pbsid.len.toInt.toNat) :
    ∃ flows : Table In6Addr ℕ, (∃ a, pbsid.Contains a ∧ flows.get a = none) ∧
      ¬ CanExit flows pbsid := by
  have hle : pbsid.len.toInt.toNat ≤ 128 := by
    have hlen := h.le
    omega
  obtain ⟨flows, hflows⟩ := exists_table_taken fun a =>
    Agree a pbsid.addr (8 * ((pbsid.len.toInt.toNat + 7) / 8))
  have hbit : (graft pbsid.addr (~~~ pbsid.addr) pbsid.len.toInt.toNat).getMsbD
      pbsid.len.toInt.toNat = !pbsid.addr.getMsbD pbsid.len.toInt.toNat := by
    have hlt : pbsid.len.toInt.toNat < 128 := by omega
    rw [getMsbD_graft _ _ hle hlt, if_neg (Nat.lt_irrefl _), BitVec.getMsbD_not,
      decide_eq_true hlt, Bool.true_and]
  refine ⟨flows, ⟨_, agree_graft _ (~~~ pbsid.addr) hle, ?_⟩, fun hexit => ?_⟩
  · rw [hflows]
    intro hagree
    have hsame := hagree pbsid.len.toInt.toNat (by omega)
    rw [hbit] at hsame
    simp at hsame
  · obtain ⟨a, hagree, hget⟩ := (h.canExit_iff_free flows).mp hexit
    exact (hflows a).mp hget hagree

/-- **The search for a free address.**  While an address of the prefix is free, the loop can exit
exactly when one is free that agrees with the prefix on the whole bytes that the prefix reaches
into.  For all tables of flows this holds exactly when the prefix ends with a byte. -/
theorem generateUniqueBsid_exits_iff (pbsid : Prefix) (h : pbsid.IsLength) :
    (∀ flows : Table In6Addr ℕ,
      (((∃ a, pbsid.Contains a ∧ flows.get a = none) → CanExit flows pbsid) ↔
        (∀ a, pbsid.Contains a → flows.get a ≠ none) ∨
          ∃ a, Agree a pbsid.addr (8 * ((pbsid.len.toInt.toNat + 7) / 8)) ∧ flows.get a = none)) ∧
      ((∀ flows : Table In6Addr ℕ,
        (∃ a, pbsid.Contains a ∧ flows.get a = none) → CanExit flows pbsid) ↔
          8 ∣ pbsid.len.toInt.toNat) := by
  refine ⟨fun flows => ?_, fun hall => ?_, fun hdvd flows hfree => ?_⟩
  · rw [h.canExit_iff_free]
    constructor
    · intro himp
      by_cases hfull : ∀ a, pbsid.Contains a → flows.get a ≠ none
      · exact .inl hfull
      · simp only [not_forall, not_not] at hfull
        obtain ⟨a, hcontains, hget⟩ := hfull
        exact .inr (himp ⟨a, hcontains, hget⟩)
    · rintro (hfull | hattained) ⟨a, hcontains, hget⟩
      · exact absurd hget (hfull a hcontains)
      · exact hattained
  · by_contra hdvd
    obtain ⟨flows, hfree, hstuck⟩ := h.exists_stuck hdvd
    exact hstuck (hall flows hfree)
  · obtain ⟨a, hcontains, hget⟩ := hfree
    refine (h.canExit_iff_free flows).mpr ⟨a, ?_, hget⟩
    have hround : 8 * ((pbsid.len.toInt.toNat + 7) / 8) = pbsid.len.toInt.toNat := by omega
    rwa [hround]

/-- With a prefix of 121 bits nothing is drawn: one flow has the only identifier, 127 addresses of
the prefix are free, and the loop does not end whatever the generator yields. -/
theorem generateUniqueBsid_stuck :
    (⟨5 <<< 120, 121⟩ : Prefix).Contains (5 <<< 120 + 1) ∧
      (Table.empty.set (5 <<< 120) 0 : Table In6Addr ℕ).get (5 <<< 120 + 1) = none ∧
      ∀ draws fuel k, generateUniqueBsid (Table.empty.set (5 <<< 120) 0) ⟨5 <<< 120, 121⟩ draws
        fuel k = .error .outOfFuel := by
  refine ⟨by unfold Prefix.Contains; decide, by decide, fun draws fuel k => ?_⟩
  have hbounds : (⟨5 <<< 120, 121⟩ : Prefix).InBounds := by decide
  have hdraw : ∀ draw, bsidOf ⟨5 <<< 120, 121⟩ draw = 5 <<< 120 := bsidOf_of_bsidLen (by decide)
  have htaken : ((Table.empty.set (5 <<< 120) 0 : Table In6Addr ℕ).get (5 <<< 120)).isSome :=
    by decide
  induction fuel generalizing k with
  | zero => rfl
  | succ fuel ih =>
    rw [generateUniqueBsid, generateBsid, if_pos hbounds, hdraw]
    simp only [bind, Except.bind, htaken, if_true, ih]

/-- With a prefix of 64 bits a free address can be drawn. -/
theorem generateUniqueBsid_exits_half :
    (⟨5 <<< 120, 64⟩ : Prefix).IsLength ∧
      CanExit (Table.empty.set (5 <<< 120) 0) ⟨5 <<< 120, 64⟩ := by
  have h : (⟨5 <<< 120, 64⟩ : Prefix).IsLength := ⟨by decide, by decide⟩
  refine ⟨h, (generateUniqueBsid_exits_iff ⟨5 <<< 120, 64⟩ h).2.mpr (by decide) _ ?_⟩
  exact ⟨5 <<< 120 + 1, by unfold Prefix.Contains; decide, by decide⟩

/-! ## All interleavings -/

/-- The controller, with the `pbsid` of the router of each flow's source. -/
structure BsidState where
  ctrl : CtrlState
  pbsid : ℕ → Prefix

/-- One step. -/
inductive BsidEvent where
  /-- A worker takes a request and runs up to the lock of the flows; `junk` is what a router that
  was given no `pbsid` has in its place. -/
  | request (req : FlowreqEntry) (mem : RequestMem) (junk : Prefix)
  /-- Under the lock of the flows, `generate_unique_bsid` with what `get_random_bytes` yields, and
  `hmap_set`. -/
  | publish (i : ℕ) (draws : ℕ → In6Addr) (fuel : ℕ)
  /-- The clean-up for a flow that `gc_flows` has freed meanwhile: what it takes for the prefixes
  of the flow is whatever the memory holds. -/
  | unlinkFreed (i : ℕ) (srcPrefixes : List SrcPrefix)
  /-- Any other step. -/
  | other (e : CtrlEvent)

/-- The `pbsid` of the router of a source. -/
def sourcePbsid (net : NetState) (srcaddr : In6Addr) (junk : Prefix) : Prefix :=
  match lookupRouter net srcaddr with
  | .ok (some rt) => rt.pbsid.getD junk
  | _ => junk

/-- The steps that `BsidEvent` says more about. -/
def CtrlEvent.isRefined : CtrlEvent → Bool
  | .request _ _ | .publish _ _ => true
  | _ => false

namespace BsidState

/-- The start of the controller. -/
def init : BsidState := ⟨.init, fun _ => ⟨0, 0⟩⟩

/-- One step.  A new flow is the next one on the heap. -/
def step (cfg : CtrlConfig) (s : BsidState) : BsidEvent → Option BsidState
  | .request req mem junk =>
    (s.ctrl.step cfg (.request req mem)).map fun ctrl =>
      ⟨ctrl, Function.update s.pbsid s.ctrl.heap.length
        (sourcePbsid s.ctrl.net req.srcaddr junk)⟩
  | .publish i draws fuel =>
    match s.ctrl.calls[i]? with
    | some (.built fl) =>
      match generateUniqueBsid s.ctrl.flows (s.pbsid fl) draws fuel 0 with
      | .ok bsid => (s.ctrl.step cfg (.publish i bsid)).map fun ctrl => { s with ctrl }
      | .error _ => none
    | _ => none
  | .unlinkFreed i srcPrefixes =>
    match s.ctrl.calls[i]? with
    | some (.failed fl) =>
      if s.ctrl.heap[fl]?.any (fun obj => obj.refcount = 0) then
        some { s with ctrl := { s.ctrl with
          flows := srcPrefixes.foldl (fun flows sp => flows.erase sp.bsid) s.ctrl.flows
          calls := s.ctrl.calls.set i (.unlinked fl) } }
      else none
    | _ => none
  | .other e =>
    if e.isRefined then none else (s.ctrl.step cfg e).map fun ctrl => { s with ctrl }

/-- The state after a sequence of steps. -/
abbrev run (cfg : CtrlConfig) : BsidState → List BsidEvent → Option BsidState :=
  Transition.run (step cfg)

/-- The flows that a worker has built and not yet put in the table. -/
def built (s : CtrlState) : List ℕ := s.calls.filterMap CtrlState.builtFlow

/-! ## What steps leave alone -/

/-- Every flow of the second heap is one of the first, with the same identifiers. -/
def SameBsids (heap heap' : List FlowObj) : Prop :=
  ∀ (fl : ℕ) (obj' : FlowObj), heap'[fl]? = some obj' → ∃ obj, heap[fl]? = some obj ∧
    obj'.srcPrefixes.map SrcPrefix.bsid = obj.srcPrefixes.map SrcPrefix.bsid

theorem SameBsids.refl (heap : List FlowObj) : SameBsids heap heap := fun _ obj h => ⟨obj, h, rfl⟩

theorem SameBsids.trans {heap₁ heap₂ heap₃ : List FlowObj} (h₁ : SameBsids heap₁ heap₂)
    (h₂ : SameBsids heap₂ heap₃) : SameBsids heap₁ heap₃ := by
  intro fl obj₃ hobj₃
  obtain ⟨obj₂, hobj₂, hsame₂⟩ := h₂ fl obj₃ hobj₃
  obtain ⟨obj₁, hobj₁, hsame₁⟩ := h₁ fl obj₂ hobj₂
  exact ⟨obj₁, hobj₁, hsame₂.trans hsame₁⟩

/-- An assignment to other fields of a flow. -/
theorem sameBsids_modifyFlow (s : CtrlState) (fl : ℕ) (f : FlowObj → FlowObj)
    (hf : ∀ obj, (f obj).srcPrefixes = obj.srcPrefixes) :
    SameBsids s.heap (s.modifyFlow fl f).heap := by
  intro x obj' hobj
  rw [CtrlState.getElem?_modifyFlow] at hobj
  split_ifs at hobj
  · obtain ⟨obj, hfind, rfl⟩ := Option.map_eq_some_iff.mp hobj
    exact ⟨obj, hfind, by rw [hf]⟩
  · exact ⟨obj', hobj, rfl⟩

theorem sameBsids_flowHold (s : CtrlState) (fl : ℕ) : SameBsids s.heap (s.flowHold fl).heap :=
  sameBsids_modifyFlow s fl _ fun _ => rfl

theorem sameBsids_flowRelease (s : CtrlState) (fl : ℕ) :
    SameBsids s.heap (s.flowRelease fl).heap :=
  sameBsids_modifyFlow s fl _ fun _ => rfl

theorem sameBsids_foldl_flowHold (fls : List ℕ) (s : CtrlState) :
    SameBsids s.heap (fls.foldl CtrlState.flowHold s).heap := by
  induction fls generalizing s with
  | nil => exact .refl _
  | cons fl fls ih => exact (sameBsids_flowHold s fl).trans (ih (s.flowHold fl))

/-- `recompute_flow` does not touch the identifiers. -/
theorem bsids_recomputeFlow {g : Graph Link} {obj obj' : FlowObj}
    (h : recomputeFlow g obj = .ok obj') :
    obj'.srcPrefixes.map SrcPrefix.bsid = obj.srcPrefixes.map SrcPrefix.bsid := by
  unfold recomputeFlow at h
  split_ifs at h
  · exact Except.ok.inj h ▸ rfl
  · split at h
    · contradiction
    · exact Except.ok.inj h ▸ rfl
    · obtain rfl := Except.ok.inj h
      simp [Function.comp_def]

theorem sameBsids_recompute {s : CtrlState} {fl : ℕ} {obj obj' : FlowObj}
    (hobj : s.heap[fl]? = some obj) (hobj' : recomputeFlow s.net.tables obj = .ok obj') :
    SameBsids s.heap (s.heap.set fl obj') := by
  intro x o ho
  by_cases hx : fl = x
  · subst hx
    rw [List.getElem?_set_self (List.getElem?_eq_some_iff.mp hobj).1, Option.some.injEq] at ho
    exact ⟨obj, hobj, ho ▸ bsids_recomputeFlow hobj'⟩
  · rw [List.getElem?_set_ne hx] at ho
    exact ⟨o, ho, rfl⟩

/-- A step that gives no identifier: entries only leave the table, and no flow of a worker is
forgotten. -/
structure Quiet (s s' : CtrlState) : Prop where
  heap : SameBsids s.heap s'.heap
  flows : s'.flows.entries.Sublist s.flows.entries
  built : built s ⊆ built s'

/-- Every step but the two that `BsidEvent` refines is of that kind. -/
theorem quiet_of_change {cfg : CtrlConfig} {s s' : CtrlState} {e : CtrlEvent}
    (hplain : e.isRefined = false) (h : s.Change cfg e s') : Quiet s s' := by
  cases h with
  | tick => exact ⟨.refl _, .refl _, List.Subset.refl _⟩
  | notify => exact ⟨.refl _, .refl _, List.Subset.refl _⟩
  | ignore => cases hplain
  | reject => cases hplain
  | admitted => cases hplain
  | publish => cases hplain
  | @commit i ok fl c hi hc =>
    have hnone : CtrlState.builtFlow c = CtrlState.builtFlow (.committing fl) := by
      obtain rfl | rfl := hc <;> rfl
    exact ⟨.refl _, .refl _, (Pool.perm_filterMap_set hi hnone).symm.subset⟩
  | @unlink i fl obj hi hobj =>
    have hnone : CtrlState.builtFlow (.unlinked fl) = CtrlState.builtFlow (.failed fl) := rfl
    exact ⟨.refl _, CtrlState.foldl_erase_sublist _ _,
      (Pool.perm_filterMap_set hi hnone).symm.subset⟩
  | @finish i c hi hc =>
    have hperm := (Pool.perm_eraseIdx hi).filterMap CtrlState.builtFlow
    rw [List.filterMap_cons_none (by obtain rfl | rfl := hc <;> rfl)] at hperm
    exact ⟨.refl _, .refl _, hperm.symm.subset⟩
  | @free i fl hi =>
    have hperm := (Pool.perm_eraseIdx hi).filterMap CtrlState.builtFlow
    rw [List.filterMap_cons_none rfl] at hperm
    exact ⟨sameBsids_modifyFlow s fl _ fun _ => rfl, .refl _, hperm.symm.subset⟩
  | gc => exact ⟨.refl _, List.filter_sublist, List.Subset.refl _⟩
  | expired => exact ⟨.refl _, .refl _, List.Subset.refl _⟩
  | @expire fl fls hmon =>
    have hstatus := sameBsids_modifyFlow s fl (fun obj => { obj with status := .expired })
      fun _ => rfl
    exact ⟨hstatus.trans (sameBsids_flowRelease _ fl), .refl _, List.Subset.refl _⟩
  | sync => exact ⟨.refl _, .refl _, List.Subset.refl _⟩
  | @collect fls hmon hfls =>
    have hheap := sameBsids_foldl_flowHold fls s
    rw [(CtrlState.foldl_flowHold fls s).2] at hheap ⊢
    exact ⟨hheap, .refl _, List.Subset.refl _⟩
  | swept => exact ⟨.refl _, .refl _, List.Subset.refl _⟩
  | @recompute fl fls obj obj' hmon hobj hobj' =>
    exact ⟨(sameBsids_recompute hobj hobj').trans (sameBsids_flowRelease _ fl),
      .refl _, List.Subset.refl _⟩

/-! ## The invariant -/

/-- What holds in every state.  The keys of the table are distinct; an entry has the identifier of
its flow for its key; and the identifiers of a flow that has got them were drawn for its router. -/
structure Inv (s : BsidState) : Prop where
  sweep : s.ctrl.SweepInv
  distinct : OMap.Distinct (fun a b => a == b) s.ctrl.flows.entries
  keyed : ∀ entry ∈ s.ctrl.flows.entries, ∀ obj, s.ctrl.heap[entry.2]? = some obj →
    ∀ bsid ∈ obj.srcPrefixes.map SrcPrefix.bsid, bsid = entry.1
  drawn : ∀ (fl : ℕ) (obj : FlowObj), s.ctrl.heap[fl]? = some obj → fl ∉ built s.ctrl →
    ∀ bsid ∈ obj.srcPrefixes.map SrcPrefix.bsid, ∃ draw, bsid = bsidOf (s.pbsid fl) draw

theorem inv_init : Inv init where
  sweep := CtrlState.sweepInv_init
  distinct := List.Pairwise.nil
  keyed := by simp [init, CtrlState.init, Table.empty]
  drawn := by simp [init, CtrlState.init]

/-- **Step lemma**: a step that gives no identifier. -/
theorem Inv.quiet {s : BsidState} (h : s.Inv) {ctrl : CtrlState} (hsweep : ctrl.SweepInv)
    (hquiet : Quiet s.ctrl ctrl) : Inv { s with ctrl } where
  sweep := hsweep
  distinct := h.distinct.sublist hquiet.flows
  keyed entry hentry obj' hobj' := by
    obtain ⟨obj, hobj, hsame⟩ := hquiet.heap entry.2 obj' hobj'
    rw [hsame]
    exact h.keyed entry (hquiet.flows.subset hentry) obj hobj
  drawn fl obj' hobj' hbuilt := by
    obtain ⟨obj, hobj, hsame⟩ := hquiet.heap fl obj' hobj'
    rw [hsame]
    exact h.drawn fl obj hobj fun hmem => hbuilt (hquiet.built hmem)

/-- **Step lemma**: a request is ignored, rejected or admitted. -/
theorem Inv.request {s : BsidState} (h : s.Inv) {cfg : CtrlConfig} {req : FlowreqEntry}
    {mem : RequestMem} {ctrl : CtrlState} (pbsid : Prefix)
    (hchange : s.ctrl.Change cfg (.request req mem) ctrl) :
    Inv ⟨ctrl, Function.update s.pbsid s.ctrl.heap.length pbsid⟩ := by
  have hsweep := h.sweep.change hchange
  -- the flows of the heap keep the router they have
  have hdrawn : ∀ (fl : ℕ) (obj : FlowObj), s.ctrl.heap[fl]? = some obj → fl ∉ built s.ctrl →
      ∀ bsid ∈ obj.srcPrefixes.map SrcPrefix.bsid,
        ∃ draw, bsid = bsidOf (Function.update s.pbsid s.ctrl.heap.length pbsid fl) draw := by
    intro fl obj hobj
    rw [Function.update_of_ne (Nat.ne_of_lt (List.getElem?_eq_some_iff.mp hobj).1)]
    exact h.drawn fl obj hobj
  cases hchange with
  | ignore => exact ⟨hsweep, h.distinct, h.keyed, hdrawn⟩
  | reject => exact ⟨hsweep, h.distinct, h.keyed, hdrawn⟩
  | @admitted _ _ obj hadmitted =>
    refine ⟨hsweep, h.distinct, fun entry hentry obj' hobj' => ?_, fun fl obj' hobj' hbuilt => ?_⟩
    · have hmem : entry.2 ∈ s.ctrl.tableFlows := List.mem_map_of_mem hentry
      have hlt := h.sweep.placed.lt entry.2
        (List.mem_append_left _ (List.mem_append_right _ hmem))
      rw [List.getElem?_append_left hlt] at hobj'
      exact h.keyed entry hentry obj' hobj'
    · have hne : fl ≠ s.ctrl.heap.length := by
        rintro rfl
        exact hbuilt List.mem_cons_self
      have hlt : fl < s.ctrl.heap.length := by
        have hlt' := (List.getElem?_eq_some_iff.mp hobj').1
        rw [List.length_append, List.length_singleton] at hlt'
        omega
      rw [List.getElem?_append_left hlt] at hobj'
      exact hdrawn fl obj' hobj' fun hmem => hbuilt (List.mem_cons_of_mem _ hmem)

/-- **Step lemma**: a flow gets an identifier that is free, and enters the table in the same
critical section. -/
theorem Inv.publish {s : BsidState} (h : s.Inv) {i fl : ℕ} {draw : In6Addr}
    (hi : s.ctrl.calls[i]? = some (.built fl))
    (hfree : s.ctrl.flows.get (bsidOf (s.pbsid fl) draw) = none) :
    Inv { s with ctrl := { s.ctrl.modifyFlow fl fun obj => { obj with
        srcPrefixes := obj.srcPrefixes.map fun sp => { sp with bsid := bsidOf (s.pbsid fl) draw } }
      with
        flows := s.ctrl.flows.set (bsidOf (s.pbsid fl) draw) fl
        calls := s.ctrl.calls.set i (.committing fl) } } := by
  have hentries := OMap.set_eq_append (bsidOf (s.pbsid fl) draw) fl hfree
  have hbuilt : fl ∈ built s.ctrl := List.mem_filterMap.mpr ⟨_, List.mem_of_getElem? hi, rfl⟩
  have hcalls : (fl :: (s.ctrl.calls.set i (.committing fl)).filterMap CtrlState.builtFlow).Perm
      (built s.ctrl) := (Pool.perm_set hi).filterMap CtrlState.builtFlow
  -- a flow that is not yet in the table is not among its entries
  have hplaces := List.nodup_append.mp (List.nodup_append.mp h.sweep.placed.nodup).1
  have hout : ∀ entry ∈ s.ctrl.flows.entries, fl ≠ entry.2 := fun entry hentry heq =>
    hplaces.2.2 fl hbuilt entry.2 (List.mem_map_of_mem hentry) heq
  have hself : ∀ {obj' : FlowObj} {f : SrcPrefix → SrcPrefix}, (∀ sp, (f sp).bsid =
      bsidOf (s.pbsid fl) draw) → s.ctrl.heap[fl]?.map (fun obj => { obj with
        srcPrefixes := obj.srcPrefixes.map f }) = some obj' →
      ∀ bsid ∈ obj'.srcPrefixes.map SrcPrefix.bsid, bsid = bsidOf (s.pbsid fl) draw := by
    intro obj' f hf hobj' bsid hmem
    obtain ⟨obj, -, rfl⟩ := Option.map_eq_some_iff.mp hobj'
    rw [List.map_map] at hmem
    obtain ⟨sp, -, rfl⟩ := List.mem_map.mp hmem
    exact hf sp
  refine ⟨h.sweep.publish hi hfree, h.distinct.set _ _, fun entry hentry obj' hobj' => ?_,
    fun x obj' hobj' hx => ?_⟩
  · have hmem : entry ∈ s.ctrl.flows.entries ++ [(bsidOf (s.pbsid fl) draw, fl)] :=
      hentries ▸ hentry
    change (s.ctrl.modifyFlow fl _).heap[entry.2]? = some obj' at hobj'
    rw [CtrlState.getElem?_modifyFlow] at hobj'
    rcases List.mem_append.mp hmem with hmem | hmem
    · rw [if_neg (hout entry hmem)] at hobj'
      exact h.keyed entry hmem obj' hobj'
    · obtain rfl := List.mem_singleton.mp hmem
      rw [if_pos rfl] at hobj'
      exact hself (fun _ => rfl) hobj'
  · change (s.ctrl.modifyFlow fl _).heap[x]? = some obj' at hobj'
    rw [CtrlState.getElem?_modifyFlow] at hobj'
    by_cases hne : fl = x
    · subst hne
      rw [if_pos rfl] at hobj'
      exact fun bsid hmem => ⟨draw, hself (fun _ => rfl) hobj' bsid hmem⟩
    · rw [if_neg hne] at hobj'
      refine h.drawn x obj' hobj' fun hmem => hx ?_
      exact (List.mem_cons.mp (hcalls.symm.subset hmem)).resolve_left (Ne.symm hne)

/-- **Step lemma.** Every step keeps the invariant. -/
theorem Inv.step {cfg : CtrlConfig} {s s' : BsidState} {e : BsidEvent} (h : s.Inv)
    (hstep : s.step cfg e = some s') : s'.Inv := by
  cases e with
  | request req mem junk =>
    obtain ⟨ctrl, hctrl, rfl⟩ := Option.map_eq_some_iff.mp hstep
    exact h.request _ (CtrlState.change_of_step hctrl)
  | publish i draws fuel =>
    simp only [BsidState.step] at hstep
    split at hstep
    · next fl hi =>
      split at hstep
      · next bsid hbsid =>
        obtain ⟨-, hfree, j, rfl⟩ := generateUniqueBsid_spec hbsid
        obtain ⟨ctrl, hctrl, rfl⟩ := Option.map_eq_some_iff.mp hstep
        cases CtrlState.change_of_step hctrl with
        | publish hi' _ =>
          obtain rfl := CtrlCall.built.inj (Option.some.inj (hi.symm.trans hi'))
          exact h.publish hi hfree
      · contradiction
    · contradiction
  | unlinkFreed i srcPrefixes =>
    simp only [BsidState.step] at hstep
    split at hstep
    · next fl hi =>
      split_ifs at hstep
      obtain rfl := Option.some.inj hstep
      have hperm : ((s.ctrl.calls.set i (.unlinked fl)).filterMap CtrlState.builtFlow).Perm
          (built s.ctrl) := Pool.perm_filterMap_set hi rfl
      have hsub := CtrlState.foldl_erase_sublist srcPrefixes s.ctrl.flows
      have hflows := hsub.map Prod.snd
      refine h.quiet ?_ ⟨.refl _, hsub, hperm.symm.subset⟩
      exact h.sweep.mono h.sweep.net rfl (.refl _)
        ((hperm.subperm.append hflows.subperm).append (.refl _)) hperm.subset
        fun fl hfl => ⟨hflows.subset hfl, id⟩
    · contradiction
  | other e =>
    simp only [BsidState.step] at hstep
    split_ifs at hstep with hplain
    obtain ⟨ctrl, hctrl, rfl⟩ := Option.map_eq_some_iff.mp hstep
    have hchange := CtrlState.change_of_step hctrl
    exact h.quiet (h.sweep.change hchange)
      (quiet_of_change (Bool.not_eq_true _ ▸ hplain) hchange)

/-- **Main theorem.** Whatever the interleaving of the workers, their clean-ups and `gc_flows`:
the identifiers of a flow that has got them lie in the prefix of its router, and two flows that are
in the table at the same time have no identifier in common. -/
theorem bsids_distinct_in_prefix (cfg : CtrlConfig) (events : List BsidEvent) (s : BsidState)
    (hrun : run cfg init events = some s) :
    (∀ (fl : ℕ) (obj : FlowObj), s.ctrl.heap[fl]? = some obj → fl ∉ built s.ctrl →
        (s.pbsid fl).IsLength → ∀ sp ∈ obj.srcPrefixes, (s.pbsid fl).Contains sp.bsid) ∧
      (s.ctrl.flows.entries.map Prod.snd).Nodup ∧
      ∀ entry ∈ s.ctrl.flows.entries, ∀ entry' ∈ s.ctrl.flows.entries, entry.2 ≠ entry'.2 →
        ∀ obj obj', s.ctrl.heap[entry.2]? = some obj → s.ctrl.heap[entry'.2]? = some obj' →
          ∀ sp ∈ obj.srcPrefixes, ∀ sp' ∈ obj'.srcPrefixes, sp.bsid ≠ sp'.bsid := by
  have h : s.Inv := Transition.run_invariant (fun _ _ _ => Inv.step) inv_init hrun
  have hplaces := List.nodup_append.mp (List.nodup_append.mp h.sweep.placed.nodup).1
  refine ⟨fun fl obj hobj hbuilt hlength sp hsp => ?_, hplaces.2.1,
    fun entry hentry entry' hentry' hne obj obj' hobj hobj' sp hsp sp' hsp' heq => hne ?_⟩
  · obtain ⟨draw, hdraw⟩ := h.drawn fl obj hobj hbuilt _ (List.mem_map_of_mem hsp)
    rw [hdraw]
    exact hlength.contains_bsidOf draw
  · have hkey := h.keyed entry hentry obj hobj _ (List.mem_map_of_mem hsp)
    have hkey' := h.keyed entry' hentry' obj' hobj' _ (List.mem_map_of_mem hsp')
    have hkeys : (s.ctrl.flows.entries.map Prod.fst).Nodup :=
      List.pairwise_map.mpr (h.distinct.imp ne_of_beq_false)
    exact congrArg Prod.snd
      (List.inj_on_of_nodup_map hkeys hentry hentry' (hkey.symm.trans (heq.trans hkey')))

/-- Two workers whose generators yield the same; the second one to publish draws again. -/
def twoWorkers : List BsidEvent :=
  CtrlState.linkUp.map .other ++
    [.request CtrlState.requestAB ⟨true, true⟩ ⟨5 <<< 120, 60⟩,
      .request CtrlState.requestAB ⟨true, true⟩ ⟨5 <<< 120, 60⟩,
      .publish 1 (fun k => BitVec.ofNat 128 k) 3, .publish 0 (fun k => BitVec.ofNat 128 k) 3]

/-- They get two identifiers of the prefix. -/
theorem bsids_distinct_in_prefix_twoWorkers :
    ∃ s, run CtrlState.allowAll init twoWorkers = some s ∧
      s.ctrl.flows.entries = [((5 : In6Addr) <<< 120, 0), ((5 : In6Addr) <<< 120 + 1, 1)] ∧
      (s.ctrl.flows.entries.map Prod.snd).Nodup ∧
      ∃ obj, s.ctrl.heap[1]? = some obj ∧ obj.srcPrefixes ≠ [] ∧
        ∀ sp ∈ obj.srcPrefixes, (⟨5 <<< 120, 60⟩ : Prefix).Contains sp.bsid := by
  have hfacts : (run CtrlState.allowAll init twoWorkers).map (fun s => (s.ctrl.flows.entries,
      built s.ctrl, s.pbsid 1, s.ctrl.heap.map fun obj => obj.srcPrefixes.length)) =
        some ([((5 : In6Addr) <<< 120, 0), ((5 : In6Addr) <<< 120 + 1, 1)], [], ⟨5 <<< 120, 60⟩,
          [1, 1]) := by
    decide +kernel
  obtain ⟨s, hrun, hs⟩ := Option.map_eq_some_iff.mp hfacts
  simp only [Prod.mk.injEq] at hs
  obtain ⟨hentries, hbuilt, hpbsid, hlengths⟩ := hs
  obtain ⟨hlies, hnodup, -⟩ := bsids_distinct_in_prefix CtrlState.allowAll _ s hrun
  have hget := congrArg (·[1]?) hlengths
  rw [List.getElem?_map] at hget
  obtain ⟨obj, hobj, hlength⟩ := Option.map_eq_some_iff.mp hget
  have hin := hlies 1 obj hobj (by simp [hbuilt]) (by rw [hpbsid]; exact ⟨by decide, by decide⟩)
  rw [hpbsid] at hin
  refine ⟨s, hrun, hentries, hnodup, obj, hobj, ?_, hin⟩
  exact List.ne_nil_of_length_pos (Nat.lt_of_lt_of_eq Nat.one_pos hlength.symm)

end BsidState

end Srn
