import Srn.Controller.Delay
import Srn.Lib.Transition
import Srn.Segpath.Refs

/-!
# Srn.Controller.Refs

The references to nodes and edges that a flow holds, from `process_request` over any number of calls
of `recompute_flow` to the `flow_release` that frees it.

A flow is not alone: the graph and the other flows take and give back references all the time, and
an edge that has left the graph may live on only because the flow refers to it.  So the counts are
kept together with those that there would be without the flow, and `Coupled` says how the two
differ.  That difference is gone when the flow is freed, except for `epath`, which `flow_release`
does not give back.
-/

namespace Srn

open Transition Refs

/-! ## The references of one holder -/

/-- The counts, those that there would be without one holder, and the references that have been
taken on its behalf and not given back. -/
structure Ledger (ε : Type) where
  refs : Refs ε
  base : Refs ε
  owed : Refs ε

namespace Ledger

variable {ε : Type} [DecidableEq ε]

/-- The holder takes references. -/
def take (w : Ledger ε) (l : List (Segment ε)) : Ledger ε :=
  { w with refs := w.refs.holdAll l, owed := w.owed.holdAll l }

/-- The holder gives references back. -/
def give (w : Ledger ε) (l : List (Segment ε)) : Ledger ε :=
  { w with refs := w.refs.releaseAll l, owed := fun x => w.owed x - l.count x }

/-- Somebody else takes a reference. -/
def otherHold (w : Ledger ε) (x : Segment ε) : Ledger ε :=
  { w with refs := w.refs.hold x, base := w.base.hold x }

/-- Somebody else gives a reference back. -/
def otherRelease (w : Ledger ε) (x : Segment ε) : Ledger ε :=
  { w with refs := w.refs.release x, base := w.base.release x }

/-- The counts differ by what is owed, and by the ends of the edges that live only through the
holder. -/
structure Coupled (w : Ledger ε) : Prop where
  base : ∀ e, 0 ≤ w.base (.adjacency e)
  owed : ∀ x, 0 ≤ w.owed x
  refs : ∃ kept : List (Edge ε), kept.Nodup ∧
    (∀ e, e ∈ kept ↔ w.base (.adjacency e) = 0 ∧ 0 < w.owed (.adjacency e)) ∧
    ∀ x, w.refs x = w.base x + w.owed x + (kept.flatMap ends).count x

variable {w : Ledger ε}

theorem count_ends_adjacency (kept : List (Edge ε)) (e : Edge ε) :
    (kept.flatMap ends).count (.adjacency e) = 0 :=
  List.count_eq_zero_of_not_mem (by simp [ends])

/-- An edge that both sides hold is counted for both. -/
theorem Coupled.refs_adjacency (h : Coupled w) (e : Edge ε) :
    w.refs (.adjacency e) = w.base (.adjacency e) + w.owed (.adjacency e) := by
  obtain ⟨kept, -, -, hrefs⟩ := h.refs
  rw [hrefs, count_ends_adjacency]
  omega

/-! ### Taking -/

theorem Coupled.take_one (h : Coupled w) {a : Segment ε} (ha : 0 < w.base a ∨ 0 < w.owed a) :
    Coupled (w.take [a]) := by
  obtain ⟨kept, hnodup, hkept, hrefs⟩ := h.refs
  have howed : ∀ x, (w.take [a]).owed x = w.owed x + if a = x then 1 else 0 :=
    fun x => hold_apply w.owed a x
  refine ⟨h.base, fun x => ?_, kept, hnodup, fun e => ?_, fun x => ?_⟩
  · have := h.owed x
    rw [howed]
    split_ifs <;> omega
  · rw [hkept, howed]
    show w.base (.adjacency e) = 0 ∧ _ ↔ w.base (.adjacency e) = 0 ∧ _
    by_cases hx : a = .adjacency e
    · have := h.owed a
      rw [if_pos hx, ← hx]
      omega
    · rw [if_neg hx, Int.add_zero]
  · show w.refs.hold a x = w.base x + _ + _
    rw [hold_apply, howed, hrefs]
    omega

theorem owed_take (w : Ledger ε) (l : List (Segment ε)) (x : Segment ε) :
    (w.take l).owed x = w.owed x + l.count x := holdAll_apply w.owed l x

/-- **Take rule**: the objects must be alive, through the others or through the holder. -/
theorem Coupled.take (h : Coupled w) {l : List (Segment ε)}
    (hl : ∀ x ∈ l, 0 < w.base x ∨ 0 < w.owed x) : Coupled (w.take l) := by
  induction l generalizing w with
  | nil => exact h
  | cons a l ih =>
    refine ih (h.take_one (hl a List.mem_cons_self)) fun x hx => ?_
    have hlive := hl x (List.mem_cons_of_mem _ hx)
    rw [owed_take]
    show 0 < w.base x ∨ _
    omega

/-! ### Giving back -/

theorem owed_give_one (w : Ledger ε) (a x : Segment ε) :
    (w.give [a]).owed x = w.owed x - if a = x then 1 else 0 := by
  show w.owed x - _ = _
  rw [count_cons_int, List.count_nil]
  omega

theorem refs_give_one (w : Ledger ε) (a x : Segment ε) :
    (w.give [a]).refs x = w.refs x - (if a = x then 1 else 0) - (w.refs.freed a).count x :=
  release_apply w.refs a x

theorem Coupled.owed_give_nonneg (h : Coupled w) {a : Segment ε} (ha : 0 < w.owed a)
    (x : Segment ε) : 0 ≤ (w.give [a]).owed x := by
  have hx := h.owed x
  rw [owed_give_one]
  by_cases heq : a = x
  · rw [if_pos heq, ← heq]
    omega
  · rw [if_neg heq]
    omega

/-- The holder has the last reference to the edge, which is freed. -/
theorem Coupled.give_last (h : Coupled w) {e : Edge ε} (hbase : w.base (.adjacency e) = 0)
    (hone : w.owed (.adjacency e) = 1) : Coupled (w.give [.adjacency e]) := by
  obtain ⟨kept, hnodup, hkept, hrefs⟩ := h.refs
  have hmem : e ∈ kept := (hkept e).mpr ⟨hbase, by omega⟩
  have hfreed : w.refs.freed (.adjacency e) = ends e :=
    if_pos (by rw [h.refs_adjacency, hbase, hone]; rfl)
  refine ⟨h.base, h.owed_give_nonneg (by omega), kept.erase e, hnodup.erase e, fun e' => ?_,
    fun x => ?_⟩
  · rw [hnodup.mem_erase_iff, hkept, owed_give_one]
    show _ ↔ w.base (.adjacency e') = 0 ∧ _
    by_cases he : e' = e
    · subst he
      simp [hone]
    · simp [he, Ne.symm he]
  · have hcount := ((List.perm_cons_erase hmem).flatMap_right ends).count_eq x
    rw [List.flatMap_cons, List.count_append] at hcount
    rw [refs_give_one, owed_give_one, hfreed, hrefs, hcount]
    show _ = w.base x + _ + _
    push_cast
    omega

theorem Coupled.give_one (h : Coupled w) {a : Segment ε} (ha : 0 < w.owed a) :
    Coupled (w.give [a]) := by
  by_cases hlast : ∃ e, a = .adjacency e ∧ w.base a = 0 ∧ w.owed a = 1
  · obtain ⟨e, rfl, hbase, hone⟩ := hlast
    exact h.give_last hbase hone
  · obtain ⟨kept, hnodup, hkept, hrefs⟩ := h.refs
    have hfreed : w.refs.freed a = [] := by
      cases a with
      | node n => rfl
      | adjacency e =>
        refine if_neg fun hone => hlast ⟨e, rfl, ?_⟩
        have hbase := h.base e
        rw [h.refs_adjacency] at hone
        omega
    refine ⟨h.base, h.owed_give_nonneg ha, kept, hnodup, fun e => ?_, fun x => ?_⟩
    · rw [hkept, owed_give_one]
      show w.base (.adjacency e) = 0 ∧ _ ↔ w.base (.adjacency e) = 0 ∧ _
      by_cases hx : a = .adjacency e
      · subst hx
        have hne : ¬ (w.base (.adjacency e) = 0 ∧ w.owed (.adjacency e) = 1) :=
          fun heq => hlast ⟨e, rfl, heq⟩
        rw [if_pos rfl]
        omega
      · rw [if_neg hx, Int.sub_zero]
    · rw [refs_give_one, owed_give_one, hfreed, hrefs, List.count_nil]
      show _ = w.base x + _ + _
      omega

/-- **Give rule**: the holder gives back what it has taken. -/
theorem Coupled.give (h : Coupled w) {l : List (Segment ε)} (hl : ∀ x, l.count x ≤ w.owed x) :
    Coupled (w.give l) := by
  induction l generalizing w with
  | nil => simpa [Ledger.give, releaseAll] using h
  | cons a l ih =>
    have hcount := fun x => count_cons_int a l x
    have ha : 0 < w.owed a := by
      have hle := hl a
      rw [hcount, if_pos rfl] at hle
      omega
    have heq : w.give (a :: l) = (w.give [a]).give l := by
      unfold Ledger.give
      simp only [mk.injEq, true_and]
      refine ⟨rfl, funext fun x => ?_⟩
      rw [hcount, count_cons_int, List.count_nil]
      omega
    rw [heq]
    refine ih (h.give_one ha) fun x => ?_
    have hle := hl x
    rw [hcount] at hle
    show _ ≤ w.owed x - _
    rw [count_cons_int, List.count_nil]
    omega

/-! ### The others -/

/-- **Hold rule**: the others reach no object that lives only through the holder. -/
theorem Coupled.otherHold (h : Coupled w) {a : Segment ε} (ha : 0 < w.base a ∨ w.owed a = 0) :
    Coupled (w.otherHold a) := by
  obtain ⟨kept, hnodup, hkept, hrefs⟩ := h.refs
  have hbase : ∀ x, (w.otherHold a).base x = w.base x + if a = x then 1 else 0 :=
    fun x => hold_apply w.base a x
  refine ⟨fun e => ?_, h.owed, kept, hnodup, fun e => ?_, fun x => ?_⟩
  · have := h.base e
    rw [hbase]
    split_ifs <;> omega
  · have := h.base e
    rw [hkept, hbase]
    show _ ∧ 0 < w.owed (.adjacency e) ↔ _ ∧ 0 < w.owed (.adjacency e)
    by_cases hx : a = .adjacency e
    · rw [if_pos hx, ← hx]
      rw [← hx] at this
      omega
    · rw [if_neg hx, Int.add_zero]
  · show w.refs.hold a x = _ + w.owed x + _
    rw [hold_apply, hbase, hrefs]
    omega

theorem base_otherRelease (w : Ledger ε) (a x : Segment ε) :
    (w.otherRelease a).base x =
      w.base x - (if a = x then 1 else 0) - (w.base.freed a).count x :=
  release_apply w.base a x

theorem refs_otherRelease (w : Ledger ε) (a x : Segment ε) :
    (w.otherRelease a).refs x =
      w.refs x - (if a = x then 1 else 0) - (w.refs.freed a).count x :=
  release_apply w.refs a x

theorem Coupled.base_otherRelease_nonneg (h : Coupled w) {a : Segment ε} (ha : 0 < w.base a)
    (e : Edge ε) : 0 ≤ (w.otherRelease a).base (.adjacency e) := by
  have hx := h.base e
  rw [base_otherRelease, count_freed_adjacency]
  by_cases heq : a = .adjacency e
  · rw [if_pos heq, ← heq]
    omega
  · rw [if_neg heq]
    omega

/-- Without the holder the edge would be freed now. -/
theorem Coupled.otherRelease_last (h : Coupled w) {e : Edge ε}
    (hone : w.base (.adjacency e) = 1) (howed : 0 < w.owed (.adjacency e)) :
    Coupled (w.otherRelease (.adjacency e)) := by
  obtain ⟨kept, hnodup, hkept, hrefs⟩ := h.refs
  have hnot : e ∉ kept := fun he => by
    have hzero := ((hkept e).mp he).1
    omega
  have hbfreed : w.base.freed (.adjacency e) = ends e := if_pos hone
  have hrfreed : w.refs.freed (.adjacency e) = [] :=
    if_neg (by rw [h.refs_adjacency, hone]; omega)
  refine ⟨h.base_otherRelease_nonneg (by omega), h.owed, e :: kept,
    List.nodup_cons.mpr ⟨hnot, hnodup⟩, fun e' => ?_, fun x => ?_⟩
  · rw [List.mem_cons, hkept, base_otherRelease, count_freed_adjacency]
    show _ ↔ _ ∧ 0 < w.owed (.adjacency e')
    by_cases he : e' = e
    · subst he
      simp [hone, howed]
    · simp [he, Ne.symm he]
  · rw [refs_otherRelease, base_otherRelease, hrfreed, hbfreed, hrefs, List.flatMap_cons,
      List.count_append, List.count_nil]
    show _ = _ + w.owed x + _
    push_cast
    omega

/-- **Release rule**: the others give back a reference of their own. -/
theorem Coupled.otherRelease (h : Coupled w) {a : Segment ε} (ha : 0 < w.base a) :
    Coupled (w.otherRelease a) := by
  by_cases hlast : ∃ e, a = .adjacency e ∧ w.base a = 1 ∧ 0 < w.owed a
  · obtain ⟨e, rfl, hone, howed⟩ := hlast
    exact h.otherRelease_last hone howed
  · obtain ⟨kept, hnodup, hkept, hrefs⟩ := h.refs
    have hfreed : w.refs.freed a = w.base.freed a := by
      cases a with
      | node n => rfl
      | adjacency e =>
        have howed := h.owed (.adjacency e)
        have hsum := h.refs_adjacency e
        have hne : ¬ (w.base (.adjacency e) = 1 ∧ 0 < w.owed (.adjacency e)) :=
          fun heq => hlast ⟨e, rfl, heq⟩
        have hiff : w.refs (.adjacency e) = 1 ↔ w.base (.adjacency e) = 1 := by omega
        simp only [freed, hiff]
    refine ⟨h.base_otherRelease_nonneg ha, h.owed, kept, hnodup, fun e => ?_, fun x => ?_⟩
    · rw [hkept, base_otherRelease, count_freed_adjacency]
      show _ ↔ _ ∧ 0 < w.owed (.adjacency e)
      by_cases hx : a = .adjacency e
      · subst hx
        have hne : ¬ (w.base (.adjacency e) = 1 ∧ 0 < w.owed (.adjacency e)) :=
          fun heq => hlast ⟨e, rfl, heq⟩
        rw [if_pos rfl]
        omega
      · simp [hx]
    · rw [refs_otherRelease, base_otherRelease, hfreed, hrefs]
      show _ = _ + w.owed x + _
      omega

/-! ### Nothing left -/

/-- Every reference has been given back, and every count is what it would be without the holder. -/
def Released (w : Ledger ε) : Prop := (∀ x, w.owed x = 0) ∧ ∀ x, w.refs x = w.base x

/-- The second part follows from the first. -/
theorem Coupled.released_iff (h : Coupled w) : w.Released ↔ ∀ x, w.owed x = 0 := by
  refine ⟨And.left, fun howed => ⟨howed, fun x => ?_⟩⟩
  obtain ⟨kept, -, hkept, hrefs⟩ := h.refs
  have hnil : kept = [] := by
    refine List.eq_nil_iff_forall_not_mem.mpr fun e he => ?_
    have := ((hkept e).mp he).2
    rw [howed] at this
    omega
  rw [hrefs, howed, hnil]
  simp

end Ledger

/-! ## The references of a flow -/

/-- The references in an edge path. -/
def edgeRefs (epath : Option (List (Edge Link))) : List (Segment Link) :=
  (epath.getD []).map .adjacency

/-- The references of a prefix. -/
def SrcPrefix.stored (sp : SrcPrefix) : List (Segment Link) := sp.segs ++ edgeRefs sp.epath

theorem SrcPrefix.stored_with (sp : SrcPrefix) (segs : List (Segment Link))
    (epath : Option (List (Edge Link))) :
    { sp with segs, epath }.stored = segs ++ edgeRefs epath := rfl

/-- The references of a flow. -/
def FlowObj.stored (fl : FlowObj) : List (Segment Link) := fl.srcPrefixes.flatMap SrcPrefix.stored

/-- A prefix gets copies of the lists. -/
def copyPrefix (w : Ledger Link) (sp : SrcPrefix) : Ledger Link :=
  (w.take sp.segs).take (edgeRefs sp.epath)

/-- `process_request`: the first prefix gets what `build_segpath` returned, the others copies. -/
def install (w : Ledger Link) : List SrcPrefix → Ledger Link
  | [] => w
  | sp :: rest => rest.foldl copyPrefix (w.take sp.stored)

/-- The old lists of a prefix are given back. -/
def dropPrefix (w : Ledger Link) (sp : SrcPrefix) : Ledger Link :=
  (w.give sp.segs).give (edgeRefs sp.epath)

/-- `recompute_flow`, after `build_segpath` has returned the given lists. -/
def reinstall (w : Ledger Link) (segs : List (Segment Link)) (epath : Option (List (Edge Link))) :
    List SrcPrefix → Ledger Link
  | [] => w.take (returned (some (segs, epath)))
  | sp :: rest =>
    rest.foldl (fun w sp => copyPrefix (dropPrefix w sp) { sp with segs, epath })
      (dropPrefix (w.take (returned (some (segs, epath)))) sp)

/-- `recompute_flow` with the counts that it leaves. -/
def countedRecompute (g : Graph Link) (fl : FlowObj) (w : Ledger Link) :
    Except CtrlFault (FlowObj × Ledger Link) :=
  if fl.srcrt ∉ g.nodes ∨ fl.dstrt ∉ g.nodes then .ok ({ fl with status := .orphan }, w)
  else
    match buildSegpath g (flowPathspec fl.toFlow fl.srcrt fl.dstrt []) with
    | .error fault => .error (.graph fault)
    | .ok none => .ok (fl, w)
    | .ok (some (segs, epath)) =>
      .ok ({ fl with srcPrefixes := fl.srcPrefixes.map fun sp => { sp with segs, epath } },
        reinstall w segs epath fl.srcPrefixes)

/-- Forgetting the counts gives `recompute_flow`. -/
theorem countedRecompute_fst (g : Graph Link) (fl : FlowObj) (w : Ledger Link) :
    (countedRecompute g fl w).map Prod.fst = recomputeFlow g fl := by
  unfold countedRecompute recomputeFlow
  split_ifs
  · rfl
  · cases buildSegpath g (flowPathspec fl.toFlow fl.srcrt fl.dstrt []) with
    | error fault => rfl
    | ok out => cases out <;> rfl

/-- The last `flow_release`. -/
def freeFlow (w : Ledger Link) (fl : FlowObj) : Ledger Link :=
  fl.srcPrefixes.foldl (fun w sp => w.give sp.segs) w

/-! ### The loops over the prefixes -/

theorem owed_give (w : Ledger Link) (l : List (Segment Link)) (x : Segment Link) :
    (w.give l).owed x = w.owed x - l.count x := rfl

theorem count_stored (sp : SrcPrefix) (x : Segment Link) :
    sp.stored.count x = sp.segs.count x + (edgeRefs sp.epath).count x := List.count_append

theorem count_cons_stored (sp : SrcPrefix) (sps : List SrcPrefix) (x : Segment Link) :
    ((sp :: sps).flatMap SrcPrefix.stored).count x =
      sp.stored.count x + (sps.flatMap SrcPrefix.stored).count x := by
  rw [List.flatMap_cons, List.count_append]

theorem owed_copyPrefix (w : Ledger Link) (sp : SrcPrefix) (x : Segment Link) :
    (copyPrefix w sp).owed x = w.owed x + sp.stored.count x := by
  rw [copyPrefix, Ledger.owed_take, Ledger.owed_take, count_stored]
  push_cast
  omega

theorem owed_dropPrefix (w : Ledger Link) (sp : SrcPrefix) (x : Segment Link) :
    (dropPrefix w sp).owed x = w.owed x - sp.stored.count x := by
  rw [dropPrefix, owed_give, owed_give, count_stored]
  push_cast
  omega

/-- What is in the graph can be copied. -/
theorem Ledger.Coupled.copyPrefix {w : Ledger Link} (h : w.Coupled) {sp : SrcPrefix}
    (hlive : ∀ x ∈ sp.stored, 0 < w.base x) : (Srn.copyPrefix w sp).Coupled :=
  (h.take fun x hx => .inl (hlive x (List.mem_append_left _ hx))).take
    fun x hx => .inl (hlive x (List.mem_append_right _ hx))

/-- What a prefix stores can be given back. -/
theorem Ledger.Coupled.dropPrefix {w : Ledger Link} (h : w.Coupled) {sp : SrcPrefix}
    (howed : ∀ x, (sp.stored.count x : ℤ) ≤ w.owed x) : (Srn.dropPrefix w sp).Coupled := by
  refine (h.give fun x => ?_).give fun x => ?_
  · have hle := howed x
    rw [count_stored] at hle
    omega
  · have hle := howed x
    rw [count_stored] at hle
    rw [owed_give]
    omega

/-- The copies that `process_request` makes. -/
theorem foldl_copyPrefix {w : Ledger Link} (h : w.Coupled) {sps : List SrcPrefix}
    (hlive : ∀ sp ∈ sps, ∀ x ∈ sp.stored, 0 < w.base x) :
    (sps.foldl copyPrefix w).Coupled ∧ ∀ x, (sps.foldl copyPrefix w).owed x =
      w.owed x + (sps.flatMap SrcPrefix.stored).count x := by
  induction sps generalizing w with
  | nil => exact ⟨h, by simp⟩
  | cons sp rest ih =>
    obtain ⟨hcoupled, howed⟩ := ih (h.copyPrefix (hlive sp List.mem_cons_self))
      fun sp' hsp' => hlive sp' (List.mem_cons_of_mem _ hsp')
    refine ⟨hcoupled, fun x => ?_⟩
    rw [List.foldl_cons, howed, owed_copyPrefix, count_cons_stored]
    push_cast
    omega

/-- `process_request` leaves the flow with what it stores. -/
theorem install_spec {w : Ledger Link} (h : w.Coupled) {sps : List SrcPrefix}
    (hlive : ∀ sp ∈ sps, ∀ x ∈ sp.stored, 0 < w.base x) :
    (install w sps).Coupled ∧ ∀ x, (install w sps).owed x =
      w.owed x + (sps.flatMap SrcPrefix.stored).count x := by
  cases sps with
  | nil => exact ⟨h, by simp [install]⟩
  | cons sp rest =>
    obtain ⟨hcoupled, howed⟩ := foldl_copyPrefix
      (h.take fun x hx => .inl (hlive sp List.mem_cons_self x hx))
      fun sp' hsp' => hlive sp' (List.mem_cons_of_mem _ hsp')
    refine ⟨hcoupled, fun x => ?_⟩
    rw [install, howed, Ledger.owed_take, count_cons_stored]
    push_cast
    omega

/-- The loop of `recompute_flow` over the prefixes behind the first; `done` are the references of
those before them. -/
theorem foldl_replace {w : Ledger Link} (h : w.Coupled) {segs : List (Segment Link)}
    {epath : Option (List (Edge Link))} (hlive : ∀ x ∈ segs ++ edgeRefs epath, 0 < w.base x)
    (sps : List SrcPrefix) (done : List (Segment Link))
    (howed : ∀ x, w.owed x = done.count x + (sps.flatMap SrcPrefix.stored).count x) :
    (sps.foldl (fun w sp => copyPrefix (dropPrefix w sp) { sp with segs, epath }) w).Coupled ∧
      ∀ x, (sps.foldl
        (fun w sp => copyPrefix (dropPrefix w sp) { sp with segs, epath }) w).owed x =
          done.count x +
            ((sps.map fun sp => { sp with segs, epath }).flatMap SrcPrefix.stored).count x := by
  induction sps generalizing w done with
  | nil => exact ⟨h, howed⟩
  | cons sp rest ih =>
    have hdrop : (dropPrefix w sp).Coupled := h.dropPrefix fun x => by
      rw [howed, count_cons_stored]
      push_cast
      omega
    have hcopy : (copyPrefix (dropPrefix w sp) { sp with segs, epath }).Coupled :=
      hdrop.copyPrefix hlive
    obtain ⟨hcoupled, hdone⟩ := ih hcopy hlive (done ++ (segs ++ edgeRefs epath))
      fun x => by
        rw [owed_copyPrefix, owed_dropPrefix, howed, count_cons_stored, List.count_append,
          SrcPrefix.stored_with sp segs epath]
        push_cast
        omega
    refine ⟨hcoupled, fun x => ?_⟩
    rw [List.foldl_cons, hdone, List.map_cons, count_cons_stored, List.count_append,
      SrcPrefix.stored_with sp segs epath]
    push_cast
    omega

/-- `recompute_flow` leaves the flow with the new lists. -/
theorem reinstall_spec {w : Ledger Link} (h : w.Coupled) {segs : List (Segment Link)}
    {epath : Option (List (Edge Link))} (hlive : ∀ x ∈ segs ++ edgeRefs epath, 0 < w.base x)
    {sps : List SrcPrefix} (hne : sps ≠ [])
    (howed : ∀ x, w.owed x = (sps.flatMap SrcPrefix.stored).count x) :
    (reinstall w segs epath sps).Coupled ∧ ∀ x, (reinstall w segs epath sps).owed x =
      ((sps.map fun sp => { sp with segs, epath }).flatMap SrcPrefix.stored).count x := by
  obtain ⟨sp, rest, rfl⟩ := List.exists_cons_of_ne_nil hne
  have hnew : (w.take (segs ++ edgeRefs epath)).Coupled := h.take fun x hx => .inl (hlive x hx)
  have hsum : ∀ x, (w.take (segs ++ edgeRefs epath)).owed x = (segs ++ edgeRefs epath).count x +
      (sp.stored.count x + (rest.flatMap SrcPrefix.stored).count x : ℕ) := by
    intro x
    rw [Ledger.owed_take, howed, count_cons_stored]
    push_cast
    omega
  have hdrop : (dropPrefix (w.take (segs ++ edgeRefs epath)) sp).Coupled :=
    hnew.dropPrefix fun x => by
      rw [hsum]
      push_cast
      omega
  obtain ⟨hcoupled, hdone⟩ := foldl_replace hdrop hlive rest (segs ++ edgeRefs epath) fun x => by
    rw [owed_dropPrefix, hsum]
    push_cast
    omega
  refine ⟨hcoupled, fun x => (hdone x).trans ?_⟩
  rw [List.map_cons, count_cons_stored, SrcPrefix.stored_with sp segs epath]
  push_cast
  omega

/-- The loop of the last `flow_release`: the segments are given back; `left` are the edges of the
prefixes before. -/
theorem foldl_give {w : Ledger Link} (h : w.Coupled) (sps : List SrcPrefix)
    (left : List (Segment Link))
    (howed : ∀ x, w.owed x = left.count x + (sps.flatMap SrcPrefix.stored).count x) :
    (sps.foldl (fun w sp => w.give sp.segs) w).Coupled ∧
      ∀ x, (sps.foldl (fun w sp => w.give sp.segs) w).owed x =
        left.count x + (sps.flatMap fun sp => edgeRefs sp.epath).count x := by
  induction sps generalizing w left with
  | nil => exact ⟨h, howed⟩
  | cons sp rest ih =>
    have hsum : ∀ x, w.owed x = left.count x + (sp.segs.count x + (edgeRefs sp.epath).count x +
        (rest.flatMap SrcPrefix.stored).count x : ℕ) := by
      intro x
      rw [howed, count_cons_stored, count_stored]
    have hgive : (w.give sp.segs).Coupled := h.give fun x => by
      rw [hsum]
      push_cast
      omega
    obtain ⟨hcoupled, hleft⟩ := ih hgive (left ++ edgeRefs sp.epath) fun x => by
      rw [owed_give, hsum, List.count_append]
      push_cast
      omega
    refine ⟨hcoupled, fun x => ?_⟩
    rw [List.foldl_cons, hleft, List.flatMap_cons, List.count_append, List.count_append]
    push_cast
    omega

/-- The last `flow_release` gives back the segments, and not the edges. -/
theorem freeFlow_spec {w : Ledger Link} (h : w.Coupled) {fl : FlowObj}
    (howed : ∀ x, w.owed x = fl.stored.count x) :
    (freeFlow w fl).Coupled ∧ ∀ x, (freeFlow w fl).owed x =
      (fl.srcPrefixes.flatMap fun sp => edgeRefs sp.epath).count x := by
  obtain ⟨hcoupled, hleft⟩ := foldl_give h fl.srcPrefixes [] fun x => by
    rw [howed, FlowObj.stored, List.count_nil]
    exact (Int.zero_add _).symm
  refine ⟨hcoupled, fun x => (hleft x).trans ?_⟩
  rw [List.count_nil]
  exact Int.zero_add _

/-! ## The life of a flow -/

/-- A flow, unless it has been freed, and the counts. -/
structure FlowRun where
  ledger : Ledger Link
  flow : Option FlowObj

/-- What happens during the life of a flow. -/
inductive FlowRefEvent where
  /-- `recompute_flow` on the graph of that time. -/
  | recompute (g : Graph Link)
  /-- `flow_hold`. -/
  | hold
  /-- `flow_release`. -/
  | release
  /-- Somebody else takes a reference to a node or an edge. -/
  | otherHold (x : Segment Link)
  /-- Somebody else gives one back. -/
  | otherRelease (x : Segment Link)

namespace FlowRun

/-- The flow as `process_request` leaves it. -/
def start (base : Refs Link) (fl : FlowObj) : FlowRun :=
  ⟨install ⟨base, base, fun _ => 0⟩ fl.srcPrefixes, some fl⟩

/-- One step. -/
def step (s : FlowRun) : FlowRefEvent → Option FlowRun
  | .recompute g => s.flow.bind fun fl =>
    match countedRecompute g fl s.ledger with
    | .error _ => none
    | .ok (fl, w) => some ⟨w, some fl⟩
  | .hold => s.flow.map fun fl => { s with flow := some { fl with refcount := fl.refcount + 1 } }
  | .release => s.flow.map fun fl =>
    if fl.refcount = 1 then ⟨freeFlow s.ledger fl, none⟩
    else { s with flow := some { fl with refcount := fl.refcount - 1 } }
  | .otherHold x => some { s with ledger := s.ledger.otherHold x }
  | .otherRelease x => some { s with ledger := s.ledger.otherRelease x }

/-- The graph holds a reference to each of its nodes and edges. -/
def Holds (base : Refs Link) (g : Graph Link) : Prop := ∀ x, x.In g → 0 < base x

/-- What the others can do: the graph keeps what is in it alive, a reference is taken to an object
that somebody else refers to or that is new, and the references that are given back are there. -/
def Allowed (s : FlowRun) : FlowRefEvent → Prop
  | .recompute g => Finalized g ∧ Holds s.ledger.base g
  | .hold => True
  | .release => True
  | .otherHold x => 0 < s.ledger.base x ∨ s.ledger.owed x = 0
  | .otherRelease x => 0 < s.ledger.base x

/-- The flow owes what it stores. -/
structure Inv (s : FlowRun) : Prop where
  coupled : s.ledger.Coupled
  flow : ∀ fl, s.flow = some fl → fl.srcPrefixes ≠ [] ∧
    ∀ x, s.ledger.owed x = fl.stored.count x

/-- A flow as `process_request` leaves it. -/
theorem Inv.start {cfg : CtrlConfig} {net : NetState} {req : FlowreqEntry} {mem : Bool} {now : ℕ}
    {fl : FlowObj} (hnet : Finalized net.tables)
    (hfl : admitFlow cfg net req mem now = .ok (.ok fl)) {base : Refs Link}
    (hbase : ∀ e, 0 ≤ base (.adjacency e)) (hholds : Holds base net.tables) :
    Inv (start base fl) := by
  obtain ⟨segs, epath, hadmitted⟩ := admitted_of_admitFlow hfl
  have hzero : Ledger.Coupled (⟨base, base, fun _ => 0⟩ : Ledger Link) :=
    ⟨hbase, fun _ => Int.le_refl 0, [], List.nodup_nil, by simp, by simp⟩
  have hlive : ∀ sp ∈ fl.srcPrefixes, ∀ x ∈ sp.stored, 0 < base x := by
    intro sp hsp x hx
    rw [hadmitted.srcPrefixes] at hsp
    rw [List.eq_of_mem_replicate hsp] at hx
    exact hholds x (returned_in hnet (prunesOnly_flowPathspec _ _ _ _) hadmitted.path x hx)
  obtain ⟨hcoupled, howed⟩ := install_spec hzero hlive
  refine ⟨hcoupled, fun fl' hfl' => ?_⟩
  obtain rfl := Option.some.inj hfl'
  refine ⟨?_, fun x => ?_⟩
  · rw [hadmitted.srcPrefixes]
    simp [hadmitted.providers]
  · show (install _ fl.srcPrefixes).owed x = _
    rw [howed]
    exact Int.zero_add _

/-- **Step lemma.** -/
theorem Inv.step {s s' : FlowRun} {ev : FlowRefEvent} (h : Inv s) (hev : Allowed s ev)
    (hstep : s.step ev = some s') : Inv s' := by
  cases ev with
  | recompute g =>
    obtain ⟨hg, hholds⟩ := hev
    obtain ⟨fl, hfl, hrest⟩ := Option.bind_eq_some_iff.mp hstep
    obtain ⟨hne, howed⟩ := h.flow fl hfl
    unfold countedRecompute at hrest
    split_ifs at hrest with hnodes
    · obtain rfl := Option.some.inj hrest
      refine ⟨h.coupled, fun fl' hfl' => ?_⟩
      obtain rfl := Option.some.inj hfl'
      exact ⟨hne, howed⟩
    · cases hbuild : buildSegpath g (flowPathspec fl.toFlow fl.srcrt fl.dstrt []) with
      | error fault => simp [hbuild] at hrest
      | ok out =>
        cases out with
        | none =>
          simp only [hbuild, Option.some.injEq] at hrest
          subst hrest
          exact ⟨h.coupled, fun fl' hfl' => Option.some.inj hfl' ▸ ⟨hne, howed⟩⟩
        | some out =>
          obtain ⟨segs, epath⟩ := out
          simp only [hbuild, Option.some.injEq] at hrest
          subst hrest
          have hlive : ∀ x ∈ segs ++ edgeRefs epath, 0 < s.ledger.base x := fun x hx =>
            hholds x (returned_in hg (prunesOnly_flowPathspec _ _ _ _) hbuild x hx)
          obtain ⟨hcoupled, hnew⟩ := reinstall_spec h.coupled hlive hne howed
          refine ⟨hcoupled, fun fl' hfl' => ?_⟩
          obtain rfl := Option.some.inj hfl'
          exact ⟨by simpa using hne, hnew⟩
  | hold =>
    obtain ⟨fl, hfl, rfl⟩ := Option.map_eq_some_iff.mp hstep
    refine ⟨h.coupled, fun fl' hfl' => ?_⟩
    obtain rfl := Option.some.inj hfl'
    exact h.flow fl hfl
  | release =>
    obtain ⟨fl, hfl, rfl⟩ := Option.map_eq_some_iff.mp hstep
    obtain ⟨hne, howed⟩ := h.flow fl hfl
    by_cases hlast : fl.refcount = 1
    · rw [if_pos hlast]
      exact ⟨(freeFlow_spec h.coupled howed).1, fun fl' hfl' => by simp at hfl'⟩
    · rw [if_neg hlast]
      refine ⟨h.coupled, fun fl' hfl' => ?_⟩
      obtain rfl := Option.some.inj hfl'
      exact ⟨hne, howed⟩
  | otherHold x =>
    obtain rfl := Option.some.inj hstep
    exact ⟨h.coupled.otherHold hev, h.flow⟩
  | otherRelease x =>
    obtain rfl := Option.some.inj hstep
    exact ⟨h.coupled.otherRelease hev, h.flow⟩

/-- **Main theorem.** However often a flow is recomputed, and whatever the others do in between: the
`flow_release` that frees it has given back all its references, and left every count as it would be
without the flow, exactly if no prefix has edges in its `epath`. -/
theorem flow_refs_released (cfg : CtrlConfig) (net : NetState) (req : FlowreqEntry) (mem : Bool)
    (now : ℕ) (fl : FlowObj) (base : Refs Link) (evs : List FlowRefEvent) (s : FlowRun)
    (last : FlowObj) (hnet : Finalized net.tables)
    (hfl : admitFlow cfg net req mem now = .ok (.ok fl))
    (hbase : ∀ e, 0 ≤ base (.adjacency e)) (hholds : Holds base net.tables)
    (hevs : Along step Allowed (start base fl) evs) (hrun : run step (start base fl) evs = some s)
    (hlast : s.flow = some last) (hcount : last.refcount = 1) :
    ∃ s', s.step .release = some s' ∧ s'.flow = none ∧
      (s'.ledger.Released ↔ ∀ sp ∈ last.srcPrefixes, sp.epath.getD [] = []) := by
  have hinv : Inv s := run_invariant_along (fun s ev s' hs hev hstep => hs.step hev hstep)
    (Inv.start hnet hfl hbase hholds) hevs hrun
  obtain ⟨hcoupled, howed⟩ := freeFlow_spec hinv.coupled (hinv.flow last hlast).2
  refine ⟨⟨freeFlow s.ledger last, none⟩, by simp [step, hlast, hcount], rfl, ?_⟩
  rw [hcoupled.released_iff]
  constructor
  · intro hzero sp hsp
    by_contra hne
    obtain ⟨e, es, hes⟩ := List.exists_cons_of_ne_nil hne
    have hmem : Segment.adjacency e ∈ last.srcPrefixes.flatMap fun sp => edgeRefs sp.epath :=
      List.mem_flatMap.mpr ⟨sp, hsp, by simp [edgeRefs, hes]⟩
    have hcount := List.count_pos_iff.mpr hmem
    have heq := (howed (.adjacency e)).symm.trans (hzero (.adjacency e))
    omega
  · intro hnil x
    have hempty : (last.srcPrefixes.flatMap fun sp => edgeRefs sp.epath) = [] :=
      List.flatMap_eq_nil_iff.mpr fun sp hsp => by rw [edgeRefs, hnil sp hsp, List.map_nil]
    rw [howed, hempty]
    rfl

/-- The flow for it. -/
def flowAA : FlowObj := ⟨⟨0, 0⟩, 5, 1, 1, [⟨0, [.node 1], some []⟩], 0, .active, 1⟩

/-- It has no edges, and leaves nothing behind after it has been recomputed. -/
theorem flow_refs_released_AA :
    ∃ net s s', netRun netInit linkAB = some net ∧
      admitFlow CtrlState.allowAll net (requestAA 0) true 0 = .ok (.ok flowAA) ∧
      run step (start (fun _ => 1) flowAA) [.recompute net.tables] = some s ∧
      s.step .release = some s' ∧ s'.ledger.Released := by
  have hfacts : (netRun netInit linkAB).map (fun net => (net.graphStaging.nodes.length,
      admitFlow CtrlState.allowAll net (requestAA 0) true 0,
      (run step (start (fun _ => 1) flowAA) [.recompute net.tables]).map FlowRun.flow)) =
        some (2, .ok (.ok flowAA), some (some flowAA)) := by
    decide +kernel
  obtain ⟨net, hnet, hfacts⟩ := Option.map_eq_some_iff.mp hfacts
  obtain ⟨hstaging, hfacts⟩ := Prod.mk.inj hfacts
  obtain ⟨hfl, hflow⟩ := Prod.mk.inj hfacts
  obtain ⟨s, hrun, hlast⟩ := Option.map_eq_some_iff.mp hflow
  have hfinal := (netRun_finalized hnet (by rw [hstaging]; decide)).1
  obtain ⟨s', hstep, -, hiff⟩ := flow_refs_released CtrlState.allowAll net (requestAA 0) true 0
    flowAA (fun _ => 1) [.recompute net.tables] s flowAA hfinal hfl (by simp) (by simp [Holds])
    ⟨⟨hfinal, fun _ _ => show (0 : ℤ) < 1 by decide⟩, fun _ _ => trivial⟩ hrun hlast rfl
  exact ⟨net, s, s', hnet, hfl, hrun, hstep, hiff.mpr (by decide)⟩

/-- The edge between the routers, and the reference that the flow over it leaves behind. -/
theorem flow_refs_leak :
    ∃ net s', netRun netInit linkAB = some net ∧
      admitFlow CtrlState.allowAll net CtrlState.requestAB true 0 = .ok (.ok (flowAB 0)) ∧
      (start (fun _ => 1) (flowAB 0)).step .release = some s' ∧ s'.flow = none ∧
      s'.ledger.base (.adjacency ⟨1, 1, 2, 10, ⟨3, 4, 100, 50, 7⟩⟩) = 1 ∧
      s'.ledger.refs (.adjacency ⟨1, 1, 2, 10, ⟨3, 4, 100, 50, 7⟩⟩) = 2 ∧
      ¬ s'.ledger.Released := by
  have hfacts : (netRun netInit linkAB).map (fun net =>
      admitFlow CtrlState.allowAll net CtrlState.requestAB true 0) =
        some (.ok (.ok (flowAB 0))) := by
    decide +kernel
  obtain ⟨net, hnet, hfl⟩ := Option.map_eq_some_iff.mp hfacts
  refine ⟨net, ⟨freeFlow (start (fun _ => 1) (flowAB 0)).ledger (flowAB 0), none⟩, hnet, hfl,
    rfl, rfl, by decide, by decide, fun hreleased => ?_⟩
  exact absurd (hreleased.2 (.adjacency ⟨1, 1, 2, 10, ⟨3, 4, 100, 50, 7⟩⟩)) (by decide)

end FlowRun

end Srn
