import Srn.Routed

/-!
# Srn.Routed.Fib

What the routing table of the kernel holds when the access router sets the status of a flow to
`RUNNING`.

`read_flowstate` puts each list of a row into the table of routes, asks the kernel for a new route
and sets the status whatever the kernel answers; a BSID that comes back after its flow has expired
still has its old route, which the kernel does not replace.  `routed_running` states the condition
on each round of the loops under which the status is right, in every run of the router.
-/

namespace Srn

open Transition

/-! ## The text of a list -/

theorem count_joinSegs {segs : List AddrText} (h : segs ≠ []) :
    (joinSegs segs).count ',' + 1 = segs.length := by
  have hzero : ∀ seg : AddrText, seg.chars.count ',' = 0 := fun seg =>
    List.count_eq_zero.mpr fun hc => (seg.ne_of_mem hc).2 rfl
  induction segs with
  | nil => exact absurd rfl h
  | cons seg segs ih =>
    cases segs with
    | nil => simp [joinSegs, hzero]
    | cons seg' segs =>
      have hrest := ih (List.cons_ne_nil _ _)
      rw [joinSegs_cons_cons, List.count_append, List.count_cons_self, hzero]
      simp only [List.length_cons] at hrest ⊢
      omega

variable (pton : List Char → In6Addr)

/-- The addresses of a list of segments. -/
def segAddrs (segs : List AddrText) : List In6Addr := segs.map fun seg => pton seg.chars

/-- The tokens of joined segments are the segments. -/
theorem tokens_joinSegs {segs : List AddrText} (h : segs ≠ []) :
    ((joinSegs segs).splitOn ',').filter (fun token => token ≠ []) = segs.map AddrText.chars := by
  have hsplit : (joinSegs segs).splitOn ',' = segs.map AddrText.chars := by
    apply List.splitOn_intercalate
    · intro l hl hmem
      obtain ⟨seg, -, rfl⟩ := List.mem_map.mp hl
      exact (seg.ne_of_mem hmem).2 rfl
    · simpa using h
  rw [hsplit]
  apply List.filter_eq_self.mpr
  intro token htoken
  obtain ⟨seg, -, rfl⟩ := List.mem_map.mp htoken
  simp [seg.ne_nil]

/-- `parse_srh` reads back the segments that were joined. -/
theorem parseSrh_joinSegs {segs : List AddrText} (h : segs ≠ []) :
    parseSrh pton (joinSegs segs) = segAddrs pton segs := by
  unfold parseSrh segAddrs
  rw [tokens_joinSegs h, count_joinSegs h]
  simp

/-- A list that fits is printed and copied. -/
theorem exists_print {buf : List Char} {segs : List AddrText} (hbuf : buf.length = slen + 1)
    (hne : segs ≠ []) (hfits : (joinSegs segs).length ≤ slen) :
    ∃ str, buildSegsStr buf segs = some str ∧ str.buf.length = slen + 1 ∧
      CString.strdup '\x00' str.buf = some (joinSegs segs) := by
  obtain ⟨str, hbuild, hdup⟩ := ((printsExactly_iff_of_ne_nil hbuf hne).mpr hfits).stored
  exact ⟨str, hbuild, (segsStr_of_buildSegsStr hbuf hfits hbuild).1, hdup⟩

/-! ## Conditions -/

/-- A list with segments, whose text fits. -/
def Printable (segs : List AddrText) : Prop := segs ≠ [] ∧ (joinSegs segs).length ≤ slen

instance (segs : List AddrText) : Decidable (Printable segs) :=
  inferInstanceAs (Decidable (_ ∧ _))

/-- A round of `read_flowstate` that puts its list into the kernel: the BSID has no route yet and
the kernel takes the new one, or it has a route with this very list. -/
def Installs (st : RoutedLoop) (item : RouteItem) : Prop :=
  Printable item.segs ∧ ∃ bsid ∈ item.bsid,
    st.kernel.get bsid = none ∧ item.fails = false ∨
      st.kernel.get bsid = some (segAddrs pton item.segs)

/-- A round of `update_flowstate` that keeps the kernel in step: there is no route to change, or
the kernel changes it, or it has this very list. -/
def Changes (st : RoutedLoop) (item : RouteItem) : Prop :=
  ∃ bsid ∈ item.bsid, st.routes.get bsid = none ∨ Printable item.segs ∧
    (item.fails = false ∨ st.kernel.get bsid = some (segAddrs pton item.segs))

/-- The array `segs_str`, whatever is in it. -/
abbrev SegsArray := { buf : List Char // buf.length = slen + 1 }

/-- A call of one of the two callbacks. -/
inductive RoutedEvent where
  | insert (entry : FlowEntry) (segsStr : SegsArray) (fails : ℕ → Bool)
  | update (entry : FlowEntry) (segments : Bool) (segsStr : SegsArray) (fails : ℕ → Bool)

namespace RoutedState

/-- The router before the first call. -/
def init (kernel : Fib) : RoutedState := ⟨.empty, kernel, none⟩

/-- A call as a step. -/
def step (routerName : String) (s : RoutedState) : RoutedEvent → Option RoutedState
  | .insert entry segsStr fails => readFlowstate pton routerName s entry segsStr fails
  | .update entry segments segsStr fails =>
    updateFlowstate pton routerName s entry segments segsStr fails

/-- Every round of the call meets its condition in the state that it finds. -/
def Keeps (routerName : String) (s : RoutedState) : RoutedEvent → Prop
  | .insert entry segsStr fails => entry.router = routerName → entry.bsids.isSome →
      Along (insertRoute pton) (Installs pton) ⟨s.routes, s.kernel, segsStr⟩ (entry.items fails)
  | .update entry segments segsStr fails => entry.router = routerName → segments = true →
      Along (updateRoute pton) (Changes pton) ⟨s.routes, s.kernel, segsStr⟩ (entry.items fails)

end RoutedState

/-- The two tables agree on every BSID that has a route. -/
def RoutesAgree (routes : Table In6Addr (List Char)) (kernel : Fib) : Prop :=
  ∀ bsid text, routes.get bsid = some text → kernel.get bsid = some (parseSrh pton text)

/-- The kernel has the list of the row for each of its BSIDs. -/
def FlowEntry.Installed (entry : FlowEntry) (kernel : Fib) : Prop :=
  ∀ (i : ℕ) segs, (entry.segments.getD [])[i]? = some segs →
    ∃ bsid, (entry.bsids.getD [])[i]? = some bsid ∧ kernel.get bsid = some (segAddrs pton segs)

/-! ## Rounds -/

variable {pton}

/-- **Step lemma** of `read_flowstate`: the tables still agree, the list is installed, and no route
of the kernel has changed. -/
theorem Installs.insertRoute {st st' : RoutedLoop} {item : RouteItem} (h : Installs pton st item)
    (hbuf : st.segsStr.length = slen + 1) (hagree : RoutesAgree pton st.routes st.kernel)
    (hstep : Srn.insertRoute pton st item = some st') :
    st'.segsStr.length = slen + 1 ∧ RoutesAgree pton st'.routes st'.kernel ∧
      (∃ bsid ∈ item.bsid, st'.kernel.get bsid = some (segAddrs pton item.segs)) ∧
      ∀ bsid segs, st.kernel.get bsid = some segs → st'.kernel.get bsid = some segs := by
  obtain ⟨⟨hne, hfits⟩, bsid, hbsid, hroute⟩ := h
  obtain ⟨str, hbuild, hlen, hdup⟩ := exists_print hbuf hne hfits
  rw [insertRoute_eq pton hbsid, hbuild, Option.bind_some, hdup, Option.map_some,
    Option.some.injEq, parseSrh_joinSegs pton hne] at hstep
  subst hstep
  have hkernel : ∀ b, (addRoute st.kernel bsid (segAddrs pton item.segs) item.fails).get b =
      if bsid = b then some (segAddrs pton item.segs) else st.kernel.get b := by
    intro b
    unfold addRoute
    obtain ⟨hnone, hfails⟩ | hsome := hroute
    · rw [hnone, hfails, if_neg (by simp), Table.get_set]
    · rw [hsome, if_pos (by simp)]
      by_cases hb : bsid = b
      · rw [if_pos hb, ← hb, hsome]
      · rw [if_neg hb]
  refine ⟨hlen, fun b text hget => ?_, ⟨bsid, hbsid, ?_⟩, fun b segs hget => ?_⟩
  · rw [Table.get_set] at hget
    rw [hkernel]
    by_cases hb : bsid = b
    · rw [if_pos hb] at hget ⊢
      rw [← Option.some.inj hget, parseSrh_joinSegs pton hne]
    · rw [if_neg hb] at hget ⊢
      exact hagree b text hget
  · rw [hkernel, if_pos rfl]
  · rw [hkernel]
    by_cases hb : bsid = b
    · subst hb
      rw [if_pos rfl]
      obtain ⟨hnone, -⟩ | hsome := hroute
      · rw [hnone] at hget
        contradiction
      · rw [← hget, hsome]
    · rw [if_neg hb, hget]

/-- **Step lemma** of `update_flowstate`: the tables still agree. -/
theorem Changes.updateRoute {st st' : RoutedLoop} {item : RouteItem} (h : Changes pton st item)
    (hbuf : st.segsStr.length = slen + 1) (hagree : RoutesAgree pton st.routes st.kernel)
    (hstep : Srn.updateRoute pton st item = some st') :
    st'.segsStr.length = slen + 1 ∧ RoutesAgree pton st'.routes st'.kernel := by
  obtain ⟨bsid, hbsid, h⟩ := h
  cases hroute : st.routes.get bsid with
  | none =>
    rw [updateRoute_skip pton hbsid hroute, Option.some.injEq] at hstep
    subst hstep
    exact ⟨hbuf, hagree⟩
  | some old =>
    obtain hnone | ⟨⟨hne, hfits⟩, hchange⟩ := h
    · rw [hnone] at hroute
      contradiction
    obtain ⟨str, hbuild, hlen, hdup⟩ := exists_print hbuf hne hfits
    rw [updateRoute_eq pton hbsid (by simp [hroute]), hbuild, Option.bind_some, hdup,
      Option.map_some, Option.some.injEq, parseSrh_joinSegs pton hne] at hstep
    subst hstep
    have hkernel : ∀ b, (changeRoute st.kernel bsid (segAddrs pton item.segs) item.fails).get b =
        if bsid = b then some (segAddrs pton item.segs) else st.kernel.get b := by
      intro b
      unfold changeRoute
      rw [hagree bsid old hroute]
      by_cases hfails : item.fails = true
      · have hsame := hchange.resolve_left (by simp [hfails])
        rw [if_pos (by simp [hfails])]
        by_cases hb : bsid = b
        · rw [if_pos hb, ← hb, hsame]
        · rw [if_neg hb]
      · rw [if_neg (by simpa using hfails), Table.get_set]
    refine ⟨hlen, fun b text hget => ?_⟩
    rw [Table.get_set] at hget
    show (changeRoute _ _ _ _).get b = _
    rw [hkernel]
    by_cases hb : bsid = b
    · rw [if_pos hb] at hget ⊢
      rw [← Option.some.inj hget, parseSrh_joinSegs pton hne]
    · rw [if_neg hb] at hget ⊢
      exact hagree b text hget

/-- **Run lemma** of `read_flowstate`: every list of the loop is installed at its end. -/
theorem installed_of_run {st st' : RoutedLoop} {items : List RouteItem}
    (hbuf : st.segsStr.length = slen + 1) (hagree : RoutesAgree pton st.routes st.kernel)
    (hitems : Along (insertRoute pton) (Installs pton) st items)
    (hrun : run (insertRoute pton) st items = some st') :
    RoutesAgree pton st'.routes st'.kernel ∧
      (∀ item ∈ items, ∃ bsid ∈ item.bsid,
        st'.kernel.get bsid = some (segAddrs pton item.segs)) ∧
      ∀ bsid segs, st.kernel.get bsid = some segs → st'.kernel.get bsid = some segs := by
  induction items generalizing st with
  | nil =>
    rw [run_nil, Option.some.injEq] at hrun
    subst hrun
    exact ⟨hagree, by simp, fun _ _ h => h⟩
  | cons item items ih =>
    rw [run_cons, Option.bind_eq_some_iff] at hrun
    obtain ⟨t, hstep, hrest⟩ := hrun
    obtain ⟨hlen, hagree', ⟨bsid, hbsid, hget⟩, hkeep⟩ :=
      hitems.1.insertRoute hbuf hagree hstep
    obtain ⟨hend, hall, hkeep'⟩ := ih hlen hagree' (hitems.2 t hstep) hrest
    refine ⟨hend, fun x hx => ?_, fun b segs hb => hkeep' b segs (hkeep b segs hb)⟩
    obtain rfl | hx := List.mem_cons.mp hx
    · exact ⟨bsid, hbsid, hkeep' bsid _ hget⟩
    · exact hall x hx

/-- **Run lemma** of `update_flowstate`. -/
theorem routesAgree_of_run {st st' : RoutedLoop} {items : List RouteItem}
    (hbuf : st.segsStr.length = slen + 1) (hagree : RoutesAgree pton st.routes st.kernel)
    (hitems : Along (updateRoute pton) (Changes pton) st items)
    (hrun : run (updateRoute pton) st items = some st') :
    RoutesAgree pton st'.routes st'.kernel := by
  have hstep : ∀ (s : RoutedLoop) item s', (s.segsStr.length = slen + 1 ∧
      RoutesAgree pton s.routes s.kernel) → Changes pton s item →
      updateRoute pton s item = some s' →
      s'.segsStr.length = slen + 1 ∧ RoutesAgree pton s'.routes s'.kernel :=
    fun _ _ _ hs hc h => hc.updateRoute hs.1 hs.2 h
  exact (run_invariant_along hstep ⟨hbuf, hagree⟩ hitems hrun).2

/-! ## Calls -/

namespace RoutedState

/-- The tables agree, and a row that was just set to `RUNNING` is installed. -/
structure Inv (pton : List Char → In6Addr) (s : RoutedState) : Prop where
  agree : RoutesAgree pton s.routes s.kernel
  running : ∀ entry, s.running = some entry → entry.Installed pton s.kernel

theorem inv_init (kernel : Fib) : (init kernel).Inv pton := by
  constructor
  · intro bsid text h
    contradiction
  · intro entry h
    contradiction

/-- A call that leaves both tables alone and sets no status. -/
theorem Inv.idle {s : RoutedState} (h : s.Inv pton) : Inv pton { s with running := none } :=
  ⟨h.agree, by simp⟩

/-- **Step lemma** of the callbacks. -/
theorem Inv.step {routerName : String} {s s' : RoutedState} {ev : RoutedEvent} (h : s.Inv pton)
    (hkeeps : s.Keeps pton routerName ev) (hstep : s.step pton routerName ev = some s') :
    s'.Inv pton := by
  cases ev with
  | insert entry segsStr fails =>
    simp only [RoutedState.step, readFlowstate] at hstep
    split_ifs at hstep with hrouter hnone
    · exact Option.some.inj hstep ▸ h.idle
    · exact Option.some.inj hstep ▸ h.idle
    · obtain ⟨st, hrun, rfl⟩ := Option.map_eq_some_iff.mp hstep
      have hbsids : entry.bsids.isSome := by
        rw [Bool.or_eq_true, not_or] at hnone
        simpa [Option.isSome_iff_ne_none] using hnone.2
      obtain ⟨hagree, hall, -⟩ := installed_of_run segsStr.2 h.agree
        (hkeeps (not_not.mp hrouter) hbsids) hrun
      refine ⟨hagree, fun entry' hentry i segs hsegs => ?_⟩
      obtain rfl := Option.some.inj hentry
      have hmem : ⟨(entry.bsids.getD [])[i]?, segs, fails i⟩ ∈ entry.items fails := by
        unfold FlowEntry.items
        apply List.mem_of_getElem? (i := i)
        rw [List.getElem?_mapIdx, hsegs, Option.map_some]
      exact hall _ hmem
  | update entry segments segsStr fails =>
    simp only [RoutedState.step, updateFlowstate] at hstep
    split_ifs at hstep with hrouter hsegments
    · exact Option.some.inj hstep ▸ h.idle
    · exact Option.some.inj hstep ▸ h.idle
    · obtain ⟨st, hrun, rfl⟩ := Option.map_eq_some_iff.mp hstep
      exact ⟨routesAgree_of_run segsStr.2 h.agree
        (hkeeps (not_not.mp hrouter) (by simpa using hsegments)) hrun, by simp⟩

/-- **Main theorem.** In every run of the router in which each round of the callbacks finds its BSID
without a route that the kernel takes, or with this list already, and each change is made: the
table of routes and the kernel agree, and a row that has just been set to `RUNNING` has its lists
in the kernel. -/
theorem routed_running (pton : List Char → In6Addr) (routerName : String) (kernel : Fib)
    (events : List RoutedEvent) (s : RoutedState)
    (hrun : run (step pton routerName) (init kernel) events = some s)
    (hkeeps : Along (step pton routerName) (Keeps pton routerName) (init kernel) events) :
    RoutesAgree pton s.routes s.kernel ∧
      ∀ entry, s.running = some entry → entry.Installed pton s.kernel := by
  have hstep : ∀ (s : RoutedState) ev s', s.Inv pton → s.Keeps pton routerName ev →
      s.step pton routerName ev = some s' → s'.Inv pton := fun _ _ _ h hk hs => h.step hk hs
  have h := run_invariant_along hstep (inv_init kernel) hkeeps hrun
  exact ⟨h.agree, h.running⟩

/-- An insert of one BSID with one segment; the array is zero and the kernel refuses nothing. -/
def insertOne (bsid : In6Addr) (seg : AddrText) : RoutedEvent :=
  .insert ⟨"access", some [bsid], some [[seg]]⟩ ⟨noRoutes.segsStr, List.length_replicate⟩
    fun _ => false

/-- What `inet_pton` reads from the two addresses. -/
def ptonTwo (text : List Char) : In6Addr :=
  if text = longAddr.chars then 0x20010db8000000000000000000000001 else 0

/-- A BSID is used again for another flow: the row is set to `RUNNING`, and the kernel still has
the segments of the first one. -/
theorem running_stale_route :
    ∃ s entry, run (step ptonTwo "access") (init .empty)
        [insertOne 1 shortAddr, insertOne 1 longAddr] = some s ∧ s.running = some entry ∧
      ¬ entry.Installed ptonTwo s.kernel ∧ ¬ RoutesAgree ptonTwo s.routes s.kernel := by
  refine ⟨⟨⟨[(1, longAddr.chars)]⟩, ⟨[(1, [0])]⟩, some ⟨"access", some [1], some [[longAddr]]⟩⟩,
    ⟨"access", some [1], some [[longAddr]]⟩, by decide +kernel, rfl, fun h => ?_, fun h => ?_⟩
  · obtain ⟨bsid, hbsid, hget⟩ := h 0 [longAddr] rfl
    obtain rfl : 1 = bsid := Option.some.inj hbsid
    exact absurd hget (by decide +kernel)
  · exact absurd (h 1 longAddr.chars (by decide +kernel)) (by decide +kernel)

/-- Two flows with BSIDs of their own. -/
theorem routed_running_two :
    ∃ s, run (step ptonTwo "access") (init .empty) [insertOne 1 shortAddr, insertOne 2 longAddr] =
        some s ∧
      RoutesAgree ptonTwo s.routes s.kernel ∧
      FlowEntry.Installed ptonTwo ⟨"access", some [2], some [[longAddr]]⟩ s.kernel := by
  have hrun : run (step ptonTwo "access") (init .empty)
      [insertOne 1 shortAddr, insertOne 2 longAddr] = some
      ⟨⟨[(1, shortAddr.chars), (2, longAddr.chars)]⟩,
        ⟨[(1, [0]), (2, [0x20010db8000000000000000000000001])]⟩,
        some ⟨"access", some [2], some [[longAddr]]⟩⟩ := by decide +kernel
  have hfirst : step ptonTwo "access" (init .empty) (insertOne 1 shortAddr) = some
      ⟨⟨[(1, shortAddr.chars)]⟩, ⟨[(1, [0])]⟩, some ⟨"access", some [1], some [[shortAddr]]⟩⟩ := by
    decide +kernel
  obtain ⟨hagree, hrunning⟩ := routed_running ptonTwo "access" .empty _ _ hrun
    ⟨fun _ _ => ⟨⟨by decide, 1, rfl, .inl ⟨rfl, rfl⟩⟩, fun _ _ => trivial⟩, fun s hs => by
      obtain rfl := Option.some.inj (hfirst.symm.trans hs)
      exact ⟨fun _ _ => ⟨⟨by decide, 2, rfl, .inl ⟨by decide, rfl⟩⟩, fun _ _ => trivial⟩,
        fun _ _ => trivial⟩⟩
  exact ⟨_, hrun, hagree, hrunning _ rfl⟩

end RoutedState

end Srn
