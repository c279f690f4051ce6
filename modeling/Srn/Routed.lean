import Srn.Graph
import Srn.In6Addr
import Srn.Lib.CString
import Srn.Lib.Transition
import Srn.Srdb.Entry

/-!
# Srn.Routed

The access router, in `sr-routed/sr-routed.c`: `read_flowstate` and `update_flowstate`, which put
the segment lists of a `FlowState` row into the table of routes and into the routing table of the
kernel, and `parse_srh` of `sr-routed/seg6_netlink.c`, which reads the segments back from the
text that the two functions print.

Both print a list into the array `segs_str`, piece by piece, at an offset that adds up what
`snprintf` returns.  The array is not cleared between lists, and the sum is not compared with its
size; `flowstate_segs_iff` states exactly when each list is printed whole and inside the array.

A BSID is given as the address that `inet_pton` reads from its text, and the two columns as what
`json_loads` finds in them.
-/

namespace Srn

/-! ## Segment lists as text -/

/-- The characters of an IPv6 address. -/
def addrChars : List Char := "0123456789abcdefABCDEF:.".toList

/-- The text of an IPv6 address. -/
structure AddrText where
  chars : List Char
  ne_nil : chars ≠ []
  length_le : chars.length ≤ 39
  valid : ∀ c ∈ chars, c ∈ addrChars
  deriving DecidableEq

theorem AddrText.valid_of_all {cs : List Char} (h : cs.all (fun c => c ∈ addrChars) = true) :
    ∀ c ∈ cs, c ∈ addrChars :=
  fun c hc => of_decide_eq_true (List.all_eq_true.mp h c hc)

/-- The segments joined by commas. -/
def joinSegs (segs : List AddrText) : List Char := [','].intercalate (segs.map AddrText.chars)

/-- What the rounds of the loop over the segments print: a comma follows all but the last. -/
def pieces : List AddrText → List (List Char)
  | [] => []
  | [seg] => [seg.chars]
  | seg :: segs => (seg.chars ++ [',']) :: pieces segs

/-- The array `segs_str` and the offset `k`. -/
structure SegsStr where
  buf : List Char
  k : UInt32
  deriving DecidableEq

/-- The argument `SLEN + 1 - k`, which is computed without a sign. -/
def SegsStr.size (st : SegsStr) : UInt32 := UInt32.ofNat (slen + 1) - st.k

/-- One round of the loop; `none` when it writes outside the array. -/
def appendSeg (st : SegsStr) (piece : List Char) : Option SegsStr :=
  (CString.snprintf '\x00' st.buf st.k.toNat st.size.toNat piece).map fun buf =>
    { buf, k := st.k + UInt32.ofNat piece.length }

/-- The loop over the segments of a list. -/
def buildSegsStr (buf : List Char) (segs : List AddrText) : Option SegsStr :=
  Transition.run appendSeg ⟨buf, 0⟩ (pieces segs)

/-- `parse_srh`, as the list of segments in the order of travel: one for each comma and one more,
filled from the tokens of `strtok`.  `pton` gives the address that `inet_pton` writes. -/
def parseSrh (pton : List Char → In6Addr) (segs : List Char) : List In6Addr :=
  let tokens := (segs.splitOn ',').filter fun token => token ≠ []
  tokens.map pton ++ List.replicate (segs.count ',' + 1 - tokens.length) 0

/-! ## Routes -/

/-- The routing table of the kernel. -/
abbrev Fib := Table In6Addr (List In6Addr)

/-- `add_route`: refused for a route that is there.  `fails` is any other reason. -/
def addRoute (kernel : Fib) (bsid : In6Addr) (segs : List In6Addr) (fails : Bool) : Fib :=
  if (kernel.get bsid).isSome || fails then kernel else kernel.set bsid segs

/-- `change_route`: refused for a route that is not there. -/
def changeRoute (kernel : Fib) (bsid : In6Addr) (segs : List In6Addr) (fails : Bool) : Fib :=
  if (kernel.get bsid).isNone || fails then kernel else kernel.set bsid segs

/-- The tables of routes and the array that the loop over the lists carries along. -/
structure RoutedLoop where
  routes : Table In6Addr (List Char)
  kernel : Fib
  segsStr : List Char
  deriving DecidableEq

/-- A round of the loop over the lists: the BSID at the same place, if there is one, the list, and
whether the kernel refuses the route for a reason of its own. -/
structure RouteItem where
  bsid : Option In6Addr
  segs : List AddrText
  fails : Bool

variable (pton : List Char → In6Addr)

/-- The body of the loop of `read_flowstate`; `none` when it goes wrong. -/
def insertRoute (st : RoutedLoop) (item : RouteItem) : Option RoutedLoop := do
  let bsid ← item.bsid
  let str ← buildSegsStr st.segsStr item.segs
  let text ← CString.strdup '\x00' str.buf
  return {
    segsStr := str.buf
    routes := st.routes.set bsid text
    kernel := addRoute st.kernel bsid (parseSrh pton text) item.fails }

/-- The body of the loop of `update_flowstate`, which skips a BSID without route. -/
def updateRoute (st : RoutedLoop) (item : RouteItem) : Option RoutedLoop := do
  let bsid ← item.bsid
  match st.routes.get bsid with
  | none => return st
  | some _ =>
    let str ← buildSegsStr st.segsStr item.segs
    let text ← CString.strdup '\x00' str.buf
    return {
      segsStr := str.buf
      routes := st.routes.set bsid text
      kernel := changeRoute st.kernel bsid (parseSrh pton text) item.fails }

theorem insertRoute_eq {item : RouteItem} {bsid : In6Addr} (h : item.bsid = some bsid)
    (st : RoutedLoop) :
    insertRoute pton st item = (buildSegsStr st.segsStr item.segs).bind fun str =>
      (CString.strdup '\x00' str.buf).map fun text => ⟨st.routes.set bsid text,
        addRoute st.kernel bsid (parseSrh pton text) item.fails, str.buf⟩ := by
  simp only [insertRoute, h, bind, Option.bind_some, pure, Option.map_eq_bind]
  rfl

theorem updateRoute_eq {item : RouteItem} {bsid : In6Addr} (h : item.bsid = some bsid)
    {st : RoutedLoop} (hroute : (st.routes.get bsid).isSome) :
    updateRoute pton st item = (buildSegsStr st.segsStr item.segs).bind fun str =>
      (CString.strdup '\x00' str.buf).map fun text => ⟨st.routes.set bsid text,
        changeRoute st.kernel bsid (parseSrh pton text) item.fails, str.buf⟩ := by
  obtain ⟨text, htext⟩ := Option.isSome_iff_exists.mp hroute
  simp only [updateRoute, h, htext, bind, Option.bind_some, pure, Option.map_eq_bind]
  rfl

theorem updateRoute_skip {item : RouteItem} {bsid : In6Addr} (h : item.bsid = some bsid)
    {st : RoutedLoop} (hroute : st.routes.get bsid = none) :
    updateRoute pton st item = some st := by
  simp only [updateRoute, h, hroute, bind, Option.bind_some, pure]

/-! ## Rows -/

/-- The columns of `struct srdb_flow_entry` that the router reads; a column is `none` when
`json_loads` rejects it. -/
structure FlowEntry where
  router : String
  bsids : Option (List In6Addr)
  segments : Option (List (List AddrText))
  deriving DecidableEq

/-- The rounds of the loop over the lists. -/
def FlowEntry.items (entry : FlowEntry) (fails : ℕ → Bool) : List RouteItem :=
  (entry.segments.getD []).mapIdx fun i segs => ⟨(entry.bsids.getD [])[i]?, segs, fails i⟩

/-- The access router; `running` is the row whose status the last call has set to `RUNNING`. -/
structure RoutedState where
  routes : Table In6Addr (List Char)
  kernel : Fib
  running : Option FlowEntry
  deriving DecidableEq

/-- `read_flowstate`; `segsStr` is what the array holds before it is first printed to. -/
def readFlowstate (routerName : String) (s : RoutedState) (entry : FlowEntry)
    (segsStr : List Char) (fails : ℕ → Bool) : Option RoutedState :=
  if entry.router ≠ routerName then some { s with running := none }
  else if entry.segments.isNone || entry.bsids.isNone then some { s with running := none }
  else
    (Transition.run (insertRoute pton) ⟨s.routes, s.kernel, segsStr⟩ (entry.items fails)).map
      fun st => ⟨st.routes, st.kernel, some entry⟩

/-- `update_flowstate`; `segments` tells whether `fmask` has the bit of `FE_SEGMENTS`. -/
def updateFlowstate (routerName : String) (s : RoutedState) (entry : FlowEntry) (segments : Bool)
    (segsStr : List Char) (fails : ℕ → Bool) : Option RoutedState :=
  if entry.router ≠ routerName then some { s with running := none }
  else if !segments then some { s with running := none }
  else
    (Transition.run (updateRoute pton) ⟨s.routes, s.kernel, segsStr⟩ (entry.items fails)).map
      fun st => ⟨st.routes, st.kernel, none⟩

/-! ## Printing one list -/

/-- The pieces make up the text. -/
theorem flatten_pieces (segs : List AddrText) : (pieces segs).flatten = joinSegs segs := by
  induction segs with
  | nil => rfl
  | cons seg segs ih =>
    cases segs with
    | nil => simp [pieces, joinSegs]
    | cons seg' segs =>
      show (seg.chars ++ [',']) ++ (pieces (seg' :: segs)).flatten = _
      rw [ih]
      unfold joinSegs
      simp [List.intercalate_cons_cons]

theorem pieces_eq_nil_iff (segs : List AddrText) : pieces segs = [] ↔ segs = [] := by
  cases segs with
  | nil => simp [pieces]
  | cons seg segs => cases segs <;> simp [pieces]

theorem length_of_mem_pieces {segs : List AddrText} {piece : List Char}
    (h : piece ∈ pieces segs) : piece.length ≤ 40 := by
  induction segs with
  | nil => simp [pieces] at h
  | cons seg segs ih =>
    have hlen := seg.length_le
    cases segs with
    | nil =>
      rw [pieces, List.mem_singleton] at h
      rw [h]
      omega
    | cons seg' segs =>
      rw [pieces, List.mem_cons] at h
      · obtain rfl | h := h
        · simp
          omega
        · exact ih h
      · simp

/-- An address has neither a terminator nor a comma in it. -/
theorem AddrText.ne_of_mem (seg : AddrText) {c : Char} (hc : c ∈ seg.chars) :
    c ≠ '\x00' ∧ c ≠ ',' := by
  have hall : addrChars.all (fun c => c ≠ '\x00' ∧ c ≠ ',') = true := by decide
  simpa using List.all_eq_true.mp hall c (seg.valid c hc)

theorem joinSegs_cons_cons (seg seg' : AddrText) (segs : List AddrText) :
    joinSegs (seg :: seg' :: segs) = seg.chars ++ ',' :: joinSegs (seg' :: segs) := by
  unfold joinSegs
  simp [List.intercalate_cons_cons]

theorem nul_notMem_joinSegs (segs : List AddrText) : '\x00' ∉ joinSegs segs := by
  induction segs with
  | nil => simp [joinSegs]
  | cons seg segs ih =>
    have hseg : '\x00' ∉ seg.chars := fun hc => (seg.ne_of_mem hc).1 rfl
    cases segs with
    | nil => simpa [joinSegs] using hseg
    | cons seg' segs =>
      rw [joinSegs_cons_cons, List.mem_append, List.mem_cons]
      simp [hseg, ih]

theorem joinSegs_ne_nil {segs : List AddrText} (h : segs ≠ []) : joinSegs segs ≠ [] := by
  cases segs with
  | nil => exact absurd rfl h
  | cons seg segs =>
    have hseg := seg.ne_nil
    cases segs with
    | nil => simpa [joinSegs] using hseg
    | cons seg' segs => simp [joinSegs_cons_cons]

/-- The text is in the array, and `k` is behind it. -/
structure Written (st : SegsStr) (text : List Char) : Prop where
  length : st.buf.length = slen + 1
  k : st.k.toNat = text.length
  text : ∃ rest, st.buf = text ++ rest

theorem SegsStr.size_eq {st : SegsStr} (h : st.k.toNat ≤ slen) :
    st.size.toNat = slen + 1 - st.k.toNat := by
  have hle : st.k ≤ UInt32.ofNat (slen + 1) := by
    rw [UInt32.le_iff_toNat_le]
    show st.k.toNat ≤ slen + 1
    omega
  unfold size
  rw [UInt32.toNat_sub_of_le _ _ hle]
  rfl

/-- **Step lemma**: a piece that fits is printed behind the text, with a terminator. -/
theorem Written.appendSeg {st : SegsStr} {text : List Char} (h : Written st text)
    (piece : List Char) (hfits : text.length + piece.length ≤ slen) :
    ∃ st', Srn.appendSeg st piece = some st' ∧ Written st' (text ++ piece) ∧
      ∃ rest, st'.buf = text ++ piece ++ '\x00' :: rest := by
  obtain ⟨hlength, hk, rest, hbuf⟩ := h
  have hprint : CString.snprintf '\x00' st.buf st.k.toNat st.size.toNat piece = some
      (st.buf.take st.k.toNat ++ (piece ++ ['\x00']) ++
        st.buf.drop (st.k.toNat + (piece.length + 1))) := by
    apply CString.snprintf_eq
    · rw [SegsStr.size_eq (by omega)]
      omega
    · omega
  have htake : st.buf.take st.k.toNat = text := by
    rw [hk, hbuf, List.take_left]
  have hadd : (st.k + UInt32.ofNat piece.length).toNat = (text ++ piece).length := by
    rw [UInt32.toNat_add, UInt32.toNat_ofNat', hk, List.length_append]
    unfold slen at hfits
    omega
  unfold Srn.appendSeg
  rw [hprint, htake]
  refine ⟨_, rfl, ⟨?_, hadd, ?_⟩, ?_⟩
  · simp only [List.length_append, List.length_drop, List.length_singleton]
    omega
  · exact ⟨'\x00' :: st.buf.drop (st.k.toNat + (piece.length + 1)), by simp⟩
  · exact ⟨st.buf.drop (st.k.toNat + (piece.length + 1)), by simp⟩

/-- **Run lemma**: pieces that fit together are printed one behind the other. -/
theorem Written.run {st : SegsStr} {text : List Char} (h : Written st text)
    (ps : List (List Char)) (hfits : text.length + ps.flatten.length ≤ slen) :
    ∃ st', Transition.run Srn.appendSeg st ps = some st' ∧ Written st' (text ++ ps.flatten) ∧
      (ps ≠ [] → ∃ rest, st'.buf = text ++ ps.flatten ++ '\x00' :: rest) := by
  induction ps generalizing st text with
  | nil => exact ⟨st, rfl, by simpa using h, by simp⟩
  | cons piece ps ih =>
    rw [List.flatten_cons, List.length_append] at hfits
    obtain ⟨st', hstep, hst', hend⟩ := h.appendSeg piece (by omega)
    obtain ⟨st'', hrun, hst'', hends⟩ := ih hst' (by rw [List.length_append]; omega)
    rw [List.append_assoc, ← List.flatten_cons] at hst''
    refine ⟨st'', ?_, hst'', fun _ => ?_⟩
    · rw [Transition.run_cons, hstep, Option.bind_some, hrun]
    · by_cases hps : ps = []
      · subst hps
        obtain rfl : st' = st'' := Option.some.inj hrun
        simpa using hend
      · simpa using hends hps

/-- As long as `k` stays inside, it adds up the lengths of the pieces. -/
theorem k_of_run {st st' : SegsStr} {ps : List (List Char)} (hlen : ∀ piece ∈ ps, piece.length ≤ 40)
    (hinside : ∀ pre post t, ps = pre ++ post → Transition.run appendSeg st pre = some t →
      t.k.toNat ≤ slen)
    (hrun : Transition.run appendSeg st ps = some st') :
    st'.k.toNat = st.k.toNat + ps.flatten.length := by
  induction ps generalizing st with
  | nil =>
    rw [Transition.run_nil, Option.some.injEq] at hrun
    simp [hrun]
  | cons piece ps ih =>
    rw [Transition.run_cons, Option.bind_eq_some_iff] at hrun
    obtain ⟨t, hstep, hrest⟩ := hrun
    have hk := hinside [] (piece :: ps) st rfl rfl
    have hpiece := hlen piece List.mem_cons_self
    have htk : t.k.toNat = st.k.toNat + piece.length := by
      obtain ⟨buf, -, rfl⟩ := Option.map_eq_some_iff.mp hstep
      rw [UInt32.toNat_add, UInt32.toNat_ofNat']
      unfold slen at hk
      omega
    rw [ih (fun p hp => hlen p (List.mem_cons_of_mem _ hp)) ?_ hrest, htk, List.flatten_cons,
      List.length_append]
    · omega
    · intro pre post t' heq hpre
      apply hinside (piece :: pre) post t' (by rw [heq, List.cons_append])
      rw [Transition.run_cons, hstep, Option.bind_some, hpre]

/-- The list is printed inside the array, with an offset of at most `SLEN` and a size that does not
wrap in every round, and the string that is then copied is the segments joined by commas. -/
structure PrintsExactly (buf : List Char) (segs : List AddrText) : Prop where
  inside : ∀ pre post st, pieces segs = pre ++ post →
    Transition.run appendSeg ⟨buf, 0⟩ pre = some st →
      st.k.toNat ≤ slen ∧ st.size.toNat = slen + 1 - st.k.toNat
  stored : ∃ st, buildSegsStr buf segs = some st ∧
    CString.strdup '\x00' st.buf = some (joinSegs segs)

theorem written_nil {buf : List Char} (hbuf : buf.length = slen + 1) : Written ⟨buf, 0⟩ [] :=
  ⟨hbuf, rfl, buf, rfl⟩

/-- A list with segments is printed exactly if its text fits. -/
theorem printsExactly_iff_of_ne_nil {buf : List Char} {segs : List AddrText}
    (hbuf : buf.length = slen + 1) (hsegs : segs ≠ []) :
    PrintsExactly buf segs ↔ (joinSegs segs).length ≤ slen := by
  have hpieces : pieces segs ≠ [] := fun h => hsegs ((pieces_eq_nil_iff segs).mp h)
  rw [← flatten_pieces]
  constructor
  · intro h
    obtain ⟨st, hrun, -⟩ := h.stored
    have hk := k_of_run (fun piece hp => length_of_mem_pieces hp)
      (fun pre post t heq ht => (h.inside pre post t heq ht).1) hrun
    have hle := (h.inside (pieces segs) [] st (List.append_nil _).symm hrun).1
    rw [hk] at hle
    simpa using hle
  · intro hfits
    constructor
    · intro pre post st heq hrun
      rw [heq, List.flatten_append, List.length_append] at hfits
      obtain ⟨st', hrun', hst', -⟩ := (written_nil hbuf).run pre
        (by rw [List.length_nil]; omega)
      obtain rfl : st = st' := Option.some.inj (hrun.symm.trans hrun')
      have hk := hst'.k
      rw [List.nil_append] at hk
      exact ⟨by omega, SegsStr.size_eq (by omega)⟩
    · obtain ⟨st, hrun, -, hend⟩ :=
        (written_nil hbuf).run (pieces segs) (by simpa using hfits)
      obtain ⟨rest, hrest⟩ := hend hpieces
      rw [List.nil_append, flatten_pieces] at hrest
      refine ⟨st, hrun, ?_⟩
      rw [hrest, CString.strdup_append (nul_notMem_joinSegs segs)]

/-- For a list without segments nothing is printed, and what is in the array is copied. -/
theorem printsExactly_nil_iff {buf : List Char} :
    PrintsExactly buf [] ↔ buf.head? = some '\x00' := by
  constructor
  · intro h
    obtain ⟨st, hrun, hstored⟩ := h.stored
    obtain rfl : ⟨buf, 0⟩ = st := Option.some.inj hrun
    unfold CString.strdup at hstored
    split_ifs at hstored with hmem
    cases buf with
    | nil => simp at hmem
    | cons c buf =>
      by_cases hc : c = '\x00'
      · rw [hc, List.head?_cons]
      · simp [joinSegs, hc] at hstored
  · intro hhead
    obtain ⟨rest, rfl⟩ : ∃ rest, buf = '\x00' :: rest := by
      cases buf with
      | nil => simp at hhead
      | cons c rest => exact ⟨rest, by rw [Option.some.inj hhead]⟩
    constructor
    · intro pre post st heq hrun
      obtain ⟨rfl, -⟩ := List.append_eq_nil_iff.mp heq.symm
      obtain rfl : ⟨_, 0⟩ = st := Option.some.inj hrun
      exact ⟨Nat.zero_le _, SegsStr.size_eq (Nat.zero_le _)⟩
    · exact ⟨_, rfl, CString.strdup_append List.not_mem_nil rest⟩

/-! ## Printing all lists -/

/-- Every text fits. -/
def SegsFit (lists : List (List AddrText)) : Prop := ∀ segs ∈ lists, (joinSegs segs).length ≤ slen

/-- A list without segments comes only before all lists with segments, and only if the array
happens to begin with a terminator. -/
def NoStaleText (buf : List Char) (lists : List (List AddrText)) : Prop :=
  ∀ pre post, lists = pre ++ [] :: post → (∀ segs ∈ pre, segs = []) ∧ buf.head? = some '\x00'

theorem noStaleText_nil (buf : List Char) : NoStaleText buf [] := by
  intro pre post heq
  simp at heq

theorem noStaleText_cons_nil {buf : List Char} {lists : List (List AddrText)} :
    NoStaleText buf ([] :: lists) ↔ buf.head? = some '\x00' ∧ NoStaleText buf lists := by
  constructor
  · intro h
    refine ⟨(h [] lists rfl).2, fun pre post heq => ?_⟩
    obtain ⟨hpre, hhead⟩ := h ([] :: pre) post (by rw [heq, List.cons_append])
    exact ⟨fun segs hs => hpre segs (List.mem_cons_of_mem _ hs), hhead⟩
  · intro h pre post heq
    cases pre with
    | nil => exact ⟨by simp, h.1⟩
    | cons segs pre =>
      rw [List.cons_append, List.cons.injEq] at heq
      obtain ⟨hpre, hhead⟩ := h.2 pre post heq.2
      refine ⟨fun x hx => ?_, hhead⟩
      obtain rfl | hx := List.mem_cons.mp hx
      · exact heq.1.symm
      · exact hpre x hx

/-- Behind a list with segments, and in an array that begins with a text, no list may be empty. -/
theorem noStaleText_iff_of_head? {buf : List Char} {lists : List (List AddrText)}
    (h : buf.head? ≠ some '\x00') : NoStaleText buf lists ↔ [] ∉ lists := by
  constructor
  · intro hno hmem
    obtain ⟨pre, post, heq⟩ := List.append_of_mem hmem
    exact h (hno pre post heq).2
  · intro hno pre post heq
    exact absurd (by rw [heq]; simp) hno

theorem noStaleText_cons_of_ne_nil {buf : List Char} {segs : List AddrText}
    {lists : List (List AddrText)} (h : segs ≠ []) :
    NoStaleText buf (segs :: lists) ↔ [] ∉ lists := by
  constructor
  · intro hno hmem
    obtain ⟨pre, post, heq⟩ := List.append_of_mem hmem
    exact h ((hno (segs :: pre) post (by rw [heq, List.cons_append])).1 segs List.mem_cons_self)
  · intro hno pre post heq
    cases pre with
    | nil => exact absurd (List.cons.inj heq).1 h
    | cons x pre =>
      rw [List.cons_append, List.cons.injEq] at heq
      exact absurd (by rw [heq.2]; simp) hno

/-- What the array holds after a list has been printed. -/
theorem segsStr_of_buildSegsStr {buf : List Char} {segs : List AddrText} {st : SegsStr}
    (hbuf : buf.length = slen + 1) (hfits : (joinSegs segs).length ≤ slen)
    (h : buildSegsStr buf segs = some st) :
    st.buf.length = slen + 1 ∧ (segs = [] → st.buf = buf) ∧
      (segs ≠ [] → ∃ rest, st.buf = joinSegs segs ++ '\x00' :: rest) := by
  rw [← flatten_pieces] at hfits
  obtain ⟨st', hrun, hst', hend⟩ :=
    (written_nil hbuf).run (pieces segs) (by simpa using hfits)
  obtain rfl : st = st' := Option.some.inj (h.symm.trans hrun)
  refine ⟨hst'.length, fun hnil => ?_, fun hne => ?_⟩
  · subst hnil
    rw [← Option.some.inj hrun]
  · obtain ⟨rest, hrest⟩ := hend fun hp => hne ((pieces_eq_nil_iff segs).mp hp)
    exact ⟨rest, by rw [hrest, List.nil_append, flatten_pieces]⟩

/-- The condition for the lists behind the first one, once that one is printed exactly. -/
theorem noStaleText_cons_iff {buf : List Char} {segs : List AddrText} {st : SegsStr}
    {lists : List (List AddrText)} (hbuf : buf.length = slen + 1)
    (hfits : (joinSegs segs).length ≤ slen) (h : buildSegsStr buf segs = some st)
    (hexact : PrintsExactly buf segs) :
    NoStaleText st.buf lists ↔ NoStaleText buf (segs :: lists) := by
  obtain ⟨-, hsame, htext⟩ := segsStr_of_buildSegsStr hbuf hfits h
  by_cases hsegs : segs = []
  · subst hsegs
    rw [hsame rfl, noStaleText_cons_nil, and_iff_right (printsExactly_nil_iff.mp hexact)]
  · obtain ⟨rest, hrest⟩ := htext hsegs
    have hhead : st.buf.head? ≠ some '\x00' := by
      obtain ⟨c, cs, hcs⟩ := List.exists_cons_of_ne_nil (joinSegs_ne_nil hsegs)
      have hne := nul_notMem_joinSegs segs
      rw [hcs, List.mem_cons, not_or] at hne
      rw [hrest, hcs, List.cons_append, List.head?_cons, ne_eq, Option.some.injEq]
      exact fun heq => hne.1 heq.symm
    rw [noStaleText_iff_of_head? hhead, noStaleText_cons_of_ne_nil hsegs]

/-- A first list is printed exactly if its text fits and the array is right for it. -/
theorem printsExactly_of_cons {buf : List Char} {segs : List AddrText}
    {lists : List (List AddrText)} (hbuf : buf.length = slen + 1)
    (hfits : (joinSegs segs).length ≤ slen) (hno : NoStaleText buf (segs :: lists)) :
    PrintsExactly buf segs := by
  by_cases hsegs : segs = []
  · subst hsegs
    exact printsExactly_nil_iff.mpr (noStaleText_cons_nil.mp hno).1
  · exact (printsExactly_iff_of_ne_nil hbuf hsegs).mpr hfits

theorem PrintsExactly.fits {buf : List Char} {segs : List AddrText} (h : PrintsExactly buf segs)
    (hbuf : buf.length = slen + 1) : (joinSegs segs).length ≤ slen := by
  by_cases hsegs : segs = []
  · subst hsegs
    exact Nat.zero_le _
  · exact (printsExactly_iff_of_ne_nil hbuf hsegs).mp h

/-- A loop over lists, in which a round prints its list or skips it and keeps the array, prints
all of them exactly if their texts fit and none is stale. -/
theorem along_printsExactly_iff (step : RoutedLoop → RouteItem → Option RoutedLoop)
    (prints : RoutedLoop → RouteItem → Bool)
    (hprint : ∀ st item, item.bsid.isSome → prints st item = true →
      ∃ f : SegsStr → List Char → RoutedLoop, (∀ str text, (f str text).segsStr = str.buf) ∧
        (∀ str text, prints (f str text) = prints st) ∧
        step st item = (buildSegsStr st.segsStr item.segs).bind fun str =>
          (CString.strdup '\x00' str.buf).map (f str))
    (hskip : ∀ st item, item.bsid.isSome → prints st item = false → step st item = some st)
    {st : RoutedLoop} {items : List RouteItem} (hbsid : ∀ item ∈ items, item.bsid.isSome)
    (hbuf : st.segsStr.length = slen + 1) :
    Transition.Along step
        (fun st item => prints st item = true → PrintsExactly st.segsStr item.segs) st items ↔
      SegsFit ((items.filter (prints st)).map RouteItem.segs) ∧
        NoStaleText st.segsStr ((items.filter (prints st)).map RouteItem.segs) := by
  induction items generalizing st with
  | nil => exact ⟨fun _ => ⟨by simp [SegsFit], noStaleText_nil _⟩, fun _ => trivial⟩
  | cons item items ih =>
    have hitem := hbsid item List.mem_cons_self
    have hitems : ∀ item ∈ items, item.bsid.isSome :=
      fun x hx => hbsid x (List.mem_cons_of_mem _ hx)
    cases hp : prints st item with
    | false =>
      rw [List.filter_cons_of_neg (by simp [hp]), ← ih hitems hbuf]
      constructor
      · intro h
        exact h.2 st (hskip st item hitem hp)
      · intro h
        refine ⟨by simp [hp], fun st' hst' => ?_⟩
        rw [hskip st item hitem hp, Option.some.injEq] at hst'
        rwa [← hst']
    | true =>
      obtain ⟨f, hf, hkeep, hrun⟩ := hprint st item hitem hp
      rw [List.filter_cons_of_pos hp, List.map_cons]
      -- the rest of the loop, once this list has been printed
      have hrest : PrintsExactly st.segsStr item.segs → ∃ str, step st item =
          some (f str (joinSegs item.segs)) ∧
          (Transition.Along step (fun st item => prints st item = true →
              PrintsExactly st.segsStr item.segs) (f str (joinSegs item.segs)) items ↔
            SegsFit ((items.filter (prints st)).map RouteItem.segs) ∧
              NoStaleText st.segsStr
                (item.segs :: (items.filter (prints st)).map RouteItem.segs)) := by
        intro hexact
        obtain ⟨str, hbuild, hdup⟩ := hexact.stored
        have hlen := segsStr_of_buildSegsStr hbuf (hexact.fits hbuf) hbuild
        refine ⟨str, by rw [hrun, hbuild, Option.bind_some, hdup, Option.map_some], ?_⟩
        rw [ih hitems (by rw [hf]; exact hlen.1), hf, hkeep,
          noStaleText_cons_iff hbuf (hexact.fits hbuf) hbuild hexact]
      constructor
      · intro h
        have hexact := h.1 hp
        obtain ⟨str, hstep, hiff⟩ := hrest hexact
        obtain ⟨hfit, hno⟩ := hiff.mp (h.2 _ hstep)
        refine ⟨fun segs hs => ?_, hno⟩
        obtain rfl | hs := List.mem_cons.mp hs
        · exact hexact.fits hbuf
        · exact hfit segs hs
      · intro h
        have hexact : PrintsExactly st.segsStr item.segs :=
          printsExactly_of_cons hbuf (h.1 _ List.mem_cons_self) h.2
        obtain ⟨str, hstep, hiff⟩ := hrest hexact
        refine ⟨fun _ => hexact, fun st' hst' => ?_⟩
        obtain rfl := Option.some.inj (hstep.symm.trans hst')
        exact hiff.mpr ⟨fun segs hs => h.1 segs (List.mem_cons_of_mem _ hs), h.2⟩

/-- The route of a BSID is there, so that `update_flowstate` prints the list. -/
def RoutedLoop.hasRoute (st : RoutedLoop) (item : RouteItem) : Bool :=
  item.bsid.any fun bsid => (st.routes.get bsid).isSome

/-- **Main theorem.** The loops of `read_flowstate` and `update_flowstate` print every list inside
the array, and copy its segments joined by commas, exactly when every text is at most `SLEN`
characters long and no list without segments finds a text in the array.  `update_flowstate` prints
the lists of the BSIDs that have a route. -/
theorem flowstate_segs_iff (st : RoutedLoop) (items : List RouteItem)
    (hbsid : ∀ item ∈ items, item.bsid.isSome) (hbuf : st.segsStr.length = slen + 1) :
    (Transition.Along (insertRoute pton) (fun st item => PrintsExactly st.segsStr item.segs)
        st items ↔
      SegsFit (items.map RouteItem.segs) ∧
        NoStaleText st.segsStr (items.map RouteItem.segs)) ∧
    (Transition.Along (updateRoute pton)
        (fun st item => st.hasRoute item = true → PrintsExactly st.segsStr item.segs) st items ↔
      SegsFit ((items.filter st.hasRoute).map RouteItem.segs) ∧
        NoStaleText st.segsStr ((items.filter st.hasRoute).map RouteItem.segs)) := by
  constructor
  · have hiff := along_printsExactly_iff (insertRoute pton) (fun _ _ => true)
      (fun st item hsome _ => ?_) (fun _ _ _ h => by simp at h) hbsid hbuf
    · simpa using hiff
    · obtain ⟨bsid, hb⟩ := Option.isSome_iff_exists.mp hsome
      exact ⟨_, fun _ _ => rfl, fun _ _ => rfl, insertRoute_eq pton hb st⟩
  · apply along_printsExactly_iff (updateRoute pton) RoutedLoop.hasRoute
      (fun st item hsome hp => ?_) (fun st item hsome hp => ?_) hbsid hbuf
    · obtain ⟨bsid, hb⟩ := Option.isSome_iff_exists.mp hsome
      have hroute : (st.routes.get bsid).isSome := by simpa [RoutedLoop.hasRoute, hb] using hp
      refine ⟨_, fun _ _ => rfl, fun _ text => ?_, updateRoute_eq pton hb hroute⟩
      -- a route that is overwritten stays there
      funext item'
      unfold RoutedLoop.hasRoute
      congr 1
      funext b
      rw [Table.get_set]
      by_cases hbb : bsid = b
      · rw [if_pos hbb, ← hbb, hroute]
        rfl
      · rw [if_neg hbb]
    · obtain ⟨bsid, hb⟩ := Option.isSome_iff_exists.mp hsome
      have hroute : st.routes.get bsid = none := by simpa [RoutedLoop.hasRoute, hb] using hp
      exact updateRoute_skip pton hb hroute

/-- An address with all its digits. -/
def longAddr : AddrText :=
  ⟨"2001:0db8:0000:0000:0000:0000:0000:0001".toList, by decide, by decide,
    AddrText.valid_of_all (by decide)⟩

/-- The address `::`. -/
def shortAddr : AddrText :=
  ⟨"::".toList, by decide, by decide, AddrText.valid_of_all (by decide)⟩

/-- A router without routes and an array that is still zero. -/
def noRoutes : RoutedLoop := ⟨.empty, .empty, List.replicate (slen + 1) '\x00'⟩

/-- Four long addresses do not fit, and leave an offset of 159; a fifth one is printed outside the
array. -/
theorem flowstate_overruns :
    ¬ Transition.Along (insertRoute fun _ => 0)
        (fun st item => PrintsExactly st.segsStr item.segs) noRoutes
        [⟨some 1, List.replicate 5 longAddr, false⟩] ∧
      buildSegsStr noRoutes.segsStr (List.replicate 5 longAddr) = none ∧
      (buildSegsStr noRoutes.segsStr (List.replicate 4 longAddr)).map SegsStr.k = some 159 := by
  have hfive : buildSegsStr noRoutes.segsStr (List.replicate 5 longAddr) = none := by
    decide +kernel
  refine ⟨fun h => ?_, hfive, by decide +kernel⟩
  obtain ⟨st, hst, -⟩ := h.1.stored
  exact absurd (hfive.symm.trans hst) (Option.some_ne_none st).symm

/-- A list without segments before one with two segments, in a zeroed array. -/
theorem flowstate_segs_leading :
    Transition.Along (insertRoute fun _ => 0) (fun st item => PrintsExactly st.segsStr item.segs)
      noRoutes [⟨some 1, [], false⟩, ⟨some 2, [shortAddr, longAddr], false⟩] := by
  refine (flowstate_segs_iff (fun _ => 0) noRoutes _ (by decide)
    List.length_replicate).1.mpr ⟨by unfold SegsFit; decide, ?_⟩
  exact noStaleText_cons_nil.mpr ⟨by decide,
    (noStaleText_cons_of_ne_nil (by decide)).mpr (by decide)⟩

end Srn
