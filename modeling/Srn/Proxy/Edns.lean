import Srn.Lib.Dns
import Srn.Lib.Fault
import Srn.Routed

/-!
# Srn.Proxy.Edns

How the DNS proxy reads a query (`dns_parse_edns` of `sr-dnsproxy/server.c`).  An application adds
its name, its bandwidth and its latency to a query as options of an `OPT` record; the function finds
the record behind the name of the question and takes the options one after another.

The function trusts the counters and the lengths that stand in the datagram.
`dns_parse_edns_safe_iff` states exactly when all that it touches is inside the datagram and inside
`app_name_req`; `dns_parse_edns_options` states what it reads from a query that is well formed.
-/

namespace Srn

/-! ## The function -/

/-- `struct query`, with the bytes of its data below `length`. -/
structure Query where
  addr : In6Addr
  bandwidthReq : BitVec 32
  latencyReq : BitVec 32
  appNameReq : List Dns.Byte
  data : List Dns.Byte
  length_appNameReq : appNameReq.length = slen + 1
  deriving DecidableEq

/-- The bytes that `dns_parse_edns` may touch. -/
inductive EdnsFault where
  /-- A byte at or behind `length` is read. -/
  | read
  /-- A byte behind `app_name_req` is written. -/
  | write
  deriving DecidableEq, Repr

/-- `server_producer_process`: at most `MAX_DNS_PACKET_SIZE` bytes of a datagram, in a query that
`malloc` returned. -/
def serverProducerProcess (query : Query) (addr : In6Addr) (datagram : List Dns.Byte) : Query :=
  { query with addr, data := datagram.take 512 }

/-- The text of an address as bytes. -/
def AddrText.bytes (text : AddrText) : List Dns.Byte :=
  text.chars.map fun c => BitVec.ofNat 8 c.toNat

namespace Query

/-- `DNS__16BIT`. -/
def read16 (q : Query) (pos : ℕ) : Except EdnsFault (BitVec 16) :=
  match Dns.word16At q.data pos with
  | some v => .ok v
  | none => .error .read

/-- `DNS__32BIT`. -/
def read32 (q : Query) (pos : ℕ) : Except EdnsFault (BitVec 32) := do
  let high ← q.read16 pos
  let low ← q.read16 (pos + 2)
  return high ++ low

/-- The source of a `memcpy`. -/
def readBytes (q : Query) (pos n : ℕ) : Except EdnsFault (List Dns.Byte) :=
  match Dns.bytesAt q.data pos n with
  | some bytes => .ok bytes
  | none => .error .read

/-- A text and its terminator at the beginning of `app_name_req`. -/
def setAppName (q : Query) (text : List Dns.Byte) : Except EdnsFault Query :=
  if h : text.length ≤ slen then
    .ok { q with
      appNameReq := text ++ 0 :: q.appNameReq.drop (text.length + 1)
      length_appNameReq := by
        have hlen := q.length_appNameReq
        simp
        omega }
  else .error .write

/-- The default values. -/
def clear (q : Query) : Query :=
  { q with
    bandwidthReq := 0
    latencyReq := 0
    appNameReq := 0 :: q.appNameReq.drop 1
    length_appNameReq := by
      have hlen := q.length_appNameReq
      simp
      omega }

/-- `inet_ntop(AF_INET6, …, app_name_req, SLEN + 1)`. -/
def useAddr (inetNtop : In6Addr → AddrText) (q : Query) : Except EdnsFault Query :=
  q.setAppName (inetNtop q.addr).bytes

/-- The cases of the switch over `option_code`. -/
def takeOption (q : Query) (code : BitVec 16) (pos len : ℕ) : Except EdnsFault Query :=
  if code = 65001 then do
    let text ← q.readBytes pos len
    q.setAppName text
  else if code = 65002 then do
    let bandwidth ← q.read32 pos
    return { q with bandwidthReq := bandwidth }
  else if code = 65003 then do
    let latency ← q.read32 pos
    return { q with latencyReq := latency }
  else return q

/-- The loop over the options, from offset `i` on.  Each round advances by at least four bytes, so
that `edns_length` rounds are enough. -/
def optionLoop (aptr ednsLength : ℕ) : ℕ → ℕ → Query → Except EdnsFault Query
  | 0, _, q => .ok q
  | fuel + 1, i, q =>
    if i < ednsLength then do
      let code ← q.read16 (aptr + i)
      let len ← q.read16 (aptr + i + 2)
      let q ← q.takeOption code (aptr + i + 4) len.toNat
      optionLoop aptr ednsLength fuel (i + 4 + len.toNat) q
    else .ok q

/-- The additional record: its type is only logged. -/
def parseOptRecord (inetNtop : In6Addr → AddrText) (q : Query) (aptr : ℕ) :
    Except EdnsFault Query := do
  let _ ← q.read16 aptr
  let ednsLength ← q.read16 (aptr + 8)
  let q ← optionLoop (aptr + 10) ednsLength.toNat ednsLength.toNat 0 q
  if q.appNameReq.head? = some 0 then q.useAddr inetNtop else return q

/-- The question and what follows it, for accepted counters.  The function `expandName` is
`ares_expand_name`, which returns a name and the number of bytes it takes. -/
def parseSections (expandName : List Dns.Byte → ℕ → Option (List Dns.Byte × ℕ))
    (inetNtop : In6Addr → AddrText) (q : Query) (arcount : BitVec 16) :
    Except EdnsFault (Option (List Dns.Byte) × Query) :=
  match expandName q.data 12 with
  | none => return (none, q)
  | some (name, len) =>
    (if arcount = 0 then q.useAddr inetNtop
      else q.parseOptRecord inetNtop (12 + len + 4 + 1)) >>= fun q => return (some name, q)

end Query

/-- `dns_parse_edns`: the name, or `none` for a return value of -1, and the query. -/
def dnsParseEdns (expandName : List Dns.Byte → ℕ → Option (List Dns.Byte × ℕ))
    (inetNtop : In6Addr → AddrText) (query : Query) :
    Except EdnsFault (Option (List Dns.Byte) × Query) := do
  let q := query.clear
  let qdcount ← q.read16 4
  let ancount ← q.read16 6
  let nscount ← q.read16 8
  let arcount ← q.read16 10
  if qdcount ≠ 1 ∨ ancount ≠ 0 ∨ nscount ≠ 0 ∨ 1 < arcount.toNat then return (none, q)
  else q.parseSections expandName inetNtop arcount

/-! ## What is read and written -/

/-- The data of an option that is not skipped is inside the datagram, and an application name fits
`app_name_req`. -/
def OptionFits (data : List Dns.Byte) (code : BitVec 16) (pos len : ℕ) : Prop :=
  (code = 65001 → pos + len ≤ data.length ∧ len ≤ slen) ∧
    (code = 65002 ∨ code = 65003 → pos + 4 ≤ data.length)

/-- From offset `i` on, each option that begins below `edns_length` has its code and its length
inside the datagram, and its data fits. -/
inductive OptionsFit (data : List Dns.Byte) (aptr ednsLength : ℕ) : ℕ → Prop
  | done {i : ℕ} : ednsLength ≤ i → OptionsFit data aptr ednsLength i
  | option {i : ℕ} {code len : BitVec 16} : i < ednsLength →
      Dns.word16At data (aptr + i) = some code → Dns.word16At data (aptr + i + 2) = some len →
      OptionFits data code (aptr + i + 4) len.toNat →
      OptionsFit data aptr ednsLength (i + 4 + len.toNat) → OptionsFit data aptr ednsLength i

/-- The counters of the header announce one question and one additional record. -/
def OneOfEach (data : List Dns.Byte) : Prop :=
  Dns.word16At data 4 = some 1 ∧ Dns.word16At data 6 = some 0 ∧ Dns.word16At data 8 = some 0 ∧
    Dns.word16At data 10 = some 1

/-- The datagram has a header, and if the header announces an additional record behind a question
whose name is accepted, then the fixed part of the record is inside the datagram and its options
fit. -/
structure EdnsFits (expandName : List Dns.Byte → ℕ → Option (List Dns.Byte × ℕ))
    (data : List Dns.Byte) : Prop where
  header : 12 ≤ data.length
  record : ∀ name len, OneOfEach data → expandName data 12 = some (name, len) →
    ∃ ednsLength, Dns.word16At data (len + 25) = some ednsLength ∧
      OptionsFit data (len + 27) ednsLength.toNat 0

namespace Query

variable {q q' : Query} {code : BitVec 16} {pos len : ℕ}

theorem read16_eq_ok_iff {v : BitVec 16} :
    q.read16 pos = .ok v ↔ Dns.word16At q.data pos = some v := by
  unfold read16
  cases Dns.word16At q.data pos <;> simp

theorem read32_eq_ok_iff {v : BitVec 32} :
    q.read32 pos = .ok v ↔ ∃ high low, Dns.word16At q.data pos = some high ∧
      Dns.word16At q.data (pos + 2) = some low ∧ high ++ low = v := by
  simp only [read32, Fault.bind_eq_ok_iff, read16_eq_ok_iff, pure, Except.pure, Except.ok.injEq]
  constructor
  · rintro ⟨high, hhigh, low, hlow, hv⟩
    exact ⟨high, low, hhigh, hlow, hv⟩
  · rintro ⟨high, low, hhigh, hlow, hv⟩
    exact ⟨high, hhigh, low, hlow, hv⟩

theorem exists_read32_iff : (∃ v, q.read32 pos = .ok v) ↔ pos + 4 ≤ q.data.length := by
  constructor
  · rintro ⟨v, hv⟩
    obtain ⟨-, low, -, hlow, -⟩ := read32_eq_ok_iff.mp hv
    exact Dns.exists_word16At_iff.mp ⟨low, hlow⟩
  · intro hle
    obtain ⟨high, hhigh⟩ := Dns.exists_word16At_iff.mpr (show pos + 2 ≤ q.data.length by omega)
    obtain ⟨low, hlow⟩ := Dns.exists_word16At_iff.mpr (show pos + 2 + 2 ≤ q.data.length from hle)
    exact ⟨high ++ low, read32_eq_ok_iff.mpr ⟨high, low, hhigh, hlow, rfl⟩⟩

theorem readBytes_eq_ok_iff {n : ℕ} {bytes : List Dns.Byte} :
    q.readBytes pos n = .ok bytes ↔ Dns.bytesAt q.data pos n = some bytes := by
  unfold readBytes
  cases Dns.bytesAt q.data pos n <;> simp

theorem setAppName_ok {text : List Dns.Byte} (h : text.length ≤ slen) :
    ∃ q', q.setAppName text = .ok q' ∧ q'.addr = q.addr ∧ q'.bandwidthReq = q.bandwidthReq ∧
      q'.latencyReq = q.latencyReq ∧ q'.data = q.data ∧
      q'.appNameReq = text ++ 0 :: q.appNameReq.drop (text.length + 1) := by
  rw [setAppName, dif_pos h]
  exact ⟨_, rfl, rfl, rfl, rfl, rfl, rfl⟩

theorem exists_setAppName_iff {text : List Dns.Byte} :
    (∃ q', q.setAppName text = .ok q') ↔ text.length ≤ slen := by
  unfold setAppName
  split
  · next h => exact ⟨fun _ => h, fun _ => ⟨_, rfl⟩⟩
  · next h => exact ⟨fun ⟨_, hset⟩ => (nomatch hset), fun hle => absurd hle h⟩

/-- The text of an address always fits. -/
theorem length_bytes_le (text : AddrText) : text.bytes.length ≤ slen := by
  have hlen := text.length_le
  rw [AddrText.bytes, List.length_map]
  unfold slen
  omega

theorem useAddr_ok (inetNtop : In6Addr → AddrText) (q : Query) :
    ∃ q', q.useAddr inetNtop = .ok q' :=
  exists_setAppName_iff.mpr (length_bytes_le (inetNtop q.addr))

theorem exists_takeOption_iff :
    (∃ q', q.takeOption code pos len = .ok q') ↔ OptionFits q.data code pos len := by
  unfold takeOption OptionFits
  split
  · next hname =>
    subst hname
    simp only [Fault.bind_eq_ok_iff, readBytes_eq_ok_iff, Dns.bytesAt_eq_some_iff]
    constructor
    · rintro ⟨q', text, ⟨hle, rfl⟩, hset⟩
      have hlen := exists_setAppName_iff.mp ⟨q', hset⟩
      rw [List.length_take, List.length_drop] at hlen
      exact ⟨fun _ => ⟨hle, by omega⟩, by simp⟩
    · rintro ⟨hname, -⟩
      obtain ⟨hle, hlen⟩ := hname trivial
      obtain ⟨q', hset⟩ := exists_setAppName_iff.mpr
        (show ((q.data.drop pos).take len).length ≤ slen by
          rw [List.length_take, List.length_drop]
          omega)
      exact ⟨q', _, ⟨hle, rfl⟩, hset⟩
  · next hname =>
    have hread : ∀ update : BitVec 32 → Query,
        (∃ q', (q.read32 pos >>= fun v => pure (update v)) = Except.ok q') ↔
          pos + 4 ≤ q.data.length := by
      intro update
      rw [← exists_read32_iff]
      simp only [Fault.bind_eq_ok_iff]
      exact ⟨fun ⟨_, v, hv, _⟩ => ⟨v, hv⟩, fun ⟨v, hv⟩ => ⟨_, v, hv, rfl⟩⟩
    split
    · next hbandwidth => simpa [hbandwidth] using hread fun v => { q with bandwidthReq := v }
    · next hbandwidth =>
      split
      · next hlatency => simpa [hlatency] using hread fun v => { q with latencyReq := v }
      · next hlatency =>
        simp only [hname, hbandwidth, hlatency, false_implies, or_self, and_self, iff_true]
        exact ⟨q, rfl⟩

theorem takeOption_data (h : q.takeOption code pos len = .ok q') : q'.data = q.data := by
  unfold takeOption at h
  split at h
  · obtain ⟨text, -, hset⟩ := Fault.bind_eq_ok_iff.mp h
    obtain ⟨q'', hok, -, -, -, hdata, -⟩ :=
      setAppName_ok (exists_setAppName_iff.mp ⟨q', hset⟩) (q := q)
    obtain rfl := Except.ok.inj (hset.symm.trans hok)
    exact hdata
  · split at h
    · obtain ⟨v, -, h⟩ := Fault.bind_eq_ok_iff.mp h
      obtain rfl := Except.ok.inj h
      rfl
    · split at h
      · obtain ⟨v, -, h⟩ := Fault.bind_eq_ok_iff.mp h
        obtain rfl := Except.ok.inj h
        rfl
      · obtain rfl := Except.ok.inj h
        rfl

/-- **Run lemma.**  The loop ends without a fault exactly if the options fit. -/
theorem exists_optionLoop_iff {aptr ednsLength fuel i : ℕ} (hfuel : ednsLength ≤ i + fuel)
    (q : Query) :
    (∃ q', optionLoop aptr ednsLength fuel i q = .ok q') ↔
      OptionsFit q.data aptr ednsLength i := by
  induction fuel generalizing i q with
  | zero => exact ⟨fun _ => .done hfuel, fun _ => ⟨q, rfl⟩⟩
  | succ fuel ih =>
    unfold optionLoop
    by_cases hi : i < ednsLength
    · simp only [if_pos hi, Fault.bind_eq_ok_iff, read16_eq_ok_iff]
      constructor
      · rintro ⟨q', code, hcode, len, hlen, q₁, htake, hloop⟩
        have hfits := exists_takeOption_iff.mp ⟨q₁, htake⟩
        have hrest := (ih (by omega) q₁).mp ⟨q', hloop⟩
        rw [takeOption_data htake] at hrest
        exact .option hi hcode hlen hfits hrest
      · intro hfit
        cases hfit with
        | done hle => omega
        | option hi hcode hlen hfits hrest =>
          obtain ⟨q₁, htake⟩ := exists_takeOption_iff.mpr hfits
          rw [← takeOption_data htake] at hrest
          obtain ⟨q', hloop⟩ := (ih (by omega) q₁).mpr hrest
          exact ⟨q', _, hcode, _, hlen, q₁, htake, hloop⟩
    · rw [if_neg hi]
      exact ⟨fun _ => .done (by omega), fun _ => ⟨q, rfl⟩⟩

/-- The additional record is read without a fault exactly if it fits. -/
theorem exists_parseOptRecord_iff (inetNtop : In6Addr → AddrText) (q : Query) (aptr : ℕ) :
    (∃ q', q.parseOptRecord inetNtop aptr = .ok q') ↔
      ∃ ednsLength, Dns.word16At q.data (aptr + 8) = some ednsLength ∧
        OptionsFit q.data (aptr + 10) ednsLength.toNat 0 := by
  simp only [parseOptRecord, Fault.bind_eq_ok_iff, read16_eq_ok_iff]
  constructor
  · rintro ⟨q', -, -, ednsLength, hlength, q₁, hloop, -⟩
    exact ⟨ednsLength, hlength, (exists_optionLoop_iff (by omega) q).mp ⟨q₁, hloop⟩⟩
  · rintro ⟨ednsLength, hlength, hfit⟩
    have hle := Dns.exists_word16At_iff.mp ⟨ednsLength, hlength⟩
    obtain ⟨type, htype⟩ := Dns.exists_word16At_iff.mpr (show aptr + 2 ≤ q.data.length by omega)
    obtain ⟨q₁, hloop⟩ := (exists_optionLoop_iff (Nat.le_add_left _ _) q).mpr hfit
    obtain ⟨q₂, haddr⟩ := useAddr_ok inetNtop q₁
    by_cases hempty : q₁.appNameReq.head? = some 0
    · exact ⟨q₂, type, htype, ednsLength, hlength, q₁, hloop, by rw [if_pos hempty, haddr]⟩
    · exact ⟨q₁, type, htype, ednsLength, hlength, q₁, hloop, by rw [if_neg hempty]; rfl⟩

/-- What follows accepted counters is read without a fault exactly if an announced record fits. -/
theorem exists_parseSections_iff
    (expandName : List Dns.Byte → ℕ → Option (List Dns.Byte × ℕ)) (inetNtop : In6Addr → AddrText)
    (q : Query) {arcount : BitVec 16} (harcount : arcount.toNat ≤ 1) :
    (∃ out, q.parseSections expandName inetNtop arcount = .ok out) ↔
      ∀ name len, arcount = 1 → expandName q.data 12 = some (name, len) →
        ∃ ednsLength, Dns.word16At q.data (len + 25) = some ednsLength ∧
          OptionsFit q.data (len + 27) ednsLength.toNat 0 := by
  have hone : arcount ≠ 0 → arcount = 1 := by
    intro hne
    have hpos : arcount.toNat ≠ 0 := fun h => hne (BitVec.eq_of_toNat_eq h)
    exact BitVec.eq_of_toNat_eq (show arcount.toNat = 1 by omega)
  unfold parseSections
  split
  · next hexpand =>
    refine ⟨fun _ name len _ h => ?_, fun _ => ⟨_, rfl⟩⟩
    rw [hexpand] at h
    cases h
  · next name len hexpand =>
    simp only [Fault.bind_eq_ok_iff, hexpand, Option.some.injEq, Prod.mk.injEq]
    have hrecord := exists_parseOptRecord_iff inetNtop q (12 + len + 4 + 1)
    rw [show 12 + len + 4 + 1 + 8 = len + 25 by omega,
      show 12 + len + 4 + 1 + 10 = len + 27 by omega] at hrecord
    by_cases hzero : arcount = 0
    · obtain ⟨q', haddr⟩ := useAddr_ok inetNtop q
      subst hzero
      refine ⟨fun _ _ _ h => absurd h (by decide), fun _ => ⟨_, q', ?_, rfl⟩⟩
      rw [if_pos rfl, haddr]
    · rw [if_neg hzero]
      constructor
      · rintro ⟨out, q', hparse, -⟩ name' len' - ⟨rfl, rfl⟩
        exact hrecord.mp ⟨q', hparse⟩
      · intro hfits
        obtain ⟨q', hparse⟩ := hrecord.mpr (hfits name len (hone hzero) ⟨rfl, rfl⟩)
        exact ⟨_, q', hparse, rfl⟩

end Query

/-- **Main theorem.**  Everything that `dns_parse_edns` reads is inside the datagram, and everything
that it writes is inside `app_name_req`, exactly if the datagram fits. -/
theorem dns_parse_edns_safe_iff
    (expandName : List Dns.Byte → ℕ → Option (List Dns.Byte × ℕ)) (inetNtop : In6Addr → AddrText)
    (query : Query) :
    (∃ out, dnsParseEdns expandName inetNtop query = .ok out) ↔
      EdnsFits expandName query.data := by
  simp only [dnsParseEdns, Fault.bind_eq_ok_iff, Query.read16_eq_ok_iff]
  constructor
  · rintro ⟨out, qdcount, hqd, ancount, han, nscount, hns, arcount, har, h⟩
    refine ⟨Dns.exists_word16At_iff.mp ⟨arcount, har⟩, fun name len hone hexpand => ?_⟩
    obtain ⟨hqd', han', hns', har'⟩ := hone
    obtain rfl := Option.some.inj (hqd.symm.trans hqd')
    obtain rfl := Option.some.inj (han.symm.trans han')
    obtain rfl := Option.some.inj (hns.symm.trans hns')
    obtain rfl := Option.some.inj (har.symm.trans har')
    rw [if_neg (by decide)] at h
    exact (Query.exists_parseSections_iff expandName inetNtop _ (by decide)).mp ⟨out, h⟩ name len
      rfl hexpand
  · intro hfits
    have hheader := hfits.header
    obtain ⟨qdcount, hqd⟩ := Dns.exists_word16At_iff.mpr (show 4 + 2 ≤ query.data.length by omega)
    obtain ⟨ancount, han⟩ := Dns.exists_word16At_iff.mpr (show 6 + 2 ≤ query.data.length by omega)
    obtain ⟨nscount, hns⟩ := Dns.exists_word16At_iff.mpr (show 8 + 2 ≤ query.data.length by omega)
    obtain ⟨arcount, har⟩ := Dns.exists_word16At_iff.mpr (show 10 + 2 ≤ query.data.length by omega)
    by_cases hrejected : qdcount ≠ 1 ∨ ancount ≠ 0 ∨ nscount ≠ 0 ∨ 1 < arcount.toNat
    · exact ⟨(none, query.clear), qdcount, hqd, ancount, han, nscount, hns, arcount, har,
        if_pos hrejected⟩
    · have hcounts := hrejected
      simp only [not_or, not_not, not_lt] at hcounts
      obtain ⟨rfl, rfl, rfl, harcount⟩ := hcounts
      obtain ⟨out, hparse⟩ :=
        (Query.exists_parseSections_iff expandName inetNtop query.clear harcount).mpr
          fun name len hone => hfits.record name len ⟨hqd, han, hns, hone ▸ har⟩
      exact ⟨out, 1, hqd, 0, han, 0, hns, arcount, har, (if_neg hrejected).trans hparse⟩

/-! ## Well-formed queries -/

/-- An option of the record. -/
structure EdnsOption where
  code : BitVec 16
  data : List Dns.Byte
  length_lt : data.length < 65536
  deriving DecidableEq

/-- The code of an option, its length and its data. -/
def EdnsOption.encode (o : EdnsOption) : List Dns.Byte :=
  Dns.word16 o.code ++ Dns.word16 (BitVec.ofNat 16 o.data.length) ++ o.data

/-- What the protocol says about the data of the options. -/
def EdnsOption.Valid (o : EdnsOption) : Prop :=
  (o.code = 65001 → o.data.length ≤ slen ∧ 0 ∉ o.data) ∧
    (o.code = 65002 ∨ o.code = 65003 → o.data.length = 4)

instance (o : EdnsOption) : Decidable o.Valid :=
  inferInstanceAs (Decidable ((_ → _ ∧ _) ∧ (_ ∨ _ → _)))

/-- A query with one question and one `OPT` record. -/
structure EdnsQuery where
  id : BitVec 16
  flags : BitVec 16
  name : List Dns.Label
  qtype : BitVec 16
  qclass : BitVec 16
  udpSize : BitVec 16
  ttl : BitVec 32
  options : List EdnsOption
  rdlength_lt : (options.flatMap EdnsOption.encode).length < 65536

/-- The header, with the counters 1, 0, 0 and 1. -/
def EdnsQuery.header (query : EdnsQuery) : List Dns.Byte :=
  Dns.word16 query.id ++ Dns.word16 query.flags ++ Dns.word16 1 ++ Dns.word16 0 ++ Dns.word16 0 ++
    Dns.word16 1

/-- The record: the root, the type `T_OPT` and the options. -/
def EdnsQuery.optRecord (query : EdnsQuery) : List Dns.Byte :=
  Dns.Record.encode ⟨[], 41, query.udpSize, query.ttl, query.options.flatMap EdnsOption.encode⟩

/-- The bytes of a query. -/
def EdnsQuery.encode (query : EdnsQuery) : List Dns.Byte :=
  query.header ++ Dns.encodeName query.name ++ Dns.word16 query.qtype ++ Dns.word16 query.qclass ++
    query.optRecord

/-- The data of the last option with a code. -/
def lastData (code : BitVec 16) (options : List EdnsOption) : Option (List Dns.Byte) :=
  (options.filter fun o => o.code = code).getLast?.map EdnsOption.data

/-- The number that bytes stand for, the highest first. -/
def bigEndian (bytes : List Dns.Byte) : ℕ := bytes.foldl (fun n b => n * 256 + b.toNat) 0

theorem lastData_cons (code : BitVec 16) (o : EdnsOption) (options : List EdnsOption) :
    lastData code (o :: options) = (lastData code options).or (lastData code [o]) := by
  have hsplit : (o :: options).filter (fun o => decide (o.code = code)) =
      [o].filter (fun o => decide (o.code = code)) ++
        options.filter fun o => decide (o.code = code) := List.filter_append [o] options
  unfold lastData
  rw [hsplit, List.getLast?_append]
  cases (options.filter fun o => decide (o.code = code)).getLast? <;> rfl

theorem lastData_singleton (code : BitVec 16) (o : EdnsOption) :
    lastData code [o] = if o.code = code then some o.data else none := by
  by_cases h : o.code = code
  · simp [lastData, h]
  · simp [lastData, h]

/-- What options make of a query. -/
structure Takes (q : Query) (options : List EdnsOption) (q' : Query) : Prop where
  addr : q'.addr = q.addr
  data : q'.data = q.data
  bandwidth : q'.bandwidthReq.toNat =
    (lastData 65002 options).elim q.bandwidthReq.toNat bigEndian
  latency : q'.latencyReq.toNat = (lastData 65003 options).elim q.latencyReq.toNat bigEndian
  appName : ∀ name, CString.strdup 0 q.appNameReq = some name →
    CString.strdup 0 q'.appNameReq = some ((lastData 65001 options).getD name)

theorem Takes.nil (q : Query) : Takes q [] q :=
  ⟨rfl, rfl, rfl, rfl, fun _ h => h⟩

theorem Takes.cons {q q₁ q' : Query} {o : EdnsOption} {options : List EdnsOption}
    (hfirst : Takes q [o] q₁) (hrest : Takes q₁ options q') : Takes q (o :: options) q' where
  addr := hrest.addr.trans hfirst.addr
  data := hrest.data.trans hfirst.data
  bandwidth := by
    rw [hrest.bandwidth, hfirst.bandwidth, lastData_cons _ o options]
    cases lastData 65002 options <;> rfl
  latency := by
    rw [hrest.latency, hfirst.latency, lastData_cons _ o options]
    cases lastData 65003 options <;> rfl
  appName := by
    intro name hname
    rw [hrest.appName _ (hfirst.appName name hname), lastData_cons _ o options]
    cases lastData 65001 options <;> rfl

theorem toNat_append_bytes (a b c d : Dns.Byte) :
    ((a ++ b) ++ (c ++ d)).toNat = bigEndian [a, b, c, d] := by
  have ha := a.isLt
  have hb := b.isLt
  have hc := c.isLt
  have hd := d.isLt
  have hpair : ∀ x y : Dns.Byte, (x ++ y).toNat = x.toNat * 256 + y.toNat := by
    intro x y
    rw [BitVec.toNat_append, ← Nat.shiftLeft_add_eq_or_of_lt y.isLt, Nat.shiftLeft_eq]
  rw [BitVec.toNat_append, ← Nat.shiftLeft_add_eq_or_of_lt (c ++ d).isLt, Nat.shiftLeft_eq, hpair,
    hpair]
  simp only [bigEndian, List.foldl_cons, List.foldl_nil]
  omega

namespace Query

variable {q : Query} {pos : ℕ}

/-- Four bytes are read as a number. -/
theorem read32_of_holds {bytes : List Dns.Byte} (h : Dns.Holds q.data pos bytes)
    (hlen : bytes.length = 4) : ∃ v, q.read32 pos = .ok v ∧ v.toNat = bigEndian bytes := by
  obtain ⟨a, b, c, d, rfl⟩ : ∃ a b c d, bytes = [a, b, c, d] := by
    match bytes, hlen with
    | [a, b, c, d], _ => exact ⟨a, b, c, d, rfl⟩
  have hhigh : Dns.word16At q.data pos = some (a ++ b) := by
    rw [Dns.word16At, h.getElem?_eq, h.tail.getElem?_eq]
    rfl
  have hlow : Dns.word16At q.data (pos + 2) = some (c ++ d) := by
    rw [Dns.word16At, h.tail.tail.getElem?_eq, h.tail.tail.tail.getElem?_eq]
    rfl
  exact ⟨_, read32_eq_ok_iff.mpr ⟨_, _, hhigh, hlow, rfl⟩, toNat_append_bytes a b c d⟩

theorem strdup_setAppName {text : List Dns.Byte} (hlen : text.length ≤ slen) (hnul : 0 ∉ text) :
    ∃ q', q.setAppName text = .ok q' ∧ q'.addr = q.addr ∧ q'.bandwidthReq = q.bandwidthReq ∧
      q'.latencyReq = q.latencyReq ∧ q'.data = q.data ∧
      CString.strdup 0 q'.appNameReq = some text := by
  obtain ⟨q', hset, haddr, hbandwidth, hlatency, hdata, hname⟩ := setAppName_ok (q := q) hlen
  refine ⟨q', hset, haddr, hbandwidth, hlatency, hdata, ?_⟩
  rw [hname, CString.strdup_append hnul]

/-- **Step lemma.**  An option that is valid is taken. -/
theorem takes_takeOption {o : EdnsOption} (hvalid : o.Valid) (h : Dns.Holds q.data pos o.data) :
    ∃ q', q.takeOption o.code pos o.data.length = .ok q' ∧ Takes q [o] q' := by
  unfold takeOption
  by_cases hname : o.code = 65001
  · obtain ⟨hlen, hnul⟩ := hvalid.1 hname
    obtain ⟨q', hset, haddr, hbandwidth, hlatency, hdata, hstr⟩ :=
      strdup_setAppName (q := q) hlen hnul
    rw [if_pos hname, readBytes_eq_ok_iff.mpr h.bytesAt_eq]
    refine ⟨q', hset, haddr, hdata, ?_, ?_, fun _ _ => ?_⟩
    · simp [lastData_singleton, hname, hbandwidth]
    · simp [lastData_singleton, hname, hlatency]
    · simpa [lastData_singleton, hname] using hstr
  · rw [if_neg hname]
    by_cases hbandwidth : o.code = 65002
    · obtain ⟨v, hread, hv⟩ := read32_of_holds h (hvalid.2 (.inl hbandwidth))
      rw [if_pos hbandwidth, hread]
      refine ⟨_, rfl, rfl, rfl, ?_, ?_, fun name hstr => ?_⟩
      · simp [lastData_singleton, hbandwidth, hv]
      · simp [lastData_singleton, hbandwidth]
      · simpa [lastData_singleton, hbandwidth] using hstr
    · rw [if_neg hbandwidth]
      by_cases hlatency : o.code = 65003
      · obtain ⟨v, hread, hv⟩ := read32_of_holds h (hvalid.2 (.inr hlatency))
        rw [if_pos hlatency, hread]
        refine ⟨_, rfl, rfl, rfl, ?_, ?_, fun name hstr => ?_⟩
        · simp [lastData_singleton, hlatency]
        · simp [lastData_singleton, hlatency, hv]
        · simpa [lastData_singleton, hlatency] using hstr
      · rw [if_neg hlatency]
        refine ⟨q, rfl, rfl, rfl, ?_, ?_, fun name hstr => ?_⟩
        · rw [lastData_singleton, if_neg hbandwidth, Option.elim_none]
        · rw [lastData_singleton, if_neg hlatency, Option.elim_none]
        · rw [lastData_singleton, if_neg hname, Option.getD_none, hstr]

/-- **Run lemma.**  The loop takes the options of a list. -/
theorem takes_optionLoop {aptr ednsLength i fuel : ℕ} {options : List EdnsOption}
    (hvalid : ∀ o ∈ options, o.Valid)
    (h : Dns.Holds q.data (aptr + i) (options.flatMap EdnsOption.encode))
    (hlen : i + (options.flatMap EdnsOption.encode).length = ednsLength)
    (hfuel : ednsLength ≤ i + fuel) :
    ∃ q', optionLoop aptr ednsLength fuel i q = .ok q' ∧ Takes q options q' := by
  induction options generalizing i fuel q with
  | nil =>
    refine ⟨q, ?_, Takes.nil q⟩
    cases fuel with
    | zero => rfl
    | succ fuel =>
      rw [optionLoop, if_neg]
      simp at hlen
      omega
  | cons o options ih =>
    rw [List.forall_mem_cons] at hvalid
    rw [List.flatMap_cons] at h hlen
    have hencode : o.encode.length = 4 + o.data.length := by
      simp [EdnsOption.encode, Dns.length_word16]
      omega
    rw [List.length_append, hencode] at hlen
    obtain ⟨fuel, rfl⟩ : ∃ m, fuel = m + 1 := ⟨fuel - 1, by omega⟩
    have ho : Dns.Holds q.data (aptr + i) (Dns.word16 o.code ++
        Dns.word16 (BitVec.ofNat 16 o.data.length) ++ o.data) := h.left
    have hlength : (BitVec.ofNat 16 o.data.length).toNat = o.data.length := by
      rw [BitVec.toNat_ofNat, Nat.mod_eq_of_lt o.length_lt]
    obtain ⟨q₁, htake, hfirst⟩ := takes_takeOption hvalid.1 ho.right
    have hrest : Dns.Holds q₁.data (aptr + (i + 4 + o.data.length))
        (options.flatMap EdnsOption.encode) := by
      rw [hfirst.data]
      have hright := h.right
      rw [hencode, Nat.add_assoc] at hright
      rwa [Nat.add_assoc i]
    obtain ⟨q', hloop, htakes⟩ := ih hvalid.2 hrest (by omega)
      (show ednsLength ≤ i + 4 + o.data.length + fuel by omega)
    refine ⟨q', ?_, hfirst.cons htakes⟩
    rw [optionLoop, if_pos (by omega)]
    refine Fault.bind_eq_ok_iff.mpr ⟨o.code, read16_eq_ok_iff.mpr ho.left.left.word16At_eq, ?_⟩
    refine Fault.bind_eq_ok_iff.mpr ⟨_, read16_eq_ok_iff.mpr ho.left.right.word16At_eq, ?_⟩
    rw [hlength]
    exact Fault.bind_eq_ok_iff.mpr ⟨q₁, htake, hloop⟩

end Query

/-- The name that `app_name_req` should hold. -/
def wantedName (inetNtop : In6Addr → AddrText) (addr : In6Addr) (options : List EdnsOption) :
    List Dns.Byte :=
  let name := (lastData 65001 options).getD []
  if name = [] then (inetNtop addr).bytes else name

theorem AddrText.zero_notMem_bytes (text : AddrText) : 0 ∉ text.bytes := by
  have hall : addrChars.all (fun c => BitVec.ofNat 8 c.toNat ≠ 0) = true := by decide
  intro h
  obtain ⟨c, hc, hzero⟩ := List.mem_map.mp h
  exact of_decide_eq_true (List.all_eq_true.mp hall c (text.valid c hc)) hzero

/-- The array holds the empty name exactly if it begins with a terminator. -/
theorem head?_eq_zero_iff {name : List Dns.Byte} {buf : List Dns.Byte}
    (h : CString.strdup 0 buf = some name) : buf.head? = some 0 ↔ name = [] := by
  unfold CString.strdup at h
  obtain ⟨hmem, h⟩ := Option.ite_none_right_eq_some.mp h
  obtain rfl := Option.some.inj h
  cases buf with
  | nil => simp at hmem
  | cons b buf => simp [List.takeWhile_cons]

/-- The record of a well-formed query, after the defaults. -/
theorem Query.takes_parseOptRecord (inetNtop : In6Addr → AddrText) {query : EdnsQuery} {q : Query}
    {pos : ℕ} (hvalid : ∀ o ∈ query.options, o.Valid) (h : Dns.Holds q.data pos query.optRecord)
    (hempty : CString.strdup 0 q.appNameReq = some []) :
    ∃ q', q.parseOptRecord inetNtop (pos + 1) = .ok q' ∧
      q'.bandwidthReq.toNat =
        (lastData 65002 query.options).elim q.bandwidthReq.toNat bigEndian ∧
      q'.latencyReq.toNat = (lastData 65003 query.options).elim q.latencyReq.toNat bigEndian ∧
      CString.strdup 0 q'.appNameReq = some (wantedName inetNtop q.addr query.options) := by
  have hlength : (BitVec.ofNat 16 (query.options.flatMap EdnsOption.encode).length).toNat =
      (query.options.flatMap EdnsOption.encode).length := by
    rw [BitVec.toNat_ofNat, Nat.mod_eq_of_lt query.rdlength_lt]
  have htype := h.left.left.left.left.left.right.word16At_eq
  have hrdlength := h.left.right.word16At_eq
  have hoptions := h.right
  obtain ⟨q₁, hloop, htakes⟩ := takes_optionLoop (i := 0) hvalid hoptions (Nat.zero_add _)
    (Nat.le_add_left _ _)
  have hname := htakes.appName [] hempty
  have hparse : ∀ q', (if q₁.appNameReq.head? = some 0 then q₁.useAddr inetNtop else pure q₁) =
      Except.ok q' → q.parseOptRecord inetNtop (pos + 1) = .ok q' := by
    intro q' hq'
    refine Fault.bind_eq_ok_iff.mpr ⟨_, read16_eq_ok_iff.mpr htype, ?_⟩
    refine Fault.bind_eq_ok_iff.mpr ⟨_, read16_eq_ok_iff.mpr hrdlength, ?_⟩
    rw [hlength]
    exact Fault.bind_eq_ok_iff.mpr ⟨q₁, hloop, hq'⟩
  have hdefault := strdup_setAppName (q := q₁) (length_bytes_le (inetNtop q.addr))
    (inetNtop q.addr).zero_notMem_bytes
  obtain ⟨q₂, hset, -, hbandwidth, hlatency, -, hstr⟩ := hdefault
  rw [← htakes.addr] at hset
  unfold wantedName
  by_cases hnone : (lastData 65001 query.options).getD [] = []
  · refine ⟨q₂, hparse q₂ ?_, ?_, ?_, by rw [if_pos hnone, hstr]⟩
    · rw [if_pos ((head?_eq_zero_iff hname).mpr hnone)]
      exact hset
    · rw [hbandwidth, htakes.bandwidth]
    · rw [hlatency, htakes.latency]
  · refine ⟨q₁, hparse q₁ ?_, htakes.bandwidth, htakes.latency, by rw [if_neg hnone, hname]⟩
    rw [if_neg fun hzero => hnone ((head?_eq_zero_iff hname).mp hzero)]
    rfl

/-- **Main theorem.**  The values that `dns_parse_edns` takes from a well-formed query. -/
theorem dns_parse_edns_options
    (expandName : List Dns.Byte → ℕ → Option (List Dns.Byte × ℕ)) (inetNtop : In6Addr → AddrText)
    (query : EdnsQuery) (hvalid : ∀ o ∈ query.options, o.Valid) (name : List Dns.Byte)
    (hexpand : expandName query.encode 12 = some (name, (Dns.encodeName query.name).length))
    (q : Query) (hdata : q.data = query.encode) :
    ∃ q', dnsParseEdns expandName inetNtop q = .ok (some name, q') ∧
      q'.bandwidthReq.toNat = (lastData 65002 query.options).elim 0 bigEndian ∧
      q'.latencyReq.toNat = (lastData 65003 query.options).elim 0 bigEndian ∧
      CString.strdup 0 q'.appNameReq = some (wantedName inetNtop q.addr query.options) := by
  have hwhole : Dns.Holds q.data 0 query.encode := ⟨[], [], by rw [hdata]; simp, rfl⟩
  have hheader := hwhole.left.left.left.left
  have hqd := hheader.left.left.left.right.word16At_eq
  have han := hheader.left.left.right.word16At_eq
  have hns := hheader.left.right.word16At_eq
  have har := hheader.right.word16At_eq
  have hrecord : Dns.Holds q.clear.data (12 + (Dns.encodeName query.name).length + 4)
      query.optRecord := by
    have hright := hwhole.right
    simp only [List.length_append, Dns.length_word16] at hright
    rwa [show 0 + (query.header.length + (Dns.encodeName query.name).length + 2 + 2) =
      12 + (Dns.encodeName query.name).length + 4 from Nat.zero_add _] at hright
  obtain ⟨q', hparse, hbandwidth, hlatency, hname⟩ :=
    Query.takes_parseOptRecord inetNtop hvalid hrecord
      (CString.strdup_append List.not_mem_nil (q.appNameReq.drop 1))
  refine ⟨q', ?_, hbandwidth, hlatency, hname⟩
  refine Fault.bind_eq_ok_iff.mpr ⟨1, Query.read16_eq_ok_iff.mpr hqd, ?_⟩
  refine Fault.bind_eq_ok_iff.mpr ⟨0, Query.read16_eq_ok_iff.mpr han, ?_⟩
  refine Fault.bind_eq_ok_iff.mpr ⟨0, Query.read16_eq_ok_iff.mpr hns, ?_⟩
  refine Fault.bind_eq_ok_iff.mpr ⟨1, Query.read16_eq_ok_iff.mpr har, ?_⟩
  rw [if_neg (by decide), Query.parseSections,
    show expandName q.clear.data 12 = some (name, (Dns.encodeName query.name).length) by
      rw [← hexpand, ← hdata]; rfl]
  exact Fault.bind_eq_ok_iff.mpr ⟨q', hparse, rfl⟩

/-- A reader of names that gives the labels behind one another, with a dot between them. -/
def expandLabels (msg : List Dns.Byte) (pos : ℕ) : Option (List Dns.Byte × ℕ) :=
  (Dns.parseName msg Dns.nameFuel pos).map fun out =>
    ([46].intercalate (out.1.map Dns.Label.bytes), out.2 - pos)

/-- A query as `malloc` may return it. -/
def freshQuery : Query := ⟨0, 0, 0, List.replicate 128 170, [], rfl⟩

/-- A query for the name `a` that has a bandwidth of 1, an unknown option, an application name and
a bandwidth of 258. -/
def fourOptions : EdnsQuery where
  id := 7
  flags := 256
  name := [.ofByte 97]
  qtype := 28
  qclass := 1
  udpSize := 1232
  ttl := 0
  options := [⟨65002, [0, 0, 0, 1], by decide⟩, ⟨10, [1, 2, 3], by decide⟩,
    ⟨65001, [120, 121], by decide⟩, ⟨65002, [0, 0, 1, 2], by decide⟩]
  rdlength_lt := by decide

/-- The proxy takes the second bandwidth. -/
theorem dns_parse_edns_four :
    ∃ q', dnsParseEdns expandLabels (fun _ => shortAddr)
        (serverProducerProcess freshQuery 0 fourOptions.encode) = .ok (some [97], q') ∧
      q'.bandwidthReq.toNat = 258 ∧ q'.latencyReq.toNat = 0 ∧
      CString.strdup 0 q'.appNameReq = some [120, 121] :=
  dns_parse_edns_options expandLabels (fun _ => shortAddr) fourOptions (by decide) [97] (by decide)
    (serverProducerProcess freshQuery 0 fourOptions.encode) (by decide)

/-- A query for the root with an application name of 128 bytes. -/
def longNameQuery : EdnsQuery where
  id := 7
  flags := 256
  name := []
  qtype := 28
  qclass := 1
  udpSize := 1232
  ttl := 0
  options := [⟨65001, List.replicate 128 120, by simp⟩]
  rdlength_lt := by simp [EdnsOption.encode, Dns.length_word16]

/-- The counters of an empty datagram are read behind it, and a long application name is written
behind `app_name_req`. -/
theorem dns_parse_edns_overruns :
    ¬ (∃ out, dnsParseEdns expandLabels (fun _ => shortAddr)
        (serverProducerProcess freshQuery 0 []) = .ok out) ∧
      dnsParseEdns expandLabels (fun _ => shortAddr)
        (serverProducerProcess freshQuery 0 longNameQuery.encode) = .error .write := by
  constructor
  · rintro ⟨out, hout⟩
    cases hout
  · decide +kernel

end Srn
