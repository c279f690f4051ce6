import Srn.Flowstate.Srh
import Srn.Lib.Dns

/-!
# Srn.Flowstate.Reply

The memory of a reply of the DNS proxy: `client_callback` of `sr-dnsproxy/client.c` copies the
answer of the server into it, and `read_flowstate` of `sr-dnsproxy/monitor.c` appends a record for
each provider of a row.  `Srn.Flowstate.Srh` has the same loop over the parts of a message; here it
is a loop over bytes, and the name that each record repeats is read from the bytes themselves.

Neither function compares what it writes with the size of the memory; `reply_inside_iff` states
exactly when all of it is inside.  What a parser makes of the bytes sent is in
`Srn.Flowstate.Sent`.
-/

namespace Srn

open Dns (word16)

/-! ## The functions -/

/-- `struct reply`: the bytes from `data` to the end of the allocation, and `data_length`. -/
@[ext]
structure ReplyBuf (padding : Fin 8) where
  mem : List Dns.Byte
  dataLength : ℕ
  length_mem : mem.length = dataCapacity padding

/-- The fields of a provider and its BSID, if they have the types that `read_flowstate` asks for. -/
structure SrhFields where
  priority : ℤ
  addr : String
  prefixLen : ℤ
  bsid : String

def srhFields (provider : Json) (bsid : Option Json) : Option SrhFields :=
  match arrayGet (some provider) 0, arrayGet (some provider) 1, arrayGet (some provider) 2,
    bsid with
  | some (.integer priority), some (.string addr), some (.integer prefixLen),
      some (.string bsid) => some ⟨priority, addr, prefixLen, bsid⟩
  | _, _, _, _ => none

namespace ReplyBuf

variable {padding : Fin 8}

/-- Write bytes at a position; `none` if one falls outside the allocation. -/
def write (r : ReplyBuf padding) (pos : ℕ) (bytes : List Dns.Byte) : Option (ReplyBuf padding) :=
  if h : pos + bytes.length ≤ dataCapacity padding then
    some { r with
      mem := r.mem.take pos ++ bytes ++ r.mem.drop (pos + bytes.length)
      length_mem := by
        have hlen := r.length_mem
        simp
        omega }
  else none

/-- The loop that copies the name behind the header to the end of the data, from byte `j` on.  It
ends behind a zero byte and counts the bytes before it; `none` if it leaves the allocation, which it
has done when as many bytes as the allocation has are copied. -/
def copyName : ℕ → ℕ → ReplyBuf padding → Option (ReplyBuf padding × ℕ)
  | 0, _, _ => none
  | fuel + 1, j, r =>
    r.mem[12 + j]?.bind fun c =>
      (r.write (r.dataLength + j) [c]).bind fun r =>
        if c = 0 then some (r, j) else copyName fuel (j + 1) r

/-- One more record is announced, and the name of the question is copied. -/
def startRecord (r : ReplyBuf padding) : Option (ReplyBuf padding) := do
  let arcount ← Dns.word16At r.mem 10
  let r ← r.write 10 (word16 (arcount + 1))
  let (r, j) ← copyName (r.mem.length + 1) 0 r
  return { r with dataLength := r.dataLength + j + 1 }

/-- What follows the name.  The inner result is `error` for `goto free_json`. -/
def fillRecord (inetPton : List Char → Option In6Addr) (fields : SrhFields)
    (r : ReplyBuf padding) : Option (Except (ReplyBuf padding) (ReplyBuf padding)) := do
  let hdr := r.dataLength
  let r ← r.write hdr srhFixed
  let r ← r.write (hdr + 10) (word16 (BitVec.ofInt 16 fields.priority))
  match inetPton fields.addr.toList with
  | none => return .error r
  | some a =>
    let r ← r.write (hdr + 12) (in6Bytes a)
    let r ← r.write (hdr + 28) [BitVec.ofInt 8 fields.prefixLen]
    match inetPton fields.bsid.toList with
    | none => return .error r
    | some b =>
      let r ← r.write (hdr + 29) (in6Bytes b)
      return .ok { r with dataLength := hdr + 10 + 35 }

/-- A round of the loop over the providers. -/
def appendRecord (inetPton : List Char → Option In6Addr) (provider : Json) (bsid : Option Json)
    (r : ReplyBuf padding) : Option (Except (ReplyBuf padding) (ReplyBuf padding)) :=
  match srhFields provider bsid with
  | none => some (.error r)
  | some fields => r.startRecord.bind (fillRecord inetPton fields)

/-- The loop over the providers, from the provider at position `i` on. -/
def appendRecords (inetPton : List Char → Option In6Addr) (bsids : Option Json) :
    ℕ → List Json → ReplyBuf padding → Option (Except (ReplyBuf padding) (ReplyBuf padding))
  | _, [], r => some (.ok r)
  | i, provider :: providers, r =>
    (r.appendRecord inetPton provider (arrayGet bsids i)).bind fun out =>
      match out with
      | .error r => some (.error r)
      | .ok r => appendRecords inetPton bsids (i + 1) providers r

/-- `client_callback`, in what `malloc` returned. -/
def clientCallback (qid : BitVec 16) (abuf : List Dns.Byte) (r : ReplyBuf padding) :
    Option (ReplyBuf padding) := do
  let r ← { r with dataLength := abuf.length }.write 0 abuf
  r.write 0 (word16 qid)

/-- `read_flowstate` from the point where it has found the reply. -/
def readFlowstate (loads : List Char → Option Json) (inetPton : List Char → Option In6Addr)
    (entry : SrdbEntry FlowField) (r : ReplyBuf padding) :
    Option (Except (ReplyBuf padding) (ReplyBuf padding)) :=
  r.appendRecords inetPton (loadsColumn loads entry .bsid) 0
    ((loadsColumn loads entry .sourceIPs).elim [] Json.elems)

/-- The bytes that `sendto` sends. -/
def sent : Except (ReplyBuf padding) (ReplyBuf padding) → Option (List Dns.Byte)
  | .ok r => some (r.mem.take r.dataLength)
  | .error _ => none

/-- The reply at the label `free_json`. -/
def atEnd : Except (ReplyBuf padding) (ReplyBuf padding) → ReplyBuf padding
  | .ok r => r
  | .error r => r

/-! ## Writes -/

section

variable {r : ReplyBuf padding} {bytes : List Dns.Byte} {pos : ℕ}

theorem write_eq_none (h : dataCapacity padding < pos + bytes.length) :
    r.write pos bytes = none := by
  rw [write, dif_neg (by omega)]

theorem write_eq_some (h : pos + bytes.length ≤ dataCapacity padding) :
    ∃ r', r.write pos bytes = some r' ∧ r'.dataLength = r.dataLength ∧
      r'.mem = r.mem.take pos ++ bytes ++ r.mem.drop (pos + bytes.length) := by
  rw [write, dif_pos h]
  exact ⟨_, rfl, rfl, rfl⟩

/-- Two writes are one. -/
theorem write_bind_write (r : ReplyBuf padding) (pos : ℕ) (bytes bytes' : List Dns.Byte) :
    ((r.write pos bytes).bind fun r => r.write (pos + bytes.length) bytes') =
      r.write pos (bytes ++ bytes') := by
  have hcap := r.length_mem
  by_cases hfirst : pos + bytes.length ≤ dataCapacity padding
  · obtain ⟨r₁, hwrite, hlength, hmem⟩ := write_eq_some (r := r) hfirst
    rw [hwrite, Option.bind_some]
    by_cases hboth : pos + (bytes ++ bytes').length ≤ dataCapacity padding
    · have hsecond := hboth
      rw [List.length_append, ← Nat.add_assoc] at hsecond
      obtain ⟨r₂, hwrite₂, hlength₂, hmem₂⟩ := write_eq_some (r := r₁) hsecond
      obtain ⟨r₃, hwrite₃, hlength₃, hmem₃⟩ := write_eq_some (r := r) hboth
      rw [hwrite₂, hwrite₃]
      refine congrArg some (ReplyBuf.ext ?_ ?_)
      · have hlen : (r.mem.take pos ++ bytes).length = pos + bytes.length := by
          rw [List.length_append, List.length_take]
          omega
        rw [hmem₂, hmem₃, hmem, List.take_left' hlen, ← List.drop_drop, List.drop_left' hlen,
          List.drop_drop, List.length_append, Nat.add_assoc, List.append_assoc (r.mem.take pos)]
      · rw [hlength₂, hlength₃, hlength]
    · have hover : dataCapacity padding < pos + bytes.length + bytes'.length := by
        rw [List.length_append] at hboth
        omega
      rw [write_eq_none hover, write_eq_none (by omega)]
  · rw [write_eq_none (by omega), write_eq_none (by rw [List.length_append]; omega)]
    rfl

theorem write_bind_write_bind {α : Type} {pos' : ℕ} {bytes' : List Dns.Byte}
    {f : ReplyBuf padding → Option α} (hpos : pos' = pos + bytes.length) :
    ((r.write pos bytes).bind fun r => (r.write pos' bytes').bind f) =
      (r.write pos (bytes ++ bytes')).bind f := by
  rw [hpos, ← write_bind_write, Option.bind_assoc]

/-- Bytes behind the first ones. -/
theorem write_append {before : List Dns.Byte} (hbefore : before <+: r.mem) (bytes : List Dns.Byte)
    (hfits : before.length + bytes.length ≤ dataCapacity padding) :
    ∃ r', r.write before.length bytes = some r' ∧ before ++ bytes <+: r'.mem ∧
      r'.dataLength = r.dataLength := by
  obtain ⟨r', hwrite, hlength, hmem⟩ := write_eq_some (r := r) hfits
  refine ⟨r', hwrite, ?_, hlength⟩
  rw [hmem, ← List.prefix_iff_eq_take.mp hbefore]
  exact List.prefix_append _ _

/-- Bytes in the place of others. -/
theorem write_replace {before old after : List Dns.Byte}
    (hmem : before ++ (old ++ after) <+: r.mem) (hlen : bytes.length = old.length) :
    ∃ r', r.write before.length bytes = some r' ∧ before ++ (bytes ++ after) <+: r'.mem ∧
      r'.dataLength = r.dataLength := by
  obtain ⟨junk, hjunk⟩ := hmem
  have hcap := r.length_mem
  rw [← hjunk] at hcap
  simp only [List.length_append] at hcap
  obtain ⟨r', hwrite, hlength, hmem'⟩ :=
    write_eq_some (r := r) (show before.length + bytes.length ≤ dataCapacity padding by omega)
  refine ⟨r', hwrite, ⟨junk, ?_⟩, hlength⟩
  rw [hmem', hlen, ← hjunk, ← List.drop_drop]
  simp

end

/-! ## The name -/

/-- **Run lemma.**  The loop copies a name that ends in a zero byte.  The bytes `copied` are there
already. -/
theorem copyName_eq (r : ReplyBuf padding) {head todo rest : List Dns.Byte}
    (copied : List Dns.Byte) (fuel : ℕ) (hhead : head.length = 12) (htodo : 0 ∉ todo)
    (hmem : head ++ (copied ++ (todo ++ 0 :: rest)) ++ copied <+: r.mem)
    (hlength : r.dataLength = (head ++ (copied ++ (todo ++ 0 :: rest))).length)
    (hfuel : todo.length < fuel) :
    if r.dataLength + (copied ++ todo).length + 1 ≤ dataCapacity padding then
      ∃ r', copyName fuel copied.length r = some (r', (copied ++ todo).length) ∧
        head ++ (copied ++ (todo ++ 0 :: rest)) ++ (copied ++ todo ++ [0]) <+: r'.mem ∧
        r'.dataLength = r.dataLength
    else copyName fuel copied.length r = none := by
  induction todo generalizing copied fuel r with
  | nil =>
    obtain ⟨fuel, rfl⟩ := Nat.exists_eq_succ_of_ne_zero (Nat.ne_zero_of_lt hfuel)
    have hread : r.mem[12 + copied.length]? = some 0 := by
      obtain ⟨junk, hjunk⟩ := hmem
      rw [← hjunk, ← hhead]
      simp
    have hpos : r.dataLength + copied.length =
        (head ++ (copied ++ ([] ++ 0 :: rest)) ++ copied).length := by
      rw [List.length_append, hlength]
    rw [copyName, hread, Option.bind_some, List.append_nil]
    split
    · next hfits =>
      obtain ⟨r', hwrite, hmem', hlength'⟩ := write_append hmem [0]
        (by rw [← hpos]; exact hfits)
      refine ⟨r', ?_, ?_, hlength'⟩
      · rw [hpos, hwrite]
        rfl
      · simpa using hmem'
    · next hfits =>
      rw [write_eq_none (by simp; omega)]
      rfl
  | cons c todo ih =>
    obtain ⟨fuel, rfl⟩ := Nat.exists_eq_succ_of_ne_zero (Nat.ne_zero_of_lt hfuel)
    rw [List.mem_cons, not_or] at htodo
    obtain ⟨hc, htodo⟩ := htodo
    have hread : r.mem[12 + copied.length]? = some c := by
      obtain ⟨junk, hjunk⟩ := hmem
      rw [← hjunk, ← hhead]
      simp
    have hpos : r.dataLength + copied.length =
        (head ++ (copied ++ (c :: todo ++ 0 :: rest)) ++ copied).length := by
      rw [List.length_append, hlength]
    rw [copyName, hread, Option.bind_some]
    by_cases hroom : r.dataLength + copied.length + 1 ≤ dataCapacity padding
    · obtain ⟨r₁, hwrite, hmem₁, hlength₁⟩ := write_append hmem [c]
        (by rw [← hpos]; exact hroom)
      have hnext := ih r₁ (copied ++ [c]) fuel htodo (by simpa using hmem₁)
        (by rw [hlength₁, hlength]; simp) (Nat.lt_of_succ_lt_succ hfuel)
      rw [hpos, hwrite, Option.bind_some, if_neg (Ne.symm hc)]
      simpa [hlength₁] using hnext
    · rw [write_eq_none (by simpa using hroom), Option.bind_none, if_neg]
      simp
      omega

/-- **Run lemma.**  Without a zero byte behind the header, the loop leaves the allocation: it reads
what it has written. -/
theorem copyName_eq_none {r : ReplyBuf padding} {fuel j : ℕ} (hlength : 12 < r.dataLength)
    (hnonzero : ∀ i, 12 ≤ i → i < r.dataLength + j → r.mem[i]? ≠ some 0) :
    copyName fuel j r = none := by
  induction fuel generalizing j r with
  | zero => rfl
  | succ fuel ih =>
    rw [copyName]
    cases hread : r.mem[12 + j]? with
    | none => rfl
    | some c =>
      have hc : c ≠ 0 := by
        rintro rfl
        exact hnonzero (12 + j) (by omega) (by omega) hread
      rw [Option.bind_some]
      by_cases hfits : r.dataLength + j + 1 ≤ dataCapacity padding
      · obtain ⟨r', hwrite, hlength', hmem⟩ := write_eq_some (r := r)
          (show r.dataLength + j + [c].length ≤ dataCapacity padding from hfits)
        have hcap := r.length_mem
        rw [hwrite, Option.bind_some, if_neg hc]
        refine ih (hlength' ▸ hlength) fun i hi hlt => ?_
        rw [hlength'] at hlt
        rw [hmem, List.append_assoc, List.getElem?_append, List.length_take]
        split
        · rw [List.getElem?_take_of_lt (by omega)]
          exact hnonzero i hi (by omega)
        · rw [show i - min (r.dataLength + j) r.mem.length = 0 by omega]
          simpa using hc
      · rw [write_eq_none (by simpa using hfits), Option.bind_none]

/-! ## Records -/

/-- The memory begins with the data of a message. -/
structure Stores (r : ReplyBuf padding) (reply : DnsReply) : Prop where
  mem : reply.data <+: r.mem
  dataLength : r.dataLength = reply.data.length

/-- One more record is announced. -/
theorem announce_eq {r : ReplyBuf padding} {reply : DnsReply} (h : r.Stores reply) :
    Dns.word16At r.mem 10 = some reply.arcount ∧
      ∃ r', r.write 10 (word16 (reply.arcount + 1)) = some r' ∧ r'.Stores reply.addRecord := by
  have hdata : reply.data =
      reply.head ++ (word16 reply.arcount ++ (reply.name ++ 0 :: reply.rest)) := by
    simp [DnsReply.data]
  have hmem := hdata ▸ h.mem
  constructor
  · obtain ⟨junk, hjunk⟩ := hmem
    refine Dns.Holds.word16At_eq
      ⟨reply.head, reply.name ++ 0 :: reply.rest ++ junk, ?_, reply.head_length⟩
    rw [← hjunk, List.append_assoc, List.append_assoc]
  · obtain ⟨r', hwrite, hmem', hlength'⟩ :=
      write_replace hmem (show (word16 (reply.arcount + 1)).length = _ from rfl)
    rw [reply.head_length] at hwrite
    refine ⟨r', hwrite, by simpa [DnsReply.data, DnsReply.addRecord] using hmem', ?_⟩
    rw [hlength', h.dataLength, DnsReply.length_data, DnsReply.length_data]
    rfl

/-- The name of a record is copied, unless it does not fit. -/
theorem startRecord_eq {r : ReplyBuf padding} {reply : DnsReply} (h : r.Stores reply) :
    if reply.data.length + (reply.name.length + 1) ≤ dataCapacity padding then
      ∃ r', r.startRecord = some r' ∧ r'.Stores (reply.addRecord.extend (reply.name ++ [0]))
    else r.startRecord = none := by
  obtain ⟨hread, r₁, hwrite, hstores⟩ := announce_eq h
  have hdata : reply.addRecord.data = reply.head ++ word16 (reply.arcount + 1) ++
      ([] ++ (reply.name ++ 0 :: reply.rest)) := by
    simp [DnsReply.data, DnsReply.addRecord]
  have hcap := hstores.mem.length_le
  rw [DnsReply.length_data] at hcap
  have hname : reply.name.length < r₁.mem.length + 1 := by
    have heq : reply.addRecord.name = reply.name := rfl
    rw [heq] at hcap
    omega
  have hcopy := copyName_eq r₁ [] (r₁.mem.length + 1)
    (show (reply.head ++ word16 (reply.arcount + 1)).length = 12 by
      simp [reply.head_length, word16])
    reply.name_nonzero (by rw [← hdata, List.append_nil]; exact hstores.mem)
    (by rw [← hdata]; exact hstores.dataLength) hname
  have hstart : r.startRecord = (copyName (r₁.mem.length + 1) 0 r₁).bind fun out =>
      some { out.1 with dataLength := out.1.dataLength + out.2 + 1 } := by
    simp only [startRecord, hread, hwrite, Option.bind_eq_bind, Option.bind_some]
    rfl
  have hlength : reply.addRecord.data.length = reply.data.length := by
    rw [DnsReply.length_data, DnsReply.length_data]
    rfl
  rw [hstores.dataLength, hlength, List.nil_append, List.length_nil] at hcopy
  rw [hstart]
  by_cases hfits : reply.data.length + (reply.name.length + 1) ≤ dataCapacity padding
  · rw [if_pos (by omega)] at hcopy
    obtain ⟨r', hr', hmem', hlength'⟩ := hcopy
    rw [if_pos hfits, hr']
    refine ⟨_, rfl, ?_, ?_⟩
    · rw [← hdata] at hmem'
      simpa [DnsReply.data, DnsReply.extend] using hmem'
    · show r'.dataLength + reply.name.length + 1 = _
      rw [hlength', DnsReply.length_data, DnsReply.length_data]
      simp [DnsReply.extend, DnsReply.addRecord]
      omega
  · rw [if_neg (by omega)] at hcopy
    rw [if_neg hfits, hcopy]
    rfl

end ReplyBuf

/-- What a round of the loop makes of a provider and its BSID. -/
inductive RoundKind where
  /-- A field has another type. -/
  | malformed
  /-- The prefix is not an address. -/
  | badPrefix
  /-- The BSID is not an address. -/
  | badBsid
  | good (record : SrhRecord)
  deriving DecidableEq, Repr

namespace RoundKind

/-- The kind of a round whose fields have their types. -/
def ofFields (inetPton : List Char → Option In6Addr) (fields : SrhFields) : RoundKind :=
  match inetPton fields.addr.toList, inetPton fields.bsid.toList with
  | none, _ => .badPrefix
  | some _, none => .badBsid
  | some a, some b =>
    .good ⟨BitVec.ofInt 16 fields.priority, a, BitVec.ofInt 8 fields.prefixLen, b⟩

def ofRound (inetPton : List Char → Option In6Addr) (provider : Json) (bsid : Option Json) :
    RoundKind :=
  match srhFields provider bsid with
  | none => .malformed
  | some fields => ofFields inetPton fields

/-- The kinds of the rounds, from the provider at position `i` on. -/
def ofRounds (inetPton : List Char → Option In6Addr) (bsids : Option Json) :
    ℕ → List Json → List RoundKind
  | _, [] => []
  | i, provider :: providers =>
    ofRound inetPton provider (arrayGet bsids i) :: ofRounds inetPton bsids (i + 1) providers

/-- How far `data_length` moves in a round, for a name of `j` bytes and its terminator. -/
def moves (j : ℕ) : RoundKind → ℕ
  | .malformed => 0
  | .badPrefix | .badBsid => j + 1
  | .good _ => j + 46

/-- How far a round writes. -/
def writes (j : ℕ) : RoundKind → ℕ
  | .malformed => 0
  | .badPrefix => j + 13
  | .badBsid => j + 30
  | .good _ => j + 46

/-- How far `data_length` moves in the rounds up to the first one that is not good. -/
def growth (j : ℕ) : List RoundKind → ℕ
  | [] => 0
  | .good _ :: kinds => j + 46 + growth j kinds
  | kind :: _ => kind.moves j

/-- How far these rounds write. -/
def reach (j : ℕ) : List RoundKind → ℕ
  | [] => 0
  | .good _ :: kinds => j + 46 + reach j kinds
  | kind :: _ => kind.writes j

/-- The rounds end with one that is not good. -/
theorem growth_stops {kind : RoundKind} (h : ∀ record, kind ≠ .good record) (j : ℕ)
    (kinds : List RoundKind) :
    growth j (kind :: kinds) = kind.moves j ∧ reach j (kind :: kinds) = kind.writes j := by
  cases kind with
  | good record => exact absurd rfl (h record)
  | _ => exact ⟨rfl, rfl⟩

theorem writes_le_reach (kind : RoundKind) (j : ℕ) (kinds : List RoundKind) :
    kind.writes j ≤ reach j (kind :: kinds) := by
  cases kind <;> simp [reach, writes]

end RoundKind

namespace ReplyBuf

variable {padding : Fin 8} {inetPton : List Char → Option In6Addr}

section

variable {fields : SrhFields}

theorem fillRecord_badPrefix (ha : inetPton fields.addr.toList = none) (r : ReplyBuf padding) :
    r.fillRecord inetPton fields =
      (r.write r.dataLength (srhFixed ++ word16 (BitVec.ofInt 16 fields.priority))).bind
        fun r => some (.error r) := by
  simp only [fillRecord, ha, Option.bind_eq_bind, Option.pure_def]
  exact write_bind_write_bind rfl

theorem fillRecord_badBsid {a : In6Addr} (ha : inetPton fields.addr.toList = some a)
    (hb : inetPton fields.bsid.toList = none) (r : ReplyBuf padding) :
    r.fillRecord inetPton fields =
      (r.write r.dataLength (srhFixed ++ word16 (BitVec.ofInt 16 fields.priority) ++ in6Bytes a ++
        [BitVec.ofInt 8 fields.prefixLen])).bind fun r => some (.error r) := by
  simp only [fillRecord, ha, hb, Option.bind_eq_bind, Option.pure_def]
  -- the positions are the lengths of the pieces before them
  rw [write_bind_write_bind, write_bind_write_bind, write_bind_write_bind] <;> rfl

theorem fillRecord_good {a b : In6Addr} (ha : inetPton fields.addr.toList = some a)
    (hb : inetPton fields.bsid.toList = some b) (r : ReplyBuf padding) :
    r.fillRecord inetPton fields =
      (r.write r.dataLength (srhFixed ++ word16 (BitVec.ofInt 16 fields.priority) ++ in6Bytes a ++
        [BitVec.ofInt 8 fields.prefixLen] ++ in6Bytes b)).bind
          fun r => some (.ok { r with dataLength := r.dataLength + 45 }) := by
  have hwrite : ∀ bytes : List Dns.Byte, ((r.write r.dataLength bytes).bind
      fun r' => some (Except.ok (ε := ReplyBuf padding)
        { r' with dataLength := r.dataLength + 45 })) =
          (r.write r.dataLength bytes).bind
            fun r => some (.ok { r with dataLength := r.dataLength + 45 }) := by
    intro bytes
    by_cases hfits : r.dataLength + bytes.length ≤ dataCapacity padding
    · obtain ⟨r', hr', hlength, -⟩ := write_eq_some (r := r) hfits
      rw [hr', Option.bind_some, Option.bind_some, hlength]
    · rw [write_eq_none (by omega)]
      rfl
  simp only [fillRecord, ha, hb, Option.bind_eq_bind, Option.pure_def]
  rw [write_bind_write_bind, write_bind_write_bind, write_bind_write_bind,
    write_bind_write_bind] <;> first | exact hwrite _ | rfl

end

/-- What a round that stays inside the allocation leaves behind. -/
inductive Outcome (reply : DnsReply) :
    RoundKind → Except (ReplyBuf padding) (ReplyBuf padding) → Prop
  | good {record : SrhRecord} {r : ReplyBuf padding} :
      r.Stores (reply.addRecord.extend (record.encode reply.name)) →
      Outcome reply (.good record) (.ok r)
  | stops {kind : RoundKind} {r : ReplyBuf padding} : (∀ record, kind ≠ .good record) →
      r.dataLength = reply.data.length + kind.moves reply.name.length →
      Outcome reply kind (.error r)

theorem length_extend_data (reply : DnsReply) (bytes : List Dns.Byte) :
    (reply.addRecord.extend bytes).data.length = reply.data.length + bytes.length := by
  rw [DnsReply.length_data, DnsReply.length_data]
  simp [DnsReply.extend, DnsReply.addRecord]
  omega

/-- A write behind the name of a record. -/
theorem write_tail_cases {r : ReplyBuf padding} {reply : DnsReply} (h : r.Stores reply)
    (bytes : List Dns.Byte) :
    (dataCapacity padding < reply.data.length + bytes.length ∧
        r.write r.dataLength bytes = none) ∨
      reply.data.length + bytes.length ≤ dataCapacity padding ∧
        ∃ r', r.write r.dataLength bytes = some r' ∧ reply.data ++ bytes <+: r'.mem ∧
          r'.dataLength = reply.data.length := by
  rw [h.dataLength]
  by_cases hfits : reply.data.length + bytes.length ≤ dataCapacity padding
  · obtain ⟨r', hwrite, hmem, hlength⟩ := write_append h.mem bytes hfits
    exact .inr ⟨hfits, r', hwrite, hmem, hlength.trans h.dataLength⟩
  · exact .inl ⟨by omega, write_eq_none (by omega)⟩

/-- The name of a record and the bytes behind it. -/
theorem startRecord_write_cases {r : ReplyBuf padding} {reply : DnsReply} (h : r.Stores reply)
    {α : Type} (bytes : List Dns.Byte) (f : ReplyBuf padding → Option α) :
    (dataCapacity padding < reply.data.length + (reply.name.length + 1 + bytes.length) ∧
        (r.startRecord.bind fun r => (r.write r.dataLength bytes).bind f) = none) ∨
      reply.data.length + (reply.name.length + 1 + bytes.length) ≤ dataCapacity padding ∧
        ∃ r', (r.startRecord.bind fun r => (r.write r.dataLength bytes).bind f) = f r' ∧
          (reply.addRecord.extend (reply.name ++ [0] ++ bytes)).data <+: r'.mem ∧
          r'.dataLength = reply.data.length + (reply.name.length + 1) := by
  have hstart := startRecord_eq h
  by_cases hroom : reply.data.length + (reply.name.length + 1) ≤ dataCapacity padding
  · rw [if_pos hroom] at hstart
    obtain ⟨r₁, hr₁, hstores⟩ := hstart
    have hlength := length_extend_data reply (reply.name ++ [0])
    rw [List.length_append, List.length_singleton] at hlength
    rw [hr₁, Option.bind_some]
    obtain ⟨hover, hwrite⟩ | ⟨hfits, r', hwrite, hmem, hlength'⟩ := write_tail_cases hstores bytes
    · rw [hwrite]
      exact .inl ⟨by omega, rfl⟩
    · rw [hwrite]
      refine .inr ⟨by omega, r', rfl, ?_, by omega⟩
      simpa [DnsReply.data, DnsReply.extend] using hmem
  · rw [if_neg hroom] at hstart
    rw [hstart]
    exact .inl ⟨by omega, rfl⟩

/-- A round leaves the allocation, or it ends as its kind says. -/
def RunsAs (reply : DnsReply) (kind : RoundKind)
    (out : Option (Except (ReplyBuf padding) (ReplyBuf padding))) : Prop :=
  (dataCapacity padding < reply.data.length + kind.writes reply.name.length ∧ out = none) ∨
    reply.data.length + kind.writes reply.name.length ≤ dataCapacity padding ∧
      ∃ end', out = some end' ∧ Outcome reply kind end'

theorem runsAs_stops {r : ReplyBuf padding} {reply : DnsReply} (h : r.Stores reply)
    {fields : SrhFields} {kind : RoundKind} {bytes : List Dns.Byte}
    (hfill : ∀ r : ReplyBuf padding, r.fillRecord inetPton fields =
      (r.write r.dataLength bytes).bind fun r => some (.error r))
    (hkind : ∀ record, kind ≠ .good record)
    (hmoves : kind.moves reply.name.length = reply.name.length + 1)
    (hwrites : kind.writes reply.name.length = reply.name.length + 1 + bytes.length) :
    RunsAs reply kind (r.startRecord.bind (fillRecord inetPton fields)) := by
  have hcases := startRecord_write_cases h bytes fun r =>
    some (Except.error (α := ReplyBuf padding) r)
  rw [RunsAs, funext hfill, hwrites]
  obtain ⟨hover, hnone⟩ | ⟨hfits, r', hsome, -, hlength⟩ := hcases
  · exact .inl ⟨hover, hnone⟩
  · exact .inr ⟨hfits, _, hsome, .stops hkind (by rw [hlength, hmoves])⟩

/-- **Step lemma.** -/
theorem runsAs_appendRecord {r : ReplyBuf padding} {reply : DnsReply} (h : r.Stores reply)
    (inetPton : List Char → Option In6Addr) (provider : Json) (bsid : Option Json) :
    RunsAs reply (RoundKind.ofRound inetPton provider bsid)
      (r.appendRecord inetPton provider bsid) := by
  unfold appendRecord RoundKind.ofRound
  cases srhFields provider bsid with
  | none =>
    have hcap := h.mem.length_le
    rw [r.length_mem] at hcap
    exact .inr ⟨hcap, _, rfl, .stops (by simp) h.dataLength⟩
  | some fields =>
    simp only
    cases ha : inetPton fields.addr.toList with
    | none =>
      rw [show RoundKind.ofFields inetPton fields = .badPrefix by rw [RoundKind.ofFields, ha]]
      exact runsAs_stops h (fillRecord_badPrefix ha) (by simp) rfl rfl
    | some a =>
      cases hb : inetPton fields.bsid.toList with
      | none =>
        rw [show RoundKind.ofFields inetPton fields = .badBsid by
          rw [RoundKind.ofFields, ha, hb]]
        exact runsAs_stops h (fillRecord_badBsid ha hb) (by simp) rfl rfl
      | some b =>
        rw [show RoundKind.ofFields inetPton fields =
            .good ⟨BitVec.ofInt 16 fields.priority, a, BitVec.ofInt 8 fields.prefixLen, b⟩ by
          rw [RoundKind.ofFields, ha, hb], funext (fillRecord_good ha hb)]
        obtain ⟨hover, hnone⟩ | ⟨hfits, r', hsome, hmem, hlength⟩ :=
          startRecord_write_cases h
            (srhFixed ++ word16 (BitVec.ofInt 16 fields.priority) ++ in6Bytes a ++
              [BitVec.ofInt 8 fields.prefixLen] ++ in6Bytes b)
            fun r => some (Except.ok { r with dataLength := r.dataLength + 45 })
        · exact .inl ⟨hover, hnone⟩
        · refine .inr ⟨hfits, _, hsome, .good ⟨?_, ?_⟩⟩
          · simpa [SrhRecord.encode] using hmem
          · rw [length_extend_data, SrhRecord.length_encode]
            exact (congrArg (· + 45) hlength).trans (Nat.add_assoc _ _ _)

/-- What the loop leaves behind if it stays inside the allocation. -/
structure Ends (reply : DnsReply) (kinds : List RoundKind)
    (out : Except (ReplyBuf padding) (ReplyBuf padding)) : Prop where
  dataLength :
    (atEnd out).dataLength = reply.data.length + RoundKind.growth reply.name.length kinds
  good : ∀ records, kinds = records.map RoundKind.good →
    ∃ r, out = .ok r ∧ r.Stores (reply.withRecords records)
  bad : (∃ kind ∈ kinds, ∀ record, kind ≠ .good record) → sent out = none

/-- The rest of the loop behind a good round. -/
theorem Ends.cons {reply : DnsReply} {record : SrhRecord} {kinds : List RoundKind}
    {out : Except (ReplyBuf padding) (ReplyBuf padding)}
    (h : Ends (reply.addRecord.extend (record.encode reply.name)) kinds out) :
    Ends reply (.good record :: kinds) out where
  dataLength := by
    have hlength := length_extend_data reply (record.encode reply.name)
    have hname : (reply.addRecord.extend (record.encode reply.name)).name = reply.name := rfl
    rw [h.dataLength, hlength, hname, SrhRecord.length_encode, RoundKind.growth]
    omega
  good := by
    intro records hrecords
    cases records with
    | nil => cases hrecords
    | cons record' records =>
      rw [List.map_cons, List.cons.injEq, RoundKind.good.injEq] at hrecords
      obtain ⟨rfl, hrecords⟩ := hrecords
      obtain ⟨r, rfl, hstores⟩ := h.good records hrecords
      rw [DnsReply.withRecords_cons] at hstores
      exact ⟨r, rfl, hstores⟩
  bad := by
    rintro ⟨bad, hmem, hbad⟩
    obtain rfl | hmem := List.mem_cons.mp hmem
    · exact absurd rfl (hbad record)
    · exact h.bad ⟨bad, hmem, hbad⟩

/-- A round that is not good ends the loop. -/
theorem ends_stops {reply : DnsReply} {kind : RoundKind} {r : ReplyBuf padding}
    (hnot : ∀ record, kind ≠ .good record)
    (hlength : r.dataLength = reply.data.length + kind.moves reply.name.length)
    (kinds : List RoundKind) : Ends reply (kind :: kinds) (.error r) where
  dataLength := by
    rw [(RoundKind.growth_stops hnot _ kinds).1]
    exact hlength
  good := by
    intro records hrecords
    cases records with
    | nil => cases hrecords
    | cons record records =>
      rw [List.map_cons, List.cons.injEq] at hrecords
      exact absurd hrecords.1 (hnot record)
  bad _ := rfl

/-- **Run lemma.**  The loop leaves the allocation, or it ends as the kinds of its rounds say. -/
theorem appendRecords_cases {r : ReplyBuf padding} {reply : DnsReply} (h : r.Stores reply)
    (inetPton : List Char → Option In6Addr) (bsids : Option Json) (i : ℕ) (providers : List Json) :
    (dataCapacity padding < reply.data.length + RoundKind.reach reply.name.length
          (RoundKind.ofRounds inetPton bsids i providers) ∧
        r.appendRecords inetPton bsids i providers = none) ∨
      reply.data.length + RoundKind.reach reply.name.length
          (RoundKind.ofRounds inetPton bsids i providers) ≤ dataCapacity padding ∧
        ∃ out, r.appendRecords inetPton bsids i providers = some out ∧
          Ends reply (RoundKind.ofRounds inetPton bsids i providers) out := by
  induction providers generalizing i r reply with
  | nil =>
    have hcap := h.mem.length_le
    rw [r.length_mem] at hcap
    refine .inr ⟨hcap, .ok r, rfl, h.dataLength, fun records hrecords => ⟨r, rfl, ?_⟩, ?_⟩
    · obtain rfl : records = [] := by simpa [RoundKind.ofRounds] using hrecords
      simpa [DnsReply.withRecords] using h
    · simp [RoundKind.ofRounds]
  | cons provider providers ih =>
    have hround := runsAs_appendRecord h inetPton provider (arrayGet bsids i)
    rw [RoundKind.ofRounds, appendRecords]
    obtain ⟨hover, hnone⟩ | ⟨hfits, out, hsome, houtcome⟩ := hround
    · rw [hnone]
      have hle := RoundKind.writes_le_reach
        (RoundKind.ofRound inetPton provider (arrayGet bsids i)) reply.name.length
        (RoundKind.ofRounds inetPton bsids (i + 1) providers)
      exact .inl ⟨by omega, rfl⟩
    · rw [hsome, Option.bind_some]
      generalize hkind : RoundKind.ofRound inetPton provider (arrayGet bsids i) = kind
      rw [hkind] at houtcome hfits
      cases houtcome with
      | @good record r' hstores =>
        have hlength := length_extend_data reply (record.encode reply.name)
        rw [SrhRecord.length_encode] at hlength
        have hrest := ih hstores (i + 1)
        have hname : (reply.addRecord.extend (record.encode reply.name)).name =
            reply.name := rfl
        rw [hlength, hname] at hrest
        rw [RoundKind.reach]
        obtain ⟨hover, hnone⟩ | ⟨hfits', out', hsome', hends⟩ := hrest
        · exact .inl ⟨by omega, hnone⟩
        · exact .inr ⟨by omega, out', hsome', hends.cons⟩
      | @stops kind r' hnot hlength =>
        rw [(RoundKind.growth_stops hnot _ _).2]
        exact .inr ⟨hfits, .error r', rfl, ends_stops hnot hlength _⟩

end ReplyBuf

/-! ## The loop over messages -/

section

variable {padding : Fin 8} {inetPton : List Char → Option In6Addr}

/-- What a round makes of a message, if there is room for what it writes. -/
def RoundKind.result (reply : DnsReply) : RoundKind → Except ReplyEnd DnsReply
  | .good record => .ok (reply.addRecord.extend (record.encode reply.name))
  | _ => .error .dropped

theorem DnsReply.put_bind_put_bind (reply : DnsReply) {α : Type} (bytes bytes' : List Dns.Byte)
    (f : DnsReply → Except ReplyEnd α) :
    (reply.put padding bytes >>= fun reply => reply.put padding bytes' >>= f) =
      reply.put padding (bytes ++ bytes') >>= f := by
  rw [← DnsReply.put_bind_put]
  cases reply.put padding bytes <;> rfl

theorem DnsReply.put_addRecord (reply : DnsReply) (bytes : List Dns.Byte) :
    reply.addRecord.put padding bytes =
      if reply.data.length + bytes.length ≤ dataCapacity padding then
        .ok (reply.addRecord.extend bytes)
      else .error .overrun := by
  rw [DnsReply.put, DnsReply.length_data, DnsReply.length_data]
  rfl

theorem DnsReply.put_addRecord_bind (reply : DnsReply) {α : Type} (bytes : List Dns.Byte)
    (f : DnsReply → Except ReplyEnd α) :
    (reply.addRecord.put padding bytes >>= f) =
      if reply.data.length + bytes.length ≤ dataCapacity padding then
        f (reply.addRecord.extend bytes)
      else .error .overrun := by
  rw [DnsReply.put_addRecord]
  split <;> rfl

/-- A round over a message whose fields have their types. -/
def srhRoundOf (inetPton : List Char → Option In6Addr) (padding : Fin 8) (fields : SrhFields)
    (reply : DnsReply) : Except ReplyEnd DnsReply := do
  let reply ← reply.addRecord.put padding (reply.name ++ [0])
  let reply ← reply.put padding srhFixed
  let reply ← reply.put padding (word16 (BitVec.ofInt 16 fields.priority))
  let a ← ptonOrDrop inetPton fields.addr
  let reply ← reply.put padding (in6Bytes a)
  let reply ← reply.put padding [BitVec.ofInt 8 fields.prefixLen]
  let b ← ptonOrDrop inetPton fields.bsid
  reply.put padding (in6Bytes b)

theorem srhRound_fields (provider : Json) (bsid : Option Json) (reply : DnsReply) :
    srhRound inetPton padding provider bsid reply =
      match srhFields provider bsid with
      | some fields => srhRoundOf inetPton padding fields reply
      | none => .error .dropped := by
  by_cases h : ∃ priority addr prefixLen b, arrayGet (some provider) 0 = some (.integer priority) ∧
      arrayGet (some provider) 1 = some (.string addr) ∧
      arrayGet (some provider) 2 = some (.integer prefixLen) ∧ bsid = some (.string b)
  · obtain ⟨priority, addr, prefixLen, b, h0, h1, h2, rfl⟩ := h
    unfold srhRound srhFields
    rw [h0, h1, h2]
    rfl
  · have hround : srhRound inetPton padding provider bsid reply = .error .dropped := by
      unfold srhRound
      split
      · next h0 h1 h2 => exact absurd ⟨_, _, _, _, h0, h1, h2, rfl⟩ h
      · rfl
    have hfields : srhFields provider bsid = none := by
      unfold srhFields
      split
      · next h0 h1 h2 => exact absurd ⟨_, _, _, _, h0, h1, h2, rfl⟩ h
      · rfl
    rw [hround, hfields]

/-- A round over a message, by its kind. -/
theorem srhRound_eq_result {reply : DnsReply} (hcap : reply.data.length ≤ dataCapacity padding)
    (provider : Json) (bsid : Option Json) :
    srhRound inetPton padding provider bsid reply =
      if reply.data.length + (RoundKind.ofRound inetPton provider bsid).writes reply.name.length ≤
          dataCapacity padding then
        (RoundKind.ofRound inetPton provider bsid).result reply
      else .error .overrun := by
  have hdropped : ∀ f : In6Addr → Except ReplyEnd DnsReply,
      (Except.error ReplyEnd.dropped >>= f) = .error .dropped := fun _ => rfl
  have hok : ∀ (a : In6Addr) (f : In6Addr → Except ReplyEnd DnsReply),
      (Except.ok a >>= f) = f a := fun _ _ => rfl
  rw [srhRound_fields, RoundKind.ofRound]
  cases srhFields provider bsid with
  | none => exact (if_pos hcap).symm
  | some fields =>
    simp only [srhRoundOf]
    cases ha : inetPton fields.addr.toList with
    | none =>
      simp only [ptonOrDrop, ha, hdropped, RoundKind.ofFields]
      rw [DnsReply.put_bind_put_bind, DnsReply.put_bind_put_bind, DnsReply.put_addRecord_bind]
      exact if_congr (by simp [srhFixed, word16, RoundKind.writes]) rfl rfl
    | some a =>
      cases hb : inetPton fields.bsid.toList with
      | none =>
        simp only [ptonOrDrop, ha, hb, hok, hdropped, RoundKind.ofFields]
        rw [DnsReply.put_bind_put_bind, DnsReply.put_bind_put_bind,
          DnsReply.put_bind_put_bind, DnsReply.put_bind_put_bind,
          DnsReply.put_addRecord_bind]
        exact if_congr (by simp [srhFixed, word16, length_in6Bytes, RoundKind.writes]) rfl rfl
      | some b =>
        simp only [ptonOrDrop, ha, hb, hok, RoundKind.ofFields]
        rw [DnsReply.put_bind_put_bind, DnsReply.put_bind_put_bind,
          DnsReply.put_bind_put_bind, DnsReply.put_bind_put_bind, DnsReply.put_bind_put,
          DnsReply.put_addRecord]
        simp [srhFixed, word16, length_in6Bytes, RoundKind.writes, RoundKind.result,
          SrhRecord.encode]

/-- The two loops end in the same way, and in the same message. -/
structure Simulates (out : Option (Except (ReplyBuf padding) (ReplyBuf padding)))
    (message : Except ReplyEnd DnsReply) : Prop where
  overrun : message = .error .overrun → out = none
  dropped : message = .error .dropped → ∃ r, out = some (.error r)
  ok : ∀ reply, message = .ok reply → ∃ r, out = some (.ok r) ∧ r.Stores reply

/-- **Refinement.**  The loop over bytes does what the loop over messages does. -/
theorem ReplyBuf.simulates_srhLoop {r : ReplyBuf padding} {reply : DnsReply} (h : r.Stores reply)
    (inetPton : List Char → Option In6Addr) (bsids : Option Json) (i : ℕ) (providers : List Json) :
    Simulates (r.appendRecords inetPton bsids i providers)
      (srhLoop inetPton padding bsids i providers reply) := by
  induction providers generalizing i r reply with
  | nil =>
    refine ⟨by simp [srhLoop], by simp [srhLoop], fun reply' hreply => ⟨r, rfl, ?_⟩⟩
    obtain rfl := Except.ok.inj hreply
    exact h
  | cons provider providers ih =>
    have hcap := h.mem.length_le
    rw [r.length_mem] at hcap
    rw [ReplyBuf.appendRecords, srhLoop, srhRound_eq_result hcap]
    obtain ⟨hover, hnone⟩ | ⟨hfits, out, hsome, houtcome⟩ :=
      ReplyBuf.runsAs_appendRecord h inetPton provider (arrayGet bsids i)
    · rw [if_neg (by omega), hnone]
      exact ⟨fun _ => rfl, by simp [bind, Except.bind], by simp [bind, Except.bind]⟩
    · rw [if_pos hfits, hsome, Option.bind_some]
      generalize RoundKind.ofRound inetPton provider (arrayGet bsids i) = kind at houtcome
      cases houtcome with
      | good hstores => exact ih hstores (i + 1)
      | @stops kind r' hnot hlength =>
        have hresult : kind.result reply = .error .dropped := by
          cases kind with
          | good record => exact absurd rfl (hnot record)
          | _ => rfl
        rw [hresult]
        exact ⟨by simp [bind, Except.bind], fun _ => ⟨r', rfl⟩, by simp [bind, Except.bind]⟩

end

/-! ## Inside the allocation -/

/-- The bytes of an answer, with the identifier of the query. -/
def withQid (qid : BitVec 16) (abuf : List Dns.Byte) : List Dns.Byte := word16 qid ++ abuf.drop 2

/-- The length of the name behind the header, up to the first zero. -/
def nameLength (abuf : List Dns.Byte) : ℕ := ((abuf.drop 12).takeWhile fun c => c ≠ 0).length

/-- The kinds of the rounds for a row. -/
def rowKinds (loads : List Char → Option Json) (inetPton : List Char → Option In6Addr)
    (entry : SrdbEntry FlowField) : List RoundKind :=
  RoundKind.ofRounds inetPton (loadsColumn loads entry .bsid) 0
    ((loadsColumn loads entry .sourceIPs).elim [] Json.elems)

/-- Nothing is written behind the allocation, and `data_length` does not exceed the sum of
`MAX_DNS_PACKET_SIZE` and `MAX_SRH_RR_SIZE`.  It never gets smaller, so that its last value
counts. -/
def StaysInside {padding : Fin 8} (loads : List Char → Option Json)
    (inetPton : List Char → Option In6Addr) (qid : BitVec 16) (abuf : List Dns.Byte)
    (entry : SrdbEntry FlowField) (malloc : ReplyBuf padding) : Prop :=
  ∃ r, malloc.clientCallback qid abuf = some r ∧ r.dataLength ≤ 512 + 100 ∧
    ∃ out, r.readFlowstate loads inetPton entry = some out ∧
      (ReplyBuf.atEnd out).dataLength ≤ 512 + 100

/-- An answer and the records of a row fit. -/
structure ReplyFits (padding : Fin 8) (abuf : List Dns.Byte) (kinds : List RoundKind) : Prop where
  /-- The name that a first record repeats has an end. -/
  name_ends : ∀ kind, kinds.head? = some kind → kind ≠ .malformed → 0 ∈ abuf.drop 12
  length_le : abuf.length + RoundKind.growth (nameLength abuf) kinds ≤ 512 + 100
  inside : abuf.length + RoundKind.reach (nameLength abuf) kinds ≤ dataCapacity padding

section

variable {padding : Fin 8}

/-- The copy of an answer. -/
theorem clientCallback_cases {qid : BitVec 16} {abuf : List Dns.Byte} (hlen : 12 < abuf.length)
    (malloc : ReplyBuf padding) :
    (dataCapacity padding < abuf.length ∧ malloc.clientCallback qid abuf = none) ∨
      abuf.length ≤ dataCapacity padding ∧
        ∃ r, malloc.clientCallback qid abuf = some r ∧ withQid qid abuf <+: r.mem ∧
          r.dataLength = abuf.length := by
  have hsplit : abuf = [] ++ (abuf.take 2 ++ abuf.drop 2) := by simp
  by_cases hfits : abuf.length ≤ dataCapacity padding
  · obtain ⟨r₁, hcopy, hmem₁, hlength₁⟩ :=
      ReplyBuf.write_append (r := { malloc with dataLength := abuf.length }) List.nil_prefix abuf
        (by rw [List.length_nil]; omega)
    rw [List.nil_append, hsplit] at hmem₁
    obtain ⟨r, hwrite, hmem, hlength⟩ :=
      ReplyBuf.write_replace hmem₁ (show (word16 qid).length = _ by simp [word16]; omega)
    refine .inr ⟨hfits, r, ?_, hmem, hlength.trans hlength₁⟩
    rw [List.length_nil] at hcopy hwrite
    simp only [ReplyBuf.clientCallback, hcopy, Option.bind_eq_bind, Option.bind_some, hwrite]
  · refine .inl ⟨by omega, ?_⟩
    simp only [ReplyBuf.clientCallback]
    rw [ReplyBuf.write_eq_none (by omega)]
    rfl

/-- An answer with a name is a message. -/
theorem exists_dnsReply {bytes : List Dns.Byte} (hlen : 12 < bytes.length)
    (hname : 0 ∈ bytes.drop 12) :
    ∃ reply : DnsReply, reply.data = bytes ∧
      reply.name = (bytes.drop 12).takeWhile fun c => c ≠ 0 := by
  obtain ⟨name, rest, hsplit, hnonzero⟩ := List.eq_append_cons_of_mem hname
  have hbytes : bytes = bytes.take 10 ++ (bytes[10] :: bytes[11] :: bytes.drop 12) := by
    rw [← List.drop_eq_getElem_cons, ← List.drop_eq_getElem_cons, List.take_append_drop]
  refine ⟨⟨bytes.take 10, bytes[10] ++ bytes[11], name, rest, by simp; omega, hnonzero⟩, ?_, ?_⟩
  · rw [DnsReply.data, Dns.word16_append, List.append_assoc, List.append_assoc, ← hsplit]
    exact hbytes.symm
  · rw [hsplit, CString.takeWhile_append hnonzero]

theorem length_withQid (qid : BitVec 16) {abuf : List Dns.Byte} (hlen : 2 ≤ abuf.length) :
    (withQid qid abuf).length = abuf.length := by
  simp [withQid, word16]
  omega

theorem drop_withQid (qid : BitVec 16) (abuf : List Dns.Byte) :
    (withQid qid abuf).drop 12 = abuf.drop 12 := by
  simp [withQid, word16]

/-- Without a zero byte behind the header, a record leaves the allocation. -/
theorem ReplyBuf.startRecord_eq_none {r : ReplyBuf padding} {bytes : List Dns.Byte}
    (hmem : bytes <+: r.mem) (hlength : r.dataLength = bytes.length) (hlen : 12 < bytes.length)
    (hname : 0 ∉ bytes.drop 12) : r.startRecord = none := by
  have hsplit : bytes = bytes.take 10 ++ ((bytes.drop 10).take 2 ++ bytes.drop 12) := by
    rw [show bytes.drop 12 = (bytes.drop 10).drop 2 by rw [List.drop_drop],
      List.take_append_drop, List.take_append_drop]
  cases harcount : Dns.word16At r.mem 10 with
  | none => simp only [ReplyBuf.startRecord, harcount, Option.bind_eq_bind, Option.bind_none]
  | some arcount =>
    rw [hsplit] at hmem
    obtain ⟨r₁, hwrite, ⟨junk, hmem₁⟩, hlength₁⟩ := ReplyBuf.write_replace hmem
      (show (word16 (arcount + 1)).length = _ by simp [word16]; omega)
    rw [List.length_take_of_le (by omega)] at hwrite
    have hcopy : ReplyBuf.copyName (r₁.mem.length + 1) 0 r₁ = none := by
      refine ReplyBuf.copyName_eq_none (by omega) fun i hi hlt hzero => hname ?_
      have hhead : (bytes.take 10 ++ word16 (arcount + 1)).length = 12 := by
        simp [word16]
        omega
      rw [← hmem₁, ← List.append_assoc, List.append_assoc,
        List.getElem?_append_right (by omega), hhead, List.getElem?_append_left
          (by rw [List.length_drop]; omega)] at hzero
      exact List.mem_of_getElem? hzero
    simp only [ReplyBuf.startRecord, harcount, hwrite, hcopy, Option.bind_eq_bind,
      Option.bind_some, Option.bind_none]

/-- The rounds of a reply whose name has no end. -/
theorem ReplyBuf.appendRecords_noName {r : ReplyBuf padding} {bytes : List Dns.Byte}
    (hmem : bytes <+: r.mem) (hlength : r.dataLength = bytes.length) (hlen : 12 < bytes.length)
    (hname : 0 ∉ bytes.drop 12) (inetPton : List Char → Option In6Addr) (bsids : Option Json)
    (i : ℕ) (providers : List Json) :
    (∃ kind, (RoundKind.ofRounds inetPton bsids i providers).head? = some kind ∧
        kind ≠ .malformed ∧ r.appendRecords inetPton bsids i providers = none) ∨
      (∀ kind, (RoundKind.ofRounds inetPton bsids i providers).head? = some kind →
          kind = .malformed) ∧
        ∃ out, r.appendRecords inetPton bsids i providers = some out ∧
          (ReplyBuf.atEnd out).dataLength = bytes.length := by
  cases providers with
  | nil => exact .inr ⟨by simp [RoundKind.ofRounds], .ok r, rfl, hlength⟩
  | cons provider providers =>
    rw [RoundKind.ofRounds, ReplyBuf.appendRecords, ReplyBuf.appendRecord, RoundKind.ofRound]
    cases srhFields provider (arrayGet bsids i) with
    | none => exact .inr ⟨fun _ h => (Option.some.inj h).symm, .error r, rfl, hlength⟩
    | some fields =>
      have hkind : RoundKind.ofFields inetPton fields ≠ .malformed := by
        unfold RoundKind.ofFields
        split <;> simp
      refine .inl ⟨_, rfl, hkind, ?_⟩
      simp only
      rw [ReplyBuf.startRecord_eq_none hmem hlength hlen hname]
      rfl

theorem growth_eq_zero {j : ℕ} {kinds : List RoundKind}
    (h : ∀ kind, kinds.head? = some kind → kind = .malformed) :
    RoundKind.growth j kinds = 0 ∧ RoundKind.reach j kinds = 0 := by
  cases kinds with
  | nil => exact ⟨rfl, rfl⟩
  | cons kind kinds =>
    obtain rfl := h kind rfl
    exact ⟨rfl, rfl⟩

/-- The rounds stay inside the allocation, and leave `data_length` below the bound. -/
def RoundsInside (loads : List Char → Option Json) (inetPton : List Char → Option In6Addr)
    (entry : SrdbEntry FlowField) (r : ReplyBuf padding) : Prop :=
  ∃ out, r.readFlowstate loads inetPton entry = some out ∧
    (ReplyBuf.atEnd out).dataLength ≤ 512 + 100

/-- The rounds of a reply whose name has an end. -/
theorem roundsInside_iff {r : ReplyBuf padding} {reply : DnsReply} (h : r.Stores reply)
    (loads : List Char → Option Json) (inetPton : List Char → Option In6Addr)
    (entry : SrdbEntry FlowField) :
    RoundsInside loads inetPton entry r ↔
      reply.data.length + RoundKind.growth reply.name.length (rowKinds loads inetPton entry) ≤
          512 + 100 ∧
        reply.data.length + RoundKind.reach reply.name.length (rowKinds loads inetPton entry) ≤
          dataCapacity padding := by
  unfold RoundsInside ReplyBuf.readFlowstate
  obtain ⟨hover, hnone⟩ | ⟨hinside, out, hout, hends⟩ :=
    ReplyBuf.appendRecords_cases h inetPton (loadsColumn loads entry .bsid) 0
      ((loadsColumn loads entry .sourceIPs).elim [] Json.elems)
  · rw [hnone]
    constructor
    · rintro ⟨out, hout, -⟩
      contradiction
    · rintro ⟨-, hle⟩
      unfold rowKinds at hle
      omega
  · rw [hout]
    constructor
    · rintro ⟨out', hout', hle⟩
      obtain rfl := Option.some.inj hout'
      exact ⟨hends.dataLength ▸ hle, hinside⟩
    · intro hfits
      exact ⟨out, rfl, hends.dataLength ▸ hfits.1⟩

/-- After the copy of an answer it is the rounds that count. -/
theorem staysInside_iff {loads : List Char → Option Json} {inetPton : List Char → Option In6Addr}
    {qid : BitVec 16} {abuf : List Dns.Byte} {entry : SrdbEntry FlowField}
    {malloc r : ReplyBuf padding} (hsome : malloc.clientCallback qid abuf = some r)
    (hdata : r.dataLength = abuf.length) :
    StaysInside loads inetPton qid abuf entry malloc ↔
      abuf.length ≤ 512 + 100 ∧ RoundsInside loads inetPton entry r := by
  unfold StaysInside
  rw [hsome, ← hdata]
  constructor
  · rintro ⟨r', hr', hinside⟩
    obtain rfl := Option.some.inj hr'
    exact hinside
  · exact fun hinside => ⟨r, rfl, hinside⟩

section

variable {qid : BitVec 16} {abuf : List Dns.Byte} {r : ReplyBuf padding}

/-- An answer whose name has an end. -/
theorem replyFits_iff_of_name (hlen : 12 < abuf.length) (hmem : withQid qid abuf <+: r.mem)
    (hdata : r.dataLength = abuf.length) (hname : 0 ∈ abuf.drop 12)
    (loads : List Char → Option Json) (inetPton : List Char → Option In6Addr)
    (entry : SrdbEntry FlowField) :
    abuf.length ≤ 512 + 100 ∧ RoundsInside loads inetPton entry r ↔
      ReplyFits padding abuf (rowKinds loads inetPton entry) := by
  have hlength := length_withQid qid (show 2 ≤ abuf.length by omega)
  have hdrop := drop_withQid qid abuf
  obtain ⟨reply, hreply, hj⟩ :=
    exists_dnsReply (show 12 < (withQid qid abuf).length by omega) (hdrop ▸ hname)
  have hstores : r.Stores reply := ⟨hreply ▸ hmem, by rw [hreply, hlength, hdata]⟩
  have hj' : reply.name.length = nameLength abuf := by
    rw [hj, hdrop, nameLength]
  rw [roundsInside_iff hstores, hreply, hlength, hj']
  constructor
  · rintro ⟨-, hle, hinside⟩
    exact ⟨fun _ _ _ => hname, hle, hinside⟩
  · intro hfits
    have hle := hfits.length_le
    exact ⟨by omega, hle, hfits.inside⟩

/-- An answer whose name has no end: the first record runs out of the memory in search of it. -/
theorem replyFits_iff_of_noName (hlen : 12 < abuf.length) (hmem : withQid qid abuf <+: r.mem)
    (hdata : r.dataLength = abuf.length) (hname : 0 ∉ abuf.drop 12)
    (loads : List Char → Option Json) (inetPton : List Char → Option In6Addr)
    (entry : SrdbEntry FlowField) :
    abuf.length ≤ 512 + 100 ∧ RoundsInside loads inetPton entry r ↔
      ReplyFits padding abuf (rowKinds loads inetPton entry) := by
  have hlength := length_withQid qid (show 2 ≤ abuf.length by omega)
  have hdrop := drop_withQid qid abuf
  have hcap := hmem.length_le
  rw [hlength, r.length_mem] at hcap
  obtain ⟨kind, hhead, hkind, hnone⟩ | ⟨hmalformed, out, hout, hend⟩ :=
    ReplyBuf.appendRecords_noName hmem (hdata.trans hlength.symm) (by omega) (hdrop ▸ hname)
      inetPton (loadsColumn loads entry .bsid) 0
      ((loadsColumn loads entry .sourceIPs).elim [] Json.elems)
  · constructor
    · rintro ⟨-, out, hout, -⟩
      cases hnone.symm.trans hout
    · intro hfits
      exact absurd (hfits.name_ends kind hhead hkind) hname
  · obtain ⟨hgrowth, hreach⟩ := growth_eq_zero (j := nameLength abuf) hmalformed
    constructor
    · rintro ⟨hle, -⟩
      refine ⟨fun kind hhead hne => absurd (hmalformed kind hhead) hne, ?_, ?_⟩
      · rw [rowKinds, hgrowth]
        omega
      · rw [rowKinds, hreach]
        omega
    · intro hfits
      have hle := hfits.length_le
      exact ⟨by omega, out, hout, by omega⟩

end

/-- **Main theorem.**  An answer that the parser accepts and the records of a row stay inside the
allocation exactly if they fit. -/
theorem reply_inside_iff (loads : List Char → Option Json)
    (inetPton : List Char → Option In6Addr) (accepts : List Dns.Byte → Bool)
    (haccepts : ∀ msg, accepts msg = true → 12 < msg.length) (qid : BitVec 16)
    (abuf : List Dns.Byte) (haccepted : accepts (withQid qid abuf) = true)
    (entry : SrdbEntry FlowField) (malloc : ReplyBuf padding) :
    StaysInside loads inetPton qid abuf entry malloc ↔
      ReplyFits padding abuf (rowKinds loads inetPton entry) := by
  have hlen : 12 < abuf.length := by
    have hlong := haccepts _ haccepted
    simp [withQid, word16] at hlong
    omega
  obtain ⟨hover, hnone⟩ | ⟨hcap, r, hsome, hmem, hdata⟩ := clientCallback_cases hlen malloc
  · -- the copy itself does not fit
    constructor
    · rintro ⟨r, hr, -⟩
      cases hnone.symm.trans hr
    · intro hfits
      have hinside := hfits.inside
      omega
  · rw [staysInside_iff hsome hdata]
    by_cases hname : 0 ∈ abuf.drop 12
    · exact replyFits_iff_of_name hlen hmem hdata hname loads inetPton entry
    · exact replyFits_iff_of_noName hlen hmem hdata hname loads inetPton entry

end

/-- A parser of answers: a message with one question and an address. -/
def acceptsAaaa (msg : List Dns.Byte) : Bool :=
  match Dns.parseMessage msg with
  | some message => message.header.qdcount = 1 ∧
      ∃ r ∈ message.answers, r.type = 28 ∧ r.rdata.length = 16
  | none => false

theorem length_of_acceptsAaaa {msg : List Dns.Byte} (h : acceptsAaaa msg = true) :
    12 < msg.length := by
  unfold acceptsAaaa at h
  split at h
  · next message hparse =>
    have hcounts := Dns.counts_le hparse
    rw [(of_decide_eq_true h).1] at hcounts
    simp at hcounts
    omega
  · cases h

/-- The address of the root. -/
def rootAnswer : List Dns.Byte :=
  word16 0 ++ word16 0x8180 ++ word16 1 ++ word16 1 ++ word16 0 ++
    word16 0 ++ Dns.encodeName [] ++ word16 28 ++ word16 1 ++
    Dns.Record.encode ⟨[], 28, 1, 60, List.replicate 16 1⟩

/-- What `inet_pton` reads from the text `::`. -/
def unspecifiedPton (text : List Char) : Option In6Addr :=
  if text = [':', ':'] then some 0 else none

/-- Providers with the prefix `::/64`. -/
def manyProviders (n : ℕ) : Json :=
  .array (List.replicate n (.array [.integer 0, .string "::", .integer 64]))

def manyBsids (n : ℕ) : Json := .array (List.replicate n (.string "::"))

/-- A row with as many providers. -/
def providersRow (n : ℕ) : SrdbEntry FlowField :=
  { SrdbEntry.zeroed with
    varstr := fun field =>
      if field = .sourceIPs then some ((manyProviders n).dumps true)
      else some ((manyBsids n).dumps true) }

/-- A reader of JSON that knows the columns of that row. -/
def providersLoads (n : ℕ) (text : List Char) : Option Json :=
  if text = (manyProviders n).dumps true then some (manyProviders n)
  else if text = (manyBsids n).dumps true then some (manyBsids n)
  else none

/-- A message at the beginning of memory that is zero otherwise. -/
def replyWith (msg : List Dns.Byte) (h : msg.length ≤ 612) : ReplyBuf 0 where
  mem := msg ++ List.replicate (612 - msg.length) 0
  dataLength := msg.length
  length_mem := by
    rw [List.length_append, List.length_replicate, Nat.add_sub_of_le h]
    rfl

def zeroedReply : ReplyBuf 0 := replyWith [] (Nat.zero_le _)

/-- The records of twelve providers fit behind a short answer. -/
theorem reply_inside_twelve :
    StaysInside (providersLoads 12) unspecifiedPton 7 rootAnswer (providersRow 12) zeroedReply :=
  (reply_inside_iff (providersLoads 12) unspecifiedPton acceptsAaaa
    (fun _ => length_of_acceptsAaaa) 7 rootAnswer (by decide +kernel) (providersRow 12)
    zeroedReply).mpr ⟨fun _ _ _ => by decide +kernel, by decide +kernel, by decide +kernel⟩

/-- The records of thirteen providers do not. -/
theorem reply_thirteen_overruns :
    acceptsAaaa (withQid 7 rootAnswer) = true ∧
      ¬ StaysInside (providersLoads 13) unspecifiedPton 7 rootAnswer (providersRow 13)
        zeroedReply := by
  refine ⟨by decide +kernel, fun hstays => ?_⟩
  have hlen : 12 < rootAnswer.length := by decide
  obtain ⟨hover, -⟩ | ⟨-, r, hsome, hmem, hdata⟩ :
      (dataCapacity 0 < rootAnswer.length ∧ zeroedReply.clientCallback 7 rootAnswer = none) ∨ _ :=
    clientCallback_cases hlen zeroedReply
  · exact absurd hover (by decide)
  · rw [staysInside_iff hsome hdata, replyFits_iff_of_name hlen hmem hdata (by decide)] at hstays
    exact absurd hstays.length_le (by decide +kernel)

/-- Two providers behind a short answer. -/
theorem simulates_srhLoop_two : ∃ reply : DnsReply, reply.data = rootAnswer ∧
    Simulates ((replyWith rootAnswer (by decide)).appendRecords unspecifiedPton
      (some (manyBsids 2)) 0 (manyProviders 2).elems)
      (srhLoop unspecifiedPton 0 (some (manyBsids 2)) 0 (manyProviders 2).elems reply) := by
  obtain ⟨reply, hdata, -⟩ := @exists_dnsReply rootAnswer (by decide) (by decide)
  have hstores : (replyWith rootAnswer (by decide)).Stores reply :=
    ⟨by rw [hdata]; exact List.prefix_append _ _, by rw [hdata]; rfl⟩
  exact ⟨reply, hdata, ReplyBuf.simulates_srhLoop hstores unspecifiedPton _ 0 _⟩

end Srn
