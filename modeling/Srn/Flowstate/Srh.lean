import Srn.Flowstate
import Srn.Lib.Dns
import Srn.Lib.Wire

/-!
# Srn.Flowstate.Srh

The records that tell an application which source prefixes it may use.  The controller writes the
prefixes of the configured providers to the column `sourceIPs` (`select_providers` and
`pref_srcips_to_json` of `sr-ctrl/sr-ctrl.c`); the DNS proxy turns each into a resource record at
the end of the waiting reply (`read_flowstate` of `sr-dnsproxy/monitor.c`, from the point where it
has found the reply).

A provider has its address as text, and the text is what `pref_srcips_to_json` hands to
`inet_ntop` in place of a binary address.  The record therefore has the first sixteen characters
of the text where the address should be; `srh_records_iff` states when that makes no difference,
and when the records fit the buffer of the reply.
-/

namespace Srn

open Dns (word16)

/-! ## Replies and records -/

/-- The bytes of an address. -/
def in6Bytes (a : In6Addr) : List (BitVec 8) := (List.range 16).map (s6Addr a)

/-- The data of a waiting reply: the header with its last counter apart, the name of the question,
which ends at the first zero, and all that follows. -/
structure DnsReply where
  head : List (BitVec 8)
  arcount : BitVec 16
  name : List (BitVec 8)
  rest : List (BitVec 8)
  head_length : head.length = 10
  name_nonzero : 0 ∉ name

namespace DnsReply

/-- The bytes of the reply. -/
def data (reply : DnsReply) : List (BitVec 8) :=
  reply.head ++ word16 reply.arcount ++ reply.name ++ 0 :: reply.rest

/-- One more additional record is announced. -/
def addRecord (reply : DnsReply) : DnsReply := { reply with arcount := reply.arcount + 1 }

/-- More bytes at the end. -/
def extend (reply : DnsReply) (bytes : List (BitVec 8)) : DnsReply :=
  { reply with rest := reply.rest ++ bytes }

end DnsReply

/-- The room for the data of a reply: `MAX_DNS_PACKET_SIZE`, `MAX_SRH_RR_SIZE` and the padding at
the end of `struct reply`. -/
def dataCapacity (padding : Fin 8) : ℕ := 512 + 100 + padding.val

/-- The ways in which `read_flowstate` does not send the reply. -/
inductive ReplyEnd where
  /-- A byte is written behind the buffer. -/
  | overrun
  /-- `goto free_json`. -/
  | dropped
  deriving DecidableEq, Repr

/-- Write behind the data of a reply. -/
def DnsReply.put (padding : Fin 8) (reply : DnsReply) (bytes : List (BitVec 8)) :
    Except ReplyEnd DnsReply :=
  if reply.data.length + bytes.length ≤ dataCapacity padding then .ok (reply.extend bytes)
  else .error .overrun

/-- The address that `inet_pton` writes. -/
def ptonOrDrop (inetPton : List Char → Option In6Addr) (s : String) : Except ReplyEnd In6Addr :=
  match inetPton s.toList with
  | some a => .ok a
  | none => .error .dropped

/-- The type `T_SRH`, the class `C_IN`, a `TTL` of zero and the length 35. -/
def srhFixed : List (BitVec 8) := word16 65280 ++ word16 1 ++ word16 0 ++ word16 0 ++ word16 35

/-- A round of the loop over the providers. -/
def srhRound (inetPton : List Char → Option In6Addr) (padding : Fin 8) (provider : Json)
    (bsid : Option Json) (reply : DnsReply) : Except ReplyEnd DnsReply :=
  match arrayGet (some provider) 0, arrayGet (some provider) 1, arrayGet (some provider) 2,
    bsid with
  | some (.integer priority), some (.string addr), some (.integer prefixLen),
      some (.string bsid) => do
      let reply ← reply.addRecord.put padding (reply.name ++ [0])
      let reply ← reply.put padding srhFixed
      let reply ← reply.put padding (word16 (BitVec.ofInt 16 priority))
      let a ← ptonOrDrop inetPton addr
      let reply ← reply.put padding (in6Bytes a)
      let reply ← reply.put padding [BitVec.ofInt 8 prefixLen]
      let b ← ptonOrDrop inetPton bsid
      reply.put padding (in6Bytes b)
  | _, _, _, _ => .error .dropped

/-- The loop over the providers, from the provider at position `i` on. -/
def srhLoop (inetPton : List Char → Option In6Addr) (padding : Fin 8) (bsids : Option Json) :
    ℕ → List Json → DnsReply → Except ReplyEnd DnsReply
  | _, [], reply => .ok reply
  | i, provider :: providers, reply => do
    let reply ← srhRound inetPton padding provider (arrayGet bsids i) reply
    srhLoop inetPton padding bsids (i + 1) providers reply

/-- The bytes that `read_flowstate` of the proxy sends for a row. -/
def srhReply (loads : List Char → Option Json) (inetPton : List Char → Option In6Addr)
    (padding : Fin 8) (reply : DnsReply) (entry : SrdbEntry FlowField) :
    Except ReplyEnd (List (BitVec 8)) :=
  (srhLoop inetPton padding (loadsColumn loads entry .bsid) 0
    ((loadsColumn loads entry .sourceIPs).elim [] Json.elems) reply).map DnsReply.data

/-- The data of a resource record of type `T_SRH`. -/
structure SrhRecord where
  priority : BitVec 16
  addr : In6Addr
  prefixLen : BitVec 8
  bsid : In6Addr
  deriving DecidableEq, Repr

/-- A record with its name. -/
def SrhRecord.encode (name : List (BitVec 8)) (r : SrhRecord) : List (BitVec 8) :=
  name ++ [0] ++ srhFixed ++ word16 r.priority ++ in6Bytes r.addr ++ [r.prefixLen] ++
    in6Bytes r.bsid

/-- The reply with the records behind it. -/
def DnsReply.withRecords (reply : DnsReply) (records : List SrhRecord) : DnsReply :=
  { reply with
    arcount := reply.arcount + BitVec.ofNat 16 records.length
    rest := reply.rest ++ records.flatMap (SrhRecord.encode reply.name) }

/-! ## Lengths -/

theorem length_in6Bytes (a : In6Addr) : (in6Bytes a).length = 16 := by
  simp [in6Bytes]

theorem SrhRecord.length_encode (name : List (BitVec 8)) (r : SrhRecord) :
    (r.encode name).length = name.length + 46 := by
  simp [SrhRecord.encode, srhFixed, word16, length_in6Bytes]

theorem DnsReply.length_data (reply : DnsReply) :
    reply.data.length = reply.name.length + reply.rest.length + 13 := by
  simp [DnsReply.data, reply.head_length, word16]
  omega

theorem in6Bytes_injective : Function.Injective in6Bytes := by
  intro a b h
  refine BitVec.eq_of_getMsbD_eq fun k hk => ?_
  have hbyte : s6Addr a (k / 8) = s6Addr b (k / 8) :=
    List.map_inj_left.mp h (k / 8) (List.mem_range.mpr (by omega))
  have ha := s6Addr_bit a (i := k / 8) (j := k % 8) (by omega) (by omega)
  have hb := s6Addr_bit b (i := k / 8) (j := k % 8) (by omega) (by omega)
  rw [Nat.div_add_mod] at ha hb
  rw [Bool.eq_iff_iff, ← ha, ← hb, hbyte]

theorem word16_injective : Function.Injective word16 := by
  intro v w h
  obtain ⟨hhigh, hlow⟩ : v.extractLsb' 8 8 = w.extractLsb' 8 8 ∧
      v.extractLsb' 0 8 = w.extractLsb' 0 8 := by simpa [word16] using h
  have hhigh := congrArg BitVec.toNat hhigh
  have hlow := congrArg BitVec.toNat hlow
  simp only [BitVec.extractLsb'_toNat] at hhigh hlow
  apply BitVec.eq_of_toNat_eq
  omega

/-- The records of a name have one length, and their bytes determine them. -/
theorem SrhRecord.fixed_encode (name : List (BitVec 8)) :
    Wire.Fixed (SrhRecord.encode name) (name.length + 46) where
  length_eq := SrhRecord.length_encode name
  injective := by
    intro r r' h
    unfold SrhRecord.encode at h
    obtain ⟨h, hbsid⟩ := List.append_inj' h (by rw [length_in6Bytes, length_in6Bytes])
    obtain ⟨h, hlen⟩ := List.append_inj' h rfl
    obtain ⟨h, haddr⟩ := List.append_inj' h (by rw [length_in6Bytes, length_in6Bytes])
    obtain ⟨-, hpriority⟩ := List.append_inj' h rfl
    have hpriority := word16_injective hpriority
    have haddr := in6Bytes_injective haddr
    have hbsid := in6Bytes_injective hbsid
    cases r
    cases r'
    simp_all

/-! ## The loop -/

section

variable {inetPton : List Char → Option In6Addr} {padding : Fin 8} {reply : DnsReply}

/-- Two writes are one. -/
theorem DnsReply.put_bind_put (reply : DnsReply) (bytes bytes' : List (BitVec 8)) :
    (reply.put padding bytes >>= fun reply => reply.put padding bytes') =
      reply.put padding (bytes ++ bytes') := by
  have hdata : (reply.extend bytes).data.length = reply.data.length + bytes.length := by
    rw [length_data, length_data]
    simp [extend]
    omega
  have hextend : (reply.extend bytes).extend bytes' = reply.extend (bytes ++ bytes') := by
    simp [extend, List.append_assoc]
  unfold put
  rw [List.length_append]
  by_cases hfirst : reply.data.length + bytes.length ≤ dataCapacity padding
  · rw [if_pos hfirst]
    show (if (reply.extend bytes).data.length + bytes'.length ≤ dataCapacity padding then
      Except.ok ((reply.extend bytes).extend bytes') else Except.error ReplyEnd.overrun) = _
    rw [hdata, hextend, Nat.add_assoc]
  · rw [if_neg hfirst, if_neg (by omega)]
    rfl

/-- The record of a prefix and its BSID. -/
def srhRecordOf (sp : PrefixSource) (bsid : In6Addr) : SrhRecord where
  priority := BitVec.ofInt 16 sp.priority.toInt
  addr := in6OfChars sp.addr
  prefixLen := BitVec.ofInt 8 sp.prefixLen.toInt
  bsid := bsid

/-- **Step lemma.**  A round with addresses that `inet_pton` reads back appends a record. -/
theorem srhRound_eq {inetNtop : In6Addr → AddrText} {sp : PrefixSource} {b : In6Addr}
    (hsp : inetPton (inetNtop (in6OfChars sp.addr)).chars = some (in6OfChars sp.addr))
    (hb : inetPton (inetNtop b).chars = some b) (reply : DnsReply) :
    srhRound inetPton padding (srcipToJson inetNtop sp) (some (addrToJson inetNtop b)) reply =
      if reply.data.length + (reply.name.length + 46) ≤ dataCapacity padding then
        .ok (reply.addRecord.extend ((srhRecordOf sp b).encode reply.name))
      else .error .overrun := by
  have hpton : ∀ a : In6Addr, inetPton (inetNtop a).chars = some a →
      ptonOrDrop inetPton (String.ofList (inetNtop a).chars) = .ok a := by
    intro a ha
    simp [ptonOrDrop, ha]
  have hbind : ∀ (c : In6Addr) (f : In6Addr → Except ReplyEnd DnsReply),
      (Except.ok c >>= f) = f c := fun _ _ => rfl
  have hput : srhRound inetPton padding (srcipToJson inetNtop sp) (some (addrToJson inetNtop b))
      reply = reply.addRecord.put padding ((srhRecordOf sp b).encode reply.name) := by
    unfold srhRound SrhRecord.encode srcipToJson addrToJson
    simp only [arrayGet, List.getElem?_cons_zero, List.getElem?_cons_succ, hpton _ hsp,
      hpton _ hb, hbind, DnsReply.put_bind_put, List.append_assoc, srhRecordOf]
  rw [hput, DnsReply.put, SrhRecord.length_encode, DnsReply.length_data,
    DnsReply.length_data reply]
  rfl

theorem DnsReply.withRecords_cons (reply : DnsReply) (r : SrhRecord) (records : List SrhRecord) :
    (reply.addRecord.extend (r.encode reply.name)).withRecords records =
      reply.withRecords (r :: records) := by
  have hcount : reply.arcount + 1#16 + BitVec.ofNat 16 records.length =
      reply.arcount + BitVec.ofNat 16 (records.length + 1) := by
    rw [BitVec.ofNat_add, BitVec.add_assoc, BitVec.add_comm 1#16]
  simp [withRecords, extend, addRecord, hcount, List.append_assoc]

/-- There is room for so many records. -/
def DnsReply.Fits (padding : Fin 8) (reply : DnsReply) (n : ℕ) : Prop :=
  n ≠ 0 → reply.data.length + n * (reply.name.length + 46) ≤ dataCapacity padding

instance (padding : Fin 8) (reply : DnsReply) (n : ℕ) : Decidable (reply.Fits padding n) :=
  inferInstanceAs (Decidable (n ≠ 0 → _ ≤ _))

theorem DnsReply.fits_succ (padding : Fin 8) (reply : DnsReply) (r : SrhRecord) (n : ℕ) :
    reply.Fits padding (n + 1) ↔
      reply.data.length + (reply.name.length + 46) ≤ dataCapacity padding ∧
        (reply.addRecord.extend (r.encode reply.name)).Fits padding n := by
  have hdata : (reply.addRecord.extend (r.encode reply.name)).data.length =
      reply.data.length + (reply.name.length + 46) := by
    rw [DnsReply.length_data, DnsReply.length_data]
    simp [DnsReply.extend, DnsReply.addRecord, SrhRecord.length_encode]
    omega
  unfold Fits
  rw [hdata, show (reply.addRecord.extend (r.encode reply.name)).name = reply.name from rfl,
    Nat.succ_mul]
  by_cases hn : n = 0
  · subst hn
    simp
  · constructor
    · intro h
      have hall := h (Nat.succ_ne_zero n)
      exact ⟨by omega, fun _ => by omega⟩
    · intro h _
      have hrest := h.2 hn
      omega

/-- **Run lemma.**  With addresses that `inet_pton` reads back, the loop appends a record for each
prefix, unless they do not fit. -/
theorem srhLoop_eq (padding : Fin 8) {inetNtop : In6Addr → AddrText} (before : List In6Addr)
    (sps : List PrefixSource) (bsids : List In6Addr) (hlen : sps.length = bsids.length)
    (hbsids : ∀ a ∈ bsids, inetPton (inetNtop a).chars = some a)
    (hsps : ∀ sp ∈ sps, inetPton (inetNtop (in6OfChars sp.addr)).chars = some (in6OfChars sp.addr))
    (reply : DnsReply) :
    srhLoop inetPton padding (some (.array ((before ++ bsids).map (addrToJson inetNtop))))
        before.length (sps.map (srcipToJson inetNtop)) reply =
      if reply.Fits padding sps.length then
        .ok (reply.withRecords (List.zipWith srhRecordOf sps bsids))
      else .error .overrun := by
  induction sps generalizing before bsids reply with
  | nil => simp [srhLoop, DnsReply.withRecords, DnsReply.Fits]
  | cons sp sps ih =>
    cases bsids with
    | nil => simp at hlen
    | cons b bsids =>
      rw [List.forall_mem_cons] at hbsids hsps
      have hget : arrayGet (some (.array ((before ++ b :: bsids).map (addrToJson inetNtop))))
          before.length = some (addrToJson inetNtop b) := by
        simp [arrayGet]
      have hnext := ih (before ++ [b]) bsids (by simpa using hlen) hbsids.2 hsps.2
        (reply.addRecord.extend ((srhRecordOf sp b).encode reply.name))
      rw [List.append_assoc, List.singleton_append, List.length_append, List.length_singleton,
        DnsReply.withRecords_cons] at hnext
      have hfits := reply.fits_succ padding (srhRecordOf sp b) sps.length
      rw [List.map_cons, srhLoop, hget, srhRound_eq hsps.1 hbsids.1, List.length_cons]
      by_cases hroom : reply.data.length + (reply.name.length + 46) ≤ dataCapacity padding
      · rw [if_pos hroom]
        refine hnext.trans ?_
        simp only [hfits, hroom, true_and, List.zipWith_cons_cons]
      · rw [if_neg hroom, if_neg fun h => hroom (hfits.mp h).1]
        rfl

end

/-! ## The records of the providers -/

/-- The record has the configured address and length of the provider. -/
def SrhRecord.Announces (inetPton : List Char → Option In6Addr) (p : Provider) (r : SrhRecord) :
    Prop :=
  inetPton p.addr = some r.addr ∧ r.prefixLen = BitVec.ofInt 8 p.prefixLen.toInt

/-- What is sent has a record for each provider, in their order. -/
def YieldsRecords (inetPton : List Char → Option In6Addr) (reply : DnsReply)
    (providers : List Provider) (sent : Except ReplyEnd (List (BitVec 8))) : Prop :=
  ∃ records, List.Forall₂ (SrhRecord.Announces inetPton) providers records ∧
    sent = .ok (reply.withRecords records).data

/-- The bytes of a reply determine its records. -/
theorem DnsReply.withRecords_inj {reply : DnsReply} {records records' : List SrhRecord}
    (hlen : records.length = records'.length)
    (h : (reply.withRecords records).data = (reply.withRecords records').data) :
    records = records' := by
  unfold data withRecords at h
  rw [hlen] at h
  simp only [List.append_assoc, List.append_cancel_left_eq, List.cons.injEq, true_and] at h
  exact (SrhRecord.fixed_encode reply.name).flatMap_inj hlen h

/-- The records that the proxy sends. -/
theorem srhReply_eq {inetNtop : In6Addr → AddrText} (rtAddr : NodeId → In6Addr)
    {loads : List Char → Option Json} {inetPton : List Char → Option In6Addr} (padding : Fin 8)
    (reply : DnsReply) {fl : FlowRecord}
    (hsrcips : loads ((prefSrcipsToJson inetNtop fl).dumps true) =
      some (prefSrcipsToJson inetNtop fl))
    (hbsids : loads ((prefBsidToJson inetNtop fl).dumps true) = some (prefBsidToJson inetNtop fl))
    (hpton : ∀ a, a ∈ fl.bsids ∨ a ∈ fl.sources.map (fun sp => in6OfChars sp.addr) →
      inetPton (inetNtop a).chars = some a) :
    srhReply loads inetPton padding reply (flowToFlowentry inetNtop rtAddr fl feAll) =
      if reply.Fits padding fl.sources.length then
        .ok (reply.withRecords (List.zipWith srhRecordOf fl.sources fl.bsids)).data
      else .error .overrun := by
  have hlen : fl.sources.length = fl.bsids.length := by
    rw [fl.nbPrefixes, FlowRecord.bsids, List.length_map]
  have hloop := srhLoop_eq padding [] fl.sources fl.bsids hlen
    (fun a ha => hpton a (.inl ha))
    (fun sp hsp => hpton _ (.inr (List.mem_map_of_mem hsp))) reply
  have hproviders : loadsColumn loads (flowToFlowentry inetNtop rtAddr fl feAll) .sourceIPs =
      some (prefSrcipsToJson inetNtop fl) := hsrcips
  have hcolumn : loadsColumn loads (flowToFlowentry inetNtop rtAddr fl feAll) .bsid =
      some (.array (fl.bsids.map (addrToJson inetNtop))) := prefBsidToJson_eq ▸ hbsids
  unfold srhReply
  rw [hproviders, hcolumn]
  show (srhLoop inetPton padding (some (.array (([] ++ fl.bsids).map (addrToJson inetNtop)))) 0
    (fl.sources.map (srcipToJson inetNtop)) reply).map DnsReply.data = _
  rw [show 0 = ([] : List In6Addr).length from rfl, hloop]
  by_cases hfits : reply.Fits padding fl.sources.length
  · rw [if_pos hfits, if_pos hfits]
    rfl
  · rw [if_neg hfits, if_neg hfits]
    rfl

theorem yieldsRecords_ok_iff {inetPton : List Char → Option In6Addr} {reply : DnsReply}
    {providers : List Provider} {records : List SrhRecord}
    (hlen : providers.length = records.length) :
    YieldsRecords inetPton reply providers (.ok (reply.withRecords records).data) ↔
      List.Forall₂ (SrhRecord.Announces inetPton) providers records := by
  constructor
  · intro h
    obtain ⟨records', hrecords', hsent⟩ := h
    rw [Except.ok.injEq] at hsent
    rw [DnsReply.withRecords_inj (hlen.symm.trans hrecords'.length_eq) hsent]
    exact hrecords'
  · intro h
    exact ⟨records, h, rfl⟩

/-- The records of the prefixes are those of the providers exactly if each provider's address is
the first sixteen characters of its text. -/
theorem forall₂_srhRecordOf_iff (inetPton : List Char → Option In6Addr) (providers : List Provider)
    (bsids : List In6Addr) (hlen : providers.length = bsids.length) :
    List.Forall₂ (SrhRecord.Announces inetPton) providers
        (List.zipWith srhRecordOf (selectProviders providers) bsids) ↔
      ∀ p ∈ providers, inetPton p.addr = some (in6OfChars (selectProvider p).addr) := by
  induction providers generalizing bsids with
  | nil => simp [selectProviders]
  | cons p providers ih =>
    cases bsids with
    | nil => simp at hlen
    | cons b bsids =>
      have hrest := ih bsids (by simpa using hlen)
      simp only [selectProviders, List.map_cons, List.zipWith_cons_cons, List.forall₂_cons,
        List.forall_mem_cons] at hrest ⊢
      rw [hrest]
      simp [SrhRecord.Announces, srhRecordOf, selectProvider]

/-- **Main theorem.**  The proxy sends the configured prefixes exactly if each of them is, as a
binary address, the first sixteen characters of its own text, and the records fit the reply. -/
theorem srh_records_iff (inetNtop : In6Addr → AddrText) (rtAddr : NodeId → In6Addr)
    (loads : List Char → Option Json) (inetPton : List Char → Option In6Addr) (padding : Fin 8)
    (reply : DnsReply) (providers : List Provider) (fl : FlowRecord)
    (hselect : fl.sources = selectProviders providers)
    (hsrcips : loads ((prefSrcipsToJson inetNtop fl).dumps true) =
      some (prefSrcipsToJson inetNtop fl))
    (hbsids : loads ((prefBsidToJson inetNtop fl).dumps true) = some (prefBsidToJson inetNtop fl))
    (hpton : ∀ a, a ∈ fl.bsids ∨ a ∈ fl.sources.map (fun sp => in6OfChars sp.addr) →
      inetPton (inetNtop a).chars = some a) :
    YieldsRecords inetPton reply providers
        (srhReply loads inetPton padding reply (flowToFlowentry inetNtop rtAddr fl feAll)) ↔
      (∀ p ∈ providers, inetPton p.addr = some (in6OfChars (selectProvider p).addr)) ∧
        reply.Fits padding providers.length := by
  have hcount : fl.sources.length = providers.length := by
    rw [hselect, selectProviders, List.length_map]
  have hlen : providers.length = fl.bsids.length := by
    rw [← hcount, fl.nbPrefixes, FlowRecord.bsids, List.length_map]
  have hzip : providers.length =
      (List.zipWith srhRecordOf (selectProviders providers) fl.bsids).length := by
    rw [List.length_zipWith, selectProviders, List.length_map, ← hlen, Nat.min_self]
  rw [srhReply_eq rtAddr padding reply hsrcips hbsids hpton, hcount, hselect]
  by_cases hfits : reply.Fits padding providers.length
  · rw [if_pos hfits, yieldsRecords_ok_iff hzip,
      forall₂_srhRecordOf_iff inetPton providers fl.bsids hlen]
    simp [hfits]
  · rw [if_neg hfits]
    constructor
    · intro h
      obtain ⟨records, -, hsent⟩ := h
      cases hsent
    · intro h
      exact absurd h.2 hfits

/-! ## The columns of the row -/

/-- The address of a text without a zero at the head of a group. -/
def groupsPton (cs : List Char) : Option In6Addr :=
  let a : In6Addr := cs.foldl (fun a c => if c = ':' then a else
    a <<< 4 ||| BitVec.ofNat 128 ("0123456789abcdef".toList.idxOf c)) 0#128
  if (groupsText a).chars = cs then some a else none

/-- A reply with nothing but the header and the root as its name. -/
def rootReply : DnsReply := ⟨List.replicate 10 0, 0, [], [], rfl, List.not_mem_nil⟩

/-- A flow with one prefix of the provider. -/
def flowFrom (p : Provider) : FlowRecord :=
  { flowAlong [] with sources := selectProviders [p], nbPrefixes := rfl }

/-- A reader of JSON that knows the texts of the flow. -/
def fromLoads (p : Provider) : List Char → Option Json :=
  flowLoads groupsText onesRouter [] (flowFrom p) (prefSrcipsToJson groupsText (flowFrom p))

theorem readsFlow_fromLoads (p : Provider) :
    ReadsFlow groupsText onesRouter (fromLoads p) [] (flowFrom p)
      (prefSrcipsToJson groupsText (flowFrom p)) := by
  refine readsFlow_flowLoads groupsText onesRouter [] (flowFrom p) _ (List.cons_ne_nil _ _) ?_
  show ∃ rest, (Json.array [srcipToJson groupsText (selectProvider p)]).dumps true = _
  rw [srcipToJson, Json.dumps, Json.dumpsElems, Json.dumps]
  exact ⟨_, rfl⟩

theorem groupsPton_flowFrom {p : Provider}
    (hp : groupsPton (groupsText (in6OfChars (selectProvider p).addr)).chars =
      some (in6OfChars (selectProvider p).addr)) (a : In6Addr)
    (ha : a ∈ (flowFrom p).bsids ∨ a ∈ (flowFrom p).sources.map (fun sp => in6OfChars sp.addr)) :
    groupsPton (groupsText a).chars = some a := by
  cases ha with
  | inl hbsid =>
    obtain rfl : a = onesAddr := by simpa [flowFrom, flowAlong, FlowRecord.bsids] using hbsid
    decide +kernel
  | inr hsource =>
    obtain rfl : a = in6OfChars (selectProvider p).addr := by
      simpa [flowFrom, selectProviders] using hsource
    exact hp

/-- A provider whose address is the first sixteen characters of its text. -/
def selfProvider : Provider := ⟨[], "3333:3333:3a33:3333:333a:3361:3333:3a33".toList, 64⟩

/-- The prefix of that provider is sent as it is configured. -/
theorem srh_records_self :
    YieldsRecords groupsPton rootReply [selfProvider] (srhReply (fromLoads selfProvider)
      groupsPton 0 rootReply
      (flowToFlowentry groupsText onesRouter (flowFrom selfProvider) feAll)) :=
  (srh_records_iff groupsText onesRouter (fromLoads selfProvider) groupsPton 0 rootReply
    [selfProvider] (flowFrom selfProvider) rfl (readsFlow_fromLoads selfProvider).column.loads_eq
    (readsFlow_fromLoads selfProvider).bsid.loads_eq (groupsPton_flowFrom (by decide +kernel))).mpr
    ⟨by decide +kernel, by decide +kernel⟩

/-- A provider with the prefix `2001:1db8:1111:1111:1111:1111:1111:1111/64`. -/
def plainProvider : Provider := ⟨[], "2001:1db8:1111:1111:1111:1111:1111:1111".toList, 64⟩

/-- Its prefix is sent as `3230:3031:3a31:6462:383a:3131:3131:3a31/64`. -/
theorem srh_record_wrong :
    srhReply (fromLoads plainProvider) groupsPton 0 rootReply
        (flowToFlowentry groupsText onesRouter (flowFrom plainProvider) feAll) =
      .ok (rootReply.withRecords
        [⟨0, 0x323030313a316462383a313131313a31#128, 64, onesAddr⟩]).data ∧
    ¬ YieldsRecords groupsPton rootReply [plainProvider] (srhReply (fromLoads plainProvider)
      groupsPton 0 rootReply
      (flowToFlowentry groupsText onesRouter (flowFrom plainProvider) feAll)) := by
  have hsent := srhReply_eq onesRouter 0 rootReply
    (readsFlow_fromLoads plainProvider).column.loads_eq
    (readsFlow_fromLoads plainProvider).bsid.loads_eq (groupsPton_flowFrom (by decide +kernel))
  have hrecord : List.zipWith srhRecordOf (flowFrom plainProvider).sources
      (flowFrom plainProvider).bsids =
        [⟨0, 0x323030313a316462383a313131313a31#128, 64, onesAddr⟩] := by decide +kernel
  rw [if_pos (by decide +kernel), hrecord] at hsent
  rw [hsent, yieldsRecords_ok_iff rfl, List.forall₂_cons]
  refine ⟨rfl, fun h => ?_⟩
  have haddr : groupsPton plainProvider.addr ≠ some 0x323030313a316462383a313131313a31#128 := by
    decide +kernel
  exact haddr h.1.1

end Srn
