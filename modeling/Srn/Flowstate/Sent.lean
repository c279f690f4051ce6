import Srn.Flowstate.Reply

/-!
# Srn.Flowstate.Sent

What a parser of DNS messages makes of the bytes that `read_flowstate` of the proxy sends.  The
records stand behind the message that the server answered, and each repeats the name of its
question; the header counts them.  `reply_parses` puts this together from the loop over bytes
(`Srn.Flowstate.Reply`) and from what the format says about records behind a message
(`Srn.Lib.Dns`).
-/

namespace Srn

/-- A message of the server: one question, whose name has no pointer and no zero inside a label. -/
structure WellFormedReply (msg : List Dns.Byte) (message : Dns.Message)
    (question : Dns.Question) : Prop where
  parses : Dns.parseMessage msg = some message
  one : message.questions = [question]
  uncompressed : Dns.Holds msg 12 (Dns.encodeName question.name)
  nonzero : ∀ label ∈ question.name, 0 ∉ label.bytes

/-- The record of a provider: type `T_SRH`, class `C_IN`, and 35 bytes of data. -/
def SrhRecord.toDns (owner : List Dns.Label) (r : SrhRecord) : Dns.Record where
  owner := owner
  type := 65280
  rrclass := 1
  ttl := 0
  rdata := Dns.word16 r.priority ++ in6Bytes r.addr ++ [r.prefixLen] ++ in6Bytes r.bsid

/-! ## Names and records -/

theorem zero_notMem_encode {label : Dns.Label} (h : 0 ∉ label.bytes) : 0 ∉ label.encode := by
  have hpos := List.length_pos_iff.mpr label.ne_nil
  have hle := label.length_le
  rw [Dns.Label.encode, List.mem_cons, not_or]
  refine ⟨fun hzero => ?_, h⟩
  have htoNat := congrArg BitVec.toNat hzero
  rw [BitVec.toNat_ofNat, Nat.mod_eq_of_lt (by omega)] at htoNat
  simp at htoNat
  omega

/-- The bytes before the end of a name have no zero. -/
theorem zero_notMem_labels {labels : List Dns.Label} (h : ∀ label ∈ labels, 0 ∉ label.bytes) :
    0 ∉ labels.flatMap Dns.Label.encode := by
  rw [List.mem_flatMap]
  rintro ⟨label, hlabel, hzero⟩
  exact zero_notMem_encode (h label hlabel) hzero

theorem SrhRecord.length_rdata (owner : List Dns.Label) (r : SrhRecord) :
    (r.toDns owner).rdata.length = 35 := by
  simp [SrhRecord.toDns, Dns.word16, length_in6Bytes]

/-- The bytes of a record that repeats an uncompressed name. -/
theorem SrhRecord.encode_eq {name : List Dns.Byte} {owner : List Dns.Label}
    (h : name ++ [0] = Dns.encodeName owner) (r : SrhRecord) :
    r.encode name = (r.toDns owner).encode := by
  rw [Dns.Record.encode, SrhRecord.length_rdata, SrhRecord.encode, h]
  simp [SrhRecord.toDns, srhFixed, Dns.word16]

theorem flatMap_encode_eq {name : List Dns.Byte} {owner : List Dns.Label}
    (h : name ++ [0] = Dns.encodeName owner) (records : List SrhRecord) :
    records.flatMap (SrhRecord.encode name) =
      (records.map (SrhRecord.toDns owner)).flatMap Dns.Record.encode := by
  rw [List.flatMap_map]
  exact List.flatMap_congr fun r _ => SrhRecord.encode_eq h r

/-! ## The message with its records -/

section

variable (reply : DnsReply) (records : List SrhRecord)

theorem data_eq : reply.data =
    reply.head ++ (Dns.word16 reply.arcount ++ (reply.name ++ 0 :: reply.rest)) := by
  simp [DnsReply.data, Dns.word16]

theorem data_withRecords : (reply.withRecords records).data =
    reply.head ++ (Dns.word16 (reply.arcount + BitVec.ofNat 16 records.length) ++
      (reply.name ++ 0 :: reply.rest ++ records.flatMap (SrhRecord.encode reply.name))) := by
  simp [DnsReply.data, DnsReply.withRecords, Dns.word16]

/-- The records stand behind the message. -/
theorem extends_withRecords : Dns.Extends reply.data (reply.withRecords records).data := by
  rw [data_eq, data_withRecords, ← List.append_assoc, ← List.append_assoc reply.head]
  exact Dns.extends_append (by simp [reply.head_length, Dns.length_word16])
    (by simp [reply.head_length, Dns.length_word16])

/-- The header of the message with its records. -/
theorem parseHeader_withRecords {header : Dns.Header}
    (h : Dns.parseHeader reply.data = some header) :
    Dns.parseHeader (reply.withRecords records).data =
      some { header with arcount := header.arcount + BitVec.ofNat 16 records.length } := by
  rw [data_eq] at h
  obtain ⟨harcount, hheader⟩ := Dns.parseHeader_append reply.head_length h
    (reply.arcount + BitVec.ofNat 16 records.length)
  rw [data_withRecords, harcount, hheader]

/-- The message with its records, as a parser reads it. -/
theorem parseMessage_withRecords {message : Dns.Message} {owner : List Dns.Label}
    (hname : reply.name ++ [0] = Dns.encodeName owner) (howner : owner.length < Dns.nameFuel)
    (hparses : Dns.parseMessage reply.data = some message)
    (hcount : message.header.arcount.toNat + records.length < 65536) :
    Dns.parseMessage (reply.withRecords records).data = some
      { message with
        header := { message.header with
          arcount := message.header.arcount + BitVec.ofNat 16 records.length }
        additional := message.additional ++ records.map (SrhRecord.toDns owner) } := by
  obtain ⟨header, hheader, hbody⟩ := Dns.parseMessage_eq_some_iff.mp hparses
  obtain ⟨-, -, -, -, -, -, -, rfl⟩ := Dns.parseBody_eq_some hbody
  have hsplit : (reply.withRecords records).data =
      reply.head ++ (Dns.word16 (reply.arcount + BitVec.ofNat 16 records.length) ++
        (reply.name ++ 0 :: reply.rest)) ++
          (records.map (SrhRecord.toDns owner)).flatMap Dns.Record.encode := by
    rw [data_withRecords, flatMap_encode_eq hname]
    simp
  have hlength : (reply.head ++ (Dns.word16 (reply.arcount + BitVec.ofNat 16 records.length) ++
      (reply.name ++ 0 :: reply.rest))).length = reply.data.length := by
    rw [data_eq]
    simp [Dns.length_word16]
  have hmany : (records.map (SrhRecord.toDns owner)).length = records.length := List.length_map _
  have hvalid : ∀ r ∈ records.map (SrhRecord.toDns owner),
      r.owner.length < Dns.nameFuel ∧ r.rdata.length < 65536 := by
    intro r hr
    obtain ⟨record, -, rfl⟩ := List.mem_map.mp hr
    rw [SrhRecord.length_rdata]
    exact ⟨howner, by decide⟩
  have hresult := (extends_withRecords reply records).parseMessage_append hparses hvalid
    (by rw [hmany]; exact hcount)
    (by rw [hmany]; exact parseHeader_withRecords reply records hheader)
    ⟨_, [], by rw [hsplit, List.append_nil], hlength⟩
    (by rw [hsplit, List.length_append, hlength])
  rwa [hmany] at hresult

end

/-! ## What is sent -/

/-- A well-formed reply as a message whose name is the question's. -/
theorem WellFormedReply.exists_dnsReply {msg : List Dns.Byte} {message : Dns.Message}
    {question : Dns.Question} (h : WellFormedReply msg message question) :
    ∃ reply : DnsReply, reply.data = msg ∧
      reply.name ++ [0] = Dns.encodeName question.name := by
  obtain ⟨before, after, hmsg, hbefore⟩ := h.uncompressed
  have hdrop : msg.drop 12 =
      question.name.flatMap Dns.Label.encode ++ 0 :: after := by
    rw [hmsg, ← hbefore]
    simp [Dns.encodeName]
  have hlen : 12 < msg.length := by
    have hpos : 0 < (msg.drop 12).length := by simp [hdrop]
    rw [List.length_drop] at hpos
    omega
  obtain ⟨reply, hdata, hname⟩ := Srn.exists_dnsReply hlen (by simp [hdrop])
  refine ⟨reply, hdata, ?_⟩
  rw [hname, hdrop, CString.takeWhile_append (zero_notMem_labels h.nonzero)]
  rfl

theorem WellFormedReply.length_name_lt {msg : List Dns.Byte} {message : Dns.Message}
    {question : Dns.Question} (h : WellFormedReply msg message question) :
    question.name.length < Dns.nameFuel := by
  obtain ⟨header, -, hbody⟩ := Dns.parseMessage_eq_some_iff.mp h.parses
  obtain ⟨first, -, -, hquestions, -⟩ := Dns.parseBody_eq_some hbody
  rw [h.one] at hquestions
  generalize header.qdcount.toNat = n at hquestions
  cases n with
  | zero => simp [Dns.parseMany] at hquestions
  | succ n =>
    obtain ⟨out, rest, hout, -, heq⟩ := Dns.parseMany_succ_eq_some hquestions
    obtain ⟨next, hname, -⟩ := Dns.parseQuestion_eq_some hout
    obtain ⟨rfl, -⟩ := List.cons.inj (congrArg Prod.fst heq)
    exact (Dns.parseName_bounds hname).1

theorem RoundKind.reach_good (j : ℕ) (records : List SrhRecord) :
    RoundKind.reach j (records.map RoundKind.good) = records.length * (j + 46) := by
  induction records with
  | nil => simp [RoundKind.reach]
  | cons record records ih =>
    rw [List.map_cons, RoundKind.reach, ih, List.length_cons, Nat.succ_mul, Nat.add_comm]

/-- The bytes that are sent: a parser reads the message with the records behind its own, and the
counter of the header does not wrap around. -/
structure SentWith (msg : List Dns.Byte) (message : Dns.Message) (owner : List Dns.Label)
    (records : List SrhRecord) (bytes : List Dns.Byte) : Prop where
  parses : Dns.parseMessage bytes = some
    { message with
      header := { message.header with
        arcount := message.header.arcount + BitVec.ofNat 16 records.length }
      additional := message.additional ++ records.map (SrhRecord.toDns owner) }
  count : (message.header.arcount + BitVec.ofNat 16 records.length).toNat =
    message.header.arcount.toNat + records.length
  unchanged : ∀ i, 12 ≤ i → i < msg.length → bytes[i]? = msg[i]?

/-- **Main theorem.**  The proxy sends the reply of the server with a record for each provider, if
all of them are valid and fit, and nothing if one is malformed. -/
theorem reply_parses (loads : List Char → Option Json) (inetPton : List Char → Option In6Addr)
    (entry : SrdbEntry FlowField) {padding : Fin 8} (r : ReplyBuf padding) (msg : List Dns.Byte)
    (message : Dns.Message) (question : Dns.Question)
    (hmsg : WellFormedReply msg message question) (hmem : msg <+: r.mem)
    (hlength : r.dataLength = msg.length) :
    (∀ records, rowKinds loads inetPton entry = records.map RoundKind.good →
      msg.length + records.length * ((Dns.encodeName question.name).length + 45) ≤
        dataCapacity padding →
      ∃ out bytes, r.readFlowstate loads inetPton entry = some out ∧
        ReplyBuf.sent out = some bytes ∧ SentWith msg message question.name records bytes) ∧
    ((∃ kind ∈ rowKinds loads inetPton entry, ∀ record, kind ≠ RoundKind.good record) →
      ∀ out, r.readFlowstate loads inetPton entry = some out → ReplyBuf.sent out = none) := by
  obtain ⟨reply, rfl, hname⟩ := hmsg.exists_dnsReply
  have hnameLength : (Dns.encodeName question.name).length = reply.name.length + 1 := by
    rw [← hname]
    simp
  have hstores : r.Stores reply := ⟨hmem, hlength⟩
  have hrun := ReplyBuf.appendRecords_cases hstores inetPton (loadsColumn loads entry .bsid) 0
    ((loadsColumn loads entry .sourceIPs).elim [] Json.elems)
  constructor
  · intro records hrecords hfits
    have hreach := RoundKind.reach_good reply.name.length records
    rw [← hrecords, rowKinds] at hreach
    rw [hnameLength] at hfits
    have hmul : records.length * (reply.name.length + 1 + 45) =
        records.length * (reply.name.length + 46) := rfl
    obtain ⟨hover, -⟩ | ⟨-, out, hout, hends⟩ := hrun
    · omega
    · obtain ⟨r', rfl, hstores'⟩ := hends.good records hrecords
      have hcounts := Dns.counts_le hmsg.parses
      have hcap := hmem.length_le
      have hpad := padding.isLt
      rw [r.length_mem] at hcap
      unfold dataCapacity at hcap hfits
      have hmany : records.length ≤ records.length * (reply.name.length + 46) :=
        Nat.le_mul_of_pos_right _ (by omega)
      have hcount : message.header.arcount.toNat + records.length < 65536 := by omega
      refine ⟨_, _, hout, rfl, ?_, ?_, ?_⟩
      · rw [hstores'.dataLength, ← List.prefix_iff_eq_take.mp hstores'.mem]
        exact parseMessage_withRecords reply records hname hmsg.length_name_lt hmsg.parses hcount
      · rw [BitVec.toNat_add, BitVec.toNat_ofNat,
          Nat.mod_eq_of_lt (by omega : records.length < 65536), Nat.mod_eq_of_lt hcount]
      · rw [hstores'.dataLength, ← List.prefix_iff_eq_take.mp hstores'.mem]
        exact (extends_withRecords reply records).getElem?_eq
  · intro hbad out hout
    obtain ⟨-, hnone⟩ | ⟨-, out', hout', hends⟩ := hrun
    · cases hnone.symm.trans hout
    · obtain rfl := Option.some.inj (hout'.symm.trans hout)
      exact hends.bad hbad

/-- The name `a`. -/
def nameA : List Dns.Label := [.ofByte 97]

/-- An answer with the address of `a`; the owner of the record is a pointer to the question. -/
def answerA : List Dns.Byte :=
  Dns.word16 7 ++ Dns.word16 0x8180 ++ Dns.word16 1 ++ Dns.word16 1 ++ Dns.word16 0 ++
    Dns.word16 0 ++ Dns.encodeName nameA ++ Dns.word16 28 ++ Dns.word16 1 ++ [192, 12] ++
    Dns.word16 28 ++ Dns.word16 1 ++ Dns.word16 0 ++ Dns.word16 60 ++ Dns.word16 16 ++
    List.replicate 16 1

def messageA : Dns.Message where
  header := ⟨7, 0x8180, 1, 1, 0, 0⟩
  questions := [⟨nameA, 28, 1⟩]
  answers := [⟨nameA, 28, 1, 60, List.replicate 16 1⟩]
  authority := []
  additional := []

theorem wellFormedReply_answerA : WellFormedReply answerA messageA ⟨nameA, 28, 1⟩ where
  parses := by decide +kernel
  one := rfl
  uncompressed := ⟨answerA.take 12, answerA.drop 15, by decide +kernel, rfl⟩
  nonzero := by decide

/-- The answer in its memory. -/
def bufA : ReplyBuf 0 := replyWith answerA (by decide)

/-- Two providers give two records. -/
theorem reply_parses_two :
    ∃ out bytes, bufA.readFlowstate (providersLoads 2) unspecifiedPton (providersRow 2) = some out ∧
      ReplyBuf.sent out = some bytes ∧
      SentWith answerA messageA nameA [⟨0, 0, 64, 0⟩, ⟨0, 0, 64, 0⟩] bytes :=
  (reply_parses (providersLoads 2) unspecifiedPton (providersRow 2) bufA answerA messageA
    ⟨nameA, 28, 1⟩ wellFormedReply_answerA (List.prefix_append _ _) rfl).1
    [⟨0, 0, 64, 0⟩, ⟨0, 0, 64, 0⟩] (by decide +kernel) (by decide +kernel)

end Srn
