import Srn.Flowstate.Sent

/-!
# Srn.Flowstate.Reject

The answer to an application whose request the controller has refused (`read_flowreq` of
`sr-dnsproxy/monitor.c`, from the point where it has found the reply).  The function marks the reply
of the server as refused, clears its counters and cuts it behind the question.

`DNS_HEADER_SET_RCODE` of c-ares sets the bits of the code and clears none.  `reject_parses` states
what a parser reads from the bytes that are sent.
-/

namespace Srn

namespace ReplyBuf

variable {padding : Fin 8}

/-- The loop to the end of the name behind the header, from byte `i` on; `none` if it leaves the
allocation, which it has done after as many rounds as the allocation has bytes. -/
def nameEnd (mem : List Dns.Byte) : ℕ → ℕ → Option ℕ
  | 0, _ => none
  | fuel + 1, i => mem[12 + i]?.bind fun c => if c = 0 then some i else nameEnd mem fuel (i + 1)

/-- The reject in the place of the reply. -/
def reject (r : ReplyBuf padding) : Option (ReplyBuf padding) := do
  let flags ← r.mem[3]?
  let r ← r.write 3 [flags ||| 5]
  let r ← r.write 6 (Dns.word16 0)
  let r ← r.write 8 (Dns.word16 0)
  let r ← r.write 10 (Dns.word16 0)
  let i ← nameEnd r.mem (r.mem.length + 1) 0
  return { r with dataLength := 12 + i + 1 + 4 }

/-- The bytes that `sendto` sends, if they are all inside the allocation. -/
def rejected (r : ReplyBuf padding) : Option (List Dns.Byte) :=
  r.reject.bind fun r =>
    if r.dataLength ≤ dataCapacity padding then some (r.mem.take r.dataLength) else none

/-- **Run lemma** of the loop: it stops at the first zero. -/
theorem nameEnd_eq {mem head seen todo rest : List Dns.Byte} {fuel : ℕ} (hhead : head.length = 12)
    (htodo : 0 ∉ todo) (hmem : head ++ (seen ++ (todo ++ 0 :: rest)) <+: mem)
    (hfuel : todo.length < fuel) :
    nameEnd mem fuel seen.length = some (seen.length + todo.length) := by
  obtain ⟨junk, hmem⟩ := hmem
  induction todo generalizing seen fuel with
  | nil =>
    obtain ⟨fuel, rfl⟩ : ∃ k, fuel = k + 1 := ⟨fuel - 1, by omega⟩
    have hget : mem[12 + seen.length]? = some 0 := by
      rw [← hmem, ← hhead]
      simp
    simp [nameEnd, hget]
  | cons c todo ih =>
    obtain ⟨fuel, rfl⟩ : ∃ k, fuel = k + 1 := ⟨fuel - 1, by omega⟩
    have hget : mem[12 + seen.length]? = some c := by
      rw [← hmem, ← hhead]
      simp
    have hne : c ≠ 0 := by
      rintro rfl
      exact htodo (by simp)
    have hrest := @ih (seen ++ [c]) fuel (fun h => htodo (List.mem_cons_of_mem c h))
      (by simpa using hfuel) (by rw [← hmem]; simp)
    rw [List.length_append, List.length_singleton] at hrest
    rw [nameEnd, hget, Option.bind_some, if_neg hne, hrest, List.length_cons]
    congr 1
    omega

end ReplyBuf

/-- The header that is sent for a refused request. -/
def rejectHeader (header : Dns.Header) : Dns.Header :=
  { header with flags := header.flags ||| 5, ancount := 0, nscount := 0, arcount := 0 }

/-- A message with one question announces one. -/
theorem WellFormedReply.parseQuestion_eq {msg : List Dns.Byte} {message : Dns.Message}
    {question : Dns.Question} (h : WellFormedReply msg message question) :
    message.header.qdcount = 1 ∧ ∃ next, Dns.parseQuestion msg 12 = some (question, next) := by
  obtain ⟨header, -, hbody⟩ := Dns.parseMessage_eq_some_iff.mp h.parses
  obtain ⟨first, -, -, hquestions, -, -, -, rfl⟩ := Dns.parseBody_eq_some hbody
  rw [h.one] at hquestions
  have hone : message.header.qdcount.toNat = 1 ∧
      ∃ next, Dns.parseQuestion msg 12 = some (question, next) := by
    generalize message.header.qdcount.toNat = n at hquestions
    cases n with
    | zero => simp [Dns.parseMany] at hquestions
    | succ n =>
      obtain ⟨out, rest, hout, hrest, heq⟩ := Dns.parseMany_succ_eq_some hquestions
      obtain ⟨rfl, hnil⟩ := List.cons.inj (congrArg Prod.fst heq)
      refine ⟨?_, out.2, hout⟩
      cases n with
      | zero => rfl
      | succ n =>
        obtain ⟨out', rest', -, -, rfl⟩ := Dns.parseMany_succ_eq_some hrest
        contradiction
  exact ⟨BitVec.eq_of_toNat_eq hone.1, hone.2⟩

/-- A well-formed reply is a header, a question and what follows. -/
theorem WellFormedReply.exists_encode {msg : List Dns.Byte} {message : Dns.Message}
    {question : Dns.Question} (h : WellFormedReply msg message question) :
    ∃ rest, msg = message.header.encode ++ (question.encode ++ rest) := by
  obtain ⟨header, hheader, hbody⟩ := Dns.parseMessage_eq_some_iff.mp h.parses
  obtain ⟨-, -, -, -, -, -, -, rfl⟩ := Dns.parseBody_eq_some hbody
  obtain ⟨body, hmsg⟩ := Dns.exists_of_parseHeader hheader
  obtain ⟨-, next, hquestion⟩ := h.parseQuestion_eq
  obtain ⟨pos, hname, hqtype, hqclass, -⟩ := Dns.parseQuestion_eq_some hquestion
  rw [h.uncompressed.parseName_eq h.length_name_lt, Option.some.injEq, Prod.mk.injEq] at hname
  obtain ⟨-, rfl⟩ := hname
  have hholds : Dns.Holds msg 12 question.encode :=
    h.uncompressed.append
      ((Dns.holds_of_word16At hqtype).append (Dns.holds_of_word16At hqclass))
  obtain ⟨before, rest, hsplit, hbefore⟩ := hholds
  rw [hmsg] at hsplit
  refine ⟨rest, ?_⟩
  rw [hmsg, hsplit, List.append_inj_left hsplit (by rw [Dns.Header.length_encode, hbefore])]

/-- The low byte of the flags, with the code. -/
theorem word16_or_five (flags : BitVec 16) :
    Dns.word16 (flags ||| 5) = [flags.extractLsb' 8 8, flags.extractLsb' 0 8 ||| 5] := by
  simp [Dns.word16, BitVec.extractLsb'_or]

/-- What the writes make of a message with a header and a name. -/
theorem ReplyBuf.reject_eq {padding : Fin 8} {r : ReplyBuf padding} {header : Dns.Header}
    {name rest : List Dns.Byte} (hname : 0 ∉ name)
    (hmem : header.encode ++ (name ++ 0 :: rest) <+: r.mem) :
    ∃ r', r.reject = some r' ∧ r'.dataLength = 12 + name.length + 1 + 4 ∧
      (rejectHeader header).encode ++ (name ++ 0 :: rest) <+: r'.mem := by
  have hlow : r.mem[3]? = some (header.flags.extractLsb' 0 8) := by
    obtain ⟨junk, hjunk⟩ := hmem
    rw [← hjunk]
    rfl
  have hsplit : header.encode ++ (name ++ 0 :: rest) =
      (Dns.word16 header.id ++ [header.flags.extractLsb' 8 8]) ++ ([header.flags.extractLsb' 0 8] ++
        (Dns.word16 header.qdcount ++ (Dns.word16 header.ancount ++ (Dns.word16 header.nscount ++
          (Dns.word16 header.arcount ++ (name ++ 0 :: rest)))))) := by
    simp [Dns.Header.encode, Dns.word16]
  rw [hsplit] at hmem
  obtain ⟨r₁, hwrite₁, hmem₁, -⟩ := ReplyBuf.write_replace hmem
    (show [header.flags.extractLsb' 0 8 ||| 5].length = _ from rfl)
  have hmem₁ : (Dns.word16 header.id ++ (Dns.word16 (header.flags ||| 5) ++
      Dns.word16 header.qdcount)) ++ (Dns.word16 header.ancount ++ (Dns.word16 header.nscount ++
        (Dns.word16 header.arcount ++ (name ++ 0 :: rest)))) <+: r₁.mem := by
    rw [word16_or_five]
    simpa using hmem₁
  generalize hfront : Dns.word16 header.id ++ (Dns.word16 (header.flags ||| 5) ++
    Dns.word16 header.qdcount) = front at hmem₁
  have hlen : front.length = 6 := by rw [← hfront]; rfl
  obtain ⟨r₂, hwrite₂, hmem₂, -⟩ := ReplyBuf.write_replace hmem₁
    (show (Dns.word16 0).length = _ from rfl)
  rw [← List.append_assoc] at hmem₂
  obtain ⟨r₃, hwrite₃, hmem₃, -⟩ := ReplyBuf.write_replace hmem₂
    (show (Dns.word16 0).length = _ from rfl)
  rw [← List.append_assoc] at hmem₃
  obtain ⟨r₄, hwrite₄, hmem₄, -⟩ := ReplyBuf.write_replace hmem₃
    (show (Dns.word16 0).length = _ from rfl)
  have hencode : (rejectHeader header).encode ++ (name ++ 0 :: rest) =
      (front ++ Dns.word16 0 ++ Dns.word16 0) ++ (Dns.word16 0 ++ (name ++ 0 :: rest)) := by
    rw [← hfront]
    simp [Dns.Header.encode, rejectHeader]
  rw [← hencode] at hmem₄
  have hfuel : name.length < r₄.mem.length + 1 := by
    have hle := hmem₄.length_le
    simp at hle
    omega
  have hend : ReplyBuf.nameEnd r₄.mem (r₄.mem.length + 1) 0 = some (0 + name.length) :=
    @ReplyBuf.nameEnd_eq _ _ [] _ _ _ (Dns.Header.length_encode _) hname hmem₄ hfuel
  simp only [List.length_append, Dns.length_word16, hlen, List.length_singleton, Nat.reduceAdd]
    at hwrite₁ hwrite₂ hwrite₃ hwrite₄
  refine ⟨{ r₄ with dataLength := 12 + name.length + 1 + 4 }, ?_, rfl, hmem₄⟩
  simp only [ReplyBuf.reject, hlow, hwrite₁, hwrite₂, hwrite₃, hwrite₄, hend,
    Option.bind_eq_bind, Option.bind_some, Nat.zero_add]
  rfl

/-- **Main theorem.**  For a well-formed reply of the server, the reject is the question of the
reply with its identifier, without any record, and with the bits of the code `REFUSED` set. -/
theorem reject_parses {padding : Fin 8} (r : ReplyBuf padding) (msg : List Dns.Byte)
    (message : Dns.Message) (question : Dns.Question)
    (hmsg : WellFormedReply msg message question) (hmem : msg <+: r.mem) :
    ∃ bytes, r.rejected = some bytes ∧ Dns.parseMessage bytes =
      some ⟨rejectHeader message.header, [question], [], [], []⟩ := by
  obtain ⟨rest, rfl⟩ := hmsg.exists_encode
  have hname := zero_notMem_labels hmsg.nonzero
  have hquestion : question.encode ++ rest = question.name.flatMap Dns.Label.encode ++
      0 :: (Dns.word16 question.qtype ++ (Dns.word16 question.qclass ++ rest)) := by
    simp [Dns.Question.encode, Dns.encodeName]
  rw [hquestion] at hmem
  obtain ⟨r', hreject, hlength, hmem'⟩ := ReplyBuf.reject_eq hname hmem
  have hlen : ((rejectHeader message.header).encode ++ question.encode).length = r'.dataLength := by
    rw [hlength]
    simp [Dns.Header.length_encode, Dns.Question.encode, Dns.encodeName, Dns.length_word16]
    omega
  rw [← hquestion, ← List.append_assoc] at hmem'
  have hbegins := (List.prefix_append _ _).trans hmem'
  have hcap := hbegins.length_le
  rw [r'.length_mem, hlen] at hcap
  refine ⟨(rejectHeader message.header).encode ++ question.encode, ?_, ?_⟩
  · rw [ReplyBuf.rejected, hreject, Option.bind_some, if_pos hcap, ← hlen,
      ← List.prefix_iff_eq_take.mp hbegins]
  · exact Dns.parseMessage_question hmsg.length_name_lt hmsg.parseQuestion_eq.1 rfl rfl rfl

/-- The reject of an answer. -/
theorem reject_parses_answerA :
    ∃ bytes, bufA.rejected = some bytes ∧
      Dns.parseMessage bytes = some ⟨⟨7, 0x8185, 1, 0, 0, 0⟩, [⟨nameA, 28, 1⟩], [], [], []⟩ :=
  reject_parses bufA answerA messageA ⟨nameA, 28, 1⟩ wellFormedReply_answerA
    (List.prefix_append _ _)

end Srn
