import Mathlib.Data.List.Basic
import Mathlib.Data.Nat.Notation

/-!
# Dns

The wire format of DNS messages: a header of twelve bytes, then questions and three sections of
resource records.  A name is a row of labels that ends in a zero byte or in a pointer to an earlier
name.

`parseMessage` is a parser for whole messages.  It looks at no byte of the header when it reads a
name, a question or a record, so that these are read in the same way from a message that has
another header and more bytes at its end (`Extends`).
-/

namespace Dns

/-- A byte of a message. -/
abbrev Byte := BitVec 8

/-! ## Bytes -/

/-- A number of 16 bits, the high byte first. -/
def word16 (v : BitVec 16) : List Byte := [v.extractLsb' 8 8, v.extractLsb' 0 8]

theorem length_word16 (v : BitVec 16) : (word16 v).length = 2 := rfl

/-- The number at a position. -/
def word16At (msg : List Byte) (pos : ℕ) : Option (BitVec 16) :=
  msg[pos]?.bind fun high => msg[pos + 1]?.map fun low => high ++ low

/-- The `n` bytes at a position, if they are all there. -/
def bytesAt (msg : List Byte) (pos n : ℕ) : Option (List Byte) :=
  if pos + n ≤ msg.length then some ((msg.drop pos).take n) else none

/-! ## Messages -/

/-- A label of a name. -/
structure Label where
  bytes : List Byte
  ne_nil : bytes ≠ []
  length_le : bytes.length ≤ 63
  deriving DecidableEq

/-- The label of a single byte. -/
def Label.ofByte (byte : Byte) : Label :=
  ⟨[byte], List.cons_ne_nil _ _, Nat.le_of_ble_eq_true rfl⟩

/-- The label of the given bytes. -/
def Label.ofBytes? (bytes : List Byte) : Option Label :=
  if h : bytes ≠ [] ∧ bytes.length ≤ 63 then some ⟨bytes, h.1, h.2⟩ else none

/-- A label behind its length. -/
def Label.encode (label : Label) : List Byte := BitVec.ofNat 8 label.bytes.length :: label.bytes

/-- The labels of a name and the zero byte behind them. -/
def encodeName (labels : List Label) : List Byte := labels.flatMap Label.encode ++ [0]

structure Header where
  id : BitVec 16
  flags : BitVec 16
  qdcount : BitVec 16
  ancount : BitVec 16
  nscount : BitVec 16
  arcount : BitVec 16
  deriving DecidableEq

structure Question where
  name : List Label
  qtype : BitVec 16
  qclass : BitVec 16
  deriving DecidableEq

structure Record where
  owner : List Label
  type : BitVec 16
  rrclass : BitVec 16
  ttl : BitVec 32
  rdata : List Byte
  deriving DecidableEq

structure Message where
  header : Header
  questions : List Question
  answers : List Record
  authority : List Record
  additional : List Record
  deriving DecidableEq

/-- A record with an uncompressed owner. -/
def Record.encode (r : Record) : List Byte :=
  encodeName r.owner ++ word16 r.type ++ word16 r.rrclass ++ word16 (r.ttl.extractLsb' 16 16) ++
    word16 (r.ttl.extractLsb' 0 16) ++ word16 (BitVec.ofNat 16 r.rdata.length) ++ r.rdata

/-! ## Parsers -/

/-- What follows the first bytes of a name: its end, a label or a pointer to an earlier place. -/
inductive NamePart where
  | stop
  | label (label : Label) (next : ℕ)
  | pointer (target : ℕ)

/-- The part of a name at a position. -/
def namePartAt (msg : List Byte) (pos : ℕ) : Option NamePart :=
  msg[pos]?.bind fun len =>
    if len = 0 then some .stop
    else if len.toNat < 64 then
      (bytesAt msg (pos + 1) len.toNat).bind fun bytes =>
        (Label.ofBytes? bytes).map fun label => .label label (pos + 1 + len.toNat)
    else if 192 ≤ len.toNat then
      msg[pos + 1]?.bind fun low =>
        let target := (len.toNat - 192) * 256 + low.toNat
        if 12 ≤ target ∧ target < pos then some (.pointer target) else none
    else none

/-- The labels of the name at a position and the position behind it. -/
def parseName (msg : List Byte) : ℕ → ℕ → Option (List Label × ℕ)
  | 0, _ => none
  | fuel + 1, pos =>
    (namePartAt msg pos).bind fun part =>
      match part with
      | .stop => some ([], pos + 1)
      | .label label next =>
        (parseName msg fuel next).map fun out => (label :: out.1, out.2)
      | .pointer target => (parseName msg fuel target).map fun out => (out.1, pos + 2)

/-- More parts than a name of 255 bytes can have. -/
def nameFuel : ℕ := 256

/-- The question at a position. -/
def parseQuestion (msg : List Byte) (pos : ℕ) : Option (Question × ℕ) := do
  let (name, pos) ← parseName msg nameFuel pos
  let qtype ← word16At msg pos
  let qclass ← word16At msg (pos + 2)
  return (⟨name, qtype, qclass⟩, pos + 4)

/-- The record at a position. -/
def parseRecord (msg : List Byte) (pos : ℕ) : Option (Record × ℕ) := do
  let (owner, pos) ← parseName msg nameFuel pos
  let type ← word16At msg pos
  let rrclass ← word16At msg (pos + 2)
  let ttlHigh ← word16At msg (pos + 4)
  let ttlLow ← word16At msg (pos + 6)
  let rdlength ← word16At msg (pos + 8)
  let rdata ← bytesAt msg (pos + 10) rdlength.toNat
  return (⟨owner, type, rrclass, ttlHigh ++ ttlLow, rdata⟩, pos + 10 + rdlength.toNat)

/-- As many items in a row. -/
def parseMany {α : Type} (item : ℕ → Option (α × ℕ)) : ℕ → ℕ → Option (List α × ℕ)
  | 0, pos => some ([], pos)
  | n + 1, pos =>
    (item pos).bind fun first =>
      (parseMany item n first.2).map fun rest => (first.1 :: rest.1, rest.2)

/-- The header of a message. -/
def parseHeader (msg : List Byte) : Option Header := do
  let id ← word16At msg 0
  let flags ← word16At msg 2
  let qdcount ← word16At msg 4
  let ancount ← word16At msg 6
  let nscount ← word16At msg 8
  let arcount ← word16At msg 10
  return ⟨id, flags, qdcount, ancount, nscount, arcount⟩

/-- The items behind a header, and the position behind them. -/
def parseBody (msg : List Byte) (header : Header) : Option (Message × ℕ) := do
  let (questions, pos) ← parseMany (parseQuestion msg) header.qdcount.toNat 12
  let (answers, pos) ← parseMany (parseRecord msg) header.ancount.toNat pos
  let (authority, pos) ← parseMany (parseRecord msg) header.nscount.toNat pos
  let (additional, pos) ← parseMany (parseRecord msg) header.arcount.toNat pos
  return (⟨header, questions, answers, authority, additional⟩, pos)

/-- A whole message, without bytes behind it. -/
def parseMessage (msg : List Byte) : Option Message := do
  let header ← parseHeader msg
  let (message, pos) ← parseBody msg header
  if pos = msg.length then some message else none

theorem word16At_append_left {front back : List Byte} {pos : ℕ} (h : pos + 2 ≤ front.length) :
    word16At (front ++ back) pos = word16At front pos := by
  rw [word16At, word16At, List.getElem?_append_left (by omega),
    List.getElem?_append_left (by omega)]

theorem exists_word16At_iff {msg : List Byte} {pos : ℕ} :
    (∃ v, word16At msg pos = some v) ↔ pos + 2 ≤ msg.length := by
  constructor
  · rintro ⟨v, hv⟩
    obtain ⟨high, -, hv⟩ := Option.bind_eq_some_iff.mp hv
    obtain ⟨low, hlow, -⟩ := Option.map_eq_some_iff.mp hv
    obtain ⟨hlt, -⟩ := List.getElem?_eq_some_iff.mp hlow
    omega
  · intro hle
    rw [word16At, List.getElem?_eq_getElem (by omega), List.getElem?_eq_getElem (by omega)]
    exact ⟨_, rfl⟩

/-! ## Bytes at a position -/

/-- The message has these bytes at a position. -/
def Holds (msg : List Byte) (pos : ℕ) (bytes : List Byte) : Prop :=
  ∃ before after, msg = before ++ (bytes ++ after) ∧ before.length = pos

section

variable {msg bytes bytes' : List Byte} {pos : ℕ}

theorem Holds.left (h : Holds msg pos (bytes ++ bytes')) : Holds msg pos bytes := by
  obtain ⟨before, after, rfl, rfl⟩ := h
  exact ⟨before, bytes' ++ after, by simp, rfl⟩

theorem Holds.right (h : Holds msg pos (bytes ++ bytes')) :
    Holds msg (pos + bytes.length) bytes' := by
  obtain ⟨before, after, rfl, rfl⟩ := h
  exact ⟨before ++ bytes, after, by simp, by simp⟩

theorem Holds.tail {b : Byte} (h : Holds msg pos (b :: bytes)) : Holds msg (pos + 1) bytes := by
  obtain ⟨before, after, rfl, rfl⟩ := h
  exact ⟨before ++ [b], after, by simp, by simp⟩

theorem Holds.length_le (h : Holds msg pos bytes) : pos + bytes.length ≤ msg.length := by
  obtain ⟨before, after, rfl, rfl⟩ := h
  simp

theorem Holds.getElem?_eq {b : Byte} (h : Holds msg pos (b :: bytes)) : msg[pos]? = some b := by
  obtain ⟨before, after, rfl, rfl⟩ := h
  simp

theorem Holds.bytesAt_eq (h : Holds msg pos bytes) : bytesAt msg pos bytes.length = some bytes := by
  have hlen := h.length_le
  obtain ⟨before, after, rfl, rfl⟩ := h
  rw [bytesAt, if_pos hlen]
  simp

theorem append_extractLsb' (v : BitVec 16) : v.extractLsb' 8 8 ++ v.extractLsb' 0 8 = v :=
  (BitVec.extractLsb'_append_extractLsb'_eq_extractLsb' (by rfl)).trans BitVec.extractLsb'_eq_self

theorem Holds.word16At_eq {v : BitVec 16} (h : Holds msg pos (word16 v)) :
    word16At msg pos = some v := by
  have hlow : msg[pos + 1]? = some (v.extractLsb' 0 8) := (Holds.tail h).getElem?_eq
  rw [word16At, h.getElem?_eq, hlow]
  exact congrArg some (append_extractLsb' v)

end

/-! ## Encoded names and records are read back -/

section

variable {msg : List Byte} {pos : ℕ}

theorem Label.length_encode (label : Label) : label.encode.length = label.bytes.length + 1 := by
  simp [Label.encode]

theorem Label.ofBytes?_bytes (label : Label) : Label.ofBytes? label.bytes = some label := by
  rw [Label.ofBytes?, dif_pos ⟨label.ne_nil, label.length_le⟩]

theorem encodeName_cons (label : Label) (labels : List Label) :
    encodeName (label :: labels) = label.encode ++ encodeName labels := by
  simp [encodeName]

theorem Holds.namePartAt_stop (h : Holds msg pos [0]) : namePartAt msg pos = some .stop := by
  simp [namePartAt, h.getElem?_eq]

theorem Holds.namePartAt_label {label : Label} (h : Holds msg pos label.encode) :
    namePartAt msg pos = some (.label label (pos + label.encode.length)) := by
  have hpos := List.length_pos_iff.mpr label.ne_nil
  have hle := label.length_le
  have hlen : (BitVec.ofNat 8 label.bytes.length).toNat = label.bytes.length := by
    rw [BitVec.toNat_ofNat]
    omega
  have hne : BitVec.ofNat 8 label.bytes.length ≠ 0 := by
    intro heq
    rw [heq] at hlen
    simp at hlen
    omega
  have hbytes : Holds msg (pos + 1) label.bytes := Holds.tail h
  rw [namePartAt, h.getElem?_eq, Option.bind_some, if_neg hne, hlen, if_pos (by omega),
    hbytes.bytesAt_eq, Option.bind_some, label.ofBytes?_bytes, Option.map_some,
    label.length_encode, Nat.add_assoc, Nat.add_comm 1]

/-- A name without pointers is read back. -/
theorem Holds.parseName_eq {labels : List Label} {fuel : ℕ} (h : Holds msg pos (encodeName labels))
    (hfuel : labels.length < fuel) :
    parseName msg fuel pos = some (labels, pos + (encodeName labels).length) := by
  induction labels generalizing pos fuel with
  | nil =>
    obtain ⟨fuel, rfl⟩ := Nat.exists_eq_succ_of_ne_zero (Nat.ne_zero_of_lt hfuel)
    rw [parseName, Holds.namePartAt_stop h]
    rfl
  | cons label labels ih =>
    obtain ⟨fuel, rfl⟩ := Nat.exists_eq_succ_of_ne_zero (Nat.ne_zero_of_lt hfuel)
    rw [encodeName_cons] at h ⊢
    have hrest := ih h.right (Nat.lt_of_succ_lt_succ hfuel)
    rw [parseName, h.left.namePartAt_label, Option.bind_some]
    simp only [hrest, Option.map_some, List.length_append, Nat.add_assoc]

/-- A record with an uncompressed owner is read back. -/
theorem Holds.parseRecord_eq {r : Record} (h : Holds msg pos r.encode)
    (howner : r.owner.length < nameFuel) (hrdata : r.rdata.length < 65536) :
    parseRecord msg pos = some (r, pos + r.encode.length) := by
  have hlength : (BitVec.ofNat 16 r.rdata.length).toNat = r.rdata.length := by
    rw [BitVec.toNat_ofNat, Nat.mod_eq_of_lt hrdata]
  have httl : r.ttl.extractLsb' 16 16 ++ r.ttl.extractLsb' 0 16 = r.ttl :=
    (BitVec.extractLsb'_append_extractLsb'_eq_extractLsb' (by rfl)).trans
      BitVec.extractLsb'_eq_self
  unfold Record.encode at h
  have hname := h.left.left.left.left.left.left.parseName_eq howner
  have htype := h.left.left.left.left.left.right.word16At_eq
  have hclass := h.left.left.left.left.right.word16At_eq
  have hhigh := h.left.left.left.right.word16At_eq
  have hlow := h.left.left.right.word16At_eq
  have hrdlength := h.left.right.word16At_eq
  have hbytes := h.right.bytesAt_eq
  simp only [List.length_append, length_word16, Nat.add_assoc, Nat.reduceAdd]
    at hname htype hclass hhigh hlow hrdlength hbytes
  simp only [parseRecord, Record.encode, hname, Option.bind_eq_bind, Option.bind_some,
    Nat.add_assoc, htype, hclass, hhigh, hlow, hrdlength, hlength, hbytes, httl,
    List.length_append, length_word16, Nat.reduceAdd]
  rfl

end

/-! ## Items in a row -/

section

variable {α : Type} {item item' : ℕ → Option (α × ℕ)} {n : ℕ} {pos : ℕ} {out : List α × ℕ}

theorem parseMany_succ_eq_some {m : ℕ} (h : parseMany item (m + 1) pos = some out) :
    ∃ first rest, item pos = some first ∧ parseMany item m first.2 = some rest ∧
      out = (first.1 :: rest.1, rest.2) := by
  rw [parseMany, Option.bind_eq_some_iff] at h
  obtain ⟨first, hfirst, h⟩ := h
  obtain ⟨rest, hrest, rfl⟩ := Option.map_eq_some_iff.mp h
  exact ⟨first, rest, hfirst, hrest, rfl⟩

/-- Items of at least `width` bytes. -/
theorem parseMany_width {width : ℕ}
    (hitem : ∀ pos first, item pos = some first → pos + width ≤ first.2)
    (h : parseMany item n pos = some out) : pos + n * width ≤ out.2 := by
  induction n generalizing pos out with
  | zero =>
    obtain rfl : ([], pos) = out := by simpa [parseMany] using h
    simp
  | succ n ih =>
    obtain ⟨first, rest, hfirst, hrest, rfl⟩ := parseMany_succ_eq_some h
    have hstep := hitem pos first hfirst
    have hrun := ih hrest
    rw [Nat.succ_mul]
    omega

/-- A reader that agrees from a position on. -/
theorem parseMany_congr {start : ℕ} (hstart : start ≤ pos)
    (hitem : ∀ pos first, start ≤ pos → item pos = some first →
      item' pos = some first ∧ pos ≤ first.2)
    (h : parseMany item n pos = some out) : parseMany item' n pos = some out := by
  induction n generalizing pos out with
  | zero => simpa [parseMany] using h
  | succ n ih =>
    obtain ⟨first, rest, hfirst, hrest, rfl⟩ := parseMany_succ_eq_some h
    obtain ⟨hfirst', hle⟩ := hitem pos first hstart hfirst
    rw [parseMany, hfirst', Option.bind_some, ih (Nat.le_trans hstart hle) hrest, Option.map_some]

theorem parseMany_append {m : ℕ} {more : List α × ℕ} (h : parseMany item n pos = some out)
    (hmore : parseMany item m out.2 = some more) :
    parseMany item (n + m) pos = some (out.1 ++ more.1, more.2) := by
  induction n generalizing pos out with
  | zero =>
    obtain rfl : ([], pos) = out := by simpa [parseMany] using h
    rw [Nat.zero_add, hmore]
    rfl
  | succ n ih =>
    obtain ⟨first, rest, hfirst, hrest, rfl⟩ := parseMany_succ_eq_some h
    rw [Nat.succ_add, parseMany, hfirst, Option.bind_some, ih hrest hmore]
    rfl

/-- Encoded items are read back. -/
theorem Holds.parseMany_eq {msg : List Byte} {encode : α → List Byte} {xs : List α}
    (hitem : ∀ x ∈ xs, ∀ pos, Holds msg pos (encode x) →
      item pos = some (x, pos + (encode x).length))
    (h : Holds msg pos (xs.flatMap encode)) :
    parseMany item xs.length pos = some (xs, pos + (xs.flatMap encode).length) := by
  induction xs generalizing pos with
  | nil => simp [parseMany]
  | cons x xs ih =>
    rw [List.forall_mem_cons] at hitem
    rw [List.flatMap_cons] at h ⊢
    rw [List.length_cons, parseMany, hitem.1 pos h.left, Option.bind_some,
      ih hitem.2 h.right, Option.map_some, List.length_append, Nat.add_assoc]

end

/-! ## Messages with more behind them -/

/-- The second message has the bytes behind the header of the first, at the same place. -/
structure Extends (msg msg' : List Byte) : Prop where
  length_le : msg.length ≤ msg'.length
  getElem?_eq : ∀ i, 12 ≤ i → i < msg.length → msg'[i]? = msg[i]?

section

variable {msg msg' : List Byte} {pos : ℕ}

/-- Other bytes in the header, and more bytes at the end. -/
theorem extends_append {head head' body more : List Byte} (hhead : head.length = 12)
    (hhead' : head'.length = 12) : Extends (head ++ body) (head' ++ (body ++ more)) where
  length_le := by
    simp only [List.length_append]
    omega
  getElem?_eq := by
    intro i hi hlt
    rw [List.length_append] at hlt
    rw [List.getElem?_append_right (show head'.length ≤ i by omega),
      List.getElem?_append_right (show head.length ≤ i by omega), hhead, hhead',
      List.getElem?_append_left (by omega)]

/-- The last counter of a header. -/
theorem parseHeader_append {front back back' : List Byte} (hfront : front.length = 10)
    {v : BitVec 16} {header : Header}
    (h : parseHeader (front ++ (word16 v ++ back)) = some header) (v' : BitVec 16) :
    header.arcount = v ∧
      parseHeader (front ++ (word16 v' ++ back')) = some { header with arcount := v' } := by
  have hlast : ∀ w rest, word16At (front ++ (word16 w ++ rest)) 10 = some w := fun w rest =>
    Holds.word16At_eq ⟨front, rest, rfl, hfront⟩
  simp only [parseHeader, hlast, word16At_append_left (show 0 + 2 ≤ front.length by omega),
    word16At_append_left (show 2 + 2 ≤ front.length by omega),
    word16At_append_left (show 4 + 2 ≤ front.length by omega),
    word16At_append_left (show 6 + 2 ≤ front.length by omega),
    word16At_append_left (show 8 + 2 ≤ front.length by omega), Option.bind_eq_bind,
    Option.bind_some, Option.bind_eq_some_iff, Option.pure_def, Option.some.injEq] at h ⊢
  obtain ⟨id, hid, flags, hflags, qdcount, hqd, ancount, han, nscount, hns, rfl⟩ := h
  exact ⟨rfl, id, hid, flags, hflags, qdcount, hqd, ancount, han, nscount, hns, rfl⟩

theorem Extends.byte (h : Extends msg msg') (hpos : 12 ≤ pos) {b : Byte} (hb : msg[pos]? = some b) :
    msg'[pos]? = some b := by
  obtain ⟨hlt, -⟩ := List.getElem?_eq_some_iff.mp hb
  rw [h.getElem?_eq pos hpos hlt, hb]

theorem Extends.word16At_eq (h : Extends msg msg') (hpos : 12 ≤ pos) {v : BitVec 16}
    (hv : word16At msg pos = some v) : word16At msg' pos = some v := by
  obtain ⟨high, hhigh, hv⟩ := Option.bind_eq_some_iff.mp hv
  obtain ⟨low, hlow, rfl⟩ := Option.map_eq_some_iff.mp hv
  rw [word16At, h.byte hpos hhigh, Option.bind_some, h.byte (by omega) hlow, Option.map_some]

theorem bytesAt_eq_some_iff {n : ℕ} {bytes : List Byte} :
    bytesAt msg pos n = some bytes ↔ pos + n ≤ msg.length ∧ (msg.drop pos).take n = bytes := by
  unfold bytesAt
  split
  · next hle => simp [hle]
  · next hle => simp [hle]

theorem Extends.bytesAt_eq (h : Extends msg msg') (hpos : 12 ≤ pos) {n : ℕ} {bytes : List Byte}
    (hbytes : bytesAt msg pos n = some bytes) : bytesAt msg' pos n = some bytes := by
  obtain ⟨hle, rfl⟩ := bytesAt_eq_some_iff.mp hbytes
  refine bytesAt_eq_some_iff.mpr ⟨Nat.le_trans hle h.length_le, List.ext_getElem? fun i => ?_⟩
  by_cases hi : i < n
  · rw [List.getElem?_take_of_lt hi, List.getElem?_take_of_lt hi, List.getElem?_drop,
      List.getElem?_drop, h.getElem?_eq (pos + i) (by omega) (by omega)]
  · rw [List.getElem?_take_eq_none (by omega), List.getElem?_take_eq_none (by omega)]

/-- Where the parts of a name lead to. -/
theorem namePartAt_cases {part : NamePart} (h : namePartAt msg pos = some part) :
    (msg[pos]? = some 0 ∧ part = .stop) ∨
    (∃ len bytes label, msg[pos]? = some len ∧ len ≠ 0 ∧ len.toNat < 64 ∧
      bytesAt msg (pos + 1) len.toNat = some bytes ∧ Label.ofBytes? bytes = some label ∧
      part = .label label (pos + 1 + len.toNat)) ∨
    ∃ len low, msg[pos]? = some len ∧ len ≠ 0 ∧ ¬ len.toNat < 64 ∧ 192 ≤ len.toNat ∧
      msg[pos + 1]? = some low ∧
      (12 ≤ (len.toNat - 192) * 256 + low.toNat ∧ (len.toNat - 192) * 256 + low.toNat < pos) ∧
      part = .pointer ((len.toNat - 192) * 256 + low.toNat) := by
  obtain ⟨len, hlen, h⟩ := Option.bind_eq_some_iff.mp h
  split at h
  · next hzero =>
    subst hzero
    exact .inl ⟨hlen, (Option.some.inj h).symm⟩
  · next hzero =>
    split at h
    · next hlabel =>
      obtain ⟨bytes, hbytes, h⟩ := Option.bind_eq_some_iff.mp h
      obtain ⟨label, hof, rfl⟩ := Option.map_eq_some_iff.mp h
      exact .inr (.inl ⟨len, bytes, label, hlen, hzero, hlabel, hbytes, hof, rfl⟩)
    · next hlabel =>
      split at h
      · next hpointer =>
        obtain ⟨low, hlow, h⟩ := Option.bind_eq_some_iff.mp h
        obtain ⟨htarget, h⟩ := Option.ite_none_right_eq_some.mp h
        exact .inr (.inr ⟨len, low, hlen, hzero, hlabel, hpointer, hlow, htarget,
          (Option.some.inj h).symm⟩)
      · cases h

theorem Extends.namePartAt_eq (h : Extends msg msg') (hpos : 12 ≤ pos) {part : NamePart}
    (hpart : namePartAt msg pos = some part) : namePartAt msg' pos = some part := by
  obtain ⟨hlen, rfl⟩ | ⟨len, bytes, label, hlen, hzero, hlabel, hbytes, hof, rfl⟩ |
    ⟨len, low, hlen, hzero, hlabel, hpointer, hlow, htarget, rfl⟩ := namePartAt_cases hpart
  · simp [namePartAt, h.byte hpos hlen]
  · rw [namePartAt, h.byte hpos hlen, Option.bind_some, if_neg hzero, if_pos hlabel,
      h.bytesAt_eq (by omega) hbytes, Option.bind_some, hof, Option.map_some]
  · rw [namePartAt, h.byte hpos hlen, Option.bind_some, if_neg hzero, if_neg hlabel,
      if_pos hpointer, h.byte (by omega) hlow, Option.bind_some]
    exact if_pos htarget

/-- A name has fewer labels than its parts, and it does not end before its first byte. -/
theorem parseName_bounds {fuel : ℕ} {out : List Label × ℕ} (h : parseName msg fuel pos = some out) :
    out.1.length < fuel ∧ pos < out.2 := by
  induction fuel generalizing pos out with
  | zero => cases h
  | succ fuel ih =>
    obtain ⟨part, hpart, h⟩ := Option.bind_eq_some_iff.mp h
    obtain ⟨-, rfl⟩ | ⟨len, bytes, label, -, -, -, -, -, rfl⟩ |
      ⟨len, low, -, -, -, -, -, -, rfl⟩ := namePartAt_cases hpart
    · obtain rfl := Option.some.inj h
      simp
    · obtain ⟨rest, hrest, rfl⟩ := Option.map_eq_some_iff.mp h
      have hbounds := ih hrest
      simp only [List.length_cons]
      omega
    · obtain ⟨rest, hrest, rfl⟩ := Option.map_eq_some_iff.mp h
      have hbounds := ih hrest
      simp only
      omega

theorem Extends.parseName_eq (h : Extends msg msg') (hpos : 12 ≤ pos) {fuel : ℕ}
    {out : List Label × ℕ} (hname : parseName msg fuel pos = some out) :
    parseName msg' fuel pos = some out := by
  induction fuel generalizing pos out with
  | zero => cases hname
  | succ fuel ih =>
    obtain ⟨part, hpart, hname⟩ := Option.bind_eq_some_iff.mp hname
    rw [parseName, h.namePartAt_eq hpos hpart, Option.bind_some]
    obtain ⟨-, rfl⟩ | ⟨len, bytes, label, -, -, -, -, -, rfl⟩ |
      ⟨len, low, -, -, -, -, -, htarget, rfl⟩ := namePartAt_cases hpart
    · exact hname
    · obtain ⟨rest, hrest, rfl⟩ := Option.map_eq_some_iff.mp hname
      simp only [ih (by omega) hrest, Option.map_some]
    · obtain ⟨rest, hrest, rfl⟩ := Option.map_eq_some_iff.mp hname
      simp only [ih htarget.1 hrest, Option.map_some]

theorem parseQuestion_eq_some {out : Question × ℕ} (h : parseQuestion msg pos = some out) :
    ∃ next, parseName msg nameFuel pos = some (out.1.name, next) ∧
      word16At msg next = some out.1.qtype ∧ word16At msg (next + 2) = some out.1.qclass ∧
      out.2 = next + 4 := by
  simp only [parseQuestion, Option.bind_eq_bind, Option.bind_eq_some_iff, Option.pure_def] at h
  obtain ⟨⟨name, next⟩, hname, qtype, hqtype, qclass, hqclass, h⟩ := h
  obtain rfl := Option.some.inj h
  exact ⟨next, hname, hqtype, hqclass, rfl⟩

theorem parseRecord_eq_some {out : Record × ℕ} (h : parseRecord msg pos = some out) :
    ∃ next ttlHigh ttlLow rdlength, parseName msg nameFuel pos = some (out.1.owner, next) ∧
      word16At msg next = some out.1.type ∧ word16At msg (next + 2) = some out.1.rrclass ∧
      word16At msg (next + 4) = some ttlHigh ∧ word16At msg (next + 6) = some ttlLow ∧
      out.1.ttl = ttlHigh ++ ttlLow ∧ word16At msg (next + 8) = some rdlength ∧
      bytesAt msg (next + 10) rdlength.toNat = some out.1.rdata ∧
      out.2 = next + 10 + rdlength.toNat := by
  simp only [parseRecord, Option.bind_eq_bind, Option.bind_eq_some_iff, Option.pure_def] at h
  obtain ⟨⟨owner, next⟩, hname, type, htype, rrclass, hclass, ttlHigh, hhigh, ttlLow, hlow,
    rdlength, hrdlength, rdata, hrdata, h⟩ := h
  obtain rfl := Option.some.inj h
  exact ⟨next, ttlHigh, ttlLow, rdlength, hname, htype, hclass, hhigh, hlow, rfl, hrdlength,
    hrdata, rfl⟩

/-- A question has at least five bytes. -/
theorem parseQuestion_width {out : Question × ℕ} (h : parseQuestion msg pos = some out) :
    pos + 5 ≤ out.2 := by
  obtain ⟨next, hname, -, -, hend⟩ := parseQuestion_eq_some h
  have hnext := (parseName_bounds hname).2
  omega

theorem Extends.parseQuestion_eq (h : Extends msg msg') (hpos : 12 ≤ pos) {out : Question × ℕ}
    (hquestion : parseQuestion msg pos = some out) :
    parseQuestion msg' pos = some out ∧ pos ≤ out.2 := by
  obtain ⟨next, hname, hqtype, hqclass, hend⟩ := parseQuestion_eq_some hquestion
  have hnext := (parseName_bounds hname).2
  refine ⟨?_, by omega⟩
  simp only [parseQuestion, h.parseName_eq hpos hname, h.word16At_eq (by omega) hqtype,
    h.word16At_eq (by omega) hqclass, Option.bind_eq_bind, Option.bind_some, ← hend]
  rfl

/-- A record has at least eleven bytes. -/
theorem parseRecord_width {out : Record × ℕ} (h : parseRecord msg pos = some out) :
    pos + 11 ≤ out.2 := by
  obtain ⟨next, -, -, rdlength, hname, -, -, -, -, -, -, -, hend⟩ := parseRecord_eq_some h
  have hnext := (parseName_bounds hname).2
  omega

theorem Extends.parseRecord_eq (h : Extends msg msg') (hpos : 12 ≤ pos) {out : Record × ℕ}
    (hrecord : parseRecord msg pos = some out) :
    parseRecord msg' pos = some out ∧ pos ≤ out.2 := by
  have hwidth := parseRecord_width hrecord
  obtain ⟨next, ttlHigh, ttlLow, rdlength, hname, htype, hclass, hhigh, hlow, httl, hrdlength,
    hrdata, hend⟩ := parseRecord_eq_some hrecord
  have hnext := (parseName_bounds hname).2
  refine ⟨?_, by omega⟩
  simp only [parseRecord, h.parseName_eq hpos hname, h.word16At_eq (by omega) htype,
    h.word16At_eq (by omega) hclass, h.word16At_eq (by omega) hhigh,
    h.word16At_eq (by omega) hlow, h.word16At_eq (by omega) hrdlength,
    h.bytesAt_eq (by omega) hrdata, Option.bind_eq_bind, Option.bind_some, ← hend, ← httl]
  rfl

theorem parseBody_eq_some {header : Header} {out : Message × ℕ}
    (h : parseBody msg header = some out) :
    ∃ first second third, parseMany (parseQuestion msg) header.qdcount.toNat 12 =
        some (out.1.questions, first) ∧
      parseMany (parseRecord msg) header.ancount.toNat first = some (out.1.answers, second) ∧
      parseMany (parseRecord msg) header.nscount.toNat second = some (out.1.authority, third) ∧
      parseMany (parseRecord msg) header.arcount.toNat third = some (out.1.additional, out.2) ∧
      out.1.header = header := by
  simp only [parseBody, Option.bind_eq_bind, Option.bind_eq_some_iff, Option.pure_def] at h
  obtain ⟨⟨questions, first⟩, hquestions, ⟨answers, second⟩, hanswers, ⟨authority, third⟩,
    hauthority, ⟨additional, last⟩, hadditional, h⟩ := h
  obtain rfl := Option.some.inj h
  exact ⟨first, second, third, hquestions, hanswers, hauthority, hadditional, rfl⟩

theorem parseMessage_eq_some_iff {message : Message} :
    parseMessage msg = some message ↔ ∃ header,
      parseHeader msg = some header ∧ parseBody msg header = some (message, msg.length) := by
  simp only [parseMessage, Option.bind_eq_bind, Option.bind_eq_some_iff,
    Option.ite_none_right_eq_some, Option.some.injEq]
  constructor
  · rintro ⟨header, hheader, ⟨message', pos⟩, hbody, rfl, rfl⟩
    exact ⟨header, hheader, hbody⟩
  · rintro ⟨header, hheader, hbody⟩
    exact ⟨header, hheader, (message, msg.length), hbody, rfl, rfl⟩

/-- Each question and each additional record has its bytes in the message. -/
theorem counts_le {message : Message} (h : parseMessage msg = some message) :
    12 + message.header.qdcount.toNat * 5 + message.header.arcount.toNat * 11 ≤ msg.length := by
  obtain ⟨header, -, hbody⟩ := parseMessage_eq_some_iff.mp h
  obtain ⟨first, second, third, hquestions, hanswers, hauthority, hadditional, rfl⟩ :=
    parseBody_eq_some hbody
  have hfirst := parseMany_width (fun pos out => parseQuestion_width) hquestions
  have hsecond := parseMany_width (fun pos out => parseRecord_width) hanswers
  have hthird := parseMany_width (fun pos out => parseRecord_width) hauthority
  have hlast := parseMany_width (fun pos out => parseRecord_width) hadditional
  simp only at hfirst hsecond hthird hlast
  omega

/-- **Main theorem.**  Records behind a message, announced in its header, are further additional
records. -/
theorem Extends.parseMessage_append (h : Extends msg msg') {message : Message}
    (hmessage : parseMessage msg = some message) {records : List Record}
    (hvalid : ∀ r ∈ records, r.owner.length < nameFuel ∧ r.rdata.length < 65536)
    (hcount : message.header.arcount.toNat + records.length < 65536)
    (hheader : parseHeader msg' = some
      { message.header with
        arcount := message.header.arcount + BitVec.ofNat 16 records.length })
    (hrecords : Holds msg' msg.length (records.flatMap Record.encode))
    (hlength : msg'.length = msg.length + (records.flatMap Record.encode).length) :
    parseMessage msg' = some
      { message with
        header := { message.header with
          arcount := message.header.arcount + BitVec.ofNat 16 records.length }
        additional := message.additional ++ records } := by
  obtain ⟨header, -, hbody⟩ := parseMessage_eq_some_iff.mp hmessage
  obtain ⟨first, second, third, hquestions, hanswers, hauthority, hadditional, rfl⟩ :=
    parseBody_eq_some hbody
  have hquestion : ∀ pos out, 12 ≤ pos → parseQuestion msg pos = some out →
      parseQuestion msg' pos = some out ∧ pos ≤ out.2 := fun pos out hpos => h.parseQuestion_eq hpos
  have hrecord : ∀ pos out, 12 ≤ pos → parseRecord msg pos = some out →
      parseRecord msg' pos = some out ∧ pos ≤ out.2 := fun pos out hpos => h.parseRecord_eq hpos
  have hsum : (message.header.arcount + BitVec.ofNat 16 records.length).toNat =
      message.header.arcount.toNat + records.length := by
    rw [BitVec.toNat_add, BitVec.toNat_ofNat, Nat.mod_eq_of_lt (by omega : records.length < 65536),
      Nat.mod_eq_of_lt hcount]
  have hfirst := parseMany_width (fun pos out => parseQuestion_width) hquestions
  have hsecond := parseMany_width (fun pos out => parseRecord_width) hanswers
  have hthird := parseMany_width (fun pos out => parseRecord_width) hauthority
  simp only at hfirst hsecond hthird
  have hmore := parseMany_append
    (parseMany_congr (by omega : 12 ≤ third) hrecord hadditional)
    (Holds.parseMany_eq
      (fun r hr pos hpos => hpos.parseRecord_eq (hvalid r hr).1 (hvalid r hr).2) hrecords)
  refine parseMessage_eq_some_iff.mpr ⟨_, hheader, ?_⟩
  simp only [parseBody, hsum, parseMany_congr (Nat.le_refl 12) hquestion hquestions,
    parseMany_congr (by omega : 12 ≤ first) hrecord hanswers,
    parseMany_congr (by omega : 12 ≤ second) hrecord hauthority, hmore, hlength,
    Option.bind_eq_bind, Option.bind_some]
  rfl

end

/-! ## Messages of a question -/

/-- The twelve bytes of a header. -/
def Header.encode (header : Header) : List Byte :=
  word16 header.id ++ (word16 header.flags ++ (word16 header.qdcount ++ (word16 header.ancount ++
    (word16 header.nscount ++ word16 header.arcount))))

/-- A question with an uncompressed name. -/
def Question.encode (question : Question) : List Byte :=
  encodeName question.name ++ (word16 question.qtype ++ word16 question.qclass)

theorem Header.length_encode (header : Header) : header.encode.length = 12 := by
  simp [Header.encode, length_word16]

theorem word16_append (high low : Byte) : word16 (high ++ low) = [high, low] := by
  rw [word16, BitVec.extractLsb'_append_eq_left, BitVec.extractLsb'_append_eq_right]

section

variable {msg : List Byte} {pos : ℕ}

/-- The bytes of a number that was read. -/
theorem holds_of_word16At {v : BitVec 16} (h : word16At msg pos = some v) :
    Holds msg pos (word16 v) := by
  obtain ⟨high, hhigh, hv⟩ := Option.bind_eq_some_iff.mp h
  obtain ⟨low, hlow, rfl⟩ := Option.map_eq_some_iff.mp hv
  obtain ⟨hlt, hget⟩ := List.getElem?_eq_some_iff.mp hlow
  obtain ⟨hlt', hget'⟩ := List.getElem?_eq_some_iff.mp hhigh
  refine ⟨msg.take pos, msg.drop (pos + 2), ?_, by simp; omega⟩
  rw [word16_append, ← hget, ← hget']
  simp

/-- What is read in two places that meet stands there together. -/
theorem Holds.append {bytes bytes' : List Byte} (h : Holds msg pos bytes)
    (h' : Holds msg (pos + bytes.length) bytes') : Holds msg pos (bytes ++ bytes') := by
  obtain ⟨before, after, rfl, rfl⟩ := h
  obtain ⟨front, back, heq, hfront⟩ := h'
  rw [← List.append_assoc] at heq
  obtain rfl : before ++ bytes = front := List.append_inj_left heq (by simp [hfront])
  exact ⟨before, back, by rw [← List.append_assoc, heq]; simp, rfl⟩

/-- The bytes of a header that was read. -/
theorem exists_of_parseHeader {header : Header} (h : parseHeader msg = some header) :
    ∃ body, msg = header.encode ++ body := by
  simp only [parseHeader, Option.bind_eq_bind, Option.bind_eq_some_iff, Option.pure_def,
    Option.some.injEq] at h
  obtain ⟨id, hid, flags, hflags, qd, hqd, an, han, ns, hns, ar, har, rfl⟩ := h
  have hall : Holds msg 0 (Header.encode ⟨id, flags, qd, an, ns, ar⟩) :=
    (holds_of_word16At hid).append ((holds_of_word16At hflags).append
      ((holds_of_word16At hqd).append ((holds_of_word16At han).append
        ((holds_of_word16At hns).append (holds_of_word16At har)))))
  obtain ⟨before, body, rfl, hbefore⟩ := hall
  exact ⟨body, by rw [List.length_eq_zero_iff.mp hbefore, List.nil_append]⟩

/-- A header is read back. -/
theorem parseHeader_encode (header : Header) (body : List Byte) :
    parseHeader (header.encode ++ body) = some header := by
  have hall : Holds (header.encode ++ body) 0 header.encode := ⟨[], body, rfl, rfl⟩
  unfold Header.encode at hall
  have hid := hall.left.word16At_eq
  have hflags := hall.right.left.word16At_eq
  have hqd := hall.right.right.left.word16At_eq
  have han := hall.right.right.right.left.word16At_eq
  have hns := hall.right.right.right.right.left.word16At_eq
  have har := hall.right.right.right.right.right.word16At_eq
  simp only [length_word16, Nat.reduceAdd] at hid hflags hqd han hns har
  simp only [parseHeader, Header.encode, hid, hflags, hqd, han, hns, har, Option.bind_eq_bind,
    Option.bind_some]
  rfl

/-- A question is read back. -/
theorem Holds.parseQuestion_eq {question : Question} (h : Holds msg pos question.encode)
    (hname : question.name.length < nameFuel) :
    parseQuestion msg pos = some (question, pos + question.encode.length) := by
  unfold Question.encode at h
  have hlabels := h.left.parseName_eq hname
  have hqtype := h.right.left.word16At_eq
  have hqclass := h.right.right.word16At_eq
  simp only [length_word16] at hqclass
  simp only [parseQuestion, Question.encode, hlabels, hqtype, hqclass, Option.bind_eq_bind,
    Option.bind_some, List.length_append, length_word16]
  rfl

/-- A message that is a question and nothing else. -/
theorem parseMessage_question {header : Header} {question : Question}
    (hname : question.name.length < nameFuel) (hqd : header.qdcount = 1) (han : header.ancount = 0)
    (hns : header.nscount = 0) (har : header.arcount = 0) :
    parseMessage (header.encode ++ question.encode) =
      some ⟨header, [question], [], [], []⟩ := by
  have hholds : Holds (header.encode ++ question.encode) 12 question.encode :=
    ⟨header.encode, [], by simp, header.length_encode⟩
  have hquestion := hholds.parseQuestion_eq hname
  refine parseMessage_eq_some_iff.mpr ⟨header, parseHeader_encode header _, ?_⟩
  simp [parseBody, hqd, han, hns, har, parseMany, hquestion, header.length_encode]

end

end Dns
