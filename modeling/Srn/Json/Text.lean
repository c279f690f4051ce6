import Srn.Json
import Mathlib.Algebra.Order.BigOperators.Group.List
import Mathlib.Algebra.Order.Ring.Nat
import Mathlib.Data.List.Nodup

/-!
# Srn.Json.Text

The texts of JSON values: `json_dumps`, with and without `JSON_COMPACT`, and what the programs
rely on from `json_loads`.  A text is a list of characters of one byte each, and so are the strings
in it: escapes concern ASCII characters only, so that other characters are dumped as their bytes.
In `Srn.Srdb.Memory`, which is about the bytes of a field and not about texts, a string is decoded;
`jsonString_ascii` shows that the two agree on ASCII.

`json_loads` is a parameter of the development.  `ReadsBack` is the one thing that is asked of it:
a dumped text is read back whole, and cut anywhere before its end it is rejected.
-/

namespace Srn

namespace Json

/-! ## Dumping -/

/-- A digit of `\u00XX`. -/
def hexDigit (n : ℕ) : Char := "0123456789ABCDEF".toList.getD n '0'

/-- A character inside a string. -/
def escapeChar (c : Char) : List Char :=
  if c = '"' ∨ c = '\\' then ['\\', c]
  else if c = '\x08' then ['\\', 'b']
  else if c = '\x0c' then ['\\', 'f']
  else if c = '\n' then ['\\', 'n']
  else if c = '\r' then ['\\', 'r']
  else if c = '\t' then ['\\', 't']
  else if c.toNat < 32 then ['\\', 'u', '0', '0', hexDigit (c.toNat / 16), hexDigit (c.toNat % 16)]
  else [c]

/-- A string in quotes. -/
def quote (cs : List Char) : List Char := '"' :: (cs.flatMap escapeChar ++ ['"'])

/-- What stands between two items; `compact` is the flag `JSON_COMPACT`. -/
def itemSep (compact : Bool) : List Char := if compact then [','] else [',', ' ']

/-- What stands between a key and its value. -/
def keySep (compact : Bool) : List Char := if compact then [':'] else [':', ' ']

mutual

/-- `json_dumps`. -/
def dumps (compact : Bool) : Json → List Char
  | .null => ['n', 'u', 'l', 'l']
  | .bool true => ['t', 'r', 'u', 'e']
  | .bool false => ['f', 'a', 'l', 's', 'e']
  | .integer i => (toString i).toList
  | .real lexeme => lexeme.toList
  | .string s => quote s.toList
  | .array elems => '[' :: (dumpsElems compact elems ++ [']'])
  | .object members => '\x7b' :: (dumpsMembers compact members ++ ['\x7d'])

/-- The elements of an array. -/
def dumpsElems (compact : Bool) : List Json → List Char
  | [] => []
  | j :: js =>
    dumps compact j ++ (if js.isEmpty then [] else itemSep compact) ++ dumpsElems compact js

/-- The members of an object. -/
def dumpsMembers (compact : Bool) : List (String × Json) → List Char
  | [] => []
  | (key, j) :: ms =>
    quote key.toList ++ keySep compact ++ dumps compact j ++
      (if ms.isEmpty then [] else itemSep compact) ++ dumpsMembers compact ms

end

/-! ## Lengths -/

/-- The length of a compact array whose elements have the given lengths: two brackets, and a
comma between two elements. -/
def arrayLength (lengths : List ℕ) : ℕ := 2 + lengths.sum + (lengths.length - 1)

theorem length_dumpsElems (js : List Json) :
    (dumpsElems true js).length =
      (js.map fun j => (j.dumps true).length).sum + (js.length - 1) := by
  induction js with
  | nil => rfl
  | cons j js ih =>
    rw [dumpsElems, List.length_append, List.length_append, ih]
    cases js with
    | nil => simp
    | cons j' js =>
      simp [itemSep]
      omega

theorem length_dumps_array (js : List Json) :
    ((Json.array js).dumps true).length = arrayLength (js.map fun j => (j.dumps true).length) := by
  rw [dumps, List.length_cons, List.length_append, length_dumpsElems, arrayLength, List.length_map,
    List.length_singleton]
  omega

theorem length_dumpsMembers (ms : List (String × Json)) :
    (dumpsMembers false ms).length =
      ((ms.map Prod.fst).map fun key => (quote key.toList).length).sum +
      (ms.map fun m => (m.2.dumps false).length).sum + 2 * ms.length + 2 * (ms.length - 1) := by
  induction ms with
  | nil => rfl
  | cons m ms ih =>
    rw [dumpsMembers]
    simp only [List.length_append, ih, List.map_cons, List.sum_cons, List.length_cons]
    cases ms with
    | nil =>
      simp [keySep]
      omega
    | cons m' ms =>
      simp [keySep, itemSep]
      omega

mutual

/-- The blanks that `json_dumps` prints without `JSON_COMPACT`: one behind every comma and every
colon. -/
def blanks : Json → ℕ
  | .array elems => blanksElems elems
  | .object members => blanksMembers members
  | _ => 0

/-- The blanks between and in the elements of an array. -/
def blanksElems : List Json → ℕ
  | [] => 0
  | j :: js => blanks j + (if js.isEmpty then 0 else 1) + blanksElems js

/-- The blanks between and in the members of an object. -/
def blanksMembers : List (String × Json) → ℕ
  | [] => 0
  | (_, j) :: ms => 1 + blanks j + (if ms.isEmpty then 0 else 1) + blanksMembers ms

end

mutual

/-- Apart from the blanks, the two ways to dump a value differ in nothing. -/
theorem length_dumps_false (j : Json) :
    (j.dumps false).length = (j.dumps true).length + j.blanks := by
  cases j with
  | null => rfl
  | bool b => cases b <;> rfl
  | integer i => rfl
  | real lexeme => rfl
  | string s => rfl
  | array elems =>
    have h := length_dumpsElems_false elems
    simp only [dumps, blanks, List.length_cons, List.length_append, h]
    omega
  | object members =>
    have h := length_dumpsMembers_false members
    simp only [dumps, blanks, List.length_cons, List.length_append, h]
    omega

theorem length_dumpsElems_false (js : List Json) :
    (dumpsElems false js).length = (dumpsElems true js).length + blanksElems js := by
  cases js with
  | nil => rfl
  | cons j js =>
    have hj := length_dumps_false j
    have hjs := length_dumpsElems_false js
    simp only [dumpsElems, blanksElems, List.length_append, hj, hjs]
    cases js.isEmpty <;> simp [itemSep] <;> omega

theorem length_dumpsMembers_false (ms : List (String × Json)) :
    (dumpsMembers false ms).length = (dumpsMembers true ms).length + blanksMembers ms := by
  cases ms with
  | nil => rfl
  | cons m ms =>
    obtain ⟨key, j⟩ := m
    have hj := length_dumps_false j
    have hms := length_dumpsMembers_false ms
    simp only [dumpsMembers, blanksMembers, List.length_append, hj, hms]
    cases ms.isEmpty <;> simp [itemSep, keySep] <;> omega

end
/-- Two blanks for every member, except that none follows the last one. -/
theorem two_mul_length_le_blanks (members : List (String × Json)) :
    2 * members.length ≤ (Json.object members).blanks + 1 := by
  rw [blanks]
  induction members with
  | nil => exact Nat.zero_le _
  | cons m ms ih =>
    rw [blanksMembers, List.length_cons]
    cases ms with
    | nil =>
      simp only [List.length_nil, List.isEmpty_nil, if_true]
      omega
    | cons m' ms =>
      simp only [List.isEmpty_cons, Bool.false_eq_true, if_false]
      omega

/-- A string without a character that is escaped. -/
theorem quote_eq {cs : List Char} (h : ∀ c ∈ cs, escapeChar c = [c]) :
    quote cs = ['"'] ++ (cs ++ ['"']) := by
  rw [quote, List.flatMap_congr h, List.flatMap_singleton']
  rfl

/-- Every character takes at most two when it is escaped. -/
def Plain (cs : List Char) : Prop := ∀ c ∈ cs, (escapeChar c).length ≤ 2

instance (cs : List Char) : Decidable (Plain cs) :=
  decidable_of_iff (cs.all fun c => (escapeChar c).length ≤ 2) (by simp [Plain])

theorem Plain.append {cs cs' : List Char} (h : Plain cs) (h' : Plain cs') : Plain (cs ++ cs') := by
  intro c hc
  cases List.mem_append.mp hc with
  | inl hc => exact h c hc
  | inr hc => exact h' c hc

theorem Plain.dumps_array {js : List Json} (h : ∀ j ∈ js, Plain (j.dumps true)) :
    Plain ((Json.array js).dumps true) := by
  have helems : Plain (dumpsElems true js) := by
    induction js with
    | nil => exact fun c hc => absurd hc List.not_mem_nil
    | cons j js ih =>
      have hsep : Plain (if js.isEmpty then [] else itemSep true) := by
        cases js.isEmpty <;> decide
      rw [dumpsElems]
      exact ((h j List.mem_cons_self).append hsep).append
        (ih fun j' hj' => h j' (List.mem_cons_of_mem _ hj'))
  rw [dumps]
  have hopen : Plain ['['] := by decide
  have hclose : Plain [']'] := by decide
  exact hopen.append (helems.append hclose)

theorem Plain.length_quote_le {cs : List Char} (h : Plain cs) :
    (quote cs).length ≤ 2 * cs.length + 2 := by
  have hflat : (cs.flatMap escapeChar).length ≤ 2 * cs.length := by
    induction cs with
    | nil => simp
    | cons c cs ih =>
      have hc := h c List.mem_cons_self
      have hcs := ih fun c' hc' => h c' (List.mem_cons_of_mem _ hc')
      rw [List.flatMap_cons, List.length_append, List.length_cons]
      omega
  rw [quote, List.length_cons, List.length_append, List.length_singleton]
  omega

@[simp] theorem dumps_string_ofList (compact : Bool) (cs : List Char) :
    (Json.string (String.ofList cs)).dumps compact = quote cs := by
  rw [dumps, String.toList_ofList]

/-! ## Reading back -/

/-- `loads` reads the text as the value, and rejects every text that ends before it. -/
def ReadsBack (loads : List Char → Option Json) (text : List Char) (j : Json) : Prop :=
  ∀ n, loads (text.take n) = if text.length ≤ n then some j else none

section

variable {loads : List Char → Option Json} {text : List Char} {j : Json} {n : ℕ}

theorem ReadsBack.loads_eq (h : ReadsBack loads text j) : loads text = some j := by
  have hall := h text.length
  rwa [List.take_length, if_pos (Nat.le_refl _)] at hall

/-- A text that is cut comes back exactly if the cut takes nothing away. -/
theorem ReadsBack.take_iff (h : ReadsBack loads text j) :
    loads (text.take n) = some j ↔ text.length ≤ n := by
  rw [h n]
  by_cases hn : text.length ≤ n
  · simp [hn]
  · simp [hn]

theorem ReadsBack.of_isSome (h : ReadsBack loads text j) {j' : Json}
    (hsome : loads (text.take n) = some j') : text.length ≤ n ∧ j' = j := by
  rw [h n] at hsome
  by_cases hn : text.length ≤ n
  · rw [if_pos hn, Option.some_inj] at hsome
    exact ⟨hn, hsome.symm⟩
  · rw [if_neg hn] at hsome
    cases hsome

end

/-- A reader that knows the texts of a table. -/
def readTable (table : List (List Char × Json)) (text : List Char) : Option Json :=
  (table.find? fun e => e.1 = text).map Prod.snd

/-- A table in which no text begins with another one is read back. -/
theorem readsBack_readTable {table : List (List Char × Json)}
    (hfree : ∀ e ∈ table, ∀ e' ∈ table, e'.1 <+: e.1 → e' = e) {e : List Char × Json}
    (he : e ∈ table) : ReadsBack (readTable table) e.1 e.2 := by
  intro n
  unfold readTable
  by_cases hn : e.1.length ≤ n
  · rw [if_pos hn, List.take_of_length_le hn]
    cases hfind : table.find? fun e' => e'.1 = e.1 with
    | none => exact absurd (by simp) (List.find?_eq_none.mp hfind e he)
    | some e' =>
      have hmem := List.mem_of_find?_eq_some hfind
      have heq : e'.1 = e.1 := by simpa using List.find?_some hfind
      rw [hfree e he e' hmem (heq ▸ List.prefix_refl _)]
      rfl
  · rw [if_neg hn, Option.map_eq_none_iff, List.find?_eq_none]
    intro e' he' heq
    have hcut : e'.1 = e.1.take n := by simpa using heq
    have hsame := hfree e he e' he' (hcut ▸ List.take_prefix n e.1)
    rw [hsame] at hcut
    have hlen := congrArg List.length hcut
    rw [List.length_take] at hlen
    omega

/-- The texts of a table are told apart by their first characters. -/
theorem readsBack_readTable_of_take {table : List (List Char × Json)} (k : ℕ)
    (hlen : ∀ e ∈ table, k ≤ e.1.length) (hnodup : (table.map fun e => e.1.take k).Nodup)
    {e : List Char × Json} (he : e ∈ table) : ReadsBack (readTable table) e.1 e.2 := by
  refine readsBack_readTable ?_ he
  intro e he e' he' hbegins
  obtain ⟨rest, hrest⟩ := hbegins
  have htake : e'.1.take k = e.1.take k := by
    rw [← hrest, List.take_append_of_le_length (hlen e' he')]
  exact List.inj_on_of_nodup_map hnodup he' he htake

end Json

end Srn
