import Srn.Controller
import Srn.Misc
import Srn.Routed

/-!
# Srn.Controller.Rules

The rules of the controller: how `parse_rule` of `sr-ctrl/rules.c` reads a line, and which requests
a rule can match.

A line is a sequence of items, each of which is a word of its own or a keyword with its argument
(`RuleItem`).  `parse_rule` counts the words that are left while it moves through them, in the
macro `NEXT_ARG` and in the condition of its loop, and `parseRule_iff_items` says that this accepts
exactly the sequences of items.  Memory is always allocated here.
-/

namespace Srn

/-! ## Parsing -/

/-- `enum ruletype`. -/
inductive RuleKind where
  | none
  | allow
  | deny
  deriving DecidableEq, Repr

/-- `struct rule`, with its strings; `path` is `none` for `NULL`. -/
structure ParsedRule where
  isDefault : Bool
  type : RuleKind
  fromName : List Char
  toName : List Char
  path : Option (List (List Char))
  last : List Char
  bw : Int32
  delay : Int32
  ttl : Int32
  idle : Int32
  deriving DecidableEq, Repr

/-- A rule from `calloc`. -/
def ParsedRule.zero : ParsedRule := ⟨false, .none, [], [], none, [], 0, 0, 0, 0⟩

/-- The messages of `parse_rule`. -/
inductive RuleError where
  /-- unexpected end of arguments after the word -/
  | unexpectedEnd (after : List Char)
  /-- unknown argument -/
  | unknownArgument (arg : List Char)
  /-- missing allow or deny keyword -/
  | missingType
  /-- cannot use from or to keywords in default rule -/
  | namesInDefault
  /-- missing from or to keywords in non-default rule -/
  | missingNames
  deriving DecidableEq, Repr

/-- The keywords with an argument. -/
inductive RuleKeyword where
  | fromName
  | toName
  | via
  | last
  | bw
  | delay
  | ttl
  | idle
  deriving DecidableEq, Repr

/-- The words of a line that are not arguments. -/
inductive RuleWord where
  | default
  | allow
  | deny
  | keyword (kw : RuleKeyword)
  deriving DecidableEq, Repr

/-- The word as it is written. -/
def RuleWord.text : RuleWord → List Char
  | .default => "default".toList
  | .allow => "allow".toList
  | .deny => "deny".toList
  | .keyword .fromName => "from".toList
  | .keyword .toName => "to".toList
  | .keyword .via => "via".toList
  | .keyword .last => "last".toList
  | .keyword .bw => "bw".toList
  | .keyword .delay => "delay".toList
  | .keyword .ttl => "ttl".toList
  | .keyword .idle => "idle".toList

/-- The words in the order in which `parse_rule` compares them. -/
def ruleWords : List RuleWord :=
  [.default, .allow, .deny, .keyword .fromName, .keyword .toName, .keyword .via, .keyword .last,
    .keyword .bw, .keyword .delay, .keyword .ttl, .keyword .idle]

/-- The comparisons of `parse_rule`. -/
def ruleWord (arg : List Char) : Option RuleWord := ruleWords.find? fun word => word.text = arg

/-- `parse_path`. -/
def parsePath (rule : ParsedRule) (buf : List Char) : Except StringFault ParsedRule := do
  let vargs ← strsplit buf ','
  return { rule with path := some vargs }

/-- The branches of `parse_rule` for a keyword, after `NEXT_ARG`. -/
def setArg (kw : RuleKeyword) (rule : ParsedRule) (arg : List Char) :
    Except StringFault ParsedRule :=
  match kw with
  | .fromName => .ok { rule with fromName := arg.take slen }
  | .toName => .ok { rule with toName := arg.take slen }
  | .via => parsePath rule arg
  | .last => .ok { rule with last := arg.take slen }
  | .bw => .ok { rule with bw := .ofInt (CString.strtol arg) }
  | .delay => .ok { rule with delay := .ofInt (CString.strtol arg) }
  | .ttl => .ok { rule with ttl := .ofInt (CString.strtol arg) }
  | .idle => .ok { rule with idle := .ofInt (CString.strtol arg) }

/-- The branches of `parse_rule` for the other words. -/
def setFlag (word : RuleWord) (rule : ParsedRule) : ParsedRule :=
  match word with
  | .default => { rule with isDefault := true }
  | .allow => { rule with type := .allow }
  | .deny => { rule with type := .deny }
  | .keyword _ => rule

/-- The loop of `parse_rule`; the words from `*vargs` on end with a `NULL`. -/
def parseArgs : List (List Char) → Int → ParsedRule →
    Except StringFault (Except RuleError ParsedRule)
  | [], _, _ => .error .nullDereference
  | arg :: vargs, vargc, rule =>
    match ruleWord arg with
    | none => .ok (.error (.unknownArgument arg))
    | some (.keyword kw) =>
      -- `NEXT_ARG`
      if vargc - 1 = 0 then .ok (.error (.unexpectedEnd arg))
      else
        match vargs with
        | [] => .error .nullDereference
        | text :: vargs => do
          let rule ← setArg kw rule text
          if 0 < vargc - 1 - 1 then parseArgs vargs (vargc - 1 - 1) rule
          else return .ok rule
    | some word =>
      let rule := setFlag word rule
      if 0 < vargc - 1 then parseArgs vargs (vargc - 1) rule else .ok (.ok rule)

/-- The end of `parse_rule`. -/
def checkRule (rule : ParsedRule) : Except RuleError ParsedRule :=
  if rule.type = .none then .error .missingType
  else if rule.isDefault ∧ (rule.fromName ≠ [] ∨ rule.toName ≠ []) then .error .namesInDefault
  else if ¬ rule.isDefault ∧ rule.fromName = [] ∧ rule.toName = [] then .error .missingNames
  else .ok rule

/-- `parse_rule`. -/
def parseRule (line : List Char) : Except StringFault (Except RuleError ParsedRule) := do
  let vargs ← strsplit line ' '
  match ← parseArgs vargs vargs.length .zero with
  | .error e => return .error e
  | .ok rule => return checkRule rule

/-! ## Items -/

/-- What a line is made of. -/
inductive RuleItem where
  | default
  | allow
  | deny
  | arg (kw : RuleKeyword) (text : List Char)
  deriving DecidableEq, Repr

namespace RuleItem

/-- The words of an item. -/
def words : RuleItem → List (List Char)
  | .default => [RuleWord.default.text]
  | .allow => [RuleWord.allow.text]
  | .deny => [RuleWord.deny.text]
  | .arg kw text => [(RuleWord.keyword kw).text, text]

/-- The argument that an item gives to a keyword. -/
def argOf (kw : RuleKeyword) : RuleItem → Option (List Char)
  | .arg kw' text => if kw' = kw then some text else none
  | _ => none

/-- The decision of an item. -/
def kindOf : RuleItem → Option RuleKind
  | .allow => some .allow
  | .deny => some .deny
  | _ => none

/-- What an item does to a rule. -/
def apply (rule : ParsedRule) : RuleItem → ParsedRule
  | .default => { rule with isDefault := true }
  | .allow => { rule with type := .allow }
  | .deny => { rule with type := .deny }
  | .arg .fromName text => { rule with fromName := text.take slen }
  | .arg .toName text => { rule with toName := text.take slen }
  | .arg .via text => { rule with path := some (text.splitOn ',') }
  | .arg .last text => { rule with last := text.take slen }
  | .arg .bw text => { rule with bw := .ofInt (CString.strtol text) }
  | .arg .delay text => { rule with delay := .ofInt (CString.strtol text) }
  | .arg .ttl text => { rule with ttl := .ofInt (CString.strtol text) }
  | .arg .idle text => { rule with idle := .ofInt (CString.strtol text) }

end RuleItem

open RuleItem

/-- The last argument of a keyword. -/
def lastArg (kw : RuleKeyword) (items : List RuleItem) : Option (List Char) :=
  (items.filterMap (argOf kw)).getLast?

/-- A name: the last argument of its keyword, truncated. -/
def nameArg (kw : RuleKeyword) (items : List RuleItem) : List Char :=
  ((lastArg kw items).getD []).take slen

/-- A number: what `strtol` reads in the last argument of its keyword, as an `int`. -/
def numberArg (kw : RuleKeyword) (items : List RuleItem) : Int32 :=
  ((lastArg kw items).map fun text => Int32.ofInt (CString.strtol text)).getD 0

/-- The rule that items describe: the last occurrence of each keyword counts. -/
def ruleOf (items : List RuleItem) : ParsedRule where
  isDefault := .default ∈ items
  type := ((items.filterMap kindOf).getLast?).getD .none
  fromName := nameArg .fromName items
  toName := nameArg .toName items
  path := (lastArg .via items).map fun text => text.splitOn ','
  last := nameArg .last items
  bw := numberArg .bw items
  delay := numberArg .delay items
  ttl := numberArg .ttl items
  idle := numberArg .idle items

/-- The last argument of a keyword is there and not empty. -/
def Named (kw : RuleKeyword) (items : List RuleItem) : Prop :=
  ∃ text, lastArg kw items = some text ∧ text ≠ []

/-- The items that make a rule: there is a decision; a default rule names neither end, and any other
rule at least one. -/
structure Acceptable (items : List RuleItem) : Prop where
  decision : .allow ∈ items ∨ .deny ∈ items
  default : .default ∈ items → ¬ Named .fromName items ∧ ¬ Named .toName items
  names : .default ∉ items → Named .fromName items ∨ Named .toName items

theorem lastArg_append (kw : RuleKeyword) (items : List RuleItem) (item : RuleItem) :
    lastArg kw (items ++ [item]) = (argOf kw item).or (lastArg kw items) := by
  unfold lastArg
  rw [List.filterMap_append, List.getLast?_append]
  cases h : argOf kw item <;> simp [h]

/-- Applying the items one after the other leaves what the last ones say. -/
theorem foldl_apply (items : List RuleItem) : items.foldl apply .zero = ruleOf items := by
  induction items using List.reverseRecOn with
  | nil => rfl
  | append_singleton items item ih =>
    rw [List.foldl_append, ih, List.foldl_cons, List.foldl_nil]
    cases item with
    | default => simp [apply, ruleOf, nameArg, numberArg, lastArg_append, argOf, kindOf]
    | allow => simp [apply, ruleOf, nameArg, numberArg, lastArg_append, argOf, kindOf]
    | deny => simp [apply, ruleOf, nameArg, numberArg, lastArg_append, argOf, kindOf]
    | arg kw text =>
      cases kw <;> simp [apply, ruleOf, nameArg, numberArg, lastArg_append, argOf, kindOf]

/-! ## The loop -/

theorem ruleWord_text (word : RuleWord) : ruleWord word.text = some word := by
  cases word with
  | keyword kw => cases kw <;> decide
  | _ => decide

theorem eq_text_of_ruleWord {arg : List Char} {word : RuleWord} (h : ruleWord arg = some word) :
    arg = word.text := by
  have hfound := List.find?_some h
  exact (of_decide_eq_true hfound).symm

theorem RuleWord.text_inj {word word' : RuleWord} (h : word.text = word'.text) : word = word' :=
  Option.some.inj ((ruleWord_text word).symm.trans (h ▸ ruleWord_text word'))

/-- A word that `parse_path` splits has no spaces to remove. -/
theorem setArg_eq (kw : RuleKeyword) (rule : ParsedRule) {text : List Char} (h : ' ' ∉ text) :
    setArg kw rule text = .ok ((RuleItem.arg kw text).apply rule) := by
  have hlast : text.getLast? ≠ some ' ' := fun hget => h (List.mem_of_getLast? hget)
  cases kw with
  | via =>
    rw [setArg, parsePath, strsplit_eq (not_blank_of_getLast? hlast), trimmed_eq_self hlast]
    rfl
  | _ => rfl

/-- **One item**: the loop goes on with the words after it, if there are any. -/
theorem parseArgs_item (item : RuleItem) {vargs : List (List Char)}
    (hspace : ∀ text ∈ item.words, ' ' ∉ text) (rule : ParsedRule) :
    parseArgs (item.words ++ vargs) (item.words ++ vargs).length rule =
      if vargs = [] then .ok (.ok (item.apply rule))
      else parseArgs vargs vargs.length (item.apply rule) := by
  have hpos : (0 < (vargs.length : Int)) ↔ vargs ≠ [] := by
    rw [Int.natCast_pos, List.length_pos_iff]
  -- a word of its own
  have hflag : ∀ word : RuleWord, (∀ kw, word ≠ .keyword kw) →
      parseArgs (word.text :: vargs) (word.text :: vargs).length rule =
        if vargs = [] then .ok (.ok (setFlag word rule))
        else parseArgs vargs vargs.length (setFlag word rule) := by
    intro word hword
    have hleft : ((word.text :: vargs).length : Int) - 1 = vargs.length := by simp
    rw [parseArgs, ruleWord_text]
    cases word with
    | keyword kw => exact absurd rfl (hword kw)
    | _ =>
      simp only [hleft, hpos, ne_eq, ite_not]
  cases item with
  | arg kw text =>
    have htext : ' ' ∉ text := hspace text (by simp [words])
    have hone : ((((RuleWord.keyword kw).text :: text :: vargs).length : Int)) - 1 ≠ 0 := by
      simp
      omega
    have hleft : ((((RuleWord.keyword kw).text :: text :: vargs).length : Int)) - 1 - 1 =
        vargs.length := by simp
    show parseArgs ((RuleWord.keyword kw).text :: text :: vargs) _ rule = _
    rw [parseArgs, ruleWord_text]
    simp only [words, List.cons_append, List.nil_append, if_neg hone, hleft, hpos,
      setArg_eq kw rule htext, ne_eq, ite_not]
    rfl
  | default => exact hflag .default (by simp)
  | allow => exact hflag .allow (by simp)
  | deny => exact hflag .deny (by simp)

/-- The words of two sequences of items begin with the same item. -/
theorem words_append_inj {item item' : RuleItem} {l l' : List (List Char)}
    (h : item.words ++ l = item'.words ++ l') : item = item' ∧ l = l' := by
  have hword : ∀ {word word' : RuleWord} {l l' : List (List Char)},
      word.text :: l = word'.text :: l' → word = word' ∧ l = l' := fun h =>
    ⟨RuleWord.text_inj (List.cons.inj h).1, (List.cons.inj h).2⟩
  cases item <;> cases item' <;> simp only [words, List.cons_append, List.nil_append] at h <;>
    obtain ⟨heq, hrest⟩ := hword h <;> cases heq
  · exact ⟨rfl, hrest⟩
  · exact ⟨rfl, hrest⟩
  · exact ⟨rfl, hrest⟩
  · obtain ⟨htext, hl⟩ := List.cons.inj hrest
    exact ⟨by rw [htext], hl⟩

/-- Words that do not begin with an item. -/
theorem parseArgs_no_item {vargs : List (List Char)} (hne : vargs ≠ [])
    (h : ∀ item l, vargs ≠ RuleItem.words item ++ l) (rule : ParsedRule) :
    ∃ e, parseArgs vargs vargs.length rule = .ok (.error e) := by
  obtain ⟨arg, vargs, rfl⟩ := List.exists_cons_of_ne_nil hne
  rw [parseArgs]
  cases hword : ruleWord arg with
  | none => exact ⟨_, rfl⟩
  | some word =>
    obtain rfl := eq_text_of_ruleWord hword
    cases word with
    | default => exact absurd rfl (h .default vargs)
    | allow => exact absurd rfl (h .allow vargs)
    | deny => exact absurd rfl (h .deny vargs)
    | keyword kw =>
      cases vargs with
      | nil => exact ⟨_, rfl⟩
      | cons text vargs => exact absurd rfl (h (.arg kw text) vargs)

theorem words_ne_nil (item : RuleItem) : item.words ≠ [] := by
  cases item <;> simp [words]

/-- No words are those of no items. -/
theorem exists_items_nil (rule rule' : ParsedRule) :
    (∃ items : List RuleItem, items.flatMap words = [] ∧ rule' = items.foldl apply rule) ↔
      rule = rule' := by
  constructor
  · rintro ⟨items, hitems, rfl⟩
    cases items with
    | nil => rfl
    | cons item items => exact absurd (List.append_eq_nil_iff.mp hitems).1 (words_ne_nil item)
  · rintro rfl
    exact ⟨[], rfl, rfl⟩

/-- The items of all words are the first one and those of the words after it. -/
theorem exists_items_append (item : RuleItem) (l : List (List Char)) (rule rule' : ParsedRule) :
    (∃ items : List RuleItem, items.flatMap words = item.words ++ l ∧
      rule' = items.foldl apply rule) ↔
    ∃ items : List RuleItem, items.flatMap words = l ∧
      rule' = items.foldl apply (item.apply rule) := by
  constructor
  · rintro ⟨items, hitems, rfl⟩
    cases items with
    | nil =>
      have hnil := List.append_eq_nil_iff.mp hitems.symm
      exact absurd hnil.1 (words_ne_nil item)
    | cons item' items =>
      obtain ⟨rfl, rfl⟩ := words_append_inj hitems
      exact ⟨items, rfl, rfl⟩
  · rintro ⟨items, rfl, rfl⟩
    exact ⟨item :: items, rfl, rfl⟩

/-- **The loop** accepts the words of items, and applies the items. -/
theorem parseArgs_spec {vargs : List (List Char)} (hne : vargs ≠ [])
    (hspace : ∀ text ∈ vargs, ' ' ∉ text) (rule : ParsedRule) :
    ∃ out, parseArgs vargs vargs.length rule = .ok out ∧ ∀ rule', out = .ok rule' ↔
      ∃ items : List RuleItem, items.flatMap words = vargs ∧ rule' = items.foldl apply rule := by
  generalize hn : vargs.length = n
  induction n using Nat.strong_induction_on generalizing vargs rule with
  | _ n ih =>
    subst hn
    by_cases hitem : ∃ item l, vargs = RuleItem.words item ++ l
    · obtain ⟨item, l, rfl⟩ := hitem
      have hl : l.length < (item.words ++ l).length := by
        have hpos := List.length_pos_iff.mpr (words_ne_nil item)
        rw [List.length_append]
        omega
      rw [parseArgs_item item fun text htext => hspace text (List.mem_append_left _ htext)]
      simp only [exists_items_append]
      by_cases hnil : l = []
      · subst hnil
        refine ⟨_, if_pos rfl, fun rule' => ?_⟩
        rw [exists_items_nil, Except.ok.injEq]
      · rw [if_neg hnil]
        exact ih _ hl hnil (fun text htext => hspace text (List.mem_append_right _ htext)) _ rfl
    · simp only [not_exists] at hitem
      obtain ⟨e, he⟩ := parseArgs_no_item hne hitem rule
      refine ⟨_, he, fun rule' => ⟨by simp, ?_⟩⟩
      rintro ⟨items, hitems, -⟩
      cases items with
      | nil => exact absurd hitems.symm hne
      | cons item items => exact absurd hitems.symm (hitem item _)

/-! ## Lines -/

/-- The line is a sequence of items, with spaces between the words and perhaps at its end. -/
def Reads (line : List Char) (items : List RuleItem) : Prop :=
  items.flatMap words = (trimmed line).splitOn ' '

theorem named_iff {kw : RuleKeyword} {items : List RuleItem} :
    nameArg kw items ≠ [] ↔ Named kw items := by
  unfold nameArg Named
  cases hlast : lastArg kw items with
  | none => simp
  | some text => simp [slen]

/-- There is a decision if some item makes one. -/
theorem type_eq_none_iff (items : List RuleItem) :
    (ruleOf items).type = .none ↔ ¬ (.allow ∈ items ∨ .deny ∈ items) := by
  have hkind : ∀ item, kindOf item ≠ some .none := by
    intro item
    cases item <;> simp [kindOf]
  have hnone : items.filterMap kindOf = [] ↔ ¬ (.allow ∈ items ∨ .deny ∈ items) := by
    rw [List.filterMap_eq_nil_iff]
    constructor
    · rintro h (hallow | hdeny)
      · exact absurd (h _ hallow) (by simp [kindOf])
      · exact absurd (h _ hdeny) (by simp [kindOf])
    · intro h item hitem
      cases item with
      | allow => exact absurd (.inl hitem) h
      | deny => exact absurd (.inr hitem) h
      | _ => rfl
  rw [← hnone, ← List.getLast?_eq_none_iff]
  show ((items.filterMap kindOf).getLast?).getD .none = .none ↔ _
  cases hlast : (items.filterMap kindOf).getLast? with
  | none => simp
  | some kind =>
    obtain ⟨item, -, hitem⟩ := List.mem_filterMap.mp (List.mem_of_getLast? hlast)
    have hne : kind ≠ .none := fun heq => hkind item (heq ▸ hitem)
    simpa using hne

/-- The end of `parse_rule` accepts the items that make a rule. -/
theorem checkRule_ruleOf (items : List RuleItem) (rule : ParsedRule) :
    checkRule (ruleOf items) = .ok rule ↔ Acceptable items ∧ rule = ruleOf items := by
  have hfrom : (ruleOf items).fromName ≠ [] ↔ Named .fromName items := named_iff
  have hto : (ruleOf items).toName ≠ [] ↔ Named .toName items := named_iff
  have hdefault : ((ruleOf items).isDefault = true) ↔ .default ∈ items := decide_eq_true_iff
  have haccept : Acceptable items ↔ (ruleOf items).type ≠ .none ∧
      ¬ ((ruleOf items).isDefault ∧ ((ruleOf items).fromName ≠ [] ∨ (ruleOf items).toName ≠ [])) ∧
      ¬ (¬ (ruleOf items).isDefault ∧ (ruleOf items).fromName = [] ∧
        (ruleOf items).toName = []) := by
    rw [← not_ne_iff (a := (ruleOf items).fromName), ← not_ne_iff (a := (ruleOf items).toName),
      hfrom, hto, hdefault, ne_eq, type_eq_none_iff, not_not]
    constructor
    · rintro ⟨hdecision, hdef, hnames⟩
      refine ⟨hdecision, fun ⟨hd, hn⟩ => ?_, fun ⟨hd, hn, hn'⟩ => (hnames hd).elim hn hn'⟩
      exact hn.elim (hdef hd).1 (hdef hd).2
    · rintro ⟨hdecision, hdef, hnames⟩
      refine ⟨hdecision, fun hd => ⟨fun hn => hdef ⟨hd, .inl hn⟩, fun hn => hdef ⟨hd, .inr hn⟩⟩,
        fun hd => ?_⟩
      by_contra hnone
      rw [not_or] at hnone
      exact hnames ⟨hd, hnone⟩
  rw [haccept]
  unfold checkRule
  split_ifs with h₁ h₂ h₃
  · simp [h₁]
  · simp only [false_iff]
    exact fun h => h.1.2.1 h₂
  · simp only [false_iff]
    exact fun h => h.1.2.2 h₃
  · rw [Except.ok.injEq]
    exact ⟨fun h => ⟨⟨h₁, h₂, h₃⟩, h.symm⟩, fun h => h.2.symm⟩

/-- `parse_rule` on a line that is empty or has another character than spaces. -/
theorem parseRule_spec {line : List Char} (h : line = [] ∨ ¬ Blank line) :
    ∃ out, parseRule line = .ok out ∧ ∀ rule, out = .ok rule ↔
      ∃ items, Reads line items ∧ Acceptable items ∧ rule = ruleOf items := by
  obtain ⟨out, hargs, hout⟩ := parseArgs_spec (List.splitOn_ne_nil ' ' (trimmed line))
    (fun text htext => (subset_of_mem_splitOn htext).1) .zero
  simp only [foldl_apply] at hout
  have hline : parseRule line = .ok (out.bind checkRule) := by
    rw [parseRule, strsplit_eq h]
    simp only [bind, Except.bind, hargs]
    cases out <;> rfl
  refine ⟨_, hline, fun rule => ?_⟩
  cases out with
  | error e =>
    refine ⟨by simp [Except.bind], ?_⟩
    rintro ⟨items, hreads, -, -⟩
    exact absurd ((hout (ruleOf items)).mpr ⟨items, hreads, rfl⟩) (by simp)
  | ok rule₀ =>
    constructor
    · intro hcheck
      obtain ⟨items, hreads, rfl⟩ := (hout rule₀).mp rfl
      obtain ⟨haccept, hrule⟩ := (checkRule_ruleOf items rule).mp hcheck
      exact ⟨items, hreads, haccept, hrule⟩
    · rintro ⟨items, hreads, haccept, rfl⟩
      obtain rfl := Except.ok.inj ((hout (ruleOf items)).mpr ⟨items, hreads, rfl⟩)
      exact (checkRule_ruleOf items _).mpr ⟨haccept, rfl⟩

/-- **Main theorem.** On a line that does not end in a space `parse_rule` returns, and it accepts
exactly the lines whose words are a sequence of items that make a rule; the rule it returns is the
one that the last occurrence of each keyword describes. -/
theorem parseRule_iff_items (line : List Char) (h : line.getLast? ≠ some ' ') :
    (∃ out, parseRule line = .ok out) ∧ ∀ rule, parseRule line = .ok (.ok rule) ↔
      ∃ items : List RuleItem, items.flatMap words = line.splitOn ' ' ∧ Acceptable items ∧
        rule = ruleOf items := by
  obtain ⟨out, hout, hspec⟩ := parseRule_spec (not_blank_of_getLast? h)
  simp only [Reads, trimmed_eq_self h] at hspec
  refine ⟨⟨out, hout⟩, fun rule => ?_⟩
  rw [← hspec, hout, Except.ok.injEq]

/-- A keyword in the place of an argument, an empty argument, and a keyword that is given twice. -/
theorem parseRule_iff_items_repeated :
    "allow from to via r1,r2 bw 10 last  from a".toList.getLast? ≠ some ' ' ∧
      parseRule "allow from to via r1,r2 bw 10 last  from a".toList =
        .ok (.ok ⟨false, .allow, "a".toList, [], some ["r1".toList, "r2".toList], [], 10, 0, 0,
          0⟩) := by
  have h : "allow from to via r1,r2 bw 10 last  from a".toList.getLast? ≠ some ' ' := by
    decide +kernel
  refine ⟨h, ((parseRule_iff_items _ h).2 _).mpr
    ⟨[.allow, .arg .fromName "to".toList, .arg .via "r1,r2".toList, .arg .bw "10".toList,
      .arg .last [], .arg .fromName "a".toList], by decide +kernel,
      ⟨.inl List.mem_cons_self, fun h => absurd h (by decide +kernel), fun _ => .inl ?_⟩,
      by decide +kernel⟩⟩
  exact ⟨"a".toList, by decide +kernel, by decide +kernel⟩

/-! ## Rules that match -/

/-- The rule as `process_request` uses it; `path` lists the node ids that are read through the
texts of the `via` list. -/
def ParsedRule.toRule (rule : ParsedRule) (path : List NodeId) : Rule where
  type := if rule.type = .allow then .allow else .deny
  fromName := String.ofList rule.fromName
  toName := String.ofList rule.toName
  path := path
  bw := rule.bw
  delay := rule.delay
  ttl := rule.ttl

/-- The text of a column of a request, which is not empty. -/
structure IsColumn (text : String) : Prop where
  ne_nil : text.toList ≠ []
  length : text.toList.length ≤ slen
  nul : '\x00' ∉ text.toList

/-- Some request with both ends gets this rule from a list that holds nothing else. -/
def Matchable (rule : Rule) : Prop :=
  ∃ source destination, IsColumn source ∧ IsColumn destination ∧
    matchRules [rule] source destination = some rule

theorem matchRules_singleton (rule : Rule) (source destination : String) :
    matchRules [rule] source destination =
      if rule.fromName = source ∧ rule.toName = destination then some rule else none := by
  simp [matchRules, matchRule]

/-- Such a request has the names of the rule. -/
theorem matchable_iff {rule : Rule} :
    Matchable rule ↔ IsColumn rule.fromName ∧ IsColumn rule.toName := by
  constructor
  · rintro ⟨source, destination, hsource, hdestination, hmatch⟩
    rw [matchRules_singleton] at hmatch
    split_ifs at hmatch with hnames
    exact ⟨hnames.1 ▸ hsource, hnames.2 ▸ hdestination⟩
  · rintro ⟨hfrom, hto⟩
    exact ⟨_, _, hfrom, hto, by rw [matchRules_singleton, if_pos ⟨rfl, rfl⟩]⟩

/-- The words of a line determine its items. -/
theorem flatMap_words_inj {items items' : List RuleItem}
    (h : items.flatMap words = items'.flatMap words) : items = items' := by
  induction items generalizing items' with
  | nil =>
    cases items' with
    | nil => rfl
    | cons item' items' =>
      exact absurd (List.append_eq_nil_iff.mp h.symm).1 (words_ne_nil item')
  | cons item items ih =>
    cases items' with
    | nil => exact absurd (List.append_eq_nil_iff.mp h).1 (words_ne_nil item)
    | cons item' items' =>
      obtain ⟨rfl, hrest⟩ := words_append_inj h
      rw [ih hrest]

/-- The arguments of a line are parts of it. -/
theorem subset_of_lastArg {line : List Char} {items : List RuleItem} (h : Reads line items)
    {kw : RuleKeyword} {text : List Char} (hlast : lastArg kw items = some text) : text ⊆ line := by
  obtain ⟨item, hitem, harg⟩ := List.mem_filterMap.mp (List.mem_of_getLast? hlast)
  have hword : text ∈ (trimmed line).splitOn ' ' := by
    rw [← h]
    refine List.mem_flatMap.mpr ⟨item, hitem, ?_⟩
    cases item with
    | arg kw' text' =>
      simp only [argOf] at harg
      split_ifs at harg
      simp [words, Option.some.inj harg]
    | _ => cases harg
  exact fun c hc => trimmed_subset line ((subset_of_mem_splitOn hword).2 hc)

/-- A name of a rule can stand in a request if it is not empty. -/
theorem isColumn_nameArg {line : List Char} (hnul : '\x00' ∉ line) {items : List RuleItem}
    (h : Reads line items) (kw : RuleKeyword) :
    IsColumn (String.ofList (nameArg kw items)) ↔ Named kw items := by
  rw [← named_iff]
  constructor
  · intro hcolumn
    simpa using hcolumn.ne_nil
  · intro hne
    have hlength : (nameArg kw items).length ≤ slen := List.length_take_le _ _
    refine ⟨by simpa using hne, by simpa using hlength, ?_⟩
    rw [String.toList_ofList, nameArg]
    intro hmem
    have hmem := List.mem_of_mem_take hmem
    cases hlast : lastArg kw items with
    | none => simp [hlast] at hmem
    | some text =>
      rw [hlast, Option.getD_some] at hmem
      exact hnul (subset_of_lastArg h hlast hmem)

/-- **Dead rules.**  `parse_rule` asks for one of `from` and `to`, but a rule is compared with both
ends of a request: a rule that is no default rule can be met by a request with both ends exactly
when the last `from` and the last `to` of its line are there and not empty. -/
theorem parseRule_matchable_iff (line : List Char) (hnul : '\x00' ∉ line) (rule : ParsedRule)
    (hparse : parseRule line = .ok (.ok rule)) (path : List NodeId) :
    (∃ items, Reads line items) ∧ ∀ items, Reads line items → .default ∉ items →
      (Matchable (rule.toRule path) ↔ Named .fromName items ∧ Named .toName items) := by
  have hblank : line = [] ∨ ¬ Blank line := by
    by_contra h
    rw [not_or, not_not] at h
    rw [parseRule, strsplit, removeTrail_blank h.1 h.2] at hparse
    cases hparse
  obtain ⟨out, hout, hspec⟩ := parseRule_spec hblank
  obtain rfl := Except.ok.inj (hout.symm.trans hparse)
  obtain ⟨items₀, hreads₀, haccept, rfl⟩ := (hspec rule).mp rfl
  refine ⟨⟨items₀, hreads₀⟩, fun items hreads _ => ?_⟩
  obtain rfl := flatMap_words_inj (hreads₀.trans hreads.symm)
  rw [matchable_iff]
  exact and_congr (isColumn_nameArg hnul hreads .fromName) (isColumn_nameArg hnul hreads .toName)

/-- A rule that denies what comes from one name is accepted, and no request with a destination
meets it. -/
theorem parseRule_dead :
    parseRule "deny from a".toList =
        .ok (.ok ⟨false, .deny, "a".toList, [], none, [], 0, 0, 0, 0⟩) ∧
      ∀ path, ¬ Matchable
        ((⟨false, .deny, "a".toList, [], none, [], 0, 0, 0, 0⟩ : ParsedRule).toRule path) := by
  refine ⟨by decide +kernel, fun path hmatch => ?_⟩
  exact (matchable_iff.mp hmatch).2.ne_nil String.toList_ofList

/-- With both ends it meets the requests between them. -/
theorem parseRule_matchable_both :
    ∃ rule, parseRule "deny from a to b".toList = .ok (.ok rule) ∧ Matchable (rule.toRule []) := by
  have hparse : parseRule "deny from a to b".toList =
      .ok (.ok ⟨false, .deny, "a".toList, "b".toList, none, [], 0, 0, 0, 0⟩) := by decide +kernel
  refine ⟨_, hparse, ((parseRule_matchable_iff _ (by decide +kernel) _ hparse []).2
    [.deny, .arg .fromName "a".toList, .arg .toName "b".toList] ?_ (by decide +kernel)).mpr ?_⟩
  · unfold Reads
    decide +kernel
  · exact ⟨⟨"a".toList, by decide +kernel, by decide +kernel⟩,
      ⟨"b".toList, by decide +kernel, by decide +kernel⟩⟩

end Srn
