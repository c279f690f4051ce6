import Srn.Flowstate
import Srn.Lib.Fault
import Srn.Misc

/-!
# Srn.Controller.Config

The line of the configuration file that lists the providers, as `load_config` of
`sr-ctrl/sr-ctrl.c` reads it:

```
providers <name> <addr>/<len> via <router> <name> <addr>/<len> via <router> ...
```

The number of providers is computed from the number of spaces and slashes, and the fields are then
read one after the other.  There are five of these characters for each provider, and the code
divides by four.

The other settings are read with `sscanf`, which is a parameter here; all that matters of it is
that it reads nothing where the line has another letter than the format.
-/

namespace Srn

/-! ## The line -/

/-- `struct provider`. -/
structure ProviderConf extends Provider where
  name : List Char
  deriving DecidableEq, Repr

/-- The way in which reading the line can go wrong. -/
inductive ConfigFault where
  | outOfBounds
  deriving DecidableEq, Repr

/-- The string in the line buffer. -/
def bufString (buf : List Char) : List Char := buf.takeWhile fun c => c ≠ '\x00'

/-- `s = strchr(line, c); if (s) *s = 0;` -/
def cutAt (c : Char) (buf : List Char) : List Char :=
  if c ∈ bufString buf then buf.set ((bufString buf).idxOf c) '\x00' else buf

/-- `strip_crlf` of the line buffer. -/
def stripCrlfBuf (buf : List Char) : List Char := cutAt '\r' (cutAt '\n' buf)

/-- The string at `ptr`, which is given by the rest of the buffer, and `ptr + strlen(ptr) + 1`. -/
def takeString (ptr : List Char) : Except ConfigFault (List Char × List Char) :=
  match CString.strdup '\x00' ptr with
  | none => .error .outOfBounds
  | some s => .ok (s, ptr.drop (s.length + 1))

/-- A round of the second loop. -/
def readProvider (ptr : List Char) : Except ConfigFault (ProviderConf × List Char) := do
  let (name, ptr) ← takeString ptr
  let (addr, ptr) ← takeString ptr
  let (len, ptr) ← takeString ptr
  let (_, ptr) ← takeString ptr
  let (router, ptr) ← takeString ptr
  return (⟨⟨router.take (slen + 1), addr.take (slen + 1), .ofInt (CString.strtol len)⟩,
    name.take (slen + 1)⟩, ptr)

/-- The second loop. -/
def readProviders : ℕ → List Char → Except ConfigFault (List ProviderConf × List Char)
  | 0, ptr => .ok ([], ptr)
  | n + 1, ptr => do
    let (p, ptr) ← readProvider ptr
    let (ps, ptr) ← readProviders n ptr
    return (p :: ps, ptr)

/-- The characters that the first loop counts. -/
def isSeparator (c : Char) : Bool := c = ' ' || c = '/'

/-- The first loop: the separators become terminators. -/
def cutFields (buf : List Char) : List Char :=
  (bufString buf).map (fun c => if isSeparator c then '\x00' else c) ++
    buf.drop (bufString buf).length

/-- The branch of `load_config` for the providers, with the pointer after the last field. -/
def loadProviders (buf : List Char) : Except ConfigFault (List ProviderConf × List Char) :=
  let nbProviders := (bufString buf).countP isSeparator / 4
  readProviders nbProviders ((cutFields buf).drop 10)

/-- The settings that are looked for before the providers. -/
def configKeys : List String :=
  ["ovsdb_client", "ovsdb_server", "ovsdb_database", "zlog_conf_file", "ntransacts", "rules_file",
    "worker_threads", "req_buffer_size"]

/-- The text `"providers "`. -/
def providersWord : List Char := ['p', 'r', 'o', 'v', 'i', 'd', 'e', 'r', 's', ' ']

/-- What `load_config` makes of a line. -/
inductive ConfigLine where
  | setting
  | providers (providers : List ProviderConf) (ptr : List Char)
  | unknown
  deriving DecidableEq, Repr

/-- The loop of `load_config` for one line; `sscanf` is what it returns for a setting. -/
def loadConfigLine (sscanf : String → List Char → ℤ) (buf : List Char) :
    Except ConfigFault ConfigLine :=
  let buf := stripCrlfBuf buf
  if configKeys.any fun key => sscanf key (bufString buf) ≠ 0 then .ok .setting
  else if (bufString buf).take 10 = providersWord then do
    let (ps, ptr) ← loadProviders buf
    return .providers ps ptr
  else .ok .unknown

/-- A line that begins with another letter than the format yields no item, and is not at its end
either. -/
def ReadsLiterally (sscanf : String → List Char → ℤ) : Prop :=
  ∀ key line, line ≠ [] → line.head? ≠ key.toList.head? → sscanf key line = 0

/-! ## Providers as they are written -/

/-- A text that is one field of the line. -/
def IsField (text : List Char) : Prop :=
  ∀ c ∈ text, c ∉ [' ', '/', '\x00', '\n', '\r']

instance (text : List Char) : Decidable (IsField text) :=
  List.decidableBAll (fun c => c ∉ [' ', '/', '\x00', '\n', '\r']) text

/-- The text `"via"`. -/
def viaWord : List Char := ['v', 'i', 'a']

/-- A provider as the line gives it. -/
structure ProviderText where
  name : List Char
  addr : List Char
  len : ℕ
  router : List Char
  name_field : IsField name
  addr_field : IsField addr
  len_le : len ≤ 128
  router_field : IsField router

namespace ProviderText

/-- `<name> <addr>/<len> via <router>`. -/
def text (p : ProviderText) : List Char :=
  p.name ++ ' ' :: (p.addr ++ '/' :: (Nat.toDigits 10 p.len ++ ' ' :: (viaWord ++
    ' ' :: p.router)))

/-- The entry says what is written. -/
structure Matches (p : ProviderText) (conf : ProviderConf) : Prop where
  name : conf.name = p.name
  addr : conf.addr = p.addr
  prefixLen : conf.prefixLen.toInt = p.len
  router : conf.router = p.router

end ProviderText

/-- The line of a list of providers. -/
def providersLine (ps : List ProviderText) : List Char :=
  providersWord ++ [' '].intercalate (ps.map ProviderText.text)

/-- However the line ends in the file and whatever is left in the buffer of 128 characters behind
it, `load_config` reads the providers that are written, and nothing behind the line. -/
def LoadsProviders (sscanf : String → List Char → ℤ) (ps : List ProviderText) : Prop :=
  ∀ eol ∈ ["", "\n", "\r\n"], ∀ junk : List Char,
    (providersLine ps ++ eol.toList ++ '\x00' :: junk).length = 128 →
    ∃ confs ptr, loadConfigLine sscanf (providersLine ps ++ eol.toList ++ '\x00' :: junk) =
        .ok (.providers confs ptr) ∧
      List.Forall₂ ProviderText.Matches ps confs ∧ eol.length + junk.length ≤ ptr.length

/-! ## The buffer -/

section

variable {line rest : List Char} {c : Char}

theorem bufString_append (h : '\x00' ∉ line) (junk : List Char) :
    bufString (line ++ '\x00' :: junk) = line := CString.takeWhile_append h junk

/-- A line is cut where the character stands for the first time. -/
theorem cutAt_append (hnul : '\x00' ∉ line) (hline : c ∉ line) (hc : c ≠ '\x00') :
    cutAt c (line ++ c :: rest) = line ++ '\x00' :: rest := by
  have hall : ∀ d ∈ line, decide (d ≠ '\x00') = true := fun d hd =>
    decide_eq_true fun heq => hnul (heq ▸ hd)
  have hstring : bufString (line ++ c :: rest) = line ++ c :: bufString rest := by
    rw [bufString, List.takeWhile_append_of_pos hall,
      List.takeWhile_cons_of_pos (by simpa using hc)]
    rfl
  rw [cutAt, hstring, if_pos (by simp), List.idxOf_append_of_notMem hline, List.idxOf_cons_self,
    Nat.add_zero, List.set_append_right _ _ (Nat.le_refl _), Nat.sub_self, List.set_cons_zero]

theorem cutAt_of_not_mem (hnul : '\x00' ∉ line) (hline : c ∉ line) (junk : List Char) :
    cutAt c (line ++ '\x00' :: junk) = line ++ '\x00' :: junk := by
  rw [cutAt, bufString_append hnul, if_neg hline]

/-- `strip_crlf` removes the end of the line; what it leaves behind the line is no longer. -/
theorem stripCrlfBuf_eq (hnul : '\x00' ∉ line) (hlf : '\n' ∉ line) (hcr : '\r' ∉ line)
    {eol : String} (heol : eol ∈ ["", "\n", "\r\n"]) (junk : List Char) :
    ∃ junk', junk'.length = eol.length + junk.length ∧
      stripCrlfBuf (line ++ eol.toList ++ '\x00' :: junk) = line ++ '\x00' :: junk' := by
  simp only [List.mem_cons, List.not_mem_nil, or_false] at heol
  unfold stripCrlfBuf
  rcases heol with rfl | rfl | rfl
  · refine ⟨junk, by simp, ?_⟩
    rw [String.toList_empty, List.append_nil, cutAt_of_not_mem hnul hlf, cutAt_of_not_mem hnul hcr]
  · refine ⟨'\x00' :: junk, Nat.add_comm _ _, ?_⟩
    rw [show "\n".toList = ['\n'] by decide, List.append_assoc, List.singleton_append,
      cutAt_append hnul hlf (by decide), cutAt_of_not_mem hnul hcr]
  · refine ⟨'\x00' :: '\x00' :: junk, ?_, ?_⟩
    · show junk.length + 1 + 1 = 2 + junk.length
      omega
    · have hnul' : '\x00' ∉ line ++ ['\r'] := by simp [hnul]
      have hlf' : '\n' ∉ line ++ ['\r'] := by simp [hlf]
      rw [show "\r\n".toList = ['\r', '\n'] by decide,
        show line ++ ['\r', '\n'] ++ '\x00' :: junk =
          (line ++ ['\r']) ++ '\n' :: '\x00' :: junk by simp,
        cutAt_append hnul' hlf' (by decide), List.append_assoc, List.singleton_append,
        cutAt_append hnul hcr (by decide)]

theorem takeString_append (h : '\x00' ∉ line) :
    takeString (line ++ '\x00' :: rest) = .ok (line, rest) := by
  simp [takeString, CString.strdup_append h]

end

theorem IsField.not_mem {text : List Char} (h : IsField text) {c : Char}
    (hc : c ∈ [' ', '/', '\x00', '\n', '\r']) : c ∉ text := fun hmem => h c hmem hc

/-- The digits of a prefix length. -/
theorem isField_toDigits {n : ℕ} (h : n ≤ 128) : IsField (Nat.toDigits 10 n) := by
  revert n
  decide +kernel

theorem strtol_toDigits {n : ℕ} (h : n ≤ 128) : CString.strtol (Nat.toDigits 10 n) = n := by
  revert n
  decide +kernel

/-! ## The fields -/

namespace ProviderText

/-- The fields of a provider, each with a terminator. -/
def fields (p : ProviderText) : List Char :=
  p.name ++ '\x00' :: (p.addr ++ '\x00' :: (Nat.toDigits 10 p.len ++ '\x00' :: (viaWord ++
    '\x00' :: (p.router ++ ['\x00']))))

/-- The entry that is read from them. -/
def conf (p : ProviderText) : ProviderConf :=
  ⟨⟨p.router.take (slen + 1), p.addr.take (slen + 1), .ofInt p.len⟩, p.name.take (slen + 1)⟩

/-- **One provider.** -/
theorem readProvider_fields (p : ProviderText) (rest : List Char) :
    readProvider (p.fields ++ rest) = .ok (p.conf, rest) := by
  have hnul : '\x00' ∈ [' ', '/', '\x00', '\n', '\r'] := by decide
  have hvia : '\x00' ∉ viaWord := by decide
  simp only [fields, List.append_assoc, List.cons_append, List.nil_append]
  unfold readProvider
  rw [takeString_append (p.name_field.not_mem hnul)]
  simp only [bind, Except.bind]
  rw [takeString_append (p.addr_field.not_mem hnul)]
  simp only
  rw [takeString_append ((isField_toDigits p.len_le).not_mem hnul)]
  simp only
  rw [takeString_append hvia]
  simp only
  rw [takeString_append (p.router_field.not_mem hnul)]
  simp only [strtol_toDigits p.len_le, pure, Except.pure, conf]

/-- **The loop** over the providers. -/
theorem readProviders_fields (ps : List ProviderText) (rest : List Char) :
    readProviders ps.length (ps.flatMap fields ++ rest) = .ok (ps.map conf, rest) := by
  induction ps with
  | nil => rfl
  | cons p ps ih =>
    rw [List.length_cons, readProviders, List.flatMap_cons, List.append_assoc,
      readProvider_fields]
    simp only [bind, Except.bind, ih, pure, Except.pure, List.map_cons]

theorem length_of_readProviders {n : ℕ} {ptr ptr' : List Char} {confs : List ProviderConf}
    (h : readProviders n ptr = .ok (confs, ptr')) : confs.length = n := by
  induction n generalizing ptr ptr' confs with
  | zero =>
    obtain ⟨rfl, -⟩ := Prod.mk.inj (Except.ok.inj h)
    rfl
  | succ n ih =>
    rw [readProviders] at h
    obtain ⟨⟨p, ptr₁⟩, -, h⟩ := Fault.bind_eq_ok_iff.mp h
    obtain ⟨⟨ps, ptr₂⟩, hps, h⟩ := Fault.bind_eq_ok_iff.mp h
    obtain ⟨rfl, -⟩ := Prod.mk.inj (Except.ok.inj h)
    rw [List.length_cons, ih hps]

/-- What the first loop does to a character. -/
def cut (c : Char) : Char := if isSeparator c then '\x00' else c

theorem map_cut {text : List Char} (h : IsField text) : text.map cut = text := by
  refine (List.map_congr_left fun c hc => ?_).trans (List.map_id text)
  have hsep : isSeparator c = false := by
    have hnot := h c hc
    simp only [List.mem_cons, not_or] at hnot
    simp [isSeparator, hnot.1, hnot.2.1]
  rw [cut, hsep]
  rfl

theorem countP_field {text : List Char} (h : IsField text) : text.countP isSeparator = 0 := by
  rw [List.countP_eq_zero]
  intro c hc
  have hnot := h c hc
  simp only [List.mem_cons, not_or] at hnot
  simp [isSeparator, hnot.1, hnot.2.1]

theorem map_cut_text (p : ProviderText) : p.text.map cut ++ ['\x00'] = p.fields := by
  have hvia : IsField viaWord := by decide
  have hspace : cut ' ' = '\x00' := by decide
  have hslash : cut '/' = '\x00' := by decide
  simp only [text, fields, List.map_append, List.map_cons, map_cut p.name_field,
    map_cut p.addr_field, map_cut (isField_toDigits p.len_le), map_cut hvia,
    map_cut p.router_field, hspace, hslash, List.append_assoc, List.cons_append]

theorem countP_text (p : ProviderText) : p.text.countP isSeparator = 4 := by
  have hvia : IsField viaWord := by decide
  have hspace : isSeparator ' ' = true := by decide
  have hslash : isSeparator '/' = true := by decide
  simp only [text, List.countP_append, List.countP_cons, countP_field p.name_field,
    countP_field p.addr_field, countP_field (isField_toDigits p.len_le), countP_field hvia,
    countP_field p.router_field, hspace, hslash, if_true]

/-- The first loop turns the texts of providers into their fields, and meets five separators for
each but the first one. -/
theorem intercalate_text (p : ProviderText) (ps : List ProviderText) :
    ([' '].intercalate ((p :: ps).map text)).map cut ++ ['\x00'] = (p :: ps).flatMap fields ∧
      ([' '].intercalate ((p :: ps).map text)).countP isSeparator = 5 * ps.length + 4 := by
  induction ps generalizing p with
  | nil => simp [map_cut_text, countP_text]
  | cons q ps ih =>
    obtain ⟨hmap, hcount⟩ := ih q
    have hstep : [' '].intercalate ((p :: q :: ps).map text) =
        p.text ++ ' ' :: [' '].intercalate ((q :: ps).map text) := by
      simp [List.intercalate_cons_cons]
    rw [hstep]
    constructor
    · have hspace : cut ' ' = '\x00' := by decide
      rw [List.map_append, List.map_cons, hspace, List.append_assoc, List.cons_append, hmap,
        List.flatMap_cons (x := p), ← map_cut_text p, List.append_assoc, List.singleton_append]
    · have hspace : isSeparator ' ' = true := by decide
      rw [List.countP_append, List.countP_cons, countP_text, hcount, if_pos hspace,
        List.length_cons]
      omega

end ProviderText

/-! ## The whole line -/

open ProviderText

/-- The characters that end a line do not occur in it. -/
theorem not_mem_providersLine (ps : List ProviderText) {c : Char}
    (hc : c ∈ ['\x00', '\n', '\r']) : c ∉ providersLine ps := by
  have hc' : c ∈ [' ', '/', '\x00', '\n', '\r'] := by
    simp only [List.mem_cons, List.not_mem_nil, or_false] at hc ⊢
    exact .inr (.inr hc)
  have hwords : ['\x00', '\n', '\r'].all (fun c => decide (c ≠ ' ' ∧ c ≠ '/' ∧ c ∉ viaWord ∧
      c ∉ providersWord)) = true := by
    decide
  obtain ⟨hspace, hslash, hvia, hproviders⟩ :=
    of_decide_eq_true (List.all_eq_true.mp hwords c hc)
  have htext : ∀ p : ProviderText, c ∉ p.text := by
    intro p
    simp only [text, List.mem_append, List.mem_cons, not_or]
    exact ⟨p.name_field.not_mem hc', hspace, p.addr_field.not_mem hc', hslash,
      (isField_toDigits p.len_le).not_mem hc', hspace, hvia, hspace, p.router_field.not_mem hc'⟩
  rw [providersLine, List.mem_append, not_or]
  refine ⟨hproviders, ?_⟩
  induction ps with
  | nil => simp
  | cons p ps ih =>
    cases ps with
    | nil => simpa using htext p
    | cons q ps =>
      rw [List.map_cons, List.map_cons, List.intercalate_cons_cons]
      simp only [List.mem_append, List.mem_singleton, not_or]
      exact ⟨⟨htext p, hspace⟩, ih⟩

/-- The number of providers that `load_config` computes. -/
theorem countP_providersLine (ps : List ProviderText) :
    (providersLine ps).countP isSeparator / 4 = 5 * ps.length / 4 := by
  have hword : providersWord.countP isSeparator = 1 := by decide
  rw [providersLine, List.countP_append, hword]
  cases ps with
  | nil => rfl
  | cons p ps =>
    rw [(intercalate_text p ps).2, List.length_cons]
    omega

/-- The fields behind the word `providers`. -/
theorem cutFields_providersLine (ps : List ProviderText) (junk : List Char) :
    (cutFields (providersLine ps ++ '\x00' :: junk)).drop 10 =
      if ps = [] then '\x00' :: junk else ps.flatMap fields ++ junk := by
  have hnul := not_mem_providersLine ps (c := '\x00') (by decide)
  have hword : (providersWord.map cut).length = 10 := rfl
  have hcut : cutFields (providersLine ps ++ '\x00' :: junk) =
      (providersLine ps).map cut ++ '\x00' :: junk := by
    rw [cutFields, bufString_append hnul, List.drop_left]
    rfl
  rw [hcut, providersLine, List.map_append, List.append_assoc, List.drop_append_of_le_length
    (Nat.le_of_eq hword.symm), ← hword, List.drop_length, List.nil_append]
  cases ps with
  | nil => rfl
  | cons p ps =>
    rw [if_neg (List.cons_ne_nil p ps), ← (intercalate_text p ps).1, List.append_assoc,
      List.singleton_append]

/-- **The branch for the providers** on their line. -/
theorem loadConfigLine_eq {sscanf : String → List Char → ℤ} (hscan : ReadsLiterally sscanf)
    (ps : List ProviderText) {eol : String} (heol : eol ∈ ["", "\n", "\r\n"]) (junk : List Char) :
    ∃ junk', junk'.length = eol.length + junk.length ∧
      loadConfigLine sscanf (providersLine ps ++ eol.toList ++ '\x00' :: junk) =
        (readProviders (5 * ps.length / 4) (if ps = [] then '\x00' :: junk'
          else ps.flatMap fields ++ junk')).map fun out => .providers out.1 out.2 := by
  have hnul := not_mem_providersLine ps (c := '\x00') (by decide)
  obtain ⟨junk', hjunk, hstrip⟩ := stripCrlfBuf_eq hnul (not_mem_providersLine ps (by decide))
    (not_mem_providersLine ps (by decide)) heol junk
  refine ⟨junk', hjunk, ?_⟩
  have hlength : providersWord.length = 10 := rfl
  have htake : (providersLine ps).take 10 = providersWord := by
    rw [providersLine, ← hlength, List.take_left]
  -- every setting begins with another letter
  have hhead : ∀ key ∈ configKeys, providersWord.head? ≠ key.toList.head? := by
    decide +kernel
  have hline : (providersLine ps).head? = providersWord.head? := by
    rw [← htake, List.head?_take, if_neg (by decide)]
  have hkeys : configKeys.any (fun key => sscanf key (providersLine ps) ≠ 0) = false := by
    rw [List.any_eq_false]
    intro key hkey
    have hne : providersLine ps ≠ [] := by
      intro hnil
      rw [hnil] at htake
      cases htake
    rw [hscan key _ hne (hline ▸ hhead key hkey)]
    simp
  unfold loadConfigLine
  simp only [hstrip, bufString_append hnul, hkeys, Bool.false_eq_true, if_false, htake, if_true,
    loadProviders, countP_providersLine, cutFields_providersLine]
  cases readProviders (5 * ps.length / 4)
    (if ps = [] then '\x00' :: junk' else ps.flatMap fields ++ junk') <;> rfl

/-- A provider is no longer than the line it is on. -/
theorem length_fields_le {ps : List ProviderText} {p : ProviderText} (hp : p ∈ ps) :
    p.fields.length ≤ (providersLine ps).length := by
  have hsub : p.fields.Sublist (ps.flatMap fields) := by
    rw [List.flatMap_def]
    exact List.sublist_flatten_of_mem (List.mem_map_of_mem hp)
  obtain ⟨q, qs, rfl⟩ := List.exists_cons_of_ne_nil (List.ne_nil_of_mem hp)
  have hlength := congrArg List.length (intercalate_text q qs).1
  rw [List.length_append, List.length_map, List.length_singleton] at hlength
  have hword : providersWord.length = 10 := rfl
  have hle := hsub.length_le
  rw [providersLine, List.length_append]
  omega

/-- The entry that is read says what is written, if a `char` can hold the prefix length. -/
theorem matches_conf {p : ProviderText} (hlength : p.fields.length ≤ 127) (hlen : p.len ≤ 127) :
    p.Matches p.conf := by
  have hint : ∀ n ≤ 127, (Int8.ofInt (n : ℕ)).toInt = n := by decide +kernel
  simp only [fields, List.length_append, List.length_cons] at hlength
  have hslen : slen = 127 := rfl
  exact ⟨List.take_of_length_le (by omega), List.take_of_length_le (by omega), hint p.len hlen,
    List.take_of_length_le (by omega)⟩

/-- At most three providers are counted right, and read as they are written. -/
theorem loadsProviders_of_le {sscanf : String → List Char → ℤ} (hscan : ReadsLiterally sscanf)
    {ps : List ProviderText} (hfits : (providersLine ps).length ≤ 127) (hcount : ps.length ≤ 3)
    (hlen : ∀ p ∈ ps, p.len ≤ 127) : LoadsProviders sscanf ps := by
  intro eol heol junk _
  obtain ⟨junk', hjunk, heq⟩ := loadConfigLine_eq hscan ps heol junk
  have hnumber : 5 * ps.length / 4 = ps.length := by omega
  have hmatches : List.Forall₂ ProviderText.Matches ps (ps.map conf) := by
    rw [List.forall₂_map_right_iff, List.forall₂_same]
    exact fun p hp => matches_conf (Nat.le_trans (length_fields_le hp) hfits) (hlen p hp)
  rw [heq, hnumber]
  cases ps with
  | nil => exact ⟨[], _, rfl, .nil, by simp [hjunk]⟩
  | cons p ps =>
    rw [if_neg (List.cons_ne_nil p ps), readProviders_fields]
    exact ⟨_, junk', rfl, hmatches, Nat.le_of_eq hjunk.symm⟩

/-- Five quarters of the providers are read, and a `char` is at most 127. -/
theorem le_of_loadsProviders {sscanf : String → List Char → ℤ} (hscan : ReadsLiterally sscanf)
    {ps : List ProviderText} (hfits : (providersLine ps).length ≤ 127)
    (h : LoadsProviders sscanf ps) : ps.length ≤ 3 ∧ ∀ p ∈ ps, p.len ≤ 127 := by
  have heol : "" ∈ ["", "\n", "\r\n"] := by decide
  obtain ⟨confs, ptr, hload, hall, -⟩ := h "" heol
    (List.replicate (127 - (providersLine ps).length) '\x00') (by
      simp only [String.toList_empty, List.append_nil, List.length_append, List.length_cons,
        List.length_replicate]
      omega)
  obtain ⟨junk', -, heq⟩ := loadConfigLine_eq hscan ps heol
    (List.replicate (127 - (providersLine ps).length) '\x00')
  rw [heq, Fault.map_eq_ok_iff] at hload
  obtain ⟨out, hread, hout⟩ := hload
  obtain ⟨rfl, rfl⟩ := ConfigLine.providers.inj hout
  have hlength := length_of_readProviders hread
  have hcount := hall.length_eq
  refine ⟨by omega, fun p hp => ?_⟩
  obtain ⟨i, hi, rfl⟩ := List.getElem_of_mem hp
  have hmatch := hall.get hi (hcount ▸ hi)
  have hle := (out.1.get ⟨i, hcount ▸ hi⟩).prefixLen.toInt_le
  have hlen := hmatch.prefixLen
  have hmax : Int8.maxValue.toInt = 127 := by decide
  simp only [List.get_eq_getElem] at hle hlen
  omega

/-- **Main theorem.** The line of providers that fits the buffer is read as it is written exactly
when it lists at most three providers, with prefix lengths that fit in a `char`. -/
theorem loadsProviders_iff (sscanf : String → List Char → ℤ) (hscan : ReadsLiterally sscanf)
    (ps : List ProviderText) (hfits : (providersLine ps).length ≤ 127) :
    LoadsProviders sscanf ps ↔ ps.length ≤ 3 ∧ ∀ p ∈ ps, p.len ≤ 127 := by
  constructor
  · exact le_of_loadsProviders hscan hfits
  · rintro ⟨hcount, hlen⟩
    exact loadsProviders_of_le hscan hfits hcount hlen

/-- A provider with names of one letter. -/
def shortProvider : ProviderText where
  name := ['p']
  addr := ['a']
  len := 64
  router := ['r']
  name_field := by decide
  addr_field := by decide
  len_le := by decide
  router_field := by decide

/-- The buffer with the line of four such providers. -/
def fourProvidersBuf : List Char :=
  providersLine (List.replicate 4 shortProvider) ++ List.replicate 67 '\x00'

/-- Four such providers fit in the buffer, but five are read; the fifth is what stands behind the
line. -/
theorem loadConfigLine_reads_fifth :
    fourProvidersBuf.length = 128 ∧ ReadsLiterally (fun _ _ => 0) ∧
      loadConfigLine (fun _ _ => 0) fourProvidersBuf =
        .ok (.providers (List.replicate 4 shortProvider.conf ++ [⟨⟨[], [], 0⟩, []⟩])
          (List.replicate 61 '\x00')) ∧
      ¬ LoadsProviders (fun _ _ => 0) (List.replicate 4 shortProvider) := by
  have hload : loadConfigLine (fun _ _ => 0) fourProvidersBuf =
      .ok (.providers (List.replicate 4 shortProvider.conf ++ [⟨⟨[], [], 0⟩, []⟩])
        (List.replicate 61 '\x00')) := by decide +kernel
  refine ⟨by decide +kernel, fun _ _ _ _ => rfl, hload, fun h => ?_⟩
  obtain ⟨confs, ptr, heq, hall, -⟩ := h "" (by decide) (List.replicate 66 '\x00')
    (by decide +kernel)
  have hbuf : providersLine (List.replicate 4 shortProvider) ++ "".toList ++
      '\x00' :: List.replicate 66 '\x00' = fourProvidersBuf := by decide +kernel
  rw [hbuf, hload] at heq
  obtain ⟨rfl, -⟩ := ConfigLine.providers.inj (Except.ok.inj heq)
  exact absurd hall.length_eq (by decide)

/-- Two are read as they are written. -/
theorem loadsProviders_two :
    (providersLine [shortProvider, shortProvider]).length ≤ 127 ∧
      LoadsProviders (fun _ _ => 0) [shortProvider, shortProvider] := by
  have hfits : (providersLine [shortProvider, shortProvider]).length ≤ 127 := by decide
  refine ⟨hfits, (loadsProviders_iff (fun _ _ => 0) (fun _ _ _ _ => rfl) _ hfits).mpr ?_⟩
  exact ⟨by decide, by decide⟩

end Srn
