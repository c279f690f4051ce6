import Mathlib.Data.List.Forall2
import Srn.Lib.Fault
import Srn.Misc

/-!
# Srn.Misc.Buffer

`remove_trail` and `strsplit` of `lib/misc.c` on the bytes they work on.  The block of a string is
its characters and the terminating zero; pointers into it are positions, every access outside it
is a fault, and so is an `int` that does not fit.  The functions trim, count and cut in place, in
three passes; `Srn.Misc` has the same functions on the characters alone.
-/

namespace Srn.Buffer

/-- The ways in which a pass over a block can go wrong. -/
inductive BufferFault where
  | outOfBounds
  | nullDereference
  | signedOverflow
  deriving DecidableEq, Repr

/-- `*s`. -/
def load (buf : List Char) (s : ℕ) : Except BufferFault Char :=
  match buf[s]? with
  | none => .error .outOfBounds
  | some c => .ok c

/-- `*s = c`. -/
def store (buf : List Char) (s : ℕ) (c : Char) : Except BufferFault (List Char) :=
  if s < buf.length then .ok (buf.set s c) else .error .outOfBounds

/-- `n + 1` for an `int` of 32 bits. -/
def increment (n : ℕ) : Except BufferFault ℕ :=
  if n + 1 < 2147483648 then .ok (n + 1) else .error .signedOverflow

/-- `for (s = line; *(s+1); s++)`, with the bytes from `s + 1` on. -/
def lastChar (s : ℕ) : List Char → Except BufferFault ℕ
  | [] => .error .outOfBounds
  | c :: rest => if c = '\x00' then .ok s else lastChar (s + 1) rest

/-- `while (*s == ' ') *s-- = 0`. -/
def cutTrail (buf : List Char) : ℕ → Except BufferFault (List Char)
  | 0 => do
    if (← load buf 0) = ' ' then
      let _ ← store buf 0 '\x00'
      -- the next `*s` is the byte before the string
      .error .outOfBounds
    else .ok buf
  | s + 1 => do
    if (← load buf (s + 1)) = ' ' then
      let buf ← store buf (s + 1) '\x00'
      cutTrail buf s
    else .ok buf

/-- `remove_trail`. -/
def removeTrail (buf : List Char) : Except BufferFault (List Char) := do
  if (← load buf 0) = '\x00' then .ok buf
  else
    let s ← lastChar 0 (buf.drop 1)
    cutTrail buf s

/-- The first loop of `strsplit`, with the bytes from `s` on. -/
def countSplit (splitc : Char) (n : ℕ) : List Char → Except BufferFault ℕ
  | [] => .error .outOfBounds
  | c :: rest =>
    if c = '\x00' then .ok n
    else if c = splitc then do
      let n ← increment n
      countSplit splitc n rest
    else countSplit splitc n rest

/-- `strchr`, with the bytes from `s` on.  The terminator is a character that can be found. -/
def strchr (splitc : Char) (s : ℕ) : List Char → Except BufferFault (Option ℕ)
  | [] => .error .outOfBounds
  | c :: rest =>
    if c = splitc then .ok (some s)
    else if c = '\x00' then .ok none
    else strchr splitc (s + 1) rest

/-- The second loop of `strsplit`: the bytes at its end and the pointers stored in `vargs`. -/
def cutFields (splitc : Char) :
    ℕ → List Char → Option ℕ → Except BufferFault (List Char × List (Option ℕ))
  | 0, buf, _ => .ok (buf, [])
  | _ + 1, _, none => .error .nullDereference
  | n + 1, buf, some s => do
    match ← strchr splitc s (buf.drop s) with
    | none =>
      let (buf, vargs) ← cutFields splitc n buf none
      return (buf, some s :: vargs)
    | some q =>
      let buf ← store buf q '\x00'
      let (buf, vargs) ← cutFields splitc n buf (some (q + 1))
      return (buf, some s :: vargs)

/-- What `strsplit` leaves: the bytes of the string, the vector and the number of fields. -/
structure Vargs where
  buf : List Char
  vargs : List (Option ℕ)
  elems : ℕ
  deriving DecidableEq, Repr

/-- `strsplit` for a string in a block of its own, where `malloc` succeeds. -/
def strsplit (line : List Char) (splitc : Char) : Except BufferFault Vargs := do
  let buf ← removeTrail (line ++ ['\x00'])
  let n ← countSplit splitc 0 buf
  let n ← increment n
  -- `malloc((n + 1) * sizeof(char *))`
  let _ ← increment n
  let (buf, vargs) ← cutFields splitc n buf (some 0)
  return ⟨buf, vargs ++ [none], n⟩

/-- What `strsplit` is for: a vector that ends in `NULL` and whose other pointers are at the
fields of the string without its trailing spaces. -/
structure Splits (line : List Char) (splitc : Char) (out : Vargs) (fields : List (List Char)) :
    Prop where
  vargs : ∃ ptrs : List ℕ, out.vargs = ptrs.map some ++ [none] ∧
    List.Forall₂ (fun s field => CString.strdup '\x00' (out.buf.drop s) = some field) ptrs fields
  elems : out.elems = fields.length
  length : fields.length = (trimmed line).count splitc + 1
  notMem : ∀ field ∈ fields, splitc ∉ field
  intercalate : [splitc].intercalate fields = trimmed line

example : strsplit "a,b ".toList ',' =
    .ok ⟨['a', '\x00', 'b', '\x00', '\x00'], [some 0, some 2, none], 2⟩ := by decide

/-! ## Trailing spaces -/

theorem load_append (a : List Char) (c : Char) (rest : List Char) :
    load (a ++ c :: rest) a.length = .ok c := by
  unfold load
  simp

theorem store_append (a : List Char) (c d : Char) (rest : List Char) :
    store (a ++ c :: rest) a.length d = .ok (a ++ d :: rest) := by
  unfold store
  rw [if_pos (by simp), List.set_append_right _ _ le_rfl]
  simp

theorem lastChar_append {cs : List Char} (h : '\x00' ∉ cs) (s : ℕ) (rest : List Char) :
    lastChar s (cs ++ '\x00' :: rest) = .ok (s + cs.length) := by
  induction cs generalizing s with
  | nil => simp [lastChar]
  | cons c cs ih =>
    rw [List.mem_cons, not_or] at h
    rw [List.cons_append, lastChar, if_neg (Ne.symm h.1), ih h.2, List.length_cons]
    congr 1
    omega

/-- One round on a space. -/
theorem cutTrail_space (cs : List Char) (d : Char) (rest : List Char) :
    cutTrail (cs ++ d :: ' ' :: rest) (cs.length + 1) =
      cutTrail (cs ++ d :: '\x00' :: rest) cs.length := by
  have hload := load_append (cs ++ [d]) ' ' rest
  have hstore := store_append (cs ++ [d]) ' ' '\x00' rest
  simp only [List.append_assoc, List.singleton_append, List.length_append, List.length_singleton]
    at hload hstore
  rw [cutTrail, hload, hstore]
  rfl

/-- The loop ends at a character that is no space. -/
theorem cutTrail_ne {c : Char} (hc : c ≠ ' ') (cs rest : List Char) :
    cutTrail (cs ++ c :: rest) cs.length = .ok (cs ++ c :: rest) := by
  have hload := load_append cs c rest
  cases hlen : cs.length with
  | zero =>
    rw [hlen] at hload
    rw [cutTrail, hload]
    exact if_neg hc
  | succ n =>
    rw [hlen] at hload
    rw [cutTrail, hload]
    exact if_neg hc

/-- With another character before them, the spaces are overwritten. -/
theorem cutTrail_eq {cs : List Char} (c : Char) (h : ¬ Blank (cs ++ [c])) (rest : List Char) :
    ∃ k, cutTrail (cs ++ c :: rest) cs.length =
      .ok (trimmed (cs ++ [c]) ++ (List.replicate k '\x00' ++ rest)) := by
  induction cs using List.reverseRecOn generalizing c rest with
  | nil =>
    have hc : c ≠ ' ' := fun heq => h (by simp [Blank, heq])
    exact ⟨0, by rw [cutTrail_ne hc, trimmed_concat_of_ne hc]; simp⟩
  | append_singleton cs d ih =>
    by_cases hc : c = ' '
    · subst hc
      have hblank : ¬ Blank (cs ++ [d]) := fun hb => h fun x hx => by
        obtain hx | hx := List.mem_append.mp hx
        · exact hb x hx
        · exact List.mem_singleton.mp hx
      obtain ⟨k, hk⟩ := ih d hblank ('\x00' :: rest)
      have hround := cutTrail_space cs d rest
      refine ⟨k + 1, ?_⟩
      rw [List.length_append, List.length_singleton, List.append_assoc, List.singleton_append,
        hround, hk, trimmed_concat_space, List.replicate_succ', List.append_assoc,
        List.singleton_append]
    · exact ⟨0, by rw [cutTrail_ne hc, trimmed_concat_of_ne hc]; simp⟩

/-- On spaces alone the loop passes the first byte. -/
theorem cutTrail_blank {cs : List Char} (h : Blank cs) (rest : List Char) :
    cutTrail (cs ++ ' ' :: rest) cs.length = .error .outOfBounds := by
  induction cs using List.reverseRecOn generalizing rest with
  | nil => rfl
  | append_singleton cs d ih =>
    obtain rfl : d = ' ' := h d (by simp)
    have hround := cutTrail_space cs ' ' rest
    rw [List.length_append, List.length_singleton, List.append_assoc, List.singleton_append,
      hround]
    exact ih (fun x hx => h x (List.mem_append_left _ hx)) _

section

variable {line : List Char}

theorem removeTrail_last {cs : List Char} {c : Char} (hline : '\x00' ∉ cs ++ [c]) :
    removeTrail (cs ++ [c] ++ ['\x00']) = cutTrail (cs ++ c :: ['\x00']) cs.length := by
  cases cs with
  | nil =>
    have hc : c ≠ '\x00' := fun heq => hline (by simp [heq])
    simp [removeTrail, load, lastChar, hc, bind, Except.bind]
  | cons d cs =>
    have hd : d ≠ '\x00' := fun heq => hline (by simp [heq])
    have hrest : '\x00' ∉ cs ++ [c] := fun hmem => hline (List.mem_cons_of_mem _ hmem)
    have hlast := lastChar_append hrest 0 []
    simp [removeTrail, load, hd, bind, Except.bind] at hlast ⊢
    rw [hlast]

/-- **`remove_trail`** leaves the trimmed string, with zeros in place of the spaces. -/
theorem removeTrail_eq (hline : '\x00' ∉ line) (h : line = [] ∨ ¬ Blank line) :
    ∃ k, removeTrail (line ++ ['\x00']) =
      .ok (trimmed line ++ '\x00' :: List.replicate k '\x00') := by
  obtain rfl | ⟨cs, c, rfl⟩ := line.eq_nil_or_concat
  · exact ⟨0, rfl⟩
  · rw [List.concat_eq_append] at *
    obtain ⟨k, hk⟩ := cutTrail_eq c (h.resolve_left (by simp)) ['\x00']
    refine ⟨k, ?_⟩
    rw [removeTrail_last hline, hk, ← List.replicate_succ, List.replicate_succ']

theorem removeTrail_blank (hne : line ≠ []) (h : Blank line) :
    removeTrail (line ++ ['\x00']) = .error .outOfBounds := by
  obtain rfl | ⟨cs, c, rfl⟩ := line.eq_nil_or_concat
  · exact absurd rfl hne
  · rw [List.concat_eq_append] at *
    obtain rfl : c = ' ' := h c (by simp)
    have hline : '\x00' ∉ cs ++ [' '] := fun hmem => absurd (h _ hmem) (by decide)
    rw [removeTrail_last hline]
    exact cutTrail_blank (fun x hx => h x (List.mem_append_left _ hx)) _

end

/-! ## Counting -/

theorem increment_eq_ok_iff {n m : ℕ} :
    increment n = .ok m ↔ n + 1 < 2147483648 ∧ n + 1 = m := by
  unfold increment
  split_ifs with h <;> simp [h]

/-- The number of split characters, if all the numbers before it fit. -/
theorem countSplit_append (splitc : Char) {cs : List Char} (h : '\x00' ∉ cs) (n : ℕ)
    (rest : List Char) (hn : n < 2147483648) :
    countSplit splitc n (cs ++ '\x00' :: rest) =
      if n + cs.count splitc < 2147483648 then .ok (n + cs.count splitc)
      else .error .signedOverflow := by
  induction cs generalizing n with
  | nil => simp [countSplit, hn]
  | cons c cs ih =>
    rw [List.mem_cons, not_or] at h
    rw [List.cons_append, countSplit, if_neg (Ne.symm h.1)]
    by_cases hc : c = splitc
    · subst hc
      have hadd : n + (c :: cs).count c = n + 1 + cs.count c := by
        rw [List.count_cons_self]
        omega
      rw [if_pos rfl, hadd, increment]
      by_cases hfit : n + 1 < 2147483648
      · rw [if_pos hfit]
        exact ih h.2 (n + 1) hfit
      · rw [if_neg hfit, if_neg (by omega)]
        rfl
    · rw [if_neg hc, ih h.2 n hn, List.count_cons_of_ne hc]

/-! ## Cutting -/

/-- A character that `strsplit` leaves alone, or the zero it writes. -/
def cut (splitc c : Char) : Char := if c = splitc then '\x00' else c

/-- Where the fields begin when the first one is at `s`. -/
def starts : ℕ → List (List Char) → List ℕ
  | _, [] => []
  | s, field :: fields => s :: starts (s + field.length + 1) fields

theorem map_cut_of_notMem {splitc : Char} {a : List Char} (h : splitc ∉ a) :
    a.map (cut splitc) = a := by
  have heq : ∀ c ∈ a, cut splitc c = id c := fun c hc =>
    if_neg (ne_of_mem_of_not_mem hc h)
  rw [List.map_congr_left heq, List.map_id]

theorem strchr_append {splitc : Char} {a : List Char} (hsplit : splitc ∉ a) (hnul : '\x00' ∉ a)
    (s : ℕ) (rest : List Char) :
    strchr splitc s (a ++ splitc :: rest) = .ok (some (s + a.length)) := by
  induction a generalizing s with
  | nil => simp [strchr]
  | cons c a ih =>
    rw [List.mem_cons, not_or] at hsplit hnul
    rw [List.cons_append, strchr, if_neg (Ne.symm hsplit.1), if_neg (Ne.symm hnul.1),
      ih hsplit.2 hnul.2, List.length_cons, Nat.add_right_comm, Nat.add_assoc]

theorem strchr_none {splitc : Char} (hzero : splitc ≠ '\x00') {a : List Char} (hsplit : splitc ∉ a)
    (hnul : '\x00' ∉ a) (s : ℕ) (rest : List Char) :
    strchr splitc s (a ++ '\x00' :: rest) = .ok none := by
  induction a generalizing s with
  | nil => simp [strchr, Ne.symm hzero]
  | cons c a ih =>
    rw [List.mem_cons, not_or] at hsplit hnul
    rw [List.cons_append, strchr, if_neg (Ne.symm hsplit.1), if_neg (Ne.symm hnul.1),
      ih hsplit.2 hnul.2]

/-- The round of a field that a split character ends. -/
theorem cutFields_succ {splitc : Char} {a : List Char} (hsplit : splitc ∉ a) (hnul : '\x00' ∉ a)
    (n : ℕ) (front rest : List Char) :
    cutFields splitc (n + 1) (front ++ (a ++ splitc :: rest)) (some front.length) =
      (cutFields splitc n (front ++ a ++ ['\x00'] ++ rest)
        (some (front ++ a ++ ['\x00']).length)).map
          fun out => (out.1, some front.length :: out.2) := by
  have hstore := store_append (front ++ a) splitc '\x00' rest
  have hlen : (front ++ a ++ ['\x00']).length = front.length + a.length + 1 := by
    rw [List.length_append, List.length_append, List.length_singleton]
  rw [List.length_append, List.append_assoc] at hstore
  rw [cutFields, List.drop_left, strchr_append hsplit hnul, hlen]
  simp only [bind, Except.bind, hstore, List.append_assoc, List.singleton_append]
  cases cutFields splitc n (front ++ (a ++ '\x00' :: rest))
    (some (front.length + a.length + 1)) <;> rfl

/-- The last round, where `strchr` finds nothing or the terminator. -/
theorem cutFields_last {splitc : Char} {a : List Char} (hsplit : splitc ∉ a) (hnul : '\x00' ∉ a)
    (front rest : List Char) :
    cutFields splitc 1 (front ++ (a ++ '\x00' :: rest)) (some front.length) =
      .ok (front ++ (a ++ '\x00' :: rest), [some front.length]) := by
  by_cases hzero : splitc = '\x00'
  · subst hzero
    rw [cutFields_succ hsplit hnul, cutFields]
    simp [Except.map]
  · rw [cutFields, List.drop_left, strchr_none hzero hsplit hnul]
    rfl

/-- The second loop turns the split characters into zeros and stores where the fields begin. -/
theorem cutFields_eq (splitc : Char) {s : List Char} (hnul : '\x00' ∉ s)
    (front rest : List Char) :
    cutFields splitc (s.count splitc + 1) (front ++ (s ++ '\x00' :: rest)) (some front.length) =
      .ok (front ++ (s.map (cut splitc) ++ '\x00' :: rest),
        (starts front.length (s.splitOn splitc)).map some) := by
  induction s using splitInduction splitc generalizing front with
  | last s hnot =>
    rw [List.count_eq_zero.mpr hnot, cutFields_last hnot hnul, map_cut_of_notMem hnot,
      List.splitOn_eq_singleton hnot]
    rfl
  | more a b hnot ih =>
    rw [List.mem_append, List.mem_cons, not_or, not_or] at hnul
    rw [count_append_cons hnot, List.append_assoc, List.cons_append,
      cutFields_succ hnot hnul.1, ih hnul.2.2, List.splitOn_append_cons_self_of_not_mem hnot,
      List.map_append, map_cut_of_notMem hnot]
    simp [Except.map, cut, starts, Nat.add_assoc]

/-- The strings that begin there are the fields. -/
theorem strdup_starts (splitc : Char) {s : List Char} (hnul : '\x00' ∉ s)
    (front rest : List Char) :
    List.Forall₂ (fun p field => CString.strdup '\x00'
        ((front ++ (s.map (cut splitc) ++ '\x00' :: rest)).drop p) = some field)
      (starts front.length (s.splitOn splitc)) (s.splitOn splitc) := by
  induction s using splitInduction splitc generalizing front with
  | last s hnot =>
    rw [List.splitOn_eq_singleton hnot, map_cut_of_notMem hnot]
    refine .cons ?_ .nil
    rw [List.drop_left, CString.strdup_append hnul]
  | more a b hnot ih =>
    rw [List.mem_append, List.mem_cons, not_or, not_or] at hnul
    have hrest := ih hnul.2.2 (front ++ a ++ ['\x00'])
    rw [List.splitOn_append_cons_self_of_not_mem hnot, List.map_append, map_cut_of_notMem hnot,
      List.map_cons]
    simp only [cut, if_true, List.append_assoc, List.cons_append, List.length_append,
      List.length_cons, List.length_nil, Nat.zero_add, List.nil_append] at hrest ⊢
    refine .cons ?_ (by rw [Nat.add_assoc]; exact hrest)
    rw [List.drop_left, CString.strdup_append hnul.1]

/-! ## Splitting -/

section

variable {line : List Char} (hline : '\x00' ∉ line)

include hline

/-- A string of spaces, or one with more fields than an `int` counts, makes `strsplit` fail. -/
theorem strsplit_ok_imp {splitc : Char} {out : Vargs} (h : strsplit line splitc = .ok out) :
    (line = [] ∨ ¬ Blank line) ∧ (trimmed line).count splitc + 2 < 2147483648 := by
  have hblank : line = [] ∨ ¬ Blank line := by
    by_contra hnot
    rw [not_or, not_not] at hnot
    rw [strsplit, removeTrail_blank hnot.1 hnot.2] at h
    cases h
  refine ⟨hblank, ?_⟩
  obtain ⟨k, hk⟩ := removeTrail_eq hline hblank
  have hnul : '\x00' ∉ trimmed line := fun hmem => hline (trimmed_subset line hmem)
  rw [strsplit, hk] at h
  obtain ⟨buf, hbuf, h⟩ := Fault.bind_eq_ok_iff.mp h
  obtain ⟨n, hcount, h⟩ := Fault.bind_eq_ok_iff.mp h
  obtain ⟨m, hm, h⟩ := Fault.bind_eq_ok_iff.mp h
  obtain ⟨l, hl, -⟩ := Fault.bind_eq_ok_iff.mp h
  rw [← Except.ok.inj hbuf, countSplit_append splitc hnul 0 _ (by omega)] at hcount
  rw [increment_eq_ok_iff] at hm hl
  split_ifs at hcount
  have hn : 0 + (trimmed line).count splitc = n := Except.ok.inj hcount
  omega

/-- Otherwise it leaves the fields of the trimmed string. -/
theorem strsplit_eq {splitc : Char} (hblank : line = [] ∨ ¬ Blank line)
    (hcount : (trimmed line).count splitc + 2 < 2147483648) :
    ∃ out, strsplit line splitc = .ok out ∧
      Splits line splitc out ((trimmed line).splitOn splitc) := by
  obtain ⟨k, hk⟩ := removeTrail_eq hline hblank
  have hnul : '\x00' ∉ trimmed line := fun hmem => hline (trimmed_subset line hmem)
  have hcut := cutFields_eq splitc hnul [] (List.replicate k '\x00')
  have hstarts := strdup_starts splitc hnul [] (List.replicate k '\x00')
  refine ⟨⟨(trimmed line).map (cut splitc) ++ '\x00' :: List.replicate k '\x00',
    (starts 0 ((trimmed line).splitOn splitc)).map some ++ [none],
    (trimmed line).count splitc + 1⟩, ?_, ?_⟩
  · have hn : countSplit splitc 0 (trimmed line ++ '\x00' :: List.replicate k '\x00') =
        .ok ((trimmed line).count splitc) := by
      rw [countSplit_append splitc hnul 0 _ (by omega), Nat.zero_add, if_pos (by omega)]
    have hfirst := increment_eq_ok_iff.mpr
      ⟨(by omega : (trimmed line).count splitc + 1 < 2147483648), rfl⟩
    have hsecond := increment_eq_ok_iff.mpr ⟨hcount, rfl⟩
    rw [strsplit, hk]
    simp only [bind, Except.bind, hn, hfirst, hsecond]
    rw [List.nil_append, List.length_nil] at hcut
    rw [hcut]
    rfl
  · exact ⟨⟨_, rfl, hstarts⟩, (length_splitOn splitc _).symm, length_splitOn splitc _,
      fun field hfield => (subset_of_mem_splitOn hfield).1, List.intercalate_splitOn splitc⟩

end

/-- The strings it leaves are the ones of `Srn.strsplit`. -/
theorem strsplit_refines {line : List Char} (hline : '\x00' ∉ line) {splitc : Char} {out : Vargs}
    (h : strsplit line splitc = .ok out) :
    ∃ fields, Srn.strsplit line splitc = .ok fields ∧ Splits line splitc out fields := by
  obtain ⟨hblank, hcount⟩ := strsplit_ok_imp hline h
  obtain ⟨out', hout', hsplits⟩ := strsplit_eq hline hblank hcount
  rw [h, Except.ok.injEq] at hout'
  subst hout'
  exact ⟨_, Srn.strsplit_eq hblank splitc, hsplits⟩

/-- **Splitting in place.**  `strsplit` stays inside the string and leaves its fields exactly for
the strings that are empty or have a character other than a space, and whose fields and the `NULL`
after them an `int` can count. -/
theorem strsplit_splits_iff {line : List Char} (hline : '\x00' ∉ line) (splitc : Char) :
    (∃ out fields, strsplit line splitc = .ok out ∧ Splits line splitc out fields) ↔
      (line = [] ∨ ¬ Blank line) ∧ (trimmed line).count splitc + 2 < 2147483648 := by
  constructor
  · rintro ⟨out, fields, hout, -⟩
    exact strsplit_ok_imp hline hout
  · rintro ⟨hblank, hcount⟩
    obtain ⟨out, hout, hsplits⟩ := strsplit_eq hline hblank hcount
    exact ⟨out, _, hout, hsplits⟩

/-- Two prefixes and a trailing space. -/
theorem strsplit_splits_prefixes : '\x00' ∉ "a;b ".toList ∧
    ∃ out fields, strsplit "a;b ".toList ';' = .ok out ∧ Splits "a;b ".toList ';' out fields :=
  ⟨by decide, (strsplit_splits_iff (by decide) ';').mpr
    ⟨.inr fun hblank => absurd (hblank 'a' (by decide)) (by decide), by decide⟩⟩

/-- A list of prefixes that is one space: the byte before the string is read. -/
theorem strsplit_space : '\x00' ∉ [' '] ∧ strsplit [' '] ';' = .error .outOfBounds ∧
    ¬ ∃ out fields, strsplit [' '] ';' = .ok out ∧ Splits [' '] ';' out fields := by
  have hfault : strsplit [' '] ';' = .error .outOfBounds := rfl
  refine ⟨by decide, hfault, ?_⟩
  rintro ⟨out, fields, hout, -⟩
  rw [hfault] at hout
  cases hout

end Srn.Buffer
