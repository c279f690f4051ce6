import Mathlib.Data.List.DropRight
import Srn.Lib.CString

/-!
# Srn.Misc

The string functions of `lib/misc.c`.  A string is the list of its characters, without the
terminating zero; a function that would touch a character outside the string ends with a fault.
-/

namespace Srn

/-- The ways in which a string function can go wrong. -/
inductive StringFault where
  | outOfBounds
  | nullDereference
  deriving DecidableEq, Repr

/-- The second loop of `remove_trail`, with the characters from `*s` back to the first one. -/
def dropTrail : List Char → Except StringFault (List Char)
  | [] => .error .outOfBounds
  | c :: before => if c = ' ' then dropTrail before else .ok (c :: before)

/-- `remove_trail`. -/
def removeTrail (line : List Char) : Except StringFault (List Char) :=
  if line = [] then .ok line else (dropTrail line.reverse).map List.reverse

/-- The second loop of `strsplit`, for a number of fields; `s` is `NULL` after the last one. -/
def splitFields (splitc : Char) : ℕ → Option (List Char) → Except StringFault (List (List Char))
  | 0, _ => .ok []
  | _ + 1, none => .error .nullDereference
  | n + 1, some s => do
    let field := s.takeWhile fun c => c ≠ splitc
    let next := if splitc ∈ s then some (s.drop (field.length + 1)) else none
    let vargs ← splitFields splitc n next
    return field :: vargs

/-- `strsplit`. -/
def strsplit (line : List Char) (splitc : Char) : Except StringFault (List (List Char)) := do
  let line ← removeTrail line
  splitFields splitc (line.count splitc + 1) (some line)

/-! ## Trailing spaces -/

/-- The string without its trailing spaces. -/
def trimmed (line : List Char) : List Char := line.rdropWhile fun c => c = ' '

/-- The characters are all spaces. -/
def Blank (line : List Char) : Prop := ∀ c ∈ line, c = ' '

theorem dropTrail_eq {cs : List Char} (h : ¬ Blank cs) :
    dropTrail cs = .ok (cs.dropWhile fun c => c = ' ') := by
  induction cs with
  | nil => simp [Blank] at h
  | cons c cs ih =>
    rw [dropTrail, List.dropWhile_cons]
    by_cases hc : c = ' '
    · have hrest : ¬ Blank cs := fun hblank => h fun d hd => by
        rcases List.mem_cons.mp hd with rfl | hd
        · exact hc
        · exact hblank d hd
      rw [if_pos hc, if_pos (by simpa using hc), ih hrest]
    · rw [if_neg hc, if_neg (by simpa using hc)]

theorem dropTrail_blank {cs : List Char} (h : Blank cs) : dropTrail cs = .error .outOfBounds := by
  induction cs with
  | nil => rfl
  | cons c cs ih =>
    rw [dropTrail, if_pos (h c List.mem_cons_self)]
    exact ih fun d hd => h d (List.mem_cons_of_mem _ hd)

/-- **`remove_trail`** removes the trailing spaces of a string that is empty or has another
character. -/
theorem removeTrail_eq {line : List Char} (h : line = [] ∨ ¬ Blank line) :
    removeTrail line = .ok (trimmed line) := by
  by_cases hnil : line = []
  · subst hnil
    rfl
  · have hblank : ¬ Blank line.reverse := fun hb =>
      h.resolve_left hnil fun c hc => hb c (List.mem_reverse.mpr hc)
    rw [removeTrail, if_neg hnil, dropTrail_eq hblank]
    rfl

/-- In a string of spaces it runs past the start. -/
theorem removeTrail_blank {line : List Char} (hne : line ≠ []) (h : Blank line) :
    removeTrail line = .error .outOfBounds := by
  have hrev : Blank line.reverse := fun c hc => h c (List.mem_reverse.mp hc)
  rw [removeTrail, if_neg hne, dropTrail_blank hrev]
  rfl

/-- A string that does not end in a space. -/
theorem trimmed_eq_self {line : List Char} (h : line.getLast? ≠ some ' ') :
    trimmed line = line := by
  rw [trimmed, List.rdropWhile_eq_self_iff]
  intro hne hlast
  rw [List.getLast?_eq_some_getLast hne] at h
  exact h (congrArg some (by simpa using hlast))

theorem trimmed_concat_space (cs : List Char) : trimmed (cs ++ [' ']) = trimmed cs :=
  List.rdropWhile_concat_pos _ cs ' ' (by simp)

theorem trimmed_concat_of_ne {c : Char} (hc : c ≠ ' ') (cs : List Char) :
    trimmed (cs ++ [c]) = cs ++ [c] :=
  trimmed_eq_self (by simpa using hc)

theorem trimmed_subset (line : List Char) : trimmed line ⊆ line :=
  (List.rdropWhile_prefix _ line).subset

theorem not_blank_of_getLast? {line : List Char} (h : line.getLast? ≠ some ' ') :
    line = [] ∨ ¬ Blank line := by
  by_cases hnil : line = []
  · exact .inl hnil
  · refine .inr fun hblank => h ?_
    rw [List.getLast?_eq_some_getLast hnil]
    exact congrArg some (hblank _ (List.getLast_mem hnil))

/-! ## Fields -/

/-- A string with a split character, up to the first one and after it. -/
theorem exists_first_of_count {splitc : Char} {s : List Char} {n : ℕ}
    (hn : s.count splitc = n + 1) :
    ∃ a b, s = a ++ splitc :: b ∧ splitc ∉ a ∧ b.count splitc = n := by
  have hmem : splitc ∈ s := List.count_pos_iff.mp (by omega)
  obtain ⟨a, b, rfl, hnot⟩ := List.eq_append_cons_of_mem hmem
  rw [List.count_append, List.count_cons_self, List.count_eq_zero.mpr hnot] at hn
  exact ⟨a, b, rfl, hnot, by omega⟩

/-- Induction from the last field to the first. -/
theorem splitInduction (splitc : Char) {P : List Char → Prop}
    (last : ∀ s, splitc ∉ s → P s) (more : ∀ a b, splitc ∉ a → P b → P (a ++ splitc :: b))
    (s : List Char) : P s := by
  generalize hn : s.count splitc = n
  induction n generalizing s with
  | zero => exact last s (List.count_eq_zero.mp hn)
  | succ n ih =>
    obtain ⟨a, b, rfl, hnot, hcount⟩ := exists_first_of_count hn
    exact more a b hnot (ih b hcount)

theorem count_append_cons {splitc : Char} {a : List Char} (h : splitc ∉ a) (b : List Char) :
    (a ++ splitc :: b).count splitc = b.count splitc + 1 := by
  rw [List.count_append, List.count_cons_self, List.count_eq_zero.mpr h, Nat.zero_add]

/-- A field is a part of the string without the split character. -/
theorem subset_of_mem_splitOn {splitc : Char} {s field : List Char}
    (h : field ∈ s.splitOn splitc) : splitc ∉ field ∧ field ⊆ s := by
  induction s using splitInduction splitc with
  | last s hnot =>
    rw [List.splitOn_eq_singleton hnot, List.mem_singleton] at h
    subst h
    exact ⟨hnot, List.Subset.refl _⟩
  | more a b hnot ih =>
    rw [List.splitOn_append_cons_self_of_not_mem hnot, List.mem_cons] at h
    rcases h with rfl | h
    · exact ⟨hnot, List.subset_append_left _ _⟩
    · obtain ⟨hfield, hsub⟩ := ih h
      exact ⟨hfield, fun c hc => List.mem_append_right _ (List.mem_cons_of_mem _ (hsub hc))⟩

/-- Splitting gives one field for each split character and one more. -/
theorem length_splitOn (splitc : Char) (s : List Char) :
    (s.splitOn splitc).length = s.count splitc + 1 := by
  induction s with
  | nil => rfl
  | cons c s ih =>
    rw [List.splitOn, List.splitOnP_cons_eq_if_modifyHead, ← List.splitOn, List.count_cons]
    split_ifs <;> simp [ih]

/-- The fields are what stands between the split characters. -/
theorem splitFields_eq (splitc : Char) (s : List Char) :
    splitFields splitc (s.count splitc + 1) (some s) = .ok (s.splitOn splitc) := by
  induction s using splitInduction splitc with
  | last s hnot =>
    have hfield : s.takeWhile (fun c => c ≠ splitc) = s :=
      List.takeWhile_eq_self_iff.mpr fun c hc => decide_eq_true (ne_of_mem_of_not_mem hc hnot)
    rw [List.count_eq_zero.mpr hnot, splitFields, hfield, if_neg hnot,
      List.splitOn_eq_singleton hnot]
    rfl
  | more a b hnot ih =>
    have htake : (a ++ splitc :: b).takeWhile (fun c => c ≠ splitc) = a :=
      CString.takeWhile_append hnot b
    have hdrop : (a ++ splitc :: b).drop (a.length + 1) = b := by simp
    rw [count_append_cons hnot, splitFields, htake, if_pos (by simp), hdrop, ih,
      List.splitOn_append_cons_self_of_not_mem hnot]
    rfl

/-- **`strsplit`.** -/
theorem strsplit_eq {line : List Char} (h : line = [] ∨ ¬ Blank line) (splitc : Char) :
    strsplit line splitc = .ok ((trimmed line).splitOn splitc) := by
  rw [strsplit, removeTrail_eq h]
  exact splitFields_eq splitc _

end Srn
