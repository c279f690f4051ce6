import Mathlib.Data.List.Basic
import Mathlib.Data.Nat.Notation

/-!
# CString

Strings in fixed character arrays.  An array is a list of characters of constant length and a
string ends at the first terminator in it; a function that would touch a character outside the
array has no result.

The characters are of any type with a distinguished terminator `nul`.
-/

namespace CString

variable {α : Type*}

/-- Overwrite characters from position `k` on; `none` if one falls outside the array. -/
def write (buf : List α) (k : ℕ) (cs : List α) : Option (List α) :=
  if k + cs.length ≤ buf.length then some (buf.take k ++ cs ++ buf.drop (k + cs.length)) else none

/-- `snprintf(buf + k, size, "%s", text)`: at most `size - 1` characters and a terminator, and
nothing at all for a size of zero. -/
def snprintf (nul : α) (buf : List α) (k size : ℕ) (text : List α) : Option (List α) :=
  if size = 0 then some buf else write buf k (text.take (size - 1) ++ [nul])

/-- The string at the beginning of an array, as `strdup` copies it; `none` if it has no end. -/
def strdup [DecidableEq α] (nul : α) (buf : List α) : Option (List α) :=
  if nul ∈ buf then some (buf.takeWhile fun c => c ≠ nul) else none

/-- `strncpy(dst, text, n)` into a zeroed array of `size` characters. -/
def strncpy (nul : α) (size n : ℕ) (text : List α) : List α :=
  text.take n ++ List.replicate (size - (text.take n).length) nul

/-- The characters that `isspace` accepts. -/
def isSpace (c : Char) : Bool := c ∈ [' ', '\t', '\n', '\x0b', '\x0c', '\r']

/-- The number that a list of decimal digits stands for. -/
def decimal (digits : List Char) : ℕ := digits.foldl (fun n c => 10 * n + (c.toNat - '0'.toNat)) 0

/-- What fits in a `long` of 64 bits, else `LONG_MIN` or `LONG_MAX`. -/
def clampLong (n : Int) : Int :=
  if n < -9223372036854775808 then -9223372036854775808
  else if 9223372036854775807 < n then 9223372036854775807
  else n

/-- `strtol(text, NULL, 10)`: spaces, a sign and digits are read. -/
def strtol (text : List Char) : Int :=
  match text.dropWhile isSpace with
  | '-' :: rest => clampLong (-(decimal (rest.takeWhile Char.isDigit) : Int))
  | '+' :: rest => clampLong (decimal (rest.takeWhile Char.isDigit))
  | rest => clampLong (decimal (rest.takeWhile Char.isDigit))

/-- A number as `%ld` prints it. -/
def ld (n : Int) : List Char :=
  if n < 0 then '-' :: Nat.toDigits 10 n.natAbs else Nat.toDigits 10 n.natAbs

variable {nul : α} {buf : List α} {k size : ℕ} {text : List α}

/-- What is written stands between what was there. -/
theorem write_eq (h : k + text.length ≤ buf.length) :
    write buf k text = some (buf.take k ++ text ++ buf.drop (k + text.length)) := by
  unfold write
  rw [if_pos h]

/-- A print with room for the text and its terminator. -/
theorem snprintf_eq (hsize : text.length < size) (hfits : k + text.length < buf.length) :
    snprintf nul buf k size text =
      some (buf.take k ++ (text ++ [nul]) ++ buf.drop (k + (text.length + 1))) := by
  unfold snprintf
  rw [if_neg (by omega), List.take_of_length_le (by omega), write_eq (by simp; omega)]
  simp

theorem length_strncpy {n : ℕ} (h : n ≤ size) : (strncpy nul size n text).length = size := by
  unfold strncpy
  rw [List.length_append, List.length_replicate, List.length_take]
  omega

theorem takeWhile_append [DecidableEq α] (htext : nul ∉ text) (rest : List α) :
    (text ++ nul :: rest).takeWhile (fun c => c ≠ nul) = text := by
  have hall : ∀ c ∈ text, decide (c ≠ nul) = true := by
    intro c hc
    have hne : c ≠ nul := fun heq => htext (heq ▸ hc)
    simp [hne]
  rw [List.takeWhile_append_of_pos hall]
  simp

/-- A string in front of its terminator. -/
theorem strdup_append [DecidableEq α] (htext : nul ∉ text) (rest : List α) :
    strdup nul (text ++ nul :: rest) = some text := by
  unfold strdup
  rw [if_pos (by simp), takeWhile_append htext]

/-! ## Numbers -/

theorem toDigits_ten_injective : Function.Injective (Nat.toDigits 10) := by
  intro m n h
  have hread := congrArg (fun digits => Nat.ofDigitChars 10 digits 0) h
  simpa only [Nat.ofDigitChars_ten_toDigits] using hread

theorem minus_notMem_toDigits (n : ℕ) : '-' ∉ Nat.toDigits 10 n := by
  intro h
  have hdigit := Nat.isDigit_of_mem_toDigits (by decide) (by decide) h
  contradiction

/-- Different numbers are printed differently. -/
theorem ld_injective : Function.Injective ld := by
  intro m n h
  unfold ld at h
  by_cases hm : m < 0 <;> by_cases hn : n < 0
  · rw [if_pos hm, if_pos hn] at h
    have habs := toDigits_ten_injective (List.cons.inj h).2
    omega
  · rw [if_pos hm, if_neg hn] at h
    exact absurd (h ▸ List.mem_cons_self) (minus_notMem_toDigits _)
  · rw [if_neg hm, if_pos hn] at h
    exact absurd (h.symm ▸ List.mem_cons_self) (minus_notMem_toDigits _)
  · rw [if_neg hm, if_neg hn] at h
    have habs := toDigits_ten_injective h
    omega

/-- A `long` has at most 19 digits and a sign. -/
theorem length_ld_le {n : Int} (h : n.natAbs ≤ 9223372036854775808) : (ld n).length ≤ 20 := by
  have hdigits : (Nat.toDigits 10 n.natAbs).length ≤ 19 :=
    (Nat.length_toDigits_le_iff (by decide) (by decide)).mpr (Nat.lt_of_le_of_lt h (by decide))
  unfold ld
  split
  · rw [List.length_cons]
    omega
  · omega

end CString
