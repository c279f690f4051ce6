import Mathlib.Data.List.Basic
import Mathlib.Data.Nat.Notation

/-!
# Wire

Values in a row of symbols, each with the same number of them.
-/

namespace Wire

variable {α β : Type*}

/-- Every value has `width` symbols, which determine it. -/
structure Fixed (encode : α → List β) (width : ℕ) : Prop where
  length_eq : ∀ x, (encode x).length = width
  injective : Function.Injective encode

variable {encode : α → List β} {width : ℕ}

/-- As many values in the same symbols are the same values. -/
theorem Fixed.flatMap_inj (h : Fixed encode width) {xs ys : List α} (hlen : xs.length = ys.length)
    (heq : xs.flatMap encode = ys.flatMap encode) : xs = ys := by
  induction xs generalizing ys with
  | nil => exact (List.length_eq_zero_iff.mp hlen.symm).symm
  | cons x xs ih =>
    cases ys with
    | nil => simp at hlen
    | cons y ys =>
      rw [List.flatMap_cons, List.flatMap_cons] at heq
      obtain ⟨hhead, htail⟩ := List.append_inj heq ((h.length_eq x).trans (h.length_eq y).symm)
      rw [h.injective hhead, ih (by simpa using hlen) htail]

end Wire
