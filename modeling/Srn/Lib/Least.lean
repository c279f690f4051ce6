import Mathlib.Data.List.Induction

/-!
# Least

The search loop that keeps the first element with the least key: it starts from a bound
and replaces what it has whenever it meets a strictly smaller key.
-/

namespace Least

variable {α β : Type*} [LT β]

/-- One round of the loop. -/
def step [DecidableLT β] (key : α → β) (best : Option α × β) (x : α) : Option α × β :=
  if key x < best.2 then (some x, key x) else best

/-- `x` is the first element with the least key, and its key is below the bound. -/
def IsFirst (key : α → β) (bound : β) (l : List α) (x : α) : Prop :=
  ∃ pre post, l = pre ++ x :: post ∧ key x < bound ∧ (∀ y ∈ pre, key x < key y) ∧
    ∀ y ∈ post, ¬ key y < key x

variable {key : α → β} {bound : β} {l : List α} {x : α}

theorem IsFirst.mem (h : IsFirst key bound l x) : x ∈ l := by
  obtain ⟨pre, post, rfl, -⟩ := h
  simp

theorem IsFirst.lt_bound (h : IsFirst key bound l x) : key x < bound := by
  obtain ⟨-, -, -, hbound, -⟩ := h
  exact hbound

/-- A first least element stays one in every sublist that the loop filters out and that
still contains it. -/
theorem IsFirst.filter (h : IsFirst key bound l x) (p : α → Bool) (hx : p x = true) :
    IsFirst key bound (l.filter p) x := by
  obtain ⟨pre, post, rfl, hbound, hpre, hpost⟩ := h
  exact ⟨pre.filter p, post.filter p, by simp [hx], hbound,
    fun y hy => hpre y (List.mem_filter.mp hy).1, fun y hy => hpost y (List.mem_filter.mp hy).1⟩

/-- There is at most one first least element. -/
theorem IsFirst.unique {y : α} (hx : IsFirst key bound l x) (hy : IsFirst key bound l y) :
    x = y := by
  obtain ⟨pre, post, rfl, -, hpre, hpost⟩ := hx
  obtain ⟨pre', post', heq, -, hpre', hpost'⟩ := hy
  rcases List.append_eq_append_iff.mp heq with ⟨l, rfl, hl⟩ | ⟨l, rfl, hl⟩
  · cases l with
    | nil => exact (List.cons.inj hl).1
    | cons z l =>
      obtain ⟨rfl, rfl⟩ := List.cons.inj hl
      exact absurd (hpre' x (by simp)) (hpost y (by simp))
  · cases l with
    | nil => exact (List.cons.inj hl).1.symm
    | cons z l =>
      obtain ⟨rfl, rfl⟩ := List.cons.inj hl
      exact absurd (hpre y (by simp)) (hpost' x (by simp))

/-- The loop over the images of the elements, when these have the same keys. -/
theorem foldl_step_map [DecidableLT β] {γ : Type*} {key' : γ → β} (f : α → γ)
    (hf : ∀ x, key' (f x) = key x) (l : List α) (best : Option α × β) :
    (l.map f).foldl (step key') (best.1.map f, best.2) =
      ((l.foldl (step key) best).1.map f, (l.foldl (step key) best).2) := by
  induction l generalizing best with
  | nil => rfl
  | cons x l ih =>
    rw [List.map_cons, List.foldl_cons, List.foldl_cons, ← ih]
    congr 1
    simp only [step, hf]
    by_cases hx : key x < best.2
    · simp [hx]
    · simp [hx]

section

variable {rank : β → ℕ} (hrank : ∀ a b : β, a < b ↔ rank a < rank b)

include hrank

/-- No element has a smaller key. -/
theorem IsFirst.not_lt (h : IsFirst key bound l x) {y : α} (hy : y ∈ l) : ¬ key y < key x := by
  obtain ⟨pre, post, rfl, -, hpre, hpost⟩ := h
  rcases List.mem_append.mp hy with hy | hy
  · have := hpre y hy
    rw [hrank] at this ⊢
    omega
  · rcases List.mem_cons.mp hy with rfl | hy
    · rw [hrank]
      omega
    · exact hpost y hy

variable [DecidableLT β]

/-- **The loop** ends with the first least element, or with nothing when no key is below
the bound. -/
theorem foldl_step (key : α → β) (bound : β) (l : List α) :
    (l.foldl (step key) (none, bound) = (none, bound) ∧ ∀ y ∈ l, ¬ key y < bound) ∨
      ∃ x, l.foldl (step key) (none, bound) = (some x, key x) ∧ IsFirst key bound l x := by
  induction l using List.reverseRecOn with
  | nil => exact .inl ⟨rfl, by simp⟩
  | append_singleton l z ih =>
    rw [List.foldl_append, List.foldl_cons, List.foldl_nil]
    rcases ih with ⟨hfold, hnone⟩ | ⟨x, hfold, pre, post, rfl, hbound, hpre, hpost⟩
    · simp only [hfold, step]
      split_ifs with hz
      · refine .inr ⟨z, rfl, l, [], rfl, hz, fun y hy => ?_, by simp⟩
        have := hnone y hy
        rw [hrank] at this hz ⊢
        omega
      · refine .inl ⟨rfl, fun y hy => ?_⟩
        rcases List.mem_append.mp hy with hy | hy
        · exact hnone y hy
        · rw [List.mem_singleton.mp hy]
          exact hz
    · simp only [hfold, step]
      split_ifs with hz
      · have hfirst : IsFirst key bound (pre ++ x :: post) x :=
          ⟨pre, post, rfl, hbound, hpre, hpost⟩
        refine .inr ⟨z, rfl, pre ++ x :: post, [], rfl, ?_, fun y hy => ?_, by simp⟩
        · rw [hrank] at hz hbound ⊢
          omega
        · have := hfirst.not_lt hrank hy
          rw [hrank] at this hz ⊢
          omega
      · refine .inr ⟨x, rfl, pre, post ++ [z], by simp, hbound, hpre, fun y hy => ?_⟩
        rcases List.mem_append.mp hy with hy | hy
        · exact hpost y hy
        · rw [List.mem_singleton.mp hy]
          exact hz

/-- What the loop finds. -/
theorem foldl_step_eq_some_iff : (l.foldl (step key) (none, bound)).1 = some x ↔
    IsFirst key bound l x := by
  rcases foldl_step hrank key bound l with ⟨hfold, hnone⟩ | ⟨y, hfold, hy⟩
  · simp only [hfold, reduceCtorEq, false_iff]
    intro hx
    exact hnone x hx.mem (hx.choose_spec.choose_spec.2.1)
  · simp only [hfold, Option.some.injEq]
    constructor
    · rintro rfl
      exact hy
    · exact fun hx => hy.unique hx

/-- When the loop finds nothing. -/
theorem foldl_step_eq_none_iff : (l.foldl (step key) (none, bound)).1 = none ↔
    ∀ y ∈ l, ¬ key y < bound := by
  rcases foldl_step hrank key bound l with ⟨hfold, hnone⟩ | ⟨y, hfold, hy⟩
  · simpa [hfold] using hnone
  · simp only [hfold, reduceCtorEq, false_iff]
    exact fun h => h y hy.mem hy.choose_spec.choose_spec.2.1

end

end Least
