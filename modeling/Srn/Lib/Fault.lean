import Mathlib.Data.List.Basic

/-!
# Fault

Computations that end with a value or a fault, as `Except` or as `Option`: what a sequence or a
list of them owes to its parts.
-/

namespace Fault

universe u

variable {ε α : Type*} {β γ : Type u} {x : Except ε β} {f : β → Except ε γ} {e : ε}

/-! ## Two in a row -/

/-- Both parts succeed, the second one with the value of the first. -/
theorem bind_eq_ok_iff {y : γ} : (x >>= f) = .ok y ↔ ∃ a, x = .ok a ∧ f a = .ok y := by
  cases x <;> simp [bind, Except.bind]

theorem map_eq_ok_iff {g : β → γ} {y : γ} : x.map g = .ok y ↔ ∃ a, x = .ok a ∧ g a = y := by
  cases x with
  | error e => simp [Except.map]
  | ok a => simp [Except.map]

/-- A fault that no part has. -/
theorem bind_ne_error (hx : x ≠ .error e) (hf : ∀ a, x = .ok a → f a ≠ .error e) :
    x >>= f ≠ .error e := by
  cases x with
  | error e' => simpa [bind, Except.bind] using hx
  | ok a => exact hf a rfl

/-! ## Lists -/

section

variable {k : α → Except ε β} {l : List α}

/-- All elements succeed. -/
theorem mapM_eq_ok {h : α → β} (hk : ∀ a ∈ l, k a = .ok (h a)) : l.mapM k = .ok (l.map h) := by
  induction l with
  | nil => rfl
  | cons a l ih =>
    rw [List.mapM_cons, hk a List.mem_cons_self, ih fun b hb => hk b (List.mem_cons_of_mem _ hb)]
    rfl

/-- Every result is that of an element. -/
theorem exists_of_mapM_eq_ok {ys : List β} (h : l.mapM k = .ok ys) {y : β} (hy : y ∈ ys) :
    ∃ a ∈ l, k a = .ok y := by
  induction l generalizing ys with
  | nil =>
    obtain rfl : [] = ys := Except.ok.inj h
    simp at hy
  | cons a l ih =>
    rw [List.mapM_cons] at h
    obtain ⟨b, hb, h⟩ := bind_eq_ok_iff.mp h
    obtain ⟨bs, hbs, h⟩ := bind_eq_ok_iff.mp h
    obtain rfl : b :: bs = ys := Except.ok.inj h
    obtain rfl | hy := List.mem_cons.mp hy
    · exact ⟨a, List.mem_cons_self, hb⟩
    · obtain ⟨a', ha', hk⟩ := ih hbs hy
      exact ⟨a', List.mem_cons_of_mem _ ha', hk⟩

/-- A fault that no element has. -/
theorem mapM_ne_error (h : ∀ a, k a ≠ .error e) : l.mapM k ≠ .error e := by
  induction l with
  | nil => simp [pure, Except.pure]
  | cons a l ih =>
    rw [List.mapM_cons]
    refine bind_ne_error (h a) fun b _ => bind_ne_error ih fun bs _ => ?_
    simp [pure, Except.pure]

/-- What every element of a loop preserves holds at its end. -/
theorem foldlM_invariant {P : β → Prop} {f : β → α → Except ε β}
    (hf : ∀ b a b', a ∈ l → P b → f b a = .ok b' → P b') {b b' : β} (hb : P b)
    (h : l.foldlM f b = .ok b') : P b' := by
  induction l generalizing b with
  | nil =>
    obtain rfl : b = b' := Except.ok.inj h
    exact hb
  | cons a l ih =>
    rw [List.foldlM_cons] at h
    obtain ⟨c, hc, h⟩ := bind_eq_ok_iff.mp h
    exact ih (fun b a b' ha => hf b a b' (List.mem_cons_of_mem _ ha))
      (hf b a c List.mem_cons_self hb hc) h

/-- Two lists of computations that correspond element by element. -/
theorem mapM_map_eq {α' : Type*} {k' : α' → Except ε γ} {a : α → α'} {b : β → γ}
    (h : ∀ x, k' (a x) = (k x).map b) : (l.map a).mapM k' = (l.mapM k).map (List.map b) := by
  induction l with
  | nil => rfl
  | cons x l ih =>
    rw [List.map_cons, List.mapM_cons, List.mapM_cons, h, ih]
    cases k x with
    | error e => rfl
    | ok y => cases l.mapM k <;> rfl

end

/-! ## Values that may be missing -/

/-- Every element of the list has a value. -/
theorem exists_map_some {α β : Type*} {f : α → Option β} {l : List α}
    (h : ∀ a ∈ l, ∃ b, f a = some b) : ∃ bs : List β, l.map f = bs.map some := by
  induction l with
  | nil => exact ⟨[], rfl⟩
  | cons a l ih =>
    obtain ⟨b, hb⟩ := h a List.mem_cons_self
    obtain ⟨bs, hbs⟩ := ih fun a' ha' => h a' (List.mem_cons_of_mem _ ha')
    exact ⟨b :: bs, by simp [hb, hbs]⟩

/-- The values of a list whose elements all have one. -/
theorem mapM_eq_some_iff {α β : Type*} {f : α → Option β} {l : List α} {bs : List β} :
    l.mapM f = some bs ↔ l.map f = bs.map some := by
  induction l generalizing bs with
  | nil => cases bs <;> simp
  | cons a l ih => cases bs <;> simp [List.mapM_cons, Option.bind_eq_some_iff, ih]

end Fault
