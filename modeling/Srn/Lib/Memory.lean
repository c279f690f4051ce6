import Mathlib.Data.Nat.Notation
import Mathlib.Logic.Function.Basic

/-!
# Memory

Cells at addresses, as a partial function.  An address without a cell was never allocated or has
been freed.  What an operation leaves alone is said by the addresses it may have touched
(`Mem.EqOff`).
-/

/-- A memory with cells of one type. -/
abbrev Mem (α : Type*) := ℕ → Option α

namespace Mem

variable {α : Type*} {m m₁ m₂ : Mem α} {a b : ℕ} {x : α} {l l' : List ℕ}

/-- Write a cell. -/
def store (m : Mem α) (a : ℕ) (x : α) : Mem α := Function.update m a (some x)

/-- Give a cell back. -/
def free (m : Mem α) (a : ℕ) : Mem α := Function.update m a none

@[simp] theorem store_self : m.store a x a = some x := Function.update_self ..

theorem store_of_ne (h : b ≠ a) : m.store a x b = m b := Function.update_of_ne h ..

theorem free_of_ne (h : b ≠ a) : m.free a b = m b := Function.update_of_ne h ..

/-! ## Frames -/

/-- The second memory is the first one except at the listed addresses. -/
def EqOff (l : List ℕ) (m m' : Mem α) : Prop := ∀ a ∉ l, m' a = m a

theorem EqOff.refl (l : List ℕ) (m : Mem α) : EqOff l m m := fun _ _ => rfl

theorem EqOff.trans (h : EqOff l m m₁) (h' : EqOff l m₁ m₂) : EqOff l m m₂ :=
  fun a ha => (h' a ha).trans (h a ha)

theorem EqOff.mono (h : EqOff l m m₁) (hl : l ⊆ l') : EqOff l' m m₁ :=
  fun a ha => h a fun hmem => ha (hl hmem)

theorem eqOff_store (ha : a ∈ l) : EqOff l m (m.store a x) :=
  fun _ hb => store_of_ne fun heq => hb (heq ▸ ha)

theorem eqOff_free (ha : a ∈ l) : EqOff l m (m.free a) :=
  fun _ hb => free_of_ne fun heq => hb (heq ▸ ha)

end Mem
