import Mathlib.Data.Int.Order.Basic
import Mathlib.Data.List.Basic
import Mathlib.Logic.Function.Basic

/-!
# Refcount

Reference counts.  A store is a list with one counter for each object allocated so far; an object
is an index.  The counter is a 32-bit number, and releasing a reference destroys the object when
the counter becomes zero.  Using an object that has been destroyed, or that was never allocated,
has no result.

`Exact` ties a store to the references that there really are, given as a function, so that an
argument about counters becomes one about references.
-/

namespace Refcount

/-- The counter of an object, and how often the object has been destroyed. -/
structure Count where
  refcount : ℤ
  destroyed : ℕ
  deriving DecidableEq, Repr

/-- The largest number of references that a counter can hold, and one more. -/
def limit : ℤ := 0x80000000

/-- Arithmetic of the counter. -/
def wrap (x : ℤ) : ℤ := x.bmod 0x100000000

/-- A new object, with one reference. -/
def alloc (s : List Count) : List Count := s ++ [⟨1, 0⟩]

/-- The counter of an object that can be used. -/
def live? (s : List Count) (p : ℕ) : Option Count := s[p]?.filter fun c => c.destroyed = 0

/-- Take a reference. -/
def hold (s : List Count) (p : ℕ) : Option (List Count) :=
  (live? s p).map fun c => s.set p { c with refcount := wrap (c.refcount + 1) }

/-- Give a reference back, and tell whether the object is destroyed. -/
def release (s : List Count) (p : ℕ) : Option (List Count × Bool) :=
  (live? s p).map fun c =>
    if wrap (c.refcount - 1) = 0 then
      (s.set p { refcount := wrap (c.refcount - 1), destroyed := c.destroyed + 1 }, true)
    else (s.set p { c with refcount := wrap (c.refcount - 1) }, false)

/-- The counter of an object with that many references, which is destroyed once it has none. -/
def Count.of (n : ℤ) : Count := ⟨n, if n = 0 then 1 else 0⟩

/-- The counters are the numbers of references, all below the limit. -/
structure Exact (s : List Count) (refs : ℕ → ℤ) : Prop where
  nonneg : ∀ p, 0 ≤ refs p
  fits : ∀ p, refs p < limit
  beyond : ∀ p, s.length ≤ p → refs p = 0
  count : ∀ (p : ℕ) (c : Count), s[p]? = some c → c = .of (refs p)

variable {s : List Count} {refs : ℕ → ℤ} {p : ℕ}

theorem exact_nil : Exact [] (fun _ => 0) where
  nonneg _ := le_refl _
  fits _ := by simp [limit]
  beyond _ _ := rfl
  count _ _ h := by simp at h

theorem wrap_eq {x : ℤ} (hneg : -limit ≤ x) (hlt : x < limit) : wrap x = x := by
  unfold limit at hneg hlt
  apply Int.bmod_eq_of_le <;> omega

/-- A reference that is added to a list of references. -/
theorem count_append_cons (l l' : List ℕ) (p q : ℕ) :
    ((l ++ p :: l').count q : ℤ) = (l ++ l').count q + if p = q then 1 else 0 := by
  rw [List.count_append, List.count_append, List.count_cons]
  by_cases hq : p = q
  · simp only [hq, beq_self_eq_true, if_true]
    omega
  · simp [hq]

/-- An object in a list of references. -/
theorem count_pos {l : List ℕ} (hp : p ∈ l) : (0 : ℤ) < l.count p := by
  have := List.count_pos_iff.mpr hp
  omega

namespace Exact

/-- Only the number of references of each object matters. -/
theorem congr (h : Exact s refs) {refs' : ℕ → ℤ} (heq : ∀ p, refs' p = refs p) : Exact s refs' :=
  (funext heq : refs' = refs) ▸ h

/-- The counters determine the numbers of references. -/
theorem unique (h : Exact s refs) {refs' : ℕ → ℤ} (h' : Exact s refs') (p : ℕ) :
    refs' p = refs p := by
  by_cases hp : p < s.length
  · have hget := List.getElem?_eq_getElem hp
    exact congrArg Count.refcount ((h'.count p _ hget).symm.trans (h.count p _ hget))
  · rw [h.beyond p (by omega), h'.beyond p (by omega)]

/-- An object with references is allocated. -/
theorem lt_length (h : Exact s refs) (hp : 0 < refs p) : p < s.length := by
  by_contra hge
  have := h.beyond p (by omega)
  omega

theorem getElem?_eq (h : Exact s refs) (hp : 0 < refs p) : s[p]? = some ⟨refs p, 0⟩ := by
  have hget := List.getElem?_eq_getElem (h.lt_length hp)
  rw [hget, h.count p _ hget, Count.of, if_neg (by omega)]

/-- It can be used. -/
theorem live?_eq (h : Exact s refs) (hp : 0 < refs p) : live? s p = some ⟨refs p, 0⟩ := by
  rw [live?, h.getElem?_eq hp]
  rfl

/-- An object that can be used has references. -/
theorem pos_of_live? (h : Exact s refs) {c : Count} (hc : live? s p = some c) : 0 < refs p := by
  rw [live?, Option.filter_eq_some_iff] at hc
  obtain ⟨hget, hdestroyed⟩ := hc
  rw [h.count p c hget] at hdestroyed
  by_contra hle
  have hzero : refs p = 0 := by
    have := h.nonneg p
    omega
  simp [Count.of, hzero] at hdestroyed

theorem isSome_live?_iff (h : Exact s refs) : (live? s p).isSome ↔ 0 < refs p := by
  constructor
  · intro hsome
    obtain ⟨c, hc⟩ := Option.isSome_iff_exists.mp hsome
    exact h.pos_of_live? hc
  · intro hpos
    rw [h.live?_eq hpos]
    rfl

/-- Writing the counter of one object. -/
theorem set (h : Exact s refs) (hp : 0 < refs p) {n : ℤ} (hneg : 0 ≤ n) (hlt : n < limit) :
    Exact (s.set p (.of n)) (Function.update refs p n) := by
  have hlen := h.lt_length hp
  constructor
  · intro q
    by_cases hq : q = p
    · rwa [hq, Function.update_self]
    · rw [Function.update_of_ne hq]
      exact h.nonneg q
  · intro q
    by_cases hq : q = p
    · rwa [hq, Function.update_self]
    · rw [Function.update_of_ne hq]
      exact h.fits q
  · intro q hq
    rw [List.length_set] at hq
    rw [Function.update_of_ne (by omega), h.beyond q hq]
  · intro q c hc
    by_cases hq : q = p
    · rw [hq, List.getElem?_set_self hlen, Option.some.injEq] at hc
      rw [hq, Function.update_self, hc]
    · rw [List.getElem?_set_ne (Ne.symm hq)] at hc
      rw [Function.update_of_ne hq]
      exact h.count q c hc

/-- **Hold rule**: one reference more. -/
theorem hold (h : Exact s refs) (hp : 0 < refs p) (hlt : refs p + 1 < limit) :
    ∃ s', Refcount.hold s p = some s' ∧ s'.length = s.length ∧
      Exact s' fun q => refs q + if p = q then 1 else 0 := by
  have hset := h.set hp (n := refs p + 1) (by omega) hlt
  rw [Count.of, if_neg (by omega)] at hset
  refine ⟨_, ?_, List.length_set, hset.congr fun q => ?_⟩
  · unfold Refcount.hold
    rw [h.live?_eq hp, Option.map_some, wrap_eq (by unfold limit; omega) hlt]
  · by_cases hq : p = q
    · rw [← hq, Function.update_self, if_pos rfl]
    · rw [Function.update_of_ne (Ne.symm hq), if_neg hq]
      omega

/-- **Release rule**: one reference less, and the last one destroys the object. -/
theorem release (h : Exact s refs) (hp : 0 < refs p) :
    ∃ s', Refcount.release s p = some (s', decide (refs p = 1)) ∧ s'.length = s.length ∧
      Exact s' fun q => refs q - if p = q then 1 else 0 := by
  have hfits := h.fits p
  have hwrap : wrap (refs p - 1) = refs p - 1 := wrap_eq (by unfold limit; omega) (by omega)
  have hset := h.set hp (n := refs p - 1) (by omega) (by omega)
  refine ⟨_, ?_, List.length_set, hset.congr fun q => ?_⟩
  · unfold Refcount.release
    rw [h.live?_eq hp, Option.map_some, hwrap]
    by_cases hone : refs p = 1
    · simp [Count.of, hone]
    · have hne : refs p - 1 ≠ 0 := by omega
      simp [Count.of, hone, hne]
  · by_cases hq : p = q
    · rw [← hq, Function.update_self, if_pos rfl]
    · rw [Function.update_of_ne (Ne.symm hq), if_neg hq]
      omega

/-- **Allocation rule**: the new object has one reference. -/
theorem alloc (h : Exact s refs) :
    Exact (Refcount.alloc s) fun q => refs q + if s.length = q then 1 else 0 := by
  have hnew := h.beyond s.length (Nat.le_refl _)
  constructor
  · intro q
    have := h.nonneg q
    split_ifs <;> omega
  · intro q
    have := h.fits q
    split_ifs with hq
    · rw [← hq, hnew]
      decide
    · omega
  · intro q hq
    rw [Refcount.alloc, List.length_append, List.length_singleton] at hq
    rw [if_neg (by omega), h.beyond q (by omega)]
    rfl
  · intro q c hc
    unfold Refcount.alloc at hc
    by_cases hq : s.length = q
    · rw [← hq, List.getElem?_concat_length, Option.some.injEq] at hc
      rw [if_pos hq, ← hq, hnew, ← hc]
      rfl
    · rw [List.getElem?_append] at hc
      split_ifs at hc with hlt
      · rw [if_neg hq, Int.add_zero]
        exact h.count q c hc
      · rw [List.getElem?_eq_none (by rw [List.length_singleton]; omega)] at hc
        contradiction

end Exact

end Refcount
