import Mathlib.Data.List.Basic

/-!
# OMap

Insertion-ordered finite maps: an association list with at most one entry per key, in
the order in which the keys were first inserted.  Keys are compared by a Boolean test
`same`, not by equality, so that maps over pointers compared by content are covered;
the laws ask only that the test be an equivalence.

Overwriting keeps the entry's position and its original key; a key that was erased and
is inserted again goes to the end.
-/

namespace OMap

variable {K V : Type*} (same : K → K → Bool)

/-- The value stored under `k`. -/
def get (m : List (K × V)) (k : K) : Option V :=
  (m.find? fun e => same e.1 k).map Prod.snd

/-- Overwrite the entry of `k` in place, or append a new one. -/
def set : List (K × V) → K → V → List (K × V)
  | [], k, v => [(k, v)]
  | (k', v') :: m, k, v => if same k' k then (k', v) :: m else (k', v') :: set m k v

/-- Remove the entry of `k`. -/
def erase (m : List (K × V)) (k : K) : List (K × V) := m.eraseP fun e => same e.1 k

/-- No two entries have the same key. -/
def Distinct (m : List (K × V)) : Prop := m.Pairwise fun e f => same e.1 f.1 = false

/-- The test is an equivalence of keys. -/
structure IsKeyTest : Prop where
  refl : ∀ k, same k k = true
  symm : ∀ k l, same k l = true → same l k = true
  trans : ∀ k l m, same k l = true → same l m = true → same k m = true

/-- Equality is a key test. -/
theorem isKeyTest_beq [BEq K] [LawfulBEq K] : IsKeyTest (fun a b : K => a == b) where
  refl := by simp
  symm := by simp
  trans := by simp

variable {same} {m : List (K × V)}

namespace IsKeyTest

/-- Keys with the same key compare alike with a third one. -/
theorem congr_left (hs : IsKeyTest same) {k l : K} (h : same k l = true) (x : K) :
    same k x = same l x := by
  cases hkx : same k x with
  | true => exact (hs.trans _ _ _ (hs.symm _ _ h) hkx).symm
  | false =>
    cases hlx : same l x with
    | true => rw [hs.trans _ _ _ h hlx] at hkx; contradiction
    | false => rfl

/-- The test is symmetric as a function. -/
theorem comm (hs : IsKeyTest same) (k l : K) : same k l = same l k := by
  cases hkl : same k l with
  | true => exact (hs.symm _ _ hkl).symm
  | false =>
    cases hlk : same l k with
    | true => rw [hs.symm _ _ hlk] at hkl; contradiction
    | false => rfl

end IsKeyTest

@[simp] theorem get_nil (k : K) : get same ([] : List (K × V)) k = none := rfl

theorem get_cons (e : K × V) (k : K) :
    get same (e :: m) k = if same e.1 k then some e.2 else get same m k := by
  cases h : same e.1 k <;> simp [get, h]

/-- **Overwrite law**: a `set` is visible under its key and nowhere else. -/
theorem get_set (hs : IsKeyTest same) (k l : K) (v : V) :
    get same (set same m k v) l = if same k l then some v else get same m l := by
  induction m with
  | nil => simp [set, get_cons]
  | cons e m ih =>
    obtain ⟨k', v'⟩ := e
    rw [set]
    cases hk : same k' k with
    | true =>
      rw [if_pos rfl, get_cons, get_cons, hs.congr_left hk]
      cases hl : same k l <;> simp
    | false =>
      rw [if_neg Bool.false_ne_true, get_cons, get_cons, ih]
      cases hkl : same k l with
      | false => rfl
      | true =>
        have : same k' l = false := by
          rw [hs.comm, ← hs.congr_left hkl, hs.comm]; exact hk
        simp [this]

/-- **Erase law**: an `erase` hides its key and nothing else. -/
theorem get_erase (hs : IsKeyTest same) (hd : Distinct same m) (k l : K) :
    get same (erase same m k) l = if same k l then none else get same m l := by
  induction m with
  | nil => simp [erase]
  | cons e m ih =>
    obtain ⟨hhead, htail⟩ := List.pairwise_cons.mp hd
    rw [erase, List.eraseP_cons]
    cases hk : same e.1 k with
    | true =>
      rw [cond_true, get_cons, hs.congr_left hk]
      cases hl : same k l with
      | false => rfl
      | true =>
        rw [if_pos rfl, get, Option.map_eq_none_iff, List.find?_eq_none]
        intro f hf
        rw [Bool.not_eq_true, hs.comm, ← hs.congr_left (hs.trans _ _ _ hk hl)]
        exact hhead f hf
    | false =>
      rw [cond_false, get_cons, get_cons]
      rw [show m.eraseP (fun f => same f.1 k) = erase same m k from rfl, ih htail]
      cases hkl : same k l with
      | false => rfl
      | true =>
        have : same e.1 l = false := by
          rw [hs.comm, ← hs.congr_left hkl, hs.comm]; exact hk
        simp [this]

/-- The keys after a `set`: unchanged when the key was present, else with the new key
at the end. -/
theorem map_fst_set (k : K) (v : V) :
    (set same m k v).map Prod.fst =
      if (get same m k).isSome then m.map Prod.fst else m.map Prod.fst ++ [k] := by
  induction m with
  | nil => simp [set]
  | cons e m ih =>
    obtain ⟨k', v'⟩ := e
    rw [set, get_cons]
    cases hk : same k' k with
    | true => simp
    | false =>
      simp only [Bool.false_eq_true, ↓reduceIte, List.map_cons, ih]
      split <;> simp

/-- A key without entry is the key of no entry. -/
theorem get_eq_none_iff (k : K) : get same m k = none ↔ ∀ e ∈ m, same e.1 k = false := by
  simp [get]

/-- A `set` of a key without entry appends. -/
theorem set_eq_append (k : K) (v : V) (h : get same m k = none) :
    set same m k v = m ++ [(k, v)] := by
  induction m with
  | nil => rfl
  | cons e m ih =>
    rw [get_eq_none_iff] at h
    rw [set, h e List.mem_cons_self, if_neg Bool.false_ne_true,
      ih ((get_eq_none_iff k).mpr fun f hf => h f (List.mem_cons_of_mem _ hf)),
      List.cons_append]

/-- `set` keeps the keys distinct. -/
theorem Distinct.set (hd : Distinct same m) (k : K) (v : V) :
    Distinct same (OMap.set same m k v) := by
  have key (l : List (K × V)) :
      Distinct same l ↔ (l.map Prod.fst).Pairwise fun a b => same a b = false := by
    rw [List.pairwise_map]; rfl
  rw [key, map_fst_set]
  split
  · exact (key m).mp hd
  · next h =>
    rw [List.pairwise_append]
    refine ⟨(key m).mp hd, List.pairwise_singleton _ _, ?_⟩
    intro a ha b hb
    obtain ⟨e, he, rfl⟩ := List.mem_map.mp ha
    rw [List.mem_singleton.mp hb]
    exact (get_eq_none_iff k).mp (by simpa using h) e he

/-- `erase` keeps the keys distinct. -/
theorem Distinct.erase (hd : Distinct same m) (k : K) : Distinct same (OMap.erase same m k) :=
  hd.sublist List.eraseP_sublist

end OMap
