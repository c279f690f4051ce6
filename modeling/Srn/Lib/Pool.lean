import Mathlib.Data.List.Perm.Subperm

/-!
# Pool

A pool of concurrent activities is a list of their control points; a step replaces
one entry or removes it.  Counting arguments over a pool (so many activities stand at
such a point) need exactly two facts, one per kind of step; so do arguments about what the
activities hold, which are read off the pool by a `filterMap`.
-/

namespace Pool

variable {α : Type*} {l : List α} {i : ℕ} {a b : α} {p : α → Bool}

/-- A pool splits at the position of one of its activities. -/
theorem eq_take_cons_drop (h : l[i]? = some a) : l = l.take i ++ a :: l.drop (i + 1) := by
  obtain ⟨hi, rfl⟩ := List.getElem?_eq_some_iff.mp h
  rw [List.getElem_cons_drop, List.take_append_drop]

/-- Moving one activity from `a` to `b` changes a count by those two points alone. -/
theorem countP_set (h : l[i]? = some a) :
    (l.set i b).countP p + (if p a then 1 else 0) = l.countP p + (if p b then 1 else 0) := by
  obtain ⟨hi, -⟩ := List.getElem?_eq_some_iff.mp h
  have hl := congrArg (List.countP p) (eq_take_cons_drop h)
  rw [List.countP_append, List.countP_cons] at hl
  rw [List.set_eq_take_append_cons_drop, if_pos hi, List.countP_append, List.countP_cons, hl]
  omega

/-- Moving an activity to a point that counts only if the old one did raises no count. -/
theorem countP_set_le (h : l[i]? = some a) (hab : p b = true → p a = true) :
    (l.set i b).countP p ≤ l.countP p := by
  have hset := countP_set (b := b) (p := p) h
  by_cases hb : p b = true
  · simp only [hb, hab hb, if_true] at hset
    omega
  · rw [if_neg hb] at hset
    omega

/-- Ending an activity at `a` removes it from the counts that include `a`. -/
theorem countP_eraseIdx (h : l[i]? = some a) :
    (l.eraseIdx i).countP p + (if p a then 1 else 0) = l.countP p := by
  have hl := congrArg (List.countP p) (eq_take_cons_drop h)
  rw [List.countP_append, List.countP_cons] at hl
  rw [List.eraseIdx_eq_take_drop_succ, List.countP_append, hl]
  omega

/-- An activity at a counted point makes the count positive. -/
theorem countP_pos (h : l[i]? = some a) (ha : p a = true) : 0 < l.countP p :=
  List.countP_pos_iff.mpr ⟨a, List.mem_of_getElem? h, ha⟩

/-- Moving one activity exchanges it for another, up to the order. -/
theorem perm_set (h : l[i]? = some a) : (a :: l.set i b).Perm (b :: l) := by
  obtain ⟨hi, rfl⟩ := List.getElem?_eq_some_iff.mp h
  exact ((List.set_perm_cons_eraseIdx hi b).cons _).trans
    ((List.Perm.swap _ _ _).trans ((List.getElem_cons_eraseIdx_perm hi).cons b))

/-- Ending an activity removes it, up to the order. -/
theorem perm_eraseIdx (h : l[i]? = some a) : (a :: l.eraseIdx i).Perm l := by
  obtain ⟨hi, rfl⟩ := List.getElem?_eq_some_iff.mp h
  exact List.getElem_cons_eraseIdx_perm hi

variable {β : Type*} {f : α → Option β}

theorem filterMap_cons_toList (f : α → Option β) (a : α) (l : List α) :
    (a :: l).filterMap f = (f a).toList ++ l.filterMap f := by
  cases ha : f a <;> simp [ha]

/-- An activity that moves on exchanges what it held for what it holds now. -/
theorem perm_toList_filterMap_set (h : l[i]? = some a) :
    ((f a).toList ++ (l.set i b).filterMap f).Perm ((f b).toList ++ l.filterMap f) := by
  have hperm := (perm_set (b := b) h).filterMap f
  rwa [filterMap_cons_toList, filterMap_cons_toList] at hperm

/-- An activity that moves on and holds the same changes nothing that is held. -/
theorem perm_filterMap_set (h : l[i]? = some a) (hab : f b = f a) :
    ((l.set i b).filterMap f).Perm (l.filterMap f) := by
  have hperm := perm_toList_filterMap_set (b := b) (f := f) h
  rw [hab] at hperm
  exact (List.perm_append_left_iff _).mp hperm

/-- An activity that ends leaves what the others hold. -/
theorem perm_filterMap_eraseIdx (h : l[i]? = some a) :
    ((f a).toList ++ (l.eraseIdx i).filterMap f).Perm (l.filterMap f) := by
  rw [← filterMap_cons_toList]
  exact (perm_eraseIdx h).filterMap f

/-- A pool that is part of another one has part of what the other has. -/
theorem subperm_map {l' : List α} {g : α → β} (h : l.Subperm l') :
    (l.map g).Subperm (l'.map g) := by
  obtain ⟨part, hperm, hsub⟩ := h
  exact ⟨part.map g, hperm.map g, hsub.map g⟩

/-- What some activities hold is part of what all of them stand for. -/
theorem filterMap_sublist_map {g : α → β} (h : ∀ a ∈ l, ∀ b, f a = some b → b = g a) :
    (l.filterMap f).Sublist (l.map g) := by
  induction l with
  | nil => exact List.Sublist.refl _
  | cons a l ih =>
    have hrest := ih fun a' ha' => h a' (List.mem_cons_of_mem a ha')
    cases ha : f a with
    | none =>
      rw [List.filterMap_cons_none ha, List.map_cons]
      exact hrest.cons _
    | some b =>
      rw [List.filterMap_cons_some ha, List.map_cons, h a List.mem_cons_self b ha]
      exact hrest.cons_cons _

end Pool
