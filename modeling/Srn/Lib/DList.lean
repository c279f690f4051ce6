import Mathlib.Data.List.Chain
import Mathlib.Logic.Function.Basic

/-!
# DList

Doubly linked rings.  A ring hangs its nodes between the two sides of a sentinel; `Ring`
relates the pointers to the list of the nodes.  The operations of a ring write a few
pointers, and the two lemmas below read off the list they leave: one for a new last node,
one for taking a node out.
-/

namespace DList

/-- The pointers of all nodes; `none` is the null pointer. -/
structure Links (ι : Type) where
  next : ι → Option ι
  prev : ι → Option ι

variable {ι : Type}

namespace Links

variable [DecidableEq ι]

/-- Write one forward pointer. -/
def setNext (s : Links ι) (a : ι) (b : Option ι) : Links ι :=
  { s with next := Function.update s.next a b }

/-- Write one backward pointer. -/
def setPrev (s : Links ι) (a : ι) (b : Option ι) : Links ι :=
  { s with prev := Function.update s.prev a b }

@[simp] theorem next_setNext (s : Links ι) (a : ι) (b : Option ι) (c : ι) :
    (s.setNext a b).next c = if c = a then b else s.next c := by
  simp [setNext, Function.update_apply]

@[simp] theorem prev_setPrev (s : Links ι) (a : ι) (b : Option ι) (c : ι) :
    (s.setPrev a b).prev c = if c = a then b else s.prev c := by
  simp [setPrev, Function.update_apply]

@[simp] theorem prev_setNext (s : Links ι) (a : ι) (b : Option ι) :
    (s.setNext a b).prev = s.prev := rfl

@[simp] theorem next_setPrev (s : Links ι) (a : ι) (b : Option ι) :
    (s.setPrev a b).next = s.next := rfl

end Links

/-- `b` follows `a`, by both pointers. -/
def Joined (s : Links ι) (a b : ι) : Prop := s.next a = some b ∧ s.prev b = some a

/-- The nodes of `l`, in this order, are the ring of the sentinel `q`. -/
structure Ring (s : Links ι) (q : ι) (l : List ι) : Prop where
  nodup : (q :: l).Nodup
  chain : List.IsChain (Joined s) (q :: l ++ [q])

/-- A chain survives writes to other pointers than those between its nodes. -/
theorem isChain_congr {s s' : Links ι} {l : List ι} (h : l.IsChain (Joined s))
    (hnext : ∀ a ∈ l.dropLast, s'.next a = s.next a) (hprev : ∀ a ∈ l.tail, s'.prev a = s.prev a) :
    l.IsChain (Joined s') := by
  induction l with
  | nil => exact .nil
  | cons a l ih =>
    cases l with
    | nil => exact .singleton a
    | cons b l =>
      rw [List.isChain_cons_cons] at h ⊢
      refine ⟨⟨?_, ?_⟩, ih h.2 (fun c hc => hnext c ?_) fun c hc => hprev c ?_⟩
      · rw [hnext a (by simp)]
        exact h.1.1
      · rw [hprev b (by simp)]
        exact h.1.2
      · simp [hc]
      · simpa using .inr hc

/-- A list that is not empty ends with a last element. -/
theorem exists_eq_append_singleton (a : ι) (l : List ι) : ∃ init last, a :: l = init ++ [last] :=
  ⟨_, _, (List.dropLast_append_getLast (List.cons_ne_nil a l)).symm⟩

/-- The node behind the sentinel. -/
theorem Ring.next_sentinel {s : Links ι} {q : ι} {l : List ι} (h : Ring s q l) :
    s.next q = (l ++ [q]).head? := by
  cases l with
  | nil => exact (List.isChain_cons_cons.mp h.chain).1.1
  | cons a l => exact (List.isChain_cons_cons.mp h.chain).1.1

/-- The node behind one of the ring. -/
theorem Ring.next_mem {s : Links ι} {q e : ι} {l : List ι} (h : Ring s q l) (he : e ∈ q :: l) :
    ∃ n ∈ q :: l, s.next e = some n := by
  obtain ⟨before, after, hsplit⟩ := List.append_of_mem he
  obtain ⟨n, rest, hn⟩ := List.exists_cons_of_ne_nil (List.concat_ne_nil q after)
  have hchain := h.chain
  rw [hsplit, List.append_assoc, List.cons_append, hn] at hchain
  have hmem : n ∈ after ++ [q] := hn ▸ List.mem_cons_self
  exact ⟨n, by grind, (List.isChain_append_cons_cons.mp hchain).2.1.1⟩

/-- The node before one of the ring. -/
theorem Ring.prev_mem {s : Links ι} {q e : ι} {l : List ι} (h : Ring s q l) (he : e ∈ q :: l) :
    ∃ p ∈ q :: l, s.prev e = some p := by
  obtain ⟨before, after, hsplit⟩ := List.append_of_mem (show e ∈ l ++ [q] by grind)
  obtain ⟨init, p, hp⟩ := exists_eq_append_singleton q before
  have hchain := h.chain
  rw [List.cons_append, hsplit, ← List.cons_append, hp, List.append_assoc] at hchain
  have hmem : p ∈ q :: before := hp ▸ by simp
  have hsub : p ∈ before → p ∈ l ++ [q] := fun hmem => hsplit ▸ List.mem_append_left _ hmem
  exact ⟨p, by grind, (List.isChain_append_cons_cons.mp hchain).2.1.2⟩

/-- The two writes that hang a new node before the sentinel give it the last place. -/
theorem Ring.append [DecidableEq ι] {s s' : Links ι} {q e p : ι} {l : List ι} (h : Ring s q l)
    (he : e ∉ q :: l) (hp : s.prev q = some p)
    (hnext : ∀ a, s'.next a = if a = p then some e else if a = e then some q else s.next a)
    (hprev : ∀ a, s'.prev a = if a = q then some e else if a = e then some p else s.prev a) :
    Ring s' q (l ++ [e]) := by
  obtain ⟨init, last, heq⟩ := exists_eq_append_singleton q l
  have hnodup := h.nodup
  have hchain := h.chain
  rw [heq, List.append_assoc] at hchain
  obtain ⟨hinit, hlast, -⟩ := List.isChain_append_cons_cons.mp hchain
  obtain rfl : last = p := Option.some.inj (hlast.2.symm.trans hp)
  have hmem : last ∈ q :: l := by simp [heq]
  constructor
  · rw [← List.cons_append, List.nodup_append]
    exact ⟨hnodup, by simp, by grind⟩
  · rw [← List.cons_append, heq, List.append_assoc, List.append_assoc]
    refine List.isChain_append_cons_cons.mpr ⟨?_, ⟨?_, ?_⟩, List.isChain_pair.mpr ⟨?_, ?_⟩⟩
    · refine isChain_congr hinit (fun a ha => ?_) fun a ha => ?_
      · rw [heq] at hnodup he
        rw [List.dropLast_concat] at ha
        rw [hnext, if_neg (by grind), if_neg (by grind)]
      · rw [← heq, List.tail_cons] at ha
        rw [hprev, if_neg (by grind), if_neg (by grind)]
    · rw [hnext, if_pos rfl]
    · rw [hprev, if_neg (by grind), if_pos rfl]
    · rw [hnext, if_neg (by grind), if_pos rfl]
    · rw [hprev, if_pos rfl]

/-- The two writes that join the neighbours of a node take it out of the ring; its own pointers
do not matter. -/
theorem Ring.takeOut [DecidableEq ι] {s s' : Links ι} {q e p n : ι} {pre post : List ι}
    (h : Ring s q (pre ++ e :: post)) (hp : s.prev e = some p) (hn : s.next e = some n)
    (hnext : ∀ a, a ≠ e → s'.next a = if a = p then some n else s.next a)
    (hprev : ∀ a, a ≠ e → s'.prev a = if a = n then some p else s.prev a) :
    Ring s' q (pre ++ post) := by
  obtain ⟨init, last, hpre⟩ := exists_eq_append_singleton q pre
  obtain ⟨first, rest, hpost⟩ : ∃ first rest, post ++ [q] = first :: rest := by
    cases post <;> exact ⟨_, _, rfl⟩
  have hnodup := h.nodup
  have heq : q :: (pre ++ e :: post) ++ [q] = init ++ last :: e :: first :: rest := by
    rw [← List.cons_append, hpre]
    simp [← hpost]
  have hchain := h.chain
  rw [heq] at hchain
  obtain ⟨hinit, hjoin, hrest⟩ := List.isChain_append_cons_cons.mp hchain
  rw [List.isChain_cons_cons] at hrest
  obtain rfl : last = p := Option.some.inj (hjoin.2.symm.trans hp)
  obtain rfl : first = n := Option.some.inj (hrest.1.1.symm.trans hn)
  have hlast : last ∈ q :: pre := by simp [hpre]
  have hfirst : first ∈ post ++ [q] := by simp [hpost]
  have hrot : (post ++ [q]).Nodup := by grind
  constructor
  · grind
  · rw [← List.cons_append, hpre, List.append_assoc, List.append_assoc, hpost]
    refine List.isChain_append_cons_cons.mpr ⟨?_, ⟨?_, ?_⟩, ?_⟩
    · refine isChain_congr hinit (fun a ha => ?_) fun a ha => ?_
      · rw [List.dropLast_concat] at ha
        have hinit' : (init ++ [last]).Nodup := by rw [← hpre]; grind
        have ha' : a ∈ q :: pre := by rw [hpre]; exact List.mem_append_left _ ha
        rw [hnext a (by grind), if_neg (by grind)]
      · rw [← hpre, List.tail_cons] at ha
        rw [hprev a (by grind), if_neg (by grind)]
    · rw [hnext last (by grind), if_pos rfl]
    · rw [hprev first (by grind), if_pos rfl]
    · refine isChain_congr hrest.2 (fun a ha => ?_) fun a ha => ?_
      · rw [← hpost, List.dropLast_concat] at ha
        rw [hnext a (by grind), if_neg (by grind)]
      · rw [List.tail_cons] at ha
        have ha' : a ∈ post ++ [q] := by rw [hpost]; exact List.mem_cons_of_mem _ ha
        rw [hpost] at hrot
        rw [hprev a (by grind), if_neg (by grind)]

end DList
