import Mathlib.Order.Lattice
import Srn.In6Addr
import Srn.Lib.Dns

/-!
# Srn.Srdns

The client side of a request, `callback` of `lib/srdns.c`: it takes the address of the destination
and the list of SRH records from a reply, and copies out the source prefix and the binding segment
of one of them.

The comment in the source asks for the record of the highest priority.  The loop goes on while the
current record has a successor, so it never compares the last one; `callback_best_iff` states when
this makes a difference.  Both parsers belong to the DNS library and are parameters, and so is the
type of priorities.
-/

namespace Srn

variable {π β : Type} [LinearOrder π]

/-! ## The callback -/

/-- `struct ares_srh_reply`, without the link to the next one. -/
structure SrhAnswer (π : Type) where
  priority : π
  srcPrefix : In6Addr
  bindingSegment : In6Addr
  deriving DecidableEq, Repr

/-- `struct callback_args`: what the pointers point to, with `src_prefix` possibly `NULL`. -/
structure CallbackArgs where
  destAddr : In6Addr
  srcPrefix : Option In6Addr
  bindingSegment : In6Addr
  stop : Bool
  deriving DecidableEq, Repr

/-- The loop over the records from `curr_srh` on. -/
def bestLoop (bestSrh : SrhAnswer π) : List (SrhAnswer π) → SrhAnswer π
  | currSrh :: next :: answers =>
    bestLoop (if bestSrh.priority < currSrh.priority then currSrh else bestSrh) (next :: answers)
  | _ => bestSrh

/-- The record that `callback` chooses from a list with the given first record. -/
def bestSrh (srhOut : SrhAnswer π) (answers : List (SrhAnswer π)) : SrhAnswer π :=
  bestLoop srhOut (srhOut :: answers)

/-- The copies at the end of `callback`. -/
def CallbackArgs.copy (args : CallbackArgs) (best : SrhAnswer π) : CallbackArgs :=
  { args with
    srcPrefix := args.srcPrefix.map fun _ => best.srcPrefix
    bindingSegment := best.bindingSegment
    stop := true }

/-- `callback`; `none` when it follows a `NULL` pointer. -/
def callback (parseAaaaReply : List β → Option In6Addr)
    (parseSrhReply : List β → Option (List (SrhAnswer π))) (success : Bool) (abuf : List β)
    (args : CallbackArgs) : Option CallbackArgs :=
  if !success then some args
  else match parseAaaaReply abuf with
    | none => some args
    | some destAddr =>
      match parseSrhReply abuf with
      | none => some { args with destAddr }
      | some [] => none
      | some (srhOut :: answers) => some ({ args with destAddr }.copy (bestSrh srhOut answers))

/-! ## The choice -/

/-- No record has a higher priority. -/
def Highest (answers : List (SrhAnswer π)) (best : SrhAnswer π) : Prop :=
  best ∈ answers ∧ ∀ x ∈ answers, x.priority ≤ best.priority

/-- The first of the records with the highest priority. -/
def FirstHighest (answers : List (SrhAnswer π)) (best : SrhAnswer π) : Prop :=
  ∃ before after, answers = before ++ best :: after ∧ (∀ x ∈ before, x.priority < best.priority) ∧
    ∀ x ∈ after, x.priority ≤ best.priority

theorem FirstHighest.highest {answers : List (SrhAnswer π)} {best : SrhAnswer π}
    (h : FirstHighest answers best) : Highest answers best := by
  obtain ⟨before, after, rfl, hbefore, hafter⟩ := h
  refine ⟨by simp, fun x hx => ?_⟩
  rcases List.mem_append.mp hx with hx | hx
  · exact le_of_lt (hbefore x hx)
  · rcases List.mem_cons.mp hx with rfl | hx
    · exact le_refl _
    · exact hafter x hx

/-- There is only one first. -/
theorem FirstHighest.unique {answers : List (SrhAnswer π)} {best best' : SrhAnswer π}
    (h : FirstHighest answers best) (h' : FirstHighest answers best') : best = best' := by
  obtain ⟨before, after, rfl, hbefore, hafter⟩ := h
  obtain ⟨before', after', heq, hbefore', hafter'⟩ := h'
  rcases List.append_eq_append_iff.mp heq with ⟨mid, rfl, hmid⟩ | ⟨mid, rfl, hmid⟩
  · cases mid with
    | nil => exact (List.cons.inj hmid).1
    | cons y mid =>
      obtain ⟨rfl, rfl⟩ := List.cons.inj hmid
      exact absurd (hbefore' best (by simp)) (not_lt.mpr (hafter best' (by simp)))
  · cases mid with
    | nil => exact (List.cons.inj hmid).1.symm
    | cons y mid =>
      obtain ⟨rfl, rfl⟩ := List.cons.inj hmid
      exact absurd (hbefore best' (by simp)) (not_lt.mpr (hafter' best (by simp)))

/-- One more record, of a lower priority than the first of the others. -/
theorem FirstHighest.cons_of_lt {answers : List (SrhAnswer π)} {first best x : SrhAnswer π}
    (h : FirstHighest (first :: answers) best) (hx : x.priority < first.priority) :
    FirstHighest (x :: first :: answers) best := by
  have hfirst := h.highest.2 first List.mem_cons_self
  obtain ⟨before, after, heq, hbefore, hafter⟩ := h
  refine ⟨x :: before, after, by rw [heq, List.cons_append], fun y hy => ?_, hafter⟩
  rcases List.mem_cons.mp hy with rfl | hy
  · exact lt_of_lt_of_le hx hfirst
  · exact hbefore y hy

/-- One more record in second place, not of a higher priority than the first. -/
theorem FirstHighest.insert_of_le {answers : List (SrhAnswer π)} {first best x : SrhAnswer π}
    (h : FirstHighest (first :: answers) best) (hx : x.priority ≤ first.priority) :
    FirstHighest (first :: x :: answers) best := by
  obtain ⟨before, after, heq, hbefore, hafter⟩ := h
  cases before with
  | nil =>
    obtain ⟨rfl, rfl⟩ := List.cons.inj heq
    refine ⟨[], x :: answers, rfl, by simp, fun y hy => ?_⟩
    rcases List.mem_cons.mp hy with rfl | hy
    · exact hx
    · exact hafter y hy
  | cons b before =>
    obtain ⟨rfl, rfl⟩ := List.cons.inj heq
    have hfirst := hbefore first List.mem_cons_self
    refine ⟨first :: x :: before, after, rfl, fun y hy => ?_, hafter⟩
    rcases List.mem_cons.mp hy with rfl | hy
    · exact hfirst
    · rcases List.mem_cons.mp hy with rfl | hy
      · exact lt_of_le_of_lt hx hfirst
      · exact hbefore y (List.mem_cons_of_mem _ hy)

/-- **Run lemma** of the loop: it chooses the first of the best records before the last one. -/
theorem firstHighest_bestLoop (best : SrhAnswer π) (answers : List (SrhAnswer π)) :
    FirstHighest (best :: answers.dropLast) (bestLoop best answers) := by
  induction answers generalizing best with
  | nil => exact ⟨[], [], rfl, by simp, by simp⟩
  | cons curr answers ih =>
    cases answers with
    | nil => exact ⟨[], [], rfl, by simp, by simp⟩
    | cons next answers =>
      rw [bestLoop, List.dropLast_cons_cons]
      by_cases hlt : best.priority < curr.priority
      · rw [if_pos hlt]
        exact (ih curr).cons_of_lt hlt
      · rw [if_neg hlt]
        exact (ih best).insert_of_le (not_lt.mp hlt)

/-- The chosen record is the first of the best records before the last one.  The loop compares the
first record with itself. -/
theorem firstHighest_bestSrh (srhOut : SrhAnswer π) (answers : List (SrhAnswer π))
    (last : SrhAnswer π) :
    FirstHighest (srhOut :: answers) (bestSrh srhOut (answers ++ [last])) := by
  have hfirst := firstHighest_bestLoop srhOut (srhOut :: (answers ++ [last]))
  rw [← List.cons_append, List.dropLast_concat] at hfirst
  obtain ⟨before, after, heq, hbefore, hafter⟩ := hfirst
  cases before with
  | nil =>
    obtain ⟨hbest, rfl⟩ := List.cons.inj heq
    refine ⟨[], answers, ?_, by simp, fun x hx => hafter x (List.mem_cons_of_mem _ hx)⟩
    exact congrArg (· :: answers) hbest
  | cons x before =>
    obtain ⟨-, htail⟩ := List.cons.inj heq
    exact ⟨before, after, htail, fun y hy => hbefore y (List.mem_cons_of_mem _ hy), hafter⟩

/-- The copied values are those of a record with the highest priority. -/
def CopiesHighest (args out : CallbackArgs) (answers : List (SrhAnswer π)) : Prop :=
  ∃ best, Highest answers best ∧ out.srcPrefix = args.srcPrefix.map (fun _ => best.srcPrefix) ∧
    out.bindingSegment = best.bindingSegment

/-- The first of the best records before the last one has at least the priority of the last one, or
what is copied of it is the same. -/
def LastNotMissed (args : CallbackArgs) (srhOut : SrhAnswer π) (answers : List (SrhAnswer π)) :
    Prop :=
  ∀ last ∈ answers.getLast?, ∃ x, FirstHighest (srhOut :: answers).dropLast x ∧
    (last.priority ≤ x.priority ∨
      args.srcPrefix.map (fun _ => x.srcPrefix) = args.srcPrefix.map (fun _ => last.srcPrefix) ∧
        x.bindingSegment = last.bindingSegment)

theorem copiesHighest_copy_iff (args : CallbackArgs) (destAddr : In6Addr) (srhOut : SrhAnswer π)
    (answers : List (SrhAnswer π)) :
    CopiesHighest args ({ args with destAddr }.copy (bestSrh srhOut answers))
        (srhOut :: answers) ↔
      LastNotMissed args srhOut answers := by
  rcases List.eq_nil_or_concat' answers with rfl | ⟨init, last, rfl⟩
  · refine ⟨fun _ _ h => (nomatch h), fun _ => ⟨srhOut, ⟨List.mem_cons_self, ?_⟩, rfl, rfl⟩⟩
    simp
  · have hfirst := firstHighest_bestSrh srhOut init last
    obtain ⟨hmem, hmax⟩ := hfirst.highest
    have hsplit : srhOut :: (init ++ [last]) = (srhOut :: init) ++ [last] := rfl
    unfold LastNotMissed
    rw [hsplit, List.dropLast_concat, List.getLast?_concat]
    constructor
    · rintro ⟨best, ⟨hbest, hhighest⟩, hsource, hsegment⟩ y hy
      obtain rfl := Option.some.inj hy
      refine ⟨_, hfirst, ?_⟩
      have hle := hhighest last (by simp)
      rcases List.mem_append.mp hbest with hbest | hbest
      · exact .inl (le_trans hle (hmax best hbest))
      · obtain rfl := List.mem_singleton.mp hbest
        exact .inr ⟨hsource, hsegment⟩
    · intro hlast
      obtain ⟨x, hx, hcases⟩ := hlast last rfl
      obtain rfl := hfirst.unique hx
      by_cases hle : last.priority ≤ (bestSrh srhOut (init ++ [last])).priority
      · refine ⟨_, ⟨List.mem_append_left _ hmem, fun y hy => ?_⟩, rfl, rfl⟩
        rcases List.mem_append.mp hy with hy | hy
        · exact hmax y hy
        · exact List.mem_singleton.mp hy ▸ hle
      · obtain ⟨hsource, hsegment⟩ := hcases.resolve_left hle
        refine ⟨last, ⟨by simp, fun y hy => ?_⟩, hsource, hsegment⟩
        rcases List.mem_append.mp hy with hy | hy
        · exact le_trans (hmax y hy) (le_of_lt (not_le.mp hle))
        · exact le_of_eq (congrArg _ (List.mem_singleton.mp hy))

/-- **Main theorem.**  What the callback copies from a reply with records belongs to one of the
highest priority exactly if the last record is not missed. -/
theorem callback_best_iff (parseAaaaReply : List β → Option In6Addr)
    (parseSrhReply : List β → Option (List (SrhAnswer π))) (abuf : List β) (args : CallbackArgs)
    (destAddr : In6Addr) (srhOut : SrhAnswer π) (answers : List (SrhAnswer π))
    (haaaa : parseAaaaReply abuf = some destAddr)
    (hsrh : parseSrhReply abuf = some (srhOut :: answers)) :
    (∃ out, callback parseAaaaReply parseSrhReply true abuf args = some out ∧
        CopiesHighest args out (srhOut :: answers)) ↔
      LastNotMissed args srhOut answers := by
  have hcallback : callback parseAaaaReply parseSrhReply true abuf args =
      some ({ args with destAddr }.copy (bestSrh srhOut answers)) := by
    simp [callback, haaaa, hsrh]
  rw [hcallback, ← copiesHighest_copy_iff args destAddr]
  exact ⟨fun ⟨_, hout, h⟩ => Option.some.inj hout ▸ h, fun h => ⟨_, rfl, h⟩⟩

/-- The address in sixteen bytes. -/
def addrOfBytes (bytes : List Dns.Byte) : In6Addr :=
  bytes.foldl (fun a b => a <<< 8 ||| b.setWidth 128) 0

/-- The address of the first answer. -/
def readAaaa (msg : List Dns.Byte) : Option In6Addr :=
  (Dns.parseMessage msg).bind fun message =>
    (message.answers.find? fun r => r.type = 28).map fun r => addrOfBytes r.rdata

/-- The SRH records among the additional ones. -/
def readSrh (msg : List Dns.Byte) : Option (List (SrhAnswer ℕ)) :=
  (Dns.parseMessage msg).map fun message =>
    (message.additional.filter fun r => r.type = 65280).map fun r =>
      ⟨((Dns.word16At r.rdata 0).getD 0).toNat, addrOfBytes ((r.rdata.drop 2).take 16),
        addrOfBytes (r.rdata.drop 19)⟩

/-- A reply for the root, with an address and SRH records of the given priorities, whose prefix and
segment are the priority again. -/
def srhReplyOf (priorities : List (BitVec 8)) : List Dns.Byte :=
  Dns.word16 7 ++ Dns.word16 0x8180 ++ Dns.word16 1 ++ Dns.word16 1 ++ Dns.word16 0 ++
    Dns.word16 (BitVec.ofNat 16 priorities.length) ++ Dns.encodeName [] ++ Dns.word16 28 ++
    Dns.word16 1 ++ Dns.Record.encode ⟨[], 28, 1, 60, List.replicate 15 0 ++ [9]⟩ ++
    priorities.flatMap fun p => Dns.Record.encode ⟨[], 65280, 1, 0,
      [0, p] ++ List.replicate 15 0 ++ [p] ++ [64] ++ List.replicate 15 0 ++ [p]⟩

/-- Where the client stores the results. -/
def clientArgs : CallbackArgs := ⟨0, some 0, 0, false⟩

/-- Three records with the highest priority in the middle: it is chosen. -/
theorem callback_best_middle :
    ∃ out, callback readAaaa readSrh true (srhReplyOf [1, 3, 2]) clientArgs = some out ∧
      CopiesHighest clientArgs out [⟨1, 1, 1⟩, ⟨3, 3, 3⟩, ⟨2, 2, 2⟩] := by
  refine (callback_best_iff readAaaa readSrh (srhReplyOf [1, 3, 2]) clientArgs 9 ⟨1, 1, 1⟩
    [⟨3, 3, 3⟩, ⟨2, 2, 2⟩] (by decide +kernel) (by decide +kernel)).mpr fun last hlast => ?_
  obtain rfl := Option.some.inj hlast
  exact ⟨⟨3, 3, 3⟩, ⟨[⟨1, 1, 1⟩], [], rfl, by decide, by decide⟩, .inl (by decide)⟩

/-- Two records, the second of a higher priority: the first one is copied. -/
theorem callback_misses_last :
    readSrh (srhReplyOf [1, 2]) = some [⟨1, 1, 1⟩, ⟨2, 2, 2⟩] ∧
      callback readAaaa readSrh true (srhReplyOf [1, 2]) clientArgs =
        some ⟨9, some 1, 1, true⟩ ∧
      ¬ CopiesHighest clientArgs ⟨9, some 1, 1, true⟩
        ([⟨1, 1, 1⟩, ⟨2, 2, 2⟩] : List (SrhAnswer ℕ)) := by
  refine ⟨by decide +kernel, by decide +kernel, ?_⟩
  rintro ⟨best, ⟨hmem, hmax⟩, -, hsegment⟩
  have htop := hmax ⟨2, 2, 2⟩ (by decide)
  rcases List.mem_cons.mp hmem with rfl | hmem
  · exact absurd htop (by decide)
  · rw [List.mem_singleton.mp hmem] at hsegment
    exact absurd hsegment (by decide)

end Srn
