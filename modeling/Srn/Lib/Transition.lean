import Mathlib.Logic.Function.Basic

/-!
# Transition

Runs of a partial step function.  A system is given by `step : σ → ε → Option σ`,
where `none` says that the event cannot happen in that state; `run` replays a list
of events.  The invariant rules are proved once here, so that every safety theorem
of a modelled system is one step lemma.
-/

namespace Transition

variable {σ ε : Type*} (step : σ → ε → Option σ)

/-- Replay a list of events from a state; `none` as soon as an event is not enabled. -/
def run : σ → List ε → Option σ
  | s, [] => some s
  | s, e :: es => (step s e).bind fun s' => run s' es

@[simp] theorem run_nil (s : σ) : run step s [] = some s := rfl

theorem run_cons (s : σ) (e : ε) (es : List ε) :
    run step s (e :: es) = (step s e).bind fun s' => run step s' es := rfl

/-- A run splits at every point into two runs. -/
theorem run_append (s : σ) (xs ys : List ε) :
    run step s (xs ++ ys) = (run step s xs).bind fun s' => run step s' ys := by
  induction xs generalizing s with
  | nil => simp
  | cons e es ih =>
    rw [List.cons_append, run_cons, run_cons, Option.bind_assoc]
    exact congrArg _ (funext fun s' => ih s')

variable {step}

/-- **Invariant rule**: what every step preserves, every run preserves. -/
theorem run_invariant {Inv : σ → Prop}
    (hstep : ∀ s e s', Inv s → step s e = some s' → Inv s') {s s' : σ} {es : List ε}
    (hs : Inv s) (hrun : run step s es = some s') : Inv s' := by
  induction es generalizing s with
  | nil => rw [run_nil, Option.some.injEq] at hrun; exact hrun ▸ hs
  | cons e es ih =>
    rw [run_cons, Option.bind_eq_some_iff] at hrun
    obtain ⟨t, ht, hrest⟩ := hrun
    exact ih (hstep s e t hs ht) hrest

/-- Every event of a run meets a condition on the state in which it happens. -/
def Along (step : σ → ε → Option σ) (P : σ → ε → Prop) : σ → List ε → Prop
  | _, [] => True
  | s, e :: es => P s e ∧ ∀ s', step s e = some s' → Along step P s' es

/-- Whether a run meets a condition is decided by replaying it. -/
instance decidableAlong {P : σ → ε → Prop} [∀ s e, Decidable (P s e)] :
    ∀ s es, Decidable (Along step P s es)
  | _, [] => .isTrue trivial
  | s, e :: es =>
    let rest : Decidable (∀ s', step s e = some s' → Along step P s' es) :=
      match h : step s e with
      | none => .isTrue (by simp)
      | some t =>
        @decidable_of_decidable_of_iff (Along step P t es) _ (decidableAlong t es) (by simp)
    inferInstanceAs (Decidable (P s e ∧ ∀ s', step s e = some s' → Along step P s' es))

theorem along_of_forall {P : ε → Prop} {es : List ε} (h : ∀ e ∈ es, P e) (s : σ) :
    Along step (fun _ => P) s es := by
  induction es generalizing s with
  | nil => trivial
  | cons e es ih =>
    refine ⟨h e List.mem_cons_self, fun s' _ => ih (fun e' he' => ?_) s'⟩
    exact h e' (List.mem_cons_of_mem _ he')

/-- **Conditional invariant rule**: what every step that meets the condition preserves, every
run whose steps all meet it preserves. -/
theorem run_invariant_along {Inv : σ → Prop} {P : σ → ε → Prop}
    (hstep : ∀ s e s', Inv s → P s e → step s e = some s' → Inv s') {s s' : σ} {es : List ε}
    (hs : Inv s) (hes : Along step P s es) (hrun : run step s es = some s') : Inv s' := by
  induction es generalizing s with
  | nil => rw [run_nil, Option.some.injEq] at hrun; exact hrun ▸ hs
  | cons e es ih =>
    rw [run_cons, Option.bind_eq_some_iff] at hrun
    obtain ⟨t, ht, hrest⟩ := hrun
    exact ih (hstep s e t hs hes.1 ht) (hes.2 t ht) hrest

/-! ## Logs -/

/-- The sum of a weight over the steps of a run. -/
def total (step : σ → ε → Option σ) (weight : σ → σ → Nat) : σ → List ε → Nat
  | _, [] => 0
  | s, e :: es => (step s e).elim 0 fun s' => weight s s' + total step weight s' es

variable {weight : σ → σ → Nat}

theorem total_append {s s' : σ} {xs : List ε} (hrun : run step s xs = some s') (ys : List ε) :
    total step weight s (xs ++ ys) = total step weight s xs + total step weight s' ys := by
  induction xs generalizing s with
  | nil =>
    rw [run_nil, Option.some.injEq] at hrun
    rw [hrun, List.nil_append, total, Nat.zero_add]
  | cons e es ih =>
    rw [run_cons, Option.bind_eq_some_iff] at hrun
    obtain ⟨t, ht, hrest⟩ := hrun
    rw [List.cons_append, total, total, ht, Option.elim_some, Option.elim_some, ih hrest,
      Nat.add_assoc]

/-- **History rule**: when every step extends a log by as much as it weighs, a run extends it by
the weight of the run. -/
theorem run_log {α : Type*} {Inv : σ → List α → Prop}
    (hstep : ∀ s e s' log, Inv s log → step s e = some s' →
      ∃ more : List α, more.length = weight s s' ∧ Inv s' (log ++ more))
    {s s' : σ} {es : List ε} {log : List α} (hs : Inv s log) (hrun : run step s es = some s') :
    ∃ more : List α, more.length = total step weight s es ∧ Inv s' (log ++ more) := by
  induction es generalizing s log with
  | nil =>
    rw [run_nil, Option.some.injEq] at hrun
    exact ⟨[], rfl, by rw [List.append_nil]; exact hrun ▸ hs⟩
  | cons e es ih =>
    rw [run_cons, Option.bind_eq_some_iff] at hrun
    obtain ⟨t, ht, hrest⟩ := hrun
    obtain ⟨more, hlength, hinv⟩ := hstep s e t log hs ht
    obtain ⟨more', hlength', hinv'⟩ := ih hinv hrest
    refine ⟨more ++ more', ?_, by rw [← List.append_assoc]; exact hinv'⟩
    rw [List.length_append, hlength, hlength', total, ht, Option.elim_some]

end Transition
