import Mathlib.Tactic.SplitIfs

/-!
# Guarded runs of labelled step relations

A system is a relation between a state, a label and a next state. A guarded run
takes only steps whose label meets a condition on the state in which it is
taken; the unguarded runs are the case of the condition that always holds.
-/
namespace SystemsProjects.GuardedRuns

variable {S E A : Type*}

/-- A finite sequence of steps, each allowed by `good` in the state it leaves. -/
inductive Run (step : S → E → S → Prop) (good : S → E → Prop) : S → List E → S → Prop
  | done (s : S) : Run step good s [] s
  | next {s t u : S} {e : E} {es : List E} : good s e → step s e t →
      Run step good t es u → Run step good s (e::es) u

variable {step : S → E → S → Prop} {good good' : S → E → Prop}

variable {es : List E} {s t : S}

/-- What every allowed step preserves holds in every state that is reached. -/
theorem Run.invariant {I : S → Prop} (h : Run step good s es t)
    (hstep : ∀ s e t, good s e → step s e t → I s → I t) (hs : I s) : I t := by
  induction h with
  | done s => exact hs
  | next hg ht _ ih => exact ih (hstep _ _ _ hg ht hs)

theorem Run.append {u : S} {es' : List E} (h : Run step good s es t) (h' : Run step good t es' u) :
    Run step good s (es++es') u := by
  induction h with
  | done s => exact h'
  | next hg ht _ ih => exact .next hg ht (ih h')

/-- A run whose invariant makes every step meet a second condition meets that one, too. -/
theorem Run.guarded {I : S → Prop} (h : Run step good s es t)
    (hstep : ∀ s e t, good s e → step s e t → I s → I t) (hgood : ∀ s e, I s → good s e → good' s e)
    (hs : I s) : Run step good' s es t := by
  induction h with
  | done s => exact .done s
  | next hg ht _ ih => exact .next (hgood _ _ hs hg) ht (ih (hstep _ _ _ hg ht hs))

theorem Run.labelled {P : E → Prop} (h : Run step good s es t) (hes : ∀ e ∈ es, P e) :
    Run step (fun s e => good s e ∧ P e) s es t := by
  induction h with
  | done s => exact .done s
  | next hg ht _ ih =>
    exact .next ⟨hg, hes _ (by simp)⟩ ht (ih fun e he => hes e (by simp [he]))

/-- Takes the steps of a list of labels with a function, as far as the labels meet the
condition. -/
def exec (f : S → E → Option S) (good : S → E → Prop) [∀ s e, Decidable (good s e)] :
    S → List E → Option S
  | s, [] => some s
  | s, e :: es => if good s e then (f s e).bind fun t => exec f good t es else none

theorem exists_run {f : S → E → Option S} [∀ s e, Decidable (good s e)]
    (hf : ∀ s e t, f s e = some t → step s e t) {P : S → Prop} [DecidablePred P]
    (h : (exec f good s es).any (fun t => decide (P t)) = true) :
    ∃ t, Run step good s es t ∧ P t := by
  induction es generalizing s with
  | nil => exact ⟨s, .done s, of_decide_eq_true h⟩
  | cons e es ih =>
    rw [exec] at h
    split_ifs at h with hg
    · cases ht : f s e with
      | none => simp [ht] at h
      | some t =>
        rw [ht, Option.bind_some] at h
        obtain ⟨u, hrun, hu⟩ := ih h
        exact ⟨u, .next hg (hf s e t ht) hrun, hu⟩
    · simp at h

end SystemsProjects.GuardedRuns
