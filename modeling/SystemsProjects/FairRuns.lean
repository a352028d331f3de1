import Mathlib.Order.Nat
import SystemsProjects.GuardedRuns

/-!
# Infinite executions under weak fairness

An execution goes on for ever and may pause. Its events belong to threads. It is weakly fair
if no thread that could take a step from some time on is passed over for ever. A state that
can only be left for states of smaller rank, and in which some thread can always go on, is
followed by the goal in every weakly fair execution.
-/
namespace SystemsProjects.FairRuns

open GuardedRuns

variable {S E T : Type*}

structure Execution (step : S → E → S → Prop) (good : S → E → Prop) where
  states : ℕ → S
  events : ℕ → Option E
  pause : ∀ k, events k = none → states (k+1) = states k
  next : ∀ k e, events k = some e → good (states k) e ∧ step (states k) e (states (k+1))

variable {step : S → E → S → Prop} {good : S → E → Prop} {thread : E → T}

def Enabled (step : S → E → S → Prop) (thread : E → T) (t : T) (s : S) : Prop :=
  ∃ e u, thread e = t ∧ step s e u

def WeaklyFair (thread : E → T) (x : Execution step good) : Prop :=
  ∀ t k, ∃ j, k ≤ j ∧
    ((∃ e, x.events j = some e ∧ thread e = t) ∨ ¬Enabled step thread t (x.states j))

theorem Execution.run (x : Execution step good) (k j : ℕ) :
    ∃ es, Run step good (x.states k) es (x.states (k+j)) := by
  induction j generalizing k with
  | zero => exact ⟨[], .done _⟩
  | succ j ih =>
    obtain ⟨es, hes⟩ := ih (k+1)
    rw [Nat.add_assoc, Nat.add_comm 1 j] at hes
    cases he : x.events k with
    | none =>
      rw [x.pause k he] at hes
      exact ⟨es, hes⟩
    | some e => exact ⟨e::es, .next (x.next k e he).1 (x.next k e he).2 hes⟩

variable {x : Execution step good}

/-- A thread that can go on in a state takes a step, or another one does so before it. -/
theorem WeaklyFair.exists_next (h : WeaklyFair thread x) {k : ℕ} {t : T}
    (ht : Enabled step thread t (x.states k)) :
    ∃ j e, k ≤ j ∧ x.events j = some e ∧ x.states j = x.states k := by
  by_contra hnone
  have hsame : ∀ d, x.states (k+d) = x.states k := by
    intro d
    induction d with
    | zero => rfl
    | succ d ih =>
      cases he : x.events (k+d) with
      | none => exact (x.pause _ he).trans ih
      | some e => exact absurd ⟨k+d, e, Nat.le_add_right k d, he, ih⟩ hnone
  obtain ⟨j, hj, hcases⟩ := h t k
  obtain ⟨d, rfl⟩ := Nat.exists_eq_add_of_le hj
  rcases hcases with ⟨e, he, -⟩ | hdisabled
  · exact hnone ⟨k+d, e, hj, he, hsame d⟩
  · rw [hsame d] at hdisabled
    exact hdisabled ht

/-- Every step leads to the goal or down in rank, and some thread can take one. -/
theorem WeaklyFair.eventually (h : WeaklyFair thread x) {P goal : S → Prop} (rank : S → ℕ)
    (hstep : ∀ s e u, P s → ¬goal s → good s e → step s e u → goal u ∨ (P u ∧ rank u < rank s))
    (henabled : ∀ s, P s → ¬goal s → ∃ t, Enabled step thread t s) {k : ℕ} (hP : P (x.states k)) :
    ∃ j, k ≤ j ∧ goal (x.states j) := by
  induction hrank : rank (x.states k) using Nat.strong_induction_on generalizing k with
  | _ r ih =>
    by_cases hgoal : goal (x.states k)
    · exact ⟨k, Nat.le_refl k, hgoal⟩
    · obtain ⟨t, ht⟩ := henabled _ hP hgoal
      obtain ⟨j, e, hkj, he, hsame⟩ := h.exists_next ht
      have hnext := x.next j e he
      rw [hsame] at hnext
      rcases hstep _ e _ hP hgoal hnext.1 hnext.2 with hg | ⟨hP', hlt⟩
      · exact ⟨j+1, by omega, hg⟩
      · obtain ⟨i, hi, hg⟩ := ih _ (hrank ▸ hlt) hP' rfl
        exact ⟨i, by omega, hg⟩

/-- An execution with one more step in front of it. -/
def Execution.cons {s : S} {e : E} (x : Execution step good) (hg : good s e)
    (hs : step s e (x.states 0)) : Execution step good where
  states k := k.casesOn s x.states
  events k := k.casesOn (some e) x.events
  pause k hk := by
    cases k with
    | zero => cases hk
    | succ k => exact x.pause k hk
  next k e' hk := by
    cases k with
    | zero =>
      obtain rfl : e = e' := Option.some.inj hk
      exact ⟨hg, hs⟩
    | succ k => exact x.next k e' hk

theorem WeaklyFair.cons {s : S} {e : E} (h : WeaklyFair thread x) (hg : good s e)
    (hs : step s e (x.states 0)) : WeaklyFair thread (x.cons hg hs) := by
  intro t k
  obtain ⟨j, hj, hcases⟩ := h t k
  exact ⟨j+1, by omega, hcases⟩

theorem exists_fair_of_stuck (thread : E → T) {s u : S} {es : List E}
    (hrun : Run step good s es u)
    (hstuck : ∀ e v, ¬step u e v) : ∃ x : Execution step good, WeaklyFair thread x ∧
      x.states 0 = s ∧ ∀ k, es.length ≤ k → x.states k = u := by
  induction hrun with
  | done s =>
    refine ⟨⟨fun _ => s, fun _ => none, fun _ _ => rfl, nofun⟩, ?_, rfl, fun _ _ => rfl⟩
    intro t k
    refine ⟨k, Nat.le_refl k, Or.inr ?_⟩
    rintro ⟨e, v, -, hv⟩
    exact hstuck e v hv
  | next hg hs _ ih =>
    obtain ⟨x, hfair, hx0, hxu⟩ := ih hstuck
    subst hx0
    refine ⟨x.cons hg hs, hfair.cons hg hs, rfl, ?_⟩
    intro k hk
    cases k with
    | zero => simp at hk
    | succ k => exact hxu k (Nat.le_of_succ_le_succ hk)

end SystemsProjects.FairRuns
