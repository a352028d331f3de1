import Mathlib.Data.Nat.Notation
import Mathlib.Logic.Function.Basic

/-!
# Numbered messages in a pipeline

A source sends numbered messages through `n` stages, one behind the other. Stage `k` gets the
messages from number `first k` on, in their order, and passes on those that the next stage is to
get. The state is given by numbers: `p 0` messages have been sent, and stage `k` waits for the
message with number `p (k+1)`. The messages on the way to stage `k` are then those from `p (k+1)`
to `p k`.
-/
namespace SystemsProjects.MessagePipelines
open Function List

structure Pipeline (n : ℕ) (first p : ℕ → ℕ) : Prop where
  first_le : ∀ k < n, first k ≤ p (k+1)
  le_max : ∀ k < n, p (k+1) ≤ max (first k) (p k)

/-- The numbers of the messages on the way to a stage. -/
def inTransit (p : ℕ → ℕ) (k : ℕ) : List ℕ := range' (p (k+1)) (p k-p (k+1))

/-- A stage has taken the message that it waits for. -/
def taken (p : ℕ → ℕ) (k : ℕ) : ℕ → ℕ := update p (k+1) (p (k+1)+1)

def fed (p : ℕ → ℕ) (d : ℕ) : ℕ → ℕ := update p 0 (p 0+d)

variable {n : ℕ} {first p : ℕ → ℕ} {k : ℕ}

theorem taken_zero : taken p k 0 = p 0 := update_of_ne (by omega) _ _

theorem taken_self : taken p k (k+1) = p (k+1)+1 := update_self _ _ _

theorem taken_of_ne {j : ℕ} (h : j ≠ k+1) : taken p k j = p j := update_of_ne h _ _

theorem Pipeline.le_bound (h : Pipeline n first p) {b : ℕ} (h0 : p 0 ≤ b)
    (hfirst : ∀ k < n, first k ≤ b) : ∀ k ≤ n, p k ≤ b := by
  intro k
  induction k with
  | zero => exact fun _ => h0
  | succ k ih =>
    intro hk
    have hle := h.le_max k hk
    have := hfirst k hk
    omega

theorem lt_of_inTransit {i : ℕ} {l : List ℕ} (h : inTransit p k = i::l) :
    i = p (k+1) ∧ p (k+1) < p k ∧ l = range' (p (k+1)+1) (p k-(p (k+1)+1)) := by
  unfold inTransit at h
  cases hd : p k-p (k+1) with
  | zero =>
    rw [hd] at h
    exact absurd h nofun
  | succ d =>
    rw [hd, range'_succ] at h
    injection h with hi hl
    have : p k-(p (k+1)+1) = d := by omega
    exact ⟨hi.symm, by omega, by rw [this, hl]⟩

theorem Pipeline.taken (h : Pipeline n first p) (hlt : p (k+1) < p k) :
    Pipeline n first (taken p k) := by
  constructor
  · intro j hj
    by_cases hjk : j = k
    · subst hjk
      rw [taken_self]
      exact Nat.le_succ_of_le (h.first_le j hj)
    · rw [taken_of_ne (by omega)]
      exact h.first_le j hj
  · intro j hj
    have hle := h.le_max j hj
    by_cases hjk : j = k
    · subst hjk
      rw [taken_self, taken_of_ne (by omega)]
      exact Nat.le_trans hlt (Nat.le_max_right _ _)
    · rw [taken_of_ne (by omega : j+1 ≠ k+1)]
      by_cases hj1 : j = k+1
      · subst hj1
        rw [taken_self]
        omega
      · rw [taken_of_ne hj1]
        exact hle

theorem inTransit_taken_self : inTransit (taken p k) k =
    range' (p (k+1)+1) (p k-(p (k+1)+1)) := by
  unfold inTransit
  rw [taken_self, taken_of_ne (by omega)]

theorem Pipeline.inTransit_taken_succ (h : Pipeline n first p) (hk : k+1 < n)
    (hfirst : first (k+1) ≤ p (k+1)) :
    inTransit (MessagePipelines.taken p k) (k+1) = inTransit p (k+1)++[p (k+1)] := by
  have hle := h.le_max (k+1) hk
  unfold inTransit
  rw [taken_self, taken_of_ne (by omega)]
  have hsub : p (k+1)+1-p (k+1+1) = p (k+1)-p (k+1+1)+1 := by omega
  have hlast : p (k+1+1)+1*(p (k+1)-p (k+1+1)) = p (k+1) := by omega
  rw [hsub, range'_concat, hlast]

theorem Pipeline.inTransit_taken_idle (h : Pipeline n first p) (hk : k+1 < n)
    (hfirst : p (k+1) < first (k+1)) :
    inTransit (MessagePipelines.taken p k) (k+1) = inTransit p (k+1) := by
  have hle := h.first_le (k+1) hk
  unfold inTransit
  rw [taken_self, taken_of_ne (by omega)]
  have h0 : p (k+1)-p (k+1+1) = 0 := by omega
  have h1 : p (k+1)+1-p (k+1+1) = 0 := by omega
  rw [h0, h1]

theorem inTransit_taken_of_ne {j : ℕ} (hk : j ≠ k) (hk1 : j ≠ k+1) :
    inTransit (taken p k) j = inTransit p j := by
  unfold inTransit
  rw [taken_of_ne hk1, taken_of_ne (by omega)]

theorem fed_succ {d : ℕ} : fed p d (k+1) = p (k+1) := update_of_ne (by omega) _ _

theorem fed_zero {d : ℕ} : fed p d 0 = p 0+d := update_self _ _ _

theorem Pipeline.fed (h : Pipeline n first p) (d : ℕ) : Pipeline n first (fed p d) := by
  constructor
  · intro k hk
    rw [fed_succ]
    exact h.first_le k hk
  · intro k hk
    have hle := h.le_max k hk
    cases k with
    | zero =>
      rw [fed_succ, fed_zero]
      omega
    | succ k =>
      rw [fed_succ, fed_succ]
      exact hle

theorem inTransit_fed_succ {d : ℕ} : inTransit (fed p d) (k+1) = inTransit p (k+1) := by
  unfold inTransit
  rw [fed_succ, fed_succ]

theorem inTransit_fed_zero {d : ℕ} (h : p 1 ≤ p 0) :
    inTransit (fed p d) 0 = inTransit p 0++range' (p 0) d := by
  unfold inTransit
  rw [fed_zero, fed_succ]
  have hsub : p 0+d-p 1 = p 0-p 1+d := by omega
  have hlast : p 1+1*(p 0-p 1) = p 0 := by omega
  rw [Nat.zero_add, hsub, ← range'_append, hlast]

theorem Pipeline.drained (h : Pipeline n first p) (hfirst : ∀ k < n, first k ≤ p 0)
    (hempty : ∀ k < n, inTransit p k = []) : ∀ k ≤ n, p k = p 0 := by
  intro k
  induction k with
  | zero => exact fun _ => rfl
  | succ k ih =>
    intro hk
    have hle := h.le_max k (by omega)
    have hnone : p k-p (k+1) = 0 := by
      have := congrArg length (hempty k (by omega))
      simpa [inTransit] using this
    have := hfirst k (by omega)
    omega

end SystemsProjects.MessagePipelines
