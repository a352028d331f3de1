import Mathlib.Tactic.Common

/-!
# Outcomes of stateful calls that may stop

A call takes a state and either returns a value with the next state or stops with a
fault. `Ends` says what is known of an outcome on both sides. `Guards` is the case of a
condition on the state that holds again whenever the call returns, and `Keeps` leaves open
what it may stop at. The rules follow the way calls are put together, so that a proof about
a call walks along its text.
-/
namespace SystemsProjects.CallOutcomes

variable {σ ε α β : Type}

/-- A call on states `σ` with faults `ε`. -/
abbrev Call (σ ε α : Type) := StateT σ (Except ε) α

/-- The call returned with a value and a state in `Q`, or stopped with a fault in `E`. -/
def Ends (r : Except ε (α × σ)) (E : ε → Prop) (Q : α → σ → Prop) : Prop :=
  match r with
  | .ok (a, s) => Q a s
  | .error e => E e

variable {E : ε → Prop} {Q : α → σ → Prop} {s : σ}

variable {a : α}

theorem ends_ok (h : Q a s) : Ends (.ok (a, s) : Except ε (α × σ)) E Q := h

variable {e : ε}

theorem ends_pure (h : Q a s) : Ends ((pure a : Call σ ε α) s) E Q := h

variable {t : σ}

theorem outcome_inj {b : α} {s : σ} (h : (.ok (a, s) : Except ε (α × σ)) = .ok (b, t)) :
    a = b ∧ s = t := Prod.mk.inj (Except.ok.inj h)

variable {r : Except ε (α × σ)}

theorem Ends.mono {E' : ε → Prop} {Q' : α → σ → Prop} (h : Ends r E Q) (hE : ∀ e, E e → E' e)
    (hQ : ∀ a t, Q a t → Q' a t) : Ends r E' Q' := by
  cases r with
  | ok p => exact hQ _ _ h
  | error e => exact hE _ h

theorem Ends.imp {Q' : α → σ → Prop} (h : Ends r E Q) (hQ : ∀ a t, Q a t → Q' a t) :
    Ends r E Q' := h.mono (fun _ he => he) hQ

/-- What is known of an outcome if the call returned. -/
abbrev Gives (r : Except ε (α × σ)) (Q : α → σ → Prop) : Prop := Ends r (fun _ => True) Q

theorem Ends.gives (h : Ends r E Q) : Gives r Q := h.mono (fun _ _ => trivial) fun _ _ hq => hq

theorem Ends.of_ok (h : Ends r E Q) (hr : r = .ok (a, t)) : Q a t := by
  subst hr
  exact h

theorem Ends.of_error (h : Ends r E Q) (hr : r = .error e) : E e := by
  subst hr
  exact h

theorem Ends.returns (h : Ends r E Q) (hE : ∀ e, ¬E e) : ∃ a t, r = .ok (a, t) ∧ Q a t := by
  cases r with
  | ok p => exact ⟨p.1, p.2, rfl, h⟩
  | error e => exact absurd h (hE e)

instance decidableOkAnd [DecidableEq α] (r : Except ε (α × σ)) (a : α) (P : σ → Prop)
    [DecidablePred P] : Decidable (∃ t, r = .ok (a, t) ∧ P t) :=
  match r with
  | .ok (b, t) => decidable_of_iff (b = a ∧ P t) (by simp +contextual [and_comm])
  | .error _ => isFalse nofun

instance decidableOk [DecidableEq α] (r : Except ε (α × σ)) (a : α) :
    Decidable (∃ t, r = .ok (a, t)) :=
  decidable_of_iff (∃ t, r = .ok (a, t) ∧ True) (by simp only [and_true])

theorem ends_self (r : Except ε (α × σ)) : Gives r fun a t => r = .ok (a, t) := by
  cases r with
  | ok p => exact rfl
  | error e => trivial

theorem Ends.and {Q' : α → σ → Prop} (h : Ends r E Q) (h' : Gives r Q') :
    Ends r E fun a t => Q a t ∧ Q' a t := by
  cases r with
  | ok p => exact ⟨h, h'⟩
  | error e => exact h

instance [∀ e, Decidable (E e)] [∀ a t, Decidable (Q a t)] (r : Except ε (α × σ)) :
    Decidable (Ends r E Q) :=
  match r with
  | .ok (a, t) => inferInstanceAs (Decidable (Q a t))
  | .error e => inferInstanceAs (Decidable (E e))

theorem run_bind (m : Call σ ε α) (f : α → Call σ ε β) (s : σ) : (m >>= f) s = match m s with
      | .ok p => f p.1 p.2
      | .error e => .error e := by
  change (m s).bind _ = _
  cases m s <;> rfl

variable {m : Call σ ε α} {f : α → Call σ ε β}

theorem Ends.bind {R : β → σ → Prop} (h : Ends (m s) E Q) (hf : ∀ a t, Q a t → Ends (f a t) E R) :
    Ends ((m >>= f) s) E R := by
  rw [run_bind]
  cases hm : m s with
  | ok p =>
    rw [hm] at h
    exact hf p.1 p.2 h
  | error e =>
    rw [hm] at h
    exact h

theorem run_map (g : α → β) (m : Call σ ε α) (s : σ) : (g <$> m) s = match m s with
      | .ok p => .ok (g p.1, p.2)
      | .error e => .error e := by
  change (m s).bind _ = _
  cases m s <;> rfl

theorem map_ok {g : α → β} (h : m s = .ok (a, t)) : (g <$> m) s = .ok (g a, t) := by
  rw [run_map, h]

theorem Ends.map {g : α → β} {R : β → σ → Prop} (h : Ends (m s) E Q) (hg : ∀ a t, Q a t → R (g a) t)
    : Ends ((g <$> m) s) E R := by
  rw [run_map]
  cases hm : m s with
  | ok p =>
    rw [hm] at h
    exact hg p.1 p.2 h
  | error e =>
    rw [hm] at h
    exact h

theorem Ends.wrap {g : α → β} {R : σ → Prop} (h : Ends (m s) E fun _ t => R t) :
    Ends ((g <$> m) s) E fun _ t => R t := h.map fun _ _ ht => ht

theorem bind_ok (h : m s = .ok (a, t)) : (m >>= f) s = f a t := by
  rw [run_bind, h]

theorem bind_error (h : m s = .error e) : (m >>= f) s = .error e := by
  rw [run_bind, h]

theorem run_bind_eq_ok {b : β} :
    (m >>= f) s = .ok (b, t) ↔ ∃ a u, m s = .ok (a, u) ∧ f a u = .ok (b, t) := by
  rw [run_bind]
  cases m s with
  | ok p =>
    obtain ⟨a, u⟩ := p
    simp
  | error e => simp

/-- From a state in `I` the call returns in one, or stops with a fault in `E`. -/
def Guards (E : ε → Prop) (I : σ → Prop) (m : Call σ ε α) : Prop :=
  ∀ s, I s → Ends (m s) E (fun _ t => I t)

/-- Whenever the call returns from a state in `I`, it returns in one. -/
abbrev Keeps (I : σ → Prop) (m : Call σ ε α) : Prop := Guards (fun _ => True) I m

variable {I : σ → Prop}

theorem keeps_pure (a : α) : Guards E I (pure a : Call σ ε α) := fun _ h => h

theorem Guards.bind (hm : Guards E I m) (hf : ∀ a, Guards E I (f a)) : Guards E I (m >>= f) :=
  fun s hs => (hm s hs).bind fun a t ht => hf a t ht

/-- A call that goes on with what another one has found, if it has found something. -/
theorem Guards.found {m : Call σ ε (Option β)} {f : Option β → Call σ ε α} (hm : Guards E I m)
    (hnone : Guards E I (f none)) (hsome : ∀ b, Guards E I (f (some b))) :
    Guards E I (m >>= f) :=
  hm.bind fun b => match b with
    | none => hnone
    | some b => hsome b

theorem Guards.ret (hm : Guards E I m) {g : α → β} : Guards E I (m >>= fun a => pure (g a)) :=
  hm.bind fun _ => keeps_pure _

theorem keeps_ite {p : Prop} [Decidable p] {m' : Call σ ε α} (hm : Guards E I m)
    (hm' : Guards E I m') : Guards E I (if p then m else m') := by
  split
  · exact hm
  · exact hm'

end SystemsProjects.CallOutcomes
