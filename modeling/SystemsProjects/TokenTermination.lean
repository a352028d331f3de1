import SystemsProjects.FairRuns
import SystemsProjects.TokenConservation

/-!
# The end of the emulation

The server waits for the first packet in Q2 and never again after it has come. As soon as all
packets have been dropped or served, the only steps that are left are those of `Token` to the
end of its loop and those of the server to the end of `handler`, and one of the two threads can
always take the next one. A packet must have come, though, since nothing wakes the server to
look at the number of arrivals before; and `Token` must not be cancelled while it has the
mutex, since `handler` takes it.
-/
namespace SystemsProjects.TokenBucket

open GuardedRuns FairRuns Option List

inductive Thread where
  | arrive
  | token
  | server
  deriving DecidableEq, Repr

def Act.thread : Act → Thread
  | .arrive => .arrive
  | .tokenEnter | .tokenLeave | .tokenCancelled => .token
  | .serve => .server

/-- `Token` is not cancelled while it holds the mutex. -/
def SafelyCancelled (s : Emulation) (a : Act) : Prop :=
  a = .tokenCancelled → s.token ≠ .inside

instance (s : Emulation) (a : Act) : Decidable (SafelyCancelled s a) :=
  inferInstanceAs (Decidable (_ → _))

def AllDone (par : Parameters) (s : Emulation) : Prop :=
  s.packetDrop+s.server.length = par.n

variable {par : Parameters} {s t : Emulation} {a : Act}

structure Alert (par : Parameters) (s : Emulation) : Prop where
  line_le : s.line ≤ max par.n 0
  serving_iff : s.serverBottle.isSome = true ↔ s.serverAt = .serving
  awake : s.behindQ2 ≠ [] → s.b = true ∧ s.serverAt ≠ .waiting
  not_draining : s.serverAt ≠ .draining
  not_inside : s.token ≠ .cancelledInside

/-- What the steps of `Arrive` and `Token` leave to the server. -/
structure Undisturbed (s t : Emulation) : Prop where
  server_eq : t.server = s.server
  bottle_eq : t.serverBottle = s.serverBottle
  b_of : s.b = true → t.b = true
  at_eq : t.serverAt = s.serverAt ∨ (s.serverAt = .waiting ∧ t.serverAt = .top)

theorem Undisturbed.trans {u : Emulation} (h : Undisturbed s t) (h' : Undisturbed t u) :
    Undisturbed s u := by
  refine ⟨h'.server_eq.trans h.server_eq, h'.bottle_eq.trans h.bottle_eq,
    fun hb => h'.b_of (h.b_of hb), ?_⟩
  rcases h'.at_eq with heq | ⟨hw, htop⟩
  · rw [heq]
    exact h.at_eq
  · rcases h.at_eq with heq | ⟨-, htop'⟩
    · exact Or.inr ⟨heq ▸ hw, htop⟩
    · rw [htop'] at hw
      cases hw

theorem undisturbed_leaveQ1 : Undisturbed s s.leaveQ1 ∧ s.leaveQ1.line = s.line ∧
    s.leaveQ1.token = s.token := by
  unfold Emulation.leaveQ1
  split
  · exact ⟨⟨rfl, rfl, id, Or.inl rfl⟩, rfl, rfl⟩
  · split_ifs
    · exact ⟨⟨rfl, rfl, fun _ => rfl, Or.inl rfl⟩, rfl, rfl⟩
    · exact ⟨⟨rfl, rfl, id, Or.inl rfl⟩, rfl, rfl⟩

theorem undisturbed_broadcast : Undisturbed s s.broadcast ∧ s.broadcast.line = s.line ∧
    s.broadcast.token = s.token := by
  unfold Emulation.broadcast
  split_ifs with hw
  · exact ⟨⟨rfl, rfl, id, Or.inr ⟨hw, rfl⟩⟩, rfl, rfl⟩
  · exact ⟨⟨rfl, rfl, id, Or.inl rfl⟩, rfl, rfl⟩

theorem Alert.undisturbed (h : Alert par s) (hu : Undisturbed s t)
    (hline : t.line ≤ max par.n 0) (htoken : t.token ≠ .cancelledInside) : Alert par t := by
  have hQ2 : t.behindQ2 = s.behindQ2 := by
    unfold Emulation.behindQ2
    rw [hu.server_eq, hu.bottle_eq]
  have hat := hu.at_eq
  refine ⟨hline, ?_, ?_, ?_, htoken⟩
  · rw [hu.bottle_eq, h.serving_iff]
    rcases hat with heq | ⟨hw, htop⟩
    · rw [heq]
    · rw [hw, htop]
      decide
  · intro hne
    rw [hQ2] at hne
    refine ⟨hu.b_of (h.awake hne).1, ?_⟩
    rcases hat with heq | ⟨-, htop⟩
    · rw [heq]
      exact (h.awake hne).2
    · rw [htop]
      decide
  · rcases hat with heq | ⟨-, htop⟩
    · rw [heq]
      exact h.not_draining
    · rw [htop]
      decide

theorem Alert.arrive (h : Alert par s) (hstep : arrive par s = some t) : Alert par t := by
  unfold TokenBucket.arrive at hstep
  split_ifs at hstep with hline
  · rw [some.injEq] at hstep
    subst hstep
    refine h.undisturbed ⟨rfl, rfl, id, Or.inl rfl⟩ ?_ h.not_inside
    simp only [dropPacket]
    omega
  · rw [some.injEq] at hstep
    subst hstep
    have hleave := @undisturbed_leaveQ1 (enterQ1 par s)
    have hcast := @undisturbed_broadcast (enterQ1 par s).leaveQ1
    have henter : Undisturbed s (enterQ1 par s) := ⟨rfl, rfl, id, Or.inl rfl⟩
    refine h.undisturbed ((henter.trans hleave.1).trans hcast.1) ?_ ?_
    · rw [hcast.2.1, hleave.2.1]
      simp only [enterQ1]
      omega
    · rw [hcast.2.2, hleave.2.2]
      exact h.not_inside

theorem undisturbed_addToken : Undisturbed s (addToken par s) ∧
    (addToken par s).line = s.line := by
  unfold addToken
  split_ifs <;> exact ⟨⟨rfl, rfl, id, Or.inl rfl⟩, rfl⟩

theorem Alert.tokenEnter (h : Alert par s) (hstep : tokenEnter par s = some t) : Alert par t := by
  unfold TokenBucket.tokenEnter at hstep
  split_ifs at hstep
  rw [some.injEq] at hstep
  subst hstep
  have hleave := @undisturbed_leaveQ1 (addToken par s)
  have hadd := @undisturbed_addToken par s
  have hall := hadd.1.trans hleave.1
  refine h.undisturbed ⟨hall.server_eq, hall.bottle_eq, hall.b_of, hall.at_eq⟩ ?_ nofun
  have hline : (addToken par s).leaveQ1.line = s.line := hleave.2.1.trans hadd.2
  exact hline ▸ h.line_le

theorem Alert.tokenLeave (h : Alert par s) (hstep : tokenLeave par s = some t) : Alert par t := by
  have hset : ∀ x, Undisturbed s { s with token := x } := fun x => ⟨rfl, rfl, id, Or.inl rfl⟩
  unfold TokenBucket.tokenLeave at hstep
  split_ifs at hstep
  all_goals
    rw [some.injEq] at hstep
    subst hstep
    refine h.undisturbed ((hset _).trans undisturbed_broadcast.1) ?_ ?_
    · rw [undisturbed_broadcast.2.1]
      exact h.line_le
    · rw [undisturbed_broadcast.2.2]
      nofun

theorem Alert.tokenCancelled (h : Alert par s) (hsafe : s.token ≠ .inside)
    (hstep : tokenCancelled s = some t) : Alert par t := by
  unfold TokenBucket.tokenCancelled at hstep
  split_ifs at hstep
  split at hstep
  · cases hstep
    exact h.undisturbed ⟨rfl, rfl, id, Or.inl rfl⟩ h.line_le nofun
  · cases hstep
    exact h.undisturbed ⟨rfl, rfl, id, Or.inl rfl⟩ h.line_le nofun
  · contradiction
  · cases hstep
  · cases hstep

theorem Alert.endRound (hline : s.line ≤ max par.n 0) (hnone : s.serverBottle = none)
    (hb : s.b = true) (htoken : s.token ≠ .cancelledInside) : Alert par (endRound par s) := by
  unfold TokenBucket.endRound
  split_ifs
  all_goals exact ⟨hline, by simp [hnone], fun _ => ⟨hb, nofun⟩, nofun, htoken⟩

theorem Alert.serve (h : Alert par s) (hstep : serve par s = some t) : Alert par t := by
  have hserving := h.serving_iff
  unfold TokenBucket.serve at hstep
  split at hstep
  · rename_i hat
    have hnone : s.serverBottle = none := by simpa [hat] using hserving
    split_ifs at hstep with hlock hb
    · split at hstep
      · cases hstep
        refine ⟨h.line_le, iff_of_true rfl rfl, fun _ => ⟨hb, ?_⟩, ?_, h.not_inside⟩ <;> rintro ⟨⟩
      · cases hstep
        exact endRound h.line_le hnone hb h.not_inside
    · cases hstep
      refine ⟨h.line_le, by simp [hnone], fun hne => ?_, by rintro ⟨⟩, h.not_inside⟩
      exact absurd (h.awake hne).1 hb
  · rename_i hat
    split_ifs at hstep
    rw [map_eq_some_iff] at hstep
    obtain ⟨p, hp, rfl⟩ := hstep
    have hne : s.behindQ2 ≠ [] := by simp [Emulation.behindQ2, hp]
    exact endRound h.line_le rfl (h.awake hne).1 h.not_inside
  · rename_i hat
    cases hstep
    have hnone : s.serverBottle = none := by simpa [hat] using hserving
    refine ⟨h.line_le, by simp [hnone], fun hne => ⟨(h.awake hne).1, ?_⟩, ?_, h.not_inside⟩ <;>
      rintro ⟨⟩
  · rename_i hat
    have hnone : s.serverBottle = none := by simpa [hat] using hserving
    split_ifs at hstep with hlock hbottle
    · rw [hnone] at hbottle
      cases hbottle
    · cases hstep
      refine ⟨h.line_le, by simp [hnone], fun hne => ⟨(h.awake hne).1, ?_⟩, ?_, h.not_inside⟩ <;>
        rintro ⟨⟩
  all_goals cases hstep

theorem Alert.step (h : Alert par s) (hsafe : SafelyCancelled s a)
    (hstep : EmulationStep par s a t) : Alert par t := by
  unfold EmulationStep act at hstep
  split_ifs at hstep
  cases a with
  | arrive => exact h.arrive hstep
  | tokenEnter => exact h.tokenEnter hstep
  | tokenLeave => exact h.tokenLeave hstep
  | tokenCancelled => exact h.tokenCancelled (hsafe rfl) hstep
  | serve => exact h.serve hstep

theorem alert_start : Alert par start :=
  ⟨Int.le_max_right .., by decide, fun h => absurd rfl h, nofun, nofun⟩

/-! ### After the last packet -/

/-- Nothing is left to do but for `Token` and the server to come to their ends. -/
structure Finished (par : Parameters) (s : Emulation) : Prop where
  alert : Alert par s
  line_eq : s.line = par.n
  arrive_eq : s.arriveNum = par.n
  q1_eq : s.q1 = []
  q2_eq : s.q2 = []
  bottle_eq : s.serverBottle = none
  server_ne : s.server ≠ []

theorem Placed.finished (h : Placed par s) (halert : Alert par s)
    (hsome : ∃ k : ℕ, k < par.n ∧ par.P k ≤ par.B) (hdone : AllDone par s) : Finished par s := by
  obtain ⟨k, hk, hP⟩ := hsome
  have horder := congrArg length h.order
  simp only [Emulation.behindQ1, Emulation.behindQ2, length_append] at horder
  have hdrop := h.drop_eq
  have hline := halert.line_le
  have harrive := h.arrive_eq
  unfold AllDone at hdone
  have hempty : s.serverBottle.toList.length = 0 ∧ s.q2.length = 0 ∧ s.q1.length = 0 ∧
      (s.line : ℤ) = par.n := by
    omega
  have hmem : node par k ∈ accepted par s.line := by
    unfold accepted arrived
    rw [List.mem_filter, List.mem_map]
    exact ⟨⟨k, mem_range.mpr (by omega), rfl⟩, decide_eq_true hP⟩
  have hpos := length_pos_of_mem hmem
  refine ⟨halert, hempty.2.2.2, by omega, length_eq_zero_iff.mp hempty.2.2.1,
    length_eq_zero_iff.mp hempty.2.1, ?_, ?_⟩
  · simpa using hempty.1
  · intro hnil
    rw [hnil, length_nil] at horder
    omega

theorem Finished.awake (h : Finished par s) : s.b = true ∧ s.serverAt ≠ .waiting :=
  h.alert.awake (by simpa [Emulation.behindQ2, h.bottle_eq] using h.server_ne)

def TokenAt.rank : TokenAt → ℕ
  | .asleep => 3
  | .inside => 2
  | .left => 1
  | .cancelled | .cancelledInside => 0

def ServerAt.rank : ServerAt → ℕ
  | .top => 3
  | .handler => 2
  | .locking => 1
  | _ => 0

def rank (s : Emulation) : ℕ := s.token.rank+s.serverAt.rank

theorem Finished.of_token (h : Finished par s) (ht : Alert par t) (hcore : t.line = s.line ∧
    t.arriveNum = s.arriveNum ∧ t.q1 = s.q1 ∧ t.q2 = s.q2 ∧ t.serverBottle = s.serverBottle ∧
    t.server = s.server) : Finished par t := by
  obtain ⟨hline, harrive, hq1, hq2, hbottle, hserver⟩ := hcore
  exact ⟨ht, by rw [hline]; exact h.line_eq, harrive.trans h.arrive_eq, hq1.trans h.q1_eq,
    hq2.trans h.q2_eq, hbottle.trans h.bottle_eq, hserver ▸ h.server_ne⟩

theorem leaveQ1_of_nil (h : s.q1 = []) : s.leaveQ1 = s := by
  unfold Emulation.leaveQ1
  rw [h]

theorem addToken_fields : (addToken par s).line = s.line ∧
    (addToken par s).arriveNum = s.arriveNum ∧ (addToken par s).q1 = s.q1 ∧
    (addToken par s).q2 = s.q2 ∧ (addToken par s).serverBottle = s.serverBottle ∧
    (addToken par s).server = s.server ∧ (addToken par s).serverAt = s.serverAt := by
  unfold addToken
  split_ifs <;> exact ⟨rfl, rfl, rfl, rfl, rfl, rfl, rfl⟩

theorem broadcast_of_awake (h : s.serverAt ≠ .waiting) : s.broadcast = s := if_neg h

section

variable (h : Finished par s)
include h

theorem Finished.tokenEnter (hstep : tokenEnter par s = some t) :
    Finished par t ∧ rank t < rank s := by
  have ht := h.alert.tokenEnter hstep
  obtain ⟨hline, harrive, hq1, hq2, hbottle, hserver, hat⟩ := @addToken_fields par s
  unfold TokenBucket.tokenEnter at hstep
  split_ifs at hstep with hasleep
  rw [some.injEq, leaveQ1_of_nil (hq1.trans h.q1_eq)] at hstep
  subst hstep
  refine ⟨h.of_token ht ⟨hline, harrive, hq1, hq2, hbottle, hserver⟩, ?_⟩
  simp only [rank, hasleep, hat, TokenAt.rank]
  omega

theorem Finished.tokenLeave (hstep : tokenLeave par s = some t) :
    Finished par t ∧ rank t < rank s := by
  have ht := h.alert.tokenLeave hstep
  unfold TokenBucket.tokenLeave at hstep
  split_ifs at hstep with hinside hend
  · rw [some.injEq, broadcast_of_awake (by exact h.awake.2)] at hstep
    subst hstep
    refine ⟨h.of_token ht ⟨rfl, rfl, rfl, rfl, rfl, rfl⟩, ?_⟩
    simp only [rank, hinside, TokenAt.rank]
    omega
  · exact absurd ⟨h.q1_eq, h.arrive_eq⟩ hend

theorem Finished.tokenCancelled (hsafe : s.token ≠ .inside) (hstep : tokenCancelled s = some t) :
    Finished par t ∧ rank t < rank s := by
  have ht := h.alert.tokenCancelled hsafe hstep
  unfold TokenBucket.tokenCancelled at hstep
  split_ifs at hstep
  cases htoken : s.token <;> rw [htoken] at hstep <;> cases hstep
  all_goals
    refine ⟨h.of_token ht ⟨rfl, rfl, rfl, rfl, rfl, rfl⟩, ?_⟩
    simp only [rank, htoken, TokenAt.rank]
    omega

theorem Finished.serve_eq (hlock : s.Unlocked) (hat : s.serverAt = .top) :
    serve par s = some { s with serverAt := .handler } := by
  have hround : TokenBucket.endRound par s = { s with serverAt := .handler } :=
    if_pos ⟨h.q1_eq, h.q2_eq, h.arrive_eq⟩
  rw [← hround]
  unfold TokenBucket.serve
  rw [hat, if_pos hlock, if_pos h.awake.1]
  simp only [h.q2_eq]

theorem Finished.serve (hstep : serve par s = some t) : Finished par t ∧ rank t < rank s := by
  have ht := h.alert.serve hstep
  cases hat : s.serverAt with
  | top =>
    have hlock : s.Unlocked := by
      by_contra hlock
      simp [TokenBucket.serve, hat, hlock] at hstep
    rw [h.serve_eq hlock hat] at hstep
    cases hstep
    refine ⟨h.of_token ht ⟨rfl, rfl, rfl, rfl, rfl, rfl⟩, ?_⟩
    simp only [rank, hat, ServerAt.rank]
    omega
  | handler =>
    rw [TokenBucket.serve, hat] at hstep
    cases hstep
    refine ⟨h.of_token ht ⟨rfl, rfl, rfl, rfl, rfl, rfl⟩, ?_⟩
    simp only [rank, hat, ServerAt.rank]
    omega
  | locking =>
    rw [TokenBucket.serve, hat] at hstep
    dsimp only at hstep
    split_ifs at hstep with hlock hbottle
    · rw [h.bottle_eq] at hbottle
      cases hbottle
    · cases hstep
      refine ⟨h.of_token ht ⟨rfl, rfl, rfl, rfl, rfl, rfl⟩, ?_⟩
      simp only [rank, hat, ServerAt.rank]
      omega
  | serving =>
    have hsome := h.alert.serving_iff.mpr hat
    rw [h.bottle_eq] at hsome
    cases hsome
  | waiting => exact absurd hat h.awake.2
  | draining => exact absurd hat h.alert.not_draining
  | ended =>
    rw [TokenBucket.serve, hat] at hstep
    cases hstep

theorem Finished.step (hsafe : SafelyCancelled s a) (hstep : EmulationStep par s a t) :
    Finished par t ∧ rank t < rank s := by
  unfold EmulationStep act at hstep
  split_ifs at hstep
  cases a with
  | arrive =>
    have hline := h.line_eq
    rw [TokenBucket.arrive, if_neg (by omega)] at hstep
    cases hstep
  | tokenEnter => exact h.tokenEnter hstep
  | tokenLeave => exact h.tokenLeave hstep
  | tokenCancelled => exact h.tokenCancelled (hsafe rfl) hstep
  | serve => exact h.serve hstep

/-- As long as the emulation has not ended, `Token` or the server can go on. -/
theorem Finished.enabled (hend : s.serverAt ≠ .ended) :
    ∃ x, Enabled (EmulationStep par) Act.thread x s := by
  by_cases hinside : s.token = .inside
  · have hleave : ∃ t, TokenBucket.tokenLeave par s = some t := ⟨_, if_pos hinside⟩
    obtain ⟨t, ht⟩ := hleave
    refine ⟨.token, .tokenLeave, t, rfl, ?_⟩
    unfold EmulationStep act
    rw [if_neg hend]
    exact ht
  · have hlock : s.Unlocked := ⟨hinside, h.alert.not_inside⟩
    have hserve : ∃ t, TokenBucket.serve par s = some t := by
      cases hat : s.serverAt with
      | top => exact ⟨_, h.serve_eq hlock hat⟩
      | handler => exact ⟨{ s with serverAt := .locking }, by rw [TokenBucket.serve, hat]⟩
      | locking => exact ⟨_, by rw [TokenBucket.serve, hat]; exact if_pos hlock⟩
      | serving =>
        have hsome := h.alert.serving_iff.mpr hat
        rw [h.bottle_eq] at hsome
        cases hsome
      | waiting => exact absurd hat h.awake.2
      | draining => exact absurd hat h.alert.not_draining
      | ended => exact absurd hat hend
    obtain ⟨t, ht⟩ := hserve
    refine ⟨.server, .serve, t, rfl, ?_⟩
    unfold EmulationStep act
    rw [if_neg hend]
    exact ht

end

/-- In every fair execution in which some packet is not dropped and `Token` is not cancelled
while it has the mutex, the server does not wait once all packets have been dropped or served,
and it comes to its `exit`. -/
theorem emulation_ends {x : Execution (EmulationStep par) SafelyCancelled}
    (hstart : x.states 0 = start) (hfair : WeaklyFair Act.thread x)
    (hsome : ∃ k : ℕ, k < par.n ∧ par.P k ≤ par.B) {k : ℕ} (hdone : AllDone par (x.states k)) :
    (x.states k).serverAt ≠ .waiting ∧ ∃ j, k ≤ j ∧ (x.states j).serverAt = .ended := by
  obtain ⟨es, hrun⟩ := x.run 0 k
  rw [hstart, Nat.zero_add] at hrun
  have halert : Alert par (x.states k) :=
    hrun.invariant (fun _ _ _ hsafe hstep h => Alert.step h hsafe hstep) alert_start
  have hfinished := (placed_run hrun).finished halert hsome hdone
  refine ⟨hfinished.awake.2, ?_⟩
  exact hfair.eventually (P := Finished par) rank
    (fun _ _ _ h _ hsafe hstep => Or.inr (h.step hsafe hstep)) (fun _ h hend => h.enabled hend)
    hfinished

def onePacket : Parameters := ⟨10, 1, fun _ => 1, oneNegative.B_lt⟩

/-- One packet that needs more tokens than the bucket can hold. -/
def oneTooLarge : Parameters := ⟨2, 1, fun _ => 3, by decide⟩

instance (par : Parameters) (s : Emulation) : Decidable (AllDone par s) :=
  inferInstanceAs (Decidable (_ = _))

instance {par : Parameters} {s : Emulation} : Decidable (∀ a, act par s a = none) :=
  decidable_of_iff (∀ a ∈ [Act.arrive, .tokenEnter, .tokenLeave, .tokenCancelled, .serve],
    act par s a = none) ⟨fun h a => h a (by cases a <;> simp), fun h a _ => h a⟩

/-- The server serves the packet and ends the emulation. -/
theorem ends_after_service : ∃ x : Execution (EmulationStep onePacket) SafelyCancelled,
    x.states 0 = start ∧ WeaklyFair Act.thread x ∧
    ∃ k, AllDone onePacket (x.states k) ∧ ∃ j, k ≤ j ∧ (x.states j).serverAt = .ended := by
  obtain ⟨u, hrun, hdone, hnone⟩ : ∃ u, Run (EmulationStep onePacket) SafelyCancelled start
      [.arrive, .serve, .tokenEnter, .tokenLeave, .serve, .serve, .serve, .serve] u ∧
      AllDone onePacket u ∧ ∀ a, act onePacket u a = none :=
    exists_run (fun _ _ _ h => h) (by decide +kernel)
  obtain ⟨x, hfair, hx0, hxu⟩ := exists_fair_of_stuck Act.thread hrun
    fun a _ ha => nomatch (hnone a).symm.trans ha
  have hdone' : AllDone onePacket (x.states 8) := (hxu 8 (Nat.le_refl 8)).symm ▸ hdone
  have hends := emulation_ends hx0 hfair ⟨0, by decide, by decide⟩ hdone'
  exact ⟨x, hx0, hfair, 8, hdone', hends.2⟩

/-- If all packets are dropped, the server waits for ever. And if `Token` is cancelled while
it holds the mutex, the server waits for the mutex for ever. -/
theorem emulation_hangs : (∃ x : Execution (EmulationStep oneTooLarge) SafelyCancelled,
      x.states 0 = start ∧ WeaklyFair Act.thread x ∧
      ∀ k, 4 ≤ k → AllDone oneTooLarge (x.states k) ∧ (x.states k).serverAt = .waiting) ∧
    ∃ x : Execution (EmulationStep onePacket) (fun _ _ => True),
      x.states 0 = start ∧ WeaklyFair Act.thread x ∧
      ∀ k, 9 ≤ k → AllDone onePacket (x.states k) ∧ (x.states k).serverAt = .locking := by
  constructor
  · obtain ⟨u, hrun, hdone, hwaiting, hnone⟩ : ∃ u, Run (EmulationStep oneTooLarge)
        SafelyCancelled start [.arrive, .tokenEnter, .tokenLeave, .serve] u ∧
        AllDone oneTooLarge u ∧ u.serverAt = .waiting ∧ ∀ a, act oneTooLarge u a = none :=
      exists_run (fun _ _ _ h => h) (by decide +kernel)
    obtain ⟨x, hfair, hx0, hxu⟩ := exists_fair_of_stuck Act.thread hrun
      fun a _ ha => nomatch (hnone a).symm.trans ha
    exact ⟨x, hx0, hfair, fun k hk => (hxu k hk).symm ▸ ⟨hdone, hwaiting⟩⟩
  · obtain ⟨u, hrun, hdone, hlocking, hnone⟩ : ∃ u, Run (EmulationStep onePacket)
        (fun _ _ => True) start [.tokenEnter, .tokenLeave, .arrive, .serve, .serve, .tokenEnter,
          .serve, .tokenCancelled] u ∧ AllDone onePacket u ∧ u.serverAt = .locking ∧
        ∀ a, act onePacket u a = none :=
      exists_run (fun _ _ _ h => h) (by decide +kernel)
    obtain ⟨x, hfair, hx0, hxu⟩ := exists_fair_of_stuck Act.thread hrun
      fun a _ ha => nomatch (hnone a).symm.trans ha
    exact ⟨x, hx0, hfair, fun k hk => (hxu k (by simp; omega)).symm ▸ ⟨hdone, hlocking⟩⟩

end SystemsProjects.TokenBucket
