import Mathlib.Algebra.Order.Ring.Int
import Mathlib.Data.List.Nodup
import SystemsProjects.GuardedRuns
import SystemsProjects.TokenBucket

/-!
# Conservation of tokens and packets

Every step of the emulation drops a packet, lets one enter Q1, adds a token, lets a packet
leave Q2 or lets one depart, or it moves nothing at all. The packets behind Q1, in the order
in which they left it, followed by those in Q1, are therefore always the packets that have
arrived and were not dropped, in the order of their arrival. The tokens that have been
generated are those that were dropped, those in the bucket and those that the packets behind
Q1 have used. The last sentence needs that no packet makes the `int` of the bucket overflow,
which only a packet with a negative number of tokens can do.
-/
namespace SystemsProjects.TokenBucket

open GuardedRuns List Option

namespace Emulation

def core (s : Emulation) : Emulation :=
  { s with b := false, token := .asleep, serverAt := .top }

/-- The packets that have left Q2, in this order. -/
def behindQ2 (s : Emulation) : List Packet := s.server++s.serverBottle.toList

/-- The packets that have left Q1, in this order. -/
def behindQ1 (s : Emulation) : List Packet := s.behindQ2++s.q2

def tokensGenerated (s : Emulation) : ℕ :=
  s.out.count .tokenArrives+s.out.count .tokenDropped

def tokensDropped (s : Emulation) : ℕ := s.out.count .tokenDropped

end Emulation

def Line.leftQ1 : Line → Option Packet
  | .leavesQ1 p => some p
  | _ => none

def Line.leftQ2 : Line → Option Packet
  | .leavesQ2 p => some p
  | _ => none

def Line.departed : Line → Option Packet
  | .departs p => some p
  | _ => none

def arrived (par : Parameters) (k : ℕ) : List Packet := (range k).map (node par)

/-- The packets among the first `k` that are not dropped. -/
def accepted (par : Parameters) (k : ℕ) : List Packet :=
  (arrived par k).filter fun p => decide (p.P ≤ par.B)

variable {par : Parameters} {s t : Emulation} {a : Act} {p : Packet} {q : List Packet}

/-! ### What a step moves -/

def enterServer (s : Emulation) (p : Packet) (q : List Packet) : Emulation :=
  { s with serverBottle := some p, q2 := q }.print (.leavesQ2 p)

def leaveServer (s : Emulation) (p : Packet) : Emulation :=
  { s with serverBottle := none, server := s.server++[p] }.print (.departs p)

inductive Moves (par : Parameters) (s : Emulation) : Act → Emulation → Prop
  | drop {t : Emulation} : s.line < par.n → par.B < par.P s.line →
      t.core = (dropPacket s).core → Moves par s .arrive t
  | enter {t : Emulation} : s.line < par.n → par.P s.line ≤ par.B →
      t.core = (enterQ1 par s).leaveQ1.core → Moves par s .arrive t
  | token {t : Emulation} : t.core = (addToken par s).leaveQ1.core → Moves par s .tokenEnter t
  | serve {t : Emulation} {p : Packet} {q : List Packet} : s.q2 = p::q → s.serverBottle = none →
      t.core = (enterServer s p q).core → Moves par s .serve t
  | depart {t : Emulation} {p : Packet} : s.serverBottle = some p →
      t.core = (leaveServer s p).core → Moves par s .serve t
  | nothing {t : Emulation} {a : Act} : t.core = s.core → Moves par s a t

theorem core_broadcast : s.broadcast.core = s.core := by
  unfold Emulation.broadcast
  split <;> rfl

theorem core_endRound : (endRound par s).core = s.core := by
  unfold endRound
  split <;> rfl

theorem arrive_moves (h : arrive par s = some t) : Moves par s .arrive t := by
  unfold arrive at h
  split_ifs at h with hline hdrop hlock
  · rw [some.injEq] at h
    exact .drop hline hdrop (h ▸ rfl)
  · rw [some.injEq] at h
    exact .enter hline (Int.not_lt.mp hdrop) (h ▸ core_broadcast)

theorem token_moves : (tokenEnter par s = some t → Moves par s .tokenEnter t) ∧
    (tokenLeave par s = some t → Moves par s .tokenLeave t) ∧
    (tokenCancelled s = some t → Moves par s .tokenCancelled t) := by
  refine ⟨fun h => ?_, fun h => ?_, fun h => ?_⟩
  · unfold tokenEnter at h
    split_ifs at h
    rw [some.injEq] at h
    exact .token (h ▸ rfl)
  · unfold tokenLeave at h
    split_ifs at h <;> rw [some.injEq] at h <;> exact .nothing (h ▸ core_broadcast)
  · unfold tokenCancelled at h
    split_ifs at h
    split at h <;> cases h <;> exact .nothing rfl

theorem serve_moves (h : serve par s = some t) : Moves par s .serve t := by
  unfold serve at h
  split at h
  · split_ifs at h
    · split at h
      · rename_i hq2 hbottle
        rw [some.injEq] at h
        exact .serve hq2 hbottle (h ▸ rfl)
      · rw [some.injEq] at h
        exact .nothing (h ▸ core_endRound)
    · cases h
      exact .nothing rfl
  · split_ifs at h
    rw [map_eq_some_iff] at h
    obtain ⟨p, hp, rfl⟩ := h
    exact .depart hp core_endRound
  · cases h
    exact .nothing rfl
  · split_ifs at h <;> cases h <;> exact .nothing rfl
  all_goals cases h

theorem EmulationStep.moves (h : EmulationStep par s a t) : Moves par s a t := by
  unfold EmulationStep act at h
  split_ifs at h
  cases a with
  | arrive => exact arrive_moves h
  | tokenEnter => exact token_moves.1 h
  | tokenLeave => exact token_moves.2.1 h
  | tokenCancelled => exact token_moves.2.2 h
  | serve => exact serve_moves h

/-! ### Packets -/

/-- All packets that have arrived are in their places and in order, and so are the lines that
have been printed about them. -/
structure Placed (par : Parameters) (s : Emulation) : Prop where
  order : s.behindQ1++s.q1 = accepted par s.line
  arrive_eq : s.arriveNum = s.line
  drop_eq : s.packetDrop+((accepted par s.line).length : ℤ) = s.line
  leftQ1_eq : s.out.filterMap Line.leftQ1 = s.behindQ1
  leftQ2_eq : s.out.filterMap Line.leftQ2 = s.behindQ2
  departed_eq : s.out.filterMap Line.departed = s.server

theorem Placed.of_core (h : Placed par s) (heq : t.core = s.core) : Placed par t := by
  have ht : Placed par t.core :=
    heq ▸ ⟨h.order, h.arrive_eq, h.drop_eq, h.leftQ1_eq, h.leftQ2_eq, h.departed_eq⟩
  exact ⟨ht.order, ht.arrive_eq, ht.drop_eq, ht.leftQ1_eq, ht.leftQ2_eq, ht.departed_eq⟩

theorem filterMap_print (f : Line → Option Packet) (l : Line) :
    (s.print l).out.filterMap f = s.out.filterMap f++(f l).toList := by
  rw [Emulation.print, filterMap_append]
  cases h : f l <;> simp [h]

theorem accepted_succ (k : ℕ) : accepted par (k+1) =
    accepted par k++if par.P k ≤ par.B then [node par k] else [] := by
  unfold accepted arrived
  rw [range_succ, map_append, filter_append]
  simp [filter_cons, node]

theorem Placed.dropPacket (h : Placed par s) (hdrop : par.B < par.P s.line) :
    Placed par (dropPacket s) := by
  have hsame : accepted par (s.line+1) = accepted par s.line := by
    rw [accepted_succ, if_neg (Int.not_le.mpr hdrop), append_nil]
  refine ⟨h.order.trans hsame.symm, by simp [TokenBucket.dropPacket], ?_, h.leftQ1_eq,
    h.leftQ2_eq, h.departed_eq⟩
  have := h.drop_eq
  simp only [TokenBucket.dropPacket, hsame]
  push_cast
  omega

theorem Placed.enterQ1 (h : Placed par s) (haccept : par.P s.line ≤ par.B) :
    Placed par (enterQ1 par s) := by
  have hmore : accepted par (s.line+1) = accepted par s.line++[node par s.line] := by
    rw [accepted_succ, if_pos haccept]
  refine ⟨?_, by simp [TokenBucket.enterQ1], ?_, h.leftQ1_eq, h.leftQ2_eq, h.departed_eq⟩
  · change s.behindQ1++(s.q1++[node par s.line]) = accepted par (s.line+1)
    rw [hmore, ← h.order, append_assoc]
  · have := h.drop_eq
    simp only [TokenBucket.enterQ1, hmore, length_append, length_singleton]
    push_cast
    omega

theorem Placed.leaveQ1 (h : Placed par s) : Placed par s.leaveQ1 := by
  unfold Emulation.leaveQ1
  split
  · exact h
  · rename_i p q hq1
    split_ifs
    · refine ⟨?_, h.arrive_eq, h.drop_eq, ?_, ?_, ?_⟩
      · change s.behindQ2++(s.q2++[p])++q = _
        rw [← append_assoc, append_assoc _ [p], singleton_append, ← hq1]
        exact h.order
      · rw [filterMap_print]
        exact (congrArg (·++[p]) h.leftQ1_eq).trans (append_assoc _ _ _)
      · rw [filterMap_print]
        exact (append_nil _).trans h.leftQ2_eq
      · rw [filterMap_print]
        exact (append_nil _).trans h.departed_eq
    · exact h

theorem Placed.addToken (h : Placed par s) : Placed par (addToken par s) := by
  unfold TokenBucket.addToken
  split_ifs
  all_goals
    refine ⟨h.order, h.arrive_eq, h.drop_eq, ?_, ?_, ?_⟩
    · rw [filterMap_print]
      exact (append_nil _).trans h.leftQ1_eq
    · rw [filterMap_print]
      exact (append_nil _).trans h.leftQ2_eq
    · rw [filterMap_print]
      exact (append_nil _).trans h.departed_eq

theorem behindQ1_enterServer (hq2 : s.q2 = p::q) (hnone : s.serverBottle = none) :
    (enterServer s p q).behindQ1 = s.behindQ1 := by
  simp [Emulation.behindQ1, Emulation.behindQ2, enterServer, Emulation.print, hq2, hnone]

theorem behindQ1_leaveServer (hp : s.serverBottle = some p) :
    (leaveServer s p).behindQ1 = s.behindQ1 := by
  simp [Emulation.behindQ1, Emulation.behindQ2, leaveServer, Emulation.print, hp]

theorem Placed.enterServer (h : Placed par s) (hq2 : s.q2 = p::q) (hnone : s.serverBottle = none) :
    Placed par (enterServer s p q) := by
  have hQ2 : s.behindQ2 = s.server := by simp [Emulation.behindQ2, hnone]
  have hQ2' : (TokenBucket.enterServer s p q).behindQ2 = s.server++[p] := rfl
  have hQ1 := behindQ1_enterServer hq2 hnone
  refine ⟨by rw [hQ1]; exact h.order, h.arrive_eq, h.drop_eq, ?_, ?_, ?_⟩
  · rw [hQ1, TokenBucket.enterServer, filterMap_print]
    exact (append_nil _).trans h.leftQ1_eq
  · rw [hQ2', ← hQ2, ← h.leftQ2_eq, TokenBucket.enterServer, filterMap_print]
    rfl
  · rw [TokenBucket.enterServer, filterMap_print]
    exact (append_nil _).trans h.departed_eq

theorem Placed.leaveServer (h : Placed par s) (hp : s.serverBottle = some p) :
    Placed par (leaveServer s p) := by
  have hQ2 : (TokenBucket.leaveServer s p).behindQ2 = s.behindQ2 := by
    simp [TokenBucket.leaveServer, Emulation.print, Emulation.behindQ2, hp]
  have hQ1 := behindQ1_leaveServer hp
  refine ⟨by rw [hQ1]; exact h.order, h.arrive_eq, h.drop_eq, ?_, ?_, ?_⟩
  · rw [hQ1, TokenBucket.leaveServer, filterMap_print]
    exact (append_nil _).trans h.leftQ1_eq
  · rw [hQ2, TokenBucket.leaveServer, filterMap_print]
    exact (append_nil _).trans h.leftQ2_eq
  · rw [TokenBucket.leaveServer, filterMap_print]
    exact congrArg (·++[p]) h.departed_eq

theorem Placed.step (h : Placed par s) (hstep : EmulationStep par s a t) : Placed par t := by
  cases hstep.moves with
  | drop _ hdrop heq => exact (h.dropPacket hdrop).of_core heq
  | enter _ haccept heq => exact (h.enterQ1 haccept).leaveQ1.of_core heq
  | token heq => exact h.addToken.leaveQ1.of_core heq
  | serve hq2 hnone heq => exact (h.enterServer hq2 hnone).of_core heq
  | depart hp heq => exact (h.leaveServer hp).of_core heq
  | nothing heq => exact h.of_core heq

theorem placed_start : Placed par start := ⟨rfl, rfl, rfl, rfl, rfl, rfl⟩

theorem placed_run {good : Emulation → Act → Prop} {as : List Act}
    (hrun : Run (EmulationStep par) good start as t) : Placed par t :=
  hrun.invariant (fun _ _ _ _ hstep h => Placed.step h hstep) placed_start

/-! ### Tokens -/

/-- The bucket can hold the tokens that are left when the first packet leaves Q1. -/
def Fits (s : Emulation) : Prop :=
  match s.q1 with
  | [] => True
  | p::_ => s.tokenG-p.P < 2^31

instance (s : Emulation) : Decidable (Fits s) := by
  unfold Fits
  split <;> infer_instance

/-- The step does not make the bucket overflow. -/
def NoOverflow (par : Parameters) (s : Emulation) : Act → Prop
  | .arrive => s.line < par.n → par.P s.line ≤ par.B → Fits (enterQ1 par s)
  | .tokenEnter => Fits (addToken par s)
  | _ => True

instance (s : Emulation) (a : Act) : Decidable (NoOverflow par s a) := by
  cases a <;> unfold NoOverflow <;> infer_instance

structure Counted (s : Emulation) : Prop where
  tokens : (s.tokensGenerated : ℤ) =
    s.tokensDropped+s.tokenG+(s.behindQ1.map Packet.P).sum
  produce_eq : s.tokenProduce = int s.tokensGenerated
  drop_eq : s.tokenDrop = int s.tokensDropped

theorem Counted.of_core (h : Counted s) (heq : t.core = s.core) : Counted t := by
  have ht : Counted t.core := heq ▸ ⟨h.tokens, h.produce_eq, h.drop_eq⟩
  exact ⟨ht.tokens, ht.produce_eq, ht.drop_eq⟩

theorem int_succ (z : ℤ) : int (int z+1) = int (z+1) := Int.bmod_add_bmod

theorem int_of_fits {z : ℤ} (h0 : 0 ≤ z) (h : z < 2^31) : int z = z := by
  apply Int.bmod_eq_of_le_mul_two <;> omega

/-- The number of tokens that a line speaks of. -/
def Line.generated : Line → ℕ
  | .tokenArrives | .tokenDropped => 1
  | _ => 0

theorem tokensGenerated_print (l : Line) :
    (s.print l).tokensGenerated = s.tokensGenerated+l.generated := by
  cases l <;> simp [Emulation.tokensGenerated, Emulation.print, Line.generated] <;> omega

theorem tokensDropped_print (l : Line) :
    (s.print l).tokensDropped = s.tokensDropped+if l = .tokenDropped then 1 else 0 := by
  cases l <;> simp [Emulation.tokensDropped, Emulation.print]

theorem Counted.leaveQ1 (h : Counted s) (hfits : Fits s) : Counted s.leaveQ1 := by
  unfold Emulation.leaveQ1
  split
  · exact h
  · rename_i p q hq1
    rw [Fits, hq1] at hfits
    split_ifs with henough
    · refine ⟨?_, ?_, ?_⟩
      · rw [tokensGenerated_print, tokensDropped_print]
        change (s.tokensGenerated : ℤ) = (s.tokensDropped : ℤ)+int (s.tokenG-p.P)+
          ((s.behindQ2++(s.q2++[p])).map Packet.P).sum
        rw [h.tokens, int_of_fits (by omega) hfits, ← append_assoc]
        simp only [Emulation.behindQ1, map_append, sum_append, map_singleton, sum_singleton]
        omega
      · rw [tokensGenerated_print]
        exact h.produce_eq
      · rw [tokensDropped_print]
        exact h.drop_eq
    · exact h

theorem Counted.addToken (h : Counted s) : Counted (addToken par s) := by
  have htokens := h.tokens
  have hproduce : int (s.tokenProduce+1) = int ((s.tokensGenerated+1 : ℕ) : ℤ) := by
    rw [h.produce_eq, int_succ]
    rfl
  unfold TokenBucket.addToken
  split_ifs
  · refine ⟨?_, ?_, ?_⟩
    · rw [tokensGenerated_print, tokensDropped_print]
      change ((s.tokensGenerated+1 : ℕ) : ℤ) =
        (s.tokensDropped : ℤ)+(s.tokenG+1)+(s.behindQ1.map Packet.P).sum
      push_cast
      omega
    · rw [tokensGenerated_print]
      exact hproduce
    · rw [tokensDropped_print]
      exact h.drop_eq
  · refine ⟨?_, ?_, ?_⟩
    · rw [tokensGenerated_print, tokensDropped_print]
      change ((s.tokensGenerated+1 : ℕ) : ℤ) =
        ((s.tokensDropped+1 : ℕ) : ℤ)+s.tokenG+(s.behindQ1.map Packet.P).sum
      push_cast
      omega
    · rw [tokensGenerated_print]
      exact hproduce
    · rw [tokensDropped_print]
      change int (s.tokenDrop+1) = int ((s.tokensDropped+1 : ℕ) : ℤ)
      rw [h.drop_eq, int_succ]
      rfl

theorem Counted.of_same (h : Counted s) (hG : t.tokenG = s.tokenG)
    (hQ1 : t.behindQ1 = s.behindQ1) (hgenerated : t.tokensGenerated = s.tokensGenerated)
    (hdropped : t.tokensDropped = s.tokensDropped) (hproduce : t.tokenProduce = s.tokenProduce)
    (hdrop : t.tokenDrop = s.tokenDrop) : Counted t := by
  refine ⟨?_, ?_, ?_⟩
  · rw [hgenerated, hdropped, hG, hQ1]
    exact h.tokens
  · rw [hproduce, hgenerated]
    exact h.produce_eq
  · rw [hdrop, hdropped]
    exact h.drop_eq

theorem Counted.step (h : Counted s) (hfits : NoOverflow par s a)
    (hstep : EmulationStep par s a t) : Counted t := by
  cases hstep.moves with
  | drop _ _ heq =>
    exact (h.of_same (t := dropPacket s) rfl rfl rfl rfl rfl rfl).of_core heq
  | enter hline haccept heq =>
    have hin : Counted (enterQ1 par s) := h.of_same rfl rfl rfl rfl rfl rfl
    exact (hin.leaveQ1 (hfits hline haccept)).of_core heq
  | token heq => exact (h.addToken.leaveQ1 hfits).of_core heq
  | @serve _ p q hq2 hnone heq =>
    have hin : Counted (enterServer s p q) := by
      refine h.of_same (t := enterServer s p q) rfl (behindQ1_enterServer hq2 hnone) ?_ ?_ rfl rfl
      · exact tokensGenerated_print (.leavesQ2 p)
      · exact tokensDropped_print (.leavesQ2 p)
    exact hin.of_core heq
  | @depart _ p hp heq =>
    have hin : Counted (leaveServer s p) := by
      refine h.of_same (t := leaveServer s p) rfl (behindQ1_leaveServer hp) ?_ ?_ rfl rfl
      · exact tokensGenerated_print (.departs p)
      · exact tokensDropped_print (.departs p)
    exact hin.of_core heq
  | nothing heq => exact h.of_core heq

theorem counted_start : Counted start := ⟨rfl, by decide, by decide⟩

/-! ### The bounds of the bucket -/

/-- The tokens and the needs of packets that are never negative. -/
structure Bounded (par : Parameters) (s : Emulation) : Prop where
  nonneg : 0 ≤ s.tokenG
  lt : s.tokenG < 2^31
  needs : ∀ p ∈ s.q1, 0 ≤ p.P

theorem Bounded.of_core (h : Bounded par s) (heq : t.core = s.core) : Bounded par t := by
  have ht : Bounded par t.core := heq ▸ ⟨h.nonneg, h.lt, h.needs⟩
  exact ⟨ht.nonneg, ht.lt, ht.needs⟩

theorem Bounded.fits (h : Bounded par s) : Fits s := by
  have hlt := h.lt
  unfold Fits
  split
  · trivial
  · rename_i p q hq1
    have hp := h.needs p (by simp [hq1])
    omega

theorem Bounded.leaveQ1 (h : Bounded par s) : Bounded par s.leaveQ1 := by
  have hfits := h.fits
  have hneeds := h.needs
  unfold Emulation.leaveQ1
  split
  · exact h
  · rename_i p q hq1
    rw [Fits, hq1] at hfits
    rw [hq1] at hneeds
    split_ifs
    · have hint : int (s.tokenG-p.P) = s.tokenG-p.P := int_of_fits (by omega) hfits
      refine ⟨?_, ?_, fun p' hp' => hneeds p' (mem_cons_of_mem _ hp')⟩
      · change 0 ≤ int (s.tokenG-p.P)
        omega
      · change int (s.tokenG-p.P) < 2^31
        omega
    · exact h

theorem Bounded.enterQ1 (h : Bounded par s) (hP : ∀ k, 0 ≤ par.P k) :
    Bounded par (enterQ1 par s) := by
  refine ⟨h.nonneg, h.lt, fun p hp => ?_⟩
  rw [TokenBucket.enterQ1, mem_append, mem_singleton] at hp
  rcases hp with hp | rfl
  · exact h.needs p hp
  · exact hP s.line

theorem Bounded.addToken (h : Bounded par s) : Bounded par (addToken par s) := by
  have hnonneg := h.nonneg
  have hB := par.B_lt
  unfold TokenBucket.addToken
  split_ifs
  · refine ⟨?_, ?_, h.needs⟩
    · change 0 ≤ s.tokenG+1
      omega
    · change s.tokenG+1 < 2^31
      omega
  · exact ⟨h.nonneg, h.lt, h.needs⟩

theorem Bounded.step (h : Bounded par s) (hP : ∀ k, 0 ≤ par.P k)
    (hstep : EmulationStep par s a t) : Bounded par t := by
  cases hstep.moves with
  | drop _ _ heq => exact Bounded.of_core (s := dropPacket s) ⟨h.nonneg, h.lt, h.needs⟩ heq
  | enter _ _ heq => exact (h.enterQ1 hP).leaveQ1.of_core heq
  | token heq => exact h.addToken.leaveQ1.of_core heq
  | @serve _ p q _ _ heq =>
    exact Bounded.of_core (s := enterServer s p q) ⟨h.nonneg, h.lt, h.needs⟩ heq
  | @depart _ p _ heq =>
    exact Bounded.of_core (s := leaveServer s p) ⟨h.nonneg, h.lt, h.needs⟩ heq
  | nothing heq => exact h.of_core heq

/-- If no packet needs a negative number of tokens, the bucket overflows in no run. -/
theorem run_noOverflow (hP : ∀ k, 0 ≤ par.P k) {as : List Act}
    (hrun : Run (EmulationStep par) (fun _ _ => True) start as t) :
    Run (EmulationStep par) (NoOverflow par) start as t := by
  apply hrun.guarded (I := Bounded par) (fun _ _ _ _ hstep h => h.step hP hstep)
  · intro s a h _
    cases a with
    | arrive => exact fun _ _ => (h.enterQ1 hP).fits
    | tokenEnter => exact h.addToken.fits
    | _ => trivial
  · exact ⟨Int.le_refl 0, by decide, nofun⟩

/-! ### Both together -/

structure Conserved (par : Parameters) (s : Emulation) : Prop where
  tokens : (s.tokensGenerated : ℤ) =
    s.tokensDropped+s.tokenG+(s.behindQ1.map Packet.P).sum
  token_counts : s.tokenProduce = int s.tokensGenerated ∧ s.tokenDrop = int s.tokensDropped
  packets : s.arriveNum = s.packetDrop+s.q1.length+s.q2.length+s.serverBottle.toList.length+
    s.server.length
  complete : s.server++s.serverBottle.toList++s.q2++s.q1 = accepted par s.line
  nodup : (s.server++s.serverBottle.toList++s.q2++s.q1).Nodup
  leave_order : s.out.filterMap Line.leftQ1 <+: accepted par s.line ∧
    s.out.filterMap Line.leftQ2 <+: accepted par s.line ∧
    s.out.filterMap Line.departed <+: accepted par s.line

theorem nodup_accepted (k : ℕ) : (accepted par k).Nodup := by
  have hinj : Function.Injective (node par) := fun i j hij => congrArg Packet.num hij
  exact (nodup_range.map hinj).filter _

/-- In every run in which the bucket does not overflow. -/
theorem tokens_and_packets_conserved {as : List Act}
    (hrun : Run (EmulationStep par) (NoOverflow par) start as t) : Conserved par t := by
  have hplaced := placed_run hrun
  have hcounted : Counted t :=
    hrun.invariant (fun _ _ _ hfits hstep h => Counted.step h hfits hstep) counted_start
  have horder := hplaced.order
  have hlength := congrArg length horder
  simp only [Emulation.behindQ1, Emulation.behindQ2] at horder hlength
  refine ⟨hcounted.tokens, ⟨hcounted.produce_eq, hcounted.drop_eq⟩, ?_, horder, ?_, ?_, ?_, ?_⟩
  · have harrive := hplaced.arrive_eq
    have hdrop := hplaced.drop_eq
    rw [← hlength] at hdrop
    simp only [length_append] at hdrop
    push_cast at hdrop
    omega
  · rw [horder]
    exact nodup_accepted _
  · rw [hplaced.leftQ1_eq, ← hplaced.order]
    exact prefix_append _ _
  · rw [hplaced.leftQ2_eq, ← hplaced.order, Emulation.behindQ1, append_assoc]
    exact prefix_append _ _
  · rw [hplaced.departed_eq, ← hplaced.order, Emulation.behindQ1, Emulation.behindQ2]
    simp only [append_assoc]
    exact prefix_append _ _

/-- A bucket for three tokens and packets that need two, four and one of them. -/
def threePackets : Parameters := ⟨3, 3, fun k => [2, 4, 1].getD k 0, by decide⟩

/-- The first packet arrives, waits for two tokens and leaves Q1 with them. -/
theorem run_noOverflow_arrival : ∃ t, Run (EmulationStep threePackets) (NoOverflow threePackets)
    start [.arrive, .tokenEnter, .tokenLeave, .tokenEnter, .tokenLeave] t ∧ t.q1 = [] ∧
      t.behindQ1 = [⟨0, 2⟩] := by
  have hP : ∀ k, 0 ≤ threePackets.P k := fun
    | 0 | 1 | 2 => by decide
    | _+3 => le_rfl
  obtain ⟨t, hrun, ht⟩ : ∃ t, Run (EmulationStep threePackets) (fun _ _ => True) start
      [.arrive, .tokenEnter, .tokenLeave, .tokenEnter, .tokenLeave] t ∧ t.q1 = [] ∧
        t.behindQ1 = [⟨0, 2⟩] := exists_run (fun _ _ _ h => h) (by decide +kernel)
  exact ⟨t, run_noOverflow hP hrun, ht⟩

/-- The first packet is served, the second one is dropped and the third one waits in Q2. -/
theorem conserved_after_service : ∃ t, t.server = [⟨0, 2⟩] ∧ t.q2 = [⟨2, 1⟩] ∧
    Conserved threePackets t := by
  obtain ⟨t, hrun, ht⟩ : ∃ t, Run (EmulationStep threePackets) (NoOverflow threePackets) start
      [.tokenEnter, .tokenLeave, .arrive, .arrive, .tokenEnter, .tokenLeave, .serve, .arrive,
        .tokenEnter, .tokenLeave, .serve] t ∧ t.server = [⟨0, 2⟩] ∧ t.q2 = [⟨2, 1⟩] :=
    exists_run (fun _ _ _ h => h) (by decide +kernel)
  exact ⟨t, ht.1, ht.2, tokens_and_packets_conserved hrun⟩

/-- One packet that needs the least number of tokens. -/
def oneNegative : Parameters := ⟨10, 1, fun _ => -2^31, by decide⟩

/-- The packet leaves Q1 at once, and the bucket holds -2^31 tokens, although none has been
generated. -/
theorem overflow_breaks_conservation : ∃ t,
    Run (EmulationStep oneNegative) (fun _ _ => True) start [.arrive] t ∧
    t.tokensGenerated = 0 ∧ t.tokensDropped = 0 ∧ t.tokenG = -2^31 ∧
    t.behindQ1 = [⟨0, -2^31⟩] ∧ ¬Conserved oneNegative t := by
  refine ⟨_, .next trivial rfl (.done _), rfl, rfl, rfl, rfl, fun h => ?_⟩
  exact absurd h.tokens (by decide)

end SystemsProjects.TokenBucket
