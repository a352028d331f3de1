import Mathlib.Data.List.Nodup
import Mathlib.Data.Finset.Card
import Mathlib.Order.Interval.Finset.Nat
import SystemsProjects.GuardedRuns
import SystemsProjects.OnionNetwork

/-!
# The paths of circuits and routers that fail

In stage 9 a router reports that the next one on a circuit does not answer, and the proxy keeps
that one in a table. A path is drawn hop by hop: a draw is thrown away if it is the first router of
the path before, if it is on the path already or if it is found in the table. Only as many entries
of the table are looked at as a path has hops, so that paths avoid the deleted routers as long as
there have not been more reports. If enough other routers are left, draws that are fair to each
router end the loop.

A new path can be drawn at any time here, whatever the packets and the flows are that lead to it.
-/
namespace SystemsProjects.OnionNetwork

open Function GuardedRuns List

/-- The proxy in stage 9, with the routers that have been reported as a record of its own. -/
structure Failing where
  proxy : Proxy
  rinfoIndex : ℕ → ℕ
  deletRouter : ℕ → ℕ
  delNum : ℕ
  deleted : List ℕ

/-- The size of `delet_router`. -/
def deletRouterSize : ℕ := 36

def isDupHop (f : Failing) (path : ℕ → ℕ) (hop : ℕ) : Bool :=
  (range f.proxy.numHops).any fun i => decide (hop = path i ∨ f.deletRouter i = hop)

/-- The loop of `generate_random_path` from hop `i` on, for the values that `rand` gives. -/
def drawHops (f : Failing) : (ℕ → ℕ) → ℕ → List ℕ → Option (ℕ → ℕ)
  | path, i, draws =>
    if i < f.proxy.numHops then
      match draws with
      | [] => none
      | draw::draws =>
        let hop := draw%f.proxy.numNodes+1
        if f.proxy.random1 = hop ∨ isDupHop f path hop then drawHops f path i draws
        else drawHops f (update path i hop) (i+1) draws
    else some path

/-- `generate_random_path` for the next circuit. -/
def generateRandomPath (f : Failing) (draws : List ℕ) : Option Failing :=
  let p := f.proxy
  let c := p.numberPath
  if c < flowSize ∧ p.numHops ≤ maxRouterCount ∧ 0 < p.numNodes then
    (drawHops f (p.paths.path c) 0 draws).map fun hops =>
      { f with proxy := { p with
        paths := { p.paths with path := update p.paths.path c hops }
        numberPath := c+1
        random1 := hops 0 } }
  else none

/-- The part of `handle_relay_msg` for a report, with the port of the router that failed. -/
def reportFailure (f : Failing) (nextName : ℕ) : Option Failing :=
  match (range maxRouterCount).find? fun j => decide (f.proxy.rinfoPort j = nextName) with
  | none => some { f with delNum := f.delNum+1 }
  | some j =>
    if f.delNum < deletRouterSize then
      some { f with
        deletRouter := update f.deletRouter f.delNum (f.rinfoIndex j)
        delNum := f.delNum+1
        deleted := f.rinfoIndex j::f.deleted }
    else none

inductive PathEvent where
  | circuit (draws : List ℕ)
  | report (nextName : ℕ)
  deriving DecidableEq, Repr

def pathNext (f : Failing) : PathEvent → Option Failing
  | .circuit draws => generateRandomPath f draws
  | .report nextName => reportFailure f nextName

def PathStep (f : Failing) (e : PathEvent) (g : Failing) : Prop := pathNext f e = some g

/-! ### Drawing -/

section Drawing

variable {f g : Failing} {path hops : ℕ → ℕ} {i hop : ℕ} {draws : List ℕ}

/-- The hops that have been drawn so far. -/
def Chosen (f : Failing) (path : ℕ → ℕ) (i : ℕ) : Prop :=
  ∀ k < i, (1 ≤ path k ∧ path k ≤ f.proxy.numNodes ∧ path k ≠ f.proxy.random1) ∧
    (∀ l < k, path l ≠ path k) ∧ ∀ j < f.proxy.numHops, f.deletRouter j ≠ path k

theorem Chosen.add (h : Chosen f path i) (hi : i < f.proxy.numHops)
    (hrange : 1 ≤ hop ∧ hop ≤ f.proxy.numNodes) (hfirst : f.proxy.random1 ≠ hop)
    (hdup : isDupHop f path hop = false) : Chosen f (update path i hop) (i+1) := by
  have hnew : ∀ j < f.proxy.numHops, path j ≠ hop ∧ f.deletRouter j ≠ hop := by
    intro j hj
    have hany := any_eq_false.mp hdup j (mem_range.mpr hj)
    rw [decide_eq_true_iff, not_or] at hany
    exact ⟨fun heq => hany.1 heq.symm, hany.2⟩
  have hold : ∀ k < i, update path i hop k = path k := fun k hk => update_of_ne (by omega) _ _
  intro k hk
  rcases Nat.lt_succ_iff_lt_or_eq.mp hk with hk | rfl
  · rw [hold k hk]
    obtain ⟨hk1, hdistinct, havoids⟩ := h k hk
    exact ⟨hk1, fun l hl => by rw [hold l (by omega)]; exact hdistinct l hl, havoids⟩
  · rw [update_self]
    exact ⟨⟨hrange.1, hrange.2, hfirst.symm⟩,
      fun l hl => by rw [hold l hl]; exact (hnew l (by omega)).1,
      fun j hj => (hnew j hj).2⟩

theorem drawHops_chosen (hn : 0 < f.proxy.numNodes) (h : Chosen f path i)
    (hi : i ≤ f.proxy.numHops) (hd : drawHops f path i draws = some hops) :
    Chosen f hops f.proxy.numHops := by
  induction draws generalizing path i with
  | nil =>
    rw [drawHops] at hd
    split_ifs at hd with hlt
    obtain rfl := Option.some.inj hd
    rwa [← Nat.le_antisymm hi (Nat.le_of_not_lt hlt)]
  | cons draw draws ih =>
    rw [drawHops] at hd
    dsimp only at hd
    split_ifs at hd with hlt hskip
    · exact ih h hi hd
    · rw [not_or, Bool.not_eq_true] at hskip
      have := Nat.mod_lt draw hn
      exact ih (h.add hlt (by omega) hskip.1 hskip.2) hlt hd
    · obtain rfl := Option.some.inj hd
      rwa [← Nat.le_antisymm hi (Nat.le_of_not_lt hlt)]

/-- The loop draws one of the paths that the proxy without failures can draw. -/
theorem Chosen.drawn (h : Chosen f hops f.proxy.numHops) : drawn f.proxy hops = true := by
  unfold OnionNetwork.drawn
  rw [Bool.and_eq_true, all_eq_true, decide_eq_true_iff]
  constructor
  · intro hop hmem
    obtain ⟨k, hk, rfl⟩ := mem_map.mp hmem
    exact decide_eq_true (h k (mem_range.mp hk)).1
  · refine List.Nodup.map_on (fun k hk l hl heq => ?_) nodup_range
    rw [mem_range] at hk hl
    rcases Nat.lt_trichotomy k l with hlt | hkl | hlt
    · exact absurd heq ((h l hl).2.1 k hlt)
    · exact hkl
    · exact absurd heq.symm ((h k hk).2.1 l hlt)

theorem generateRandomPath_spec (hg : generateRandomPath f draws = some g) : ∃ hops,
    Chosen f hops f.proxy.numHops ∧ g.proxy.paths.path f.proxy.numberPath = hops ∧
    g.proxy.numHops = f.proxy.numHops ∧ g.proxy.numNodes = f.proxy.numNodes ∧
    g.deletRouter = f.deletRouter ∧ g.delNum = f.delNum ∧ g.deleted = f.deleted := by
  unfold generateRandomPath at hg
  dsimp only at hg
  split_ifs at hg with hsize
  obtain ⟨hops, hd, rfl⟩ := Option.map_eq_some_iff.mp hg
  exact ⟨hops, drawHops_chosen hsize.2.2 (by simp [Chosen]) (Nat.zero_le _) hd,
    update_self _ _ _, rfl, rfl, rfl, rfl, rfl⟩

end Drawing

/-! ### Reports -/

/-- The table has every router that has been reported. -/
def Recorded (f : Failing) : Prop := ∀ r ∈ f.deleted, ∃ j < f.delNum, f.deletRouter j = r

theorem Recorded.step {f g : Failing} {e : PathEvent} (h : Recorded f) (hs : PathStep f e g) :
    Recorded g := by
  cases e with
  | circuit draws =>
    obtain ⟨_, _, _, _, _, hrouter, hnum, hdeleted⟩ := generateRandomPath_spec hs
    unfold Recorded
    rwa [hrouter, hnum, hdeleted]
  | report nextName =>
    change reportFailure f nextName = some g at hs
    unfold reportFailure at hs
    split at hs
    · obtain rfl := Option.some.inj hs
      intro r hr
      obtain ⟨j, hj, heq⟩ := h r hr
      exact ⟨j, Nat.lt_succ_of_lt hj, heq⟩
    · split_ifs at hs with hsize
      obtain rfl := Option.some.inj hs
      intro r hr
      rcases mem_cons.mp hr with rfl | hr
      · exact ⟨f.delNum, Nat.lt_succ_self _, update_self _ _ _⟩
      · obtain ⟨j, hj, heq⟩ := h r hr
        exact ⟨j, Nat.lt_succ_of_lt hj, (update_of_ne (Nat.ne_of_lt hj) _ _).trans heq⟩

/-- After any circuits and reports, of which there are no more than a path has hops, the next path
has distinct routers, none of which has been reported. -/
theorem path_avoids_deleted (f₀ f g : Failing) (es : List PathEvent) (draws : List ℕ)
    (hstart : f₀.deleted = []) (hrun : Run PathStep (fun _ _ => True) f₀ es f)
    (hfew : f.delNum ≤ f.proxy.numHops) (hs : PathStep f (.circuit draws) g) :
    let path := (range g.proxy.numHops).map (g.proxy.paths.path f.proxy.numberPath)
    path.Nodup ∧ ∀ hop ∈ path, 1 ≤ hop ∧ hop ≤ g.proxy.numNodes ∧ hop ∉ f.deleted := by
  have hrec : Recorded f :=
    hrun.invariant (fun _ _ _ _ hs h => h.step hs) (by simp [Recorded, hstart])
  obtain ⟨hops, hc, hpath, hhops, hnodes, -⟩ := generateRandomPath_spec hs
  have hdrawn := hc.drawn
  unfold drawn at hdrawn
  rw [Bool.and_eq_true, decide_eq_true_iff] at hdrawn
  rw [hpath, hhops, hnodes]
  refine ⟨hdrawn.2, fun hop hmem => ?_⟩
  obtain ⟨k, hk, rfl⟩ := mem_map.mp hmem
  obtain ⟨⟨hlo, hhi, -⟩, -, havoids⟩ := hc k (mem_range.mp hk)
  refine ⟨hlo, hhi, fun hdel => ?_⟩
  obtain ⟨j, hj, heq⟩ := hrec _ hdel
  exact havoids j (Nat.lt_of_lt_of_le hj hfew) heq

/-- A number of routers, and circuits of some hops. -/
def unreported (numNodes numHops : ℕ) : Failing where
  proxy := ⟨⟨fun _ => [], fun _ _ => 0⟩, fun i => 1000+i, numNodes, numHops, 1000,
    fun _ => ⟨[], [], [], 0⟩, 0, 0, [], .idle⟩
  rinfoIndex := id
  deletRouter _ := 0
  delNum := 0
  deleted := []

theorem path_avoids_deleted_one : ∃ f g, Run PathStep (fun _ _ => True) (unreported 4 2)
      [.circuit [0, 1], .report 1002] f ∧ PathStep f (.circuit [2, 1, 3]) g ∧
    ∀ hop ∈ (range g.proxy.numHops).map (g.proxy.paths.path f.proxy.numberPath),
      1 ≤ hop ∧ hop ≤ g.proxy.numNodes ∧ hop ∉ f.deleted :=
  ⟨_, _, .next trivial rfl (.next trivial rfl (.done _)), rfl,
    (path_avoids_deleted (unreported 4 2) _ _ [.circuit [0, 1], .report 1002] [2, 1, 3] rfl
      (.next trivial rfl (.next trivial rfl (.done _))) (by decide) rfl).2⟩

/-- The second routers of three circuits are reported. The third report is kept in an entry that is
not looked at for paths of two hops. -/
theorem deleted_router_drawn : ∃ f g, Run PathStep (fun _ _ => True) (unreported 5 2)
      [.circuit [0, 1], .report 1002, .circuit [2, 3], .report 1004, .circuit [0, 4],
        .report 1005] f ∧ PathStep f (.circuit [2, 4]) g ∧
    5 ∈ f.deleted ∧ g.proxy.paths.path f.proxy.numberPath 1 = 5 := by
  simp only [exists_and_left]
  refine (exists_run (f := pathNext) (fun _ _ _ h => h) (P := fun f =>
    (pathNext f (.circuit [2, 4])).any fun g => decide (5 ∈ f.deleted ∧
      g.proxy.paths.path f.proxy.numberPath 1 = 5)) (by decide +kernel)).imp fun f h => ⟨h.1, ?_⟩
  obtain ⟨g, hg, hdrawn⟩ := (Option.any_eq_true _ _).mp h.2
  exact ⟨g, hg, of_decide_eq_true hdrawn⟩

/-! ### Candidates -/

/-- The loop takes the draw. -/
def accepts (f : Failing) (path : ℕ → ℕ) (draw : ℕ) : Bool :=
  let hop := draw%f.proxy.numNodes+1
  !(decide (f.proxy.random1 = hop) || isDupHop f path hop)

/-- The states that the loop of `generate_random_path` goes through. -/
inductive Iteration (f : Failing) : (ℕ → ℕ) → ℕ → Prop
  | start : Iteration f (f.proxy.paths.path f.proxy.numberPath) 0
  | hop {path : ℕ → ℕ} {i draw : ℕ} (h : Iteration f path i) (hi : i < f.proxy.numHops)
    (haccept : accepts f path draw = true) :
    Iteration f (update path i (draw%f.proxy.numNodes+1)) (i+1)

/-- The paths that are not drawn yet are empty, and the table has nothing but reports. -/
structure Undrawn (f : Failing) : Prop where
  paths : ∀ c, f.proxy.numberPath ≤ c → ∀ k, f.proxy.paths.path c k = 0
  table : ∀ j, f.deletRouter j = 0 ∨ f.deletRouter j ∈ f.deleted

theorem Undrawn.step {f g : Failing} {e : PathEvent} (h : Undrawn f) (hs : PathStep f e g) :
    Undrawn g := by
  cases e with
  | circuit draws =>
    change generateRandomPath f draws = some g at hs
    simp only [generateRandomPath, Option.ite_none_right_eq_some, Option.map_eq_some_iff] at hs
    obtain ⟨-, hops, -, rfl⟩ := hs
    refine ⟨fun c hc k => ?_, h.table⟩
    change update f.proxy.paths.path _ hops c k = 0
    rw [update_of_ne (Nat.ne_of_gt hc), h.paths c (Nat.le_of_succ_le hc)]
  | report nextName =>
    change reportFailure f nextName = some g at hs
    unfold reportFailure at hs
    split at hs
    · obtain rfl := Option.some.inj hs
      exact ⟨h.paths, h.table⟩
    · split_ifs at hs
      obtain rfl := Option.some.inj hs
      refine ⟨h.paths, fun j => ?_⟩
      by_cases hj : j = f.delNum
      · subst hj
        simp
      · simp only [update_of_ne hj]
        exact (h.table j).imp_right (mem_cons_of_mem _)

section Candidates

variable {f : Failing} {path : ℕ → ℕ} {i : ℕ}

theorem Iteration.rest (h : Undrawn f) (hit : Iteration f path i) : ∀ k, i ≤ k → path k = 0 := by
  induction hit with
  | start => exact fun k _ => h.paths _ (Nat.le_refl _) k
  | hop _ _ _ ih => exact fun k hk => (update_of_ne (by omega) _ _).trans (ih k (by omega))

/-- The routers that can be on the next path. -/
def candidates (f : Failing) : Finset ℕ :=
  (Finset.Icc 1 f.proxy.numNodes).filter fun r => r ∉ f.deleted ∧ r ≠ f.proxy.random1

theorem exists_accepted (h : Undrawn f) (hmany : f.proxy.numHops ≤ (candidates f).card)
    (hit : Iteration f path i) (hi : i < f.proxy.numHops) :
    ∃ draw < f.proxy.numNodes, accepts f path draw = true := by
  have hcard : ((Finset.range i).image path).card < (candidates f).card := by
    have := Finset.card_image_le (s := Finset.range i) (f := path)
    rw [Finset.card_range] at this
    omega
  obtain ⟨r, hr, hnew⟩ := Finset.exists_mem_notMem_of_card_lt_card hcard
  simp only [candidates, Finset.mem_filter, Finset.mem_Icc] at hr
  obtain ⟨⟨hlo, hhi⟩, hdel, hfirst⟩ := hr
  have hhop : (r-1)%f.proxy.numNodes+1 = r := by
    rw [Nat.mod_eq_of_lt (by omega)]
    omega
  refine ⟨r-1, by omega, ?_⟩
  simp only [accepts, hhop, isDupHop, Bool.not_eq_true', Bool.or_eq_false_iff, any_eq_false,
    decide_eq_false_iff_not, decide_eq_true_eq, mem_range, not_or]
  refine ⟨hfirst.symm, fun j _ => ⟨?_, ?_⟩⟩
  · rintro rfl
    by_cases hj : j < i
    · exact hnew (Finset.mem_image_of_mem path (Finset.mem_range.mpr hj))
    · rw [hit.rest h j (by omega)] at hlo
      cases hlo
  · rcases h.table j with hj | hj
    · omega
    · exact fun heq => hdel (heq ▸ hj)

theorem drawHops_cons (hi : i < f.proxy.numHops) (draw : ℕ) (draws : List ℕ) :
    drawHops f path i (draw::draws) = if accepts f path draw then
      drawHops f (update path i (draw%f.proxy.numNodes+1)) (i+1) draws
    else drawHops f path i draws := by
  rw [drawHops, if_pos hi]
  simp only [accepts, Bool.not_eq_true', Bool.or_eq_false_iff, decide_eq_false_iff_not]
  split_ifs with h1 h2 h3 <;> simp_all

/-- Each router is drawn again and again. -/
def FairDraws (n : ℕ) (stream : ℕ → ℕ) : Prop := ∀ r < n, ∀ k, ∃ m ≥ k, stream m%n = r

theorem drawHops_ends {stream : ℕ → ℕ} (h : Undrawn f)
    (hmany : f.proxy.numHops ≤ (candidates f).card) (hfair : FairDraws f.proxy.numNodes stream)
    (hit : Iteration f path i) (hi : i ≤ f.proxy.numHops) (k : ℕ) :
    ∃ len, (drawHops f path i ((range' k len).map stream)).isSome = true := by
  obtain ⟨d, hd⟩ := Nat.exists_eq_add_of_le hi
  induction d generalizing path i k with
  | zero => exact ⟨0, by simp [drawHops, hd]⟩
  | succ d ih =>
    have hlt : i < f.proxy.numHops := by omega
    have htake (k : ℕ) (hhead : accepts f path (stream k) = true) :
        ∃ len, (drawHops f path i ((range' k len).map stream)).isSome = true := by
      obtain ⟨len, hlen⟩ := ih (.hop hit hlt hhead) hlt (k+1) (by omega)
      exact ⟨len+1, by rwa [range'_succ, map_cons, drawHops_cons hlt, if_pos hhead]⟩
    obtain ⟨draw, hdraw, haccept⟩ := exists_accepted h hmany hit hlt
    obtain ⟨m, hm, hdrawn⟩ := hfair draw hdraw k
    obtain ⟨n, rfl⟩ := Nat.exists_eq_add_of_le hm
    -- the loop takes the draw at `k+n` if it has not taken one before
    induction n generalizing k with
    | zero =>
      replace hdrawn : stream k%f.proxy.numNodes = draw := hdrawn
      exact htake k (by rwa [accepts, hdrawn, ← Nat.mod_eq_of_lt hdraw])
    | succ n ihn =>
      by_cases hhead : accepts f path (stream k) = true
      · exact htake k hhead
      · obtain ⟨len, hlen⟩ := ihn (k+1) (by omega) (by rwa [Nat.add_right_comm])
        exact ⟨len+1, by rwa [range'_succ, map_cons, drawHops_cons hlt, if_neg hhead]⟩

end Candidates

/-- After any circuits and reports, if enough routers are left that are neither deleted nor the
first one of the path before, each round of the loop can take some draw, and fair draws end it. -/
theorem path_can_finish (f₀ f : Failing) (es : List PathEvent)
    (hpaths : ∀ c k, f₀.proxy.paths.path c k = 0) (htable : ∀ j, f₀.deletRouter j = 0)
    (hrun : Run PathStep (fun _ _ => True) f₀ es f)
    (hmany : f.proxy.numHops ≤ (candidates f).card) :
    (∀ path i, Iteration f path i → i < f.proxy.numHops →
      ∃ draw < f.proxy.numNodes, accepts f path draw = true) ∧
    ∀ stream, FairDraws f.proxy.numNodes stream → ∃ len,
      (drawHops f (f.proxy.paths.path f.proxy.numberPath) 0 ((range len).map stream)).isSome := by
  have hundrawn : Undrawn f := hrun.invariant (fun _ _ _ _ hs h => h.step hs)
    ⟨fun c _ => hpaths c, fun j => .inl (htable j)⟩
  exact ⟨fun _ _ => exists_accepted hundrawn hmany,
    fun _ hfair => by
      simpa only [range_eq_range'] using
        drawHops_ends hundrawn hmany hfair .start (Nat.zero_le _) 0⟩

theorem path_can_finish_two : ∃ f, Run PathStep (fun _ _ => True) (unreported 3 2)
      [.circuit [0, 1]] f ∧ ∃ draw < 3, accepts f (fun _ => 0) draw = true :=
  ⟨_, .next trivial rfl (.done _),
    (path_can_finish (unreported 3 2) _ [.circuit [0, 1]] (fun _ _ => rfl) (fun _ => rfl)
      (.next trivial rfl (.done _)) (by decide)).1 _ 0 .start (by decide)⟩

/-- With as many hops as there are routers, no draws give a second path. -/
theorem second_path_never_ends : ∃ f, Run PathStep (fun _ _ => True) (unreported 3 3)
      [.circuit [0, 1, 2]] f ∧ f.deleted = [] ∧ f.proxy.numNodes = f.proxy.numHops ∧
    ∀ draws, generateRandomPath f draws = none := by
  refine ⟨_, .next trivial rfl (.done _), rfl, rfl, fun draws => ?_⟩
  rw [← Option.not_isSome_iff_eq_none, Option.isSome_iff_exists]
  rintro ⟨g, hg⟩
  obtain ⟨hops, hc, -⟩ := generateRandomPath_spec hg
  replace hc : ∀ k < 3, (1 ≤ hops k ∧ hops k ≤ 3 ∧ hops k ≠ 1) ∧
      (∀ l < k, hops l ≠ hops k) ∧ _ := hc
  have h0 := hc 0 (by decide)
  have h1 := hc 1 (by decide)
  have h2 := hc 2 (by decide)
  have h01 := h1.2.1 0 (by decide)
  have h02 := h2.2.1 0 (by decide)
  have h12 := h2.2.1 1 (by decide)
  omega

end SystemsProjects.OnionNetwork
