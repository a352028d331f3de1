import SystemsProjects.CircuitInvariant

/-!
# The separation of circuits

The circuit with number `c` has the id `c+1`, and the routers use the low four bits of its ids as
an index into `cc`, which has 36 entries, and into `aes_key`, which has 10 rows. The tenth
circuit has no row for its key.
-/
namespace SystemsProjects.OnionNetwork

open GuardedRuns IpPackets OnionLayers OnionRouters

/-! ### Indices -/

section Indices

variable {aes : Aes} {net s : Network}

theorem Separated.receive_inside (h : Separated aes net s) {src index : ℕ} {m : Message}
    {ms : List Message} (hlink : s.links src (s.proxy.rinfoPort index) = m::ms) :
    receive aes (s.routers index) m src ≠ .error .badIndex := by
  have hplaced := h.messages src (s.proxy.rinfoPort index) m (by simp [hlink])
  have hslot := h.slot_lt hplaced
  have hseq : ((s.routers index).seen m.cid).ccSeq < 10 := max_lt (h.routers index).seq_lt hslot
  refine OnionRouters.receive_inside hslot (Nat.lt_of_succ_lt_succ (by unfold ccSize; omega)) ?_
  intro ht hknown
  have hb : builds (slot m.cid) m = true := decide_eq_true ⟨rfl, .inl ht⟩
  obtain ⟨c, k, hs, _, hslot⟩ := hplaced.circuit_of_builds hb
  rw [hslot] at hb
  obtain ⟨q, hq, _⟩ := h.progress c hs.1
  obtain ⟨k, hk, rfl, rfl, rfl, hlt, _⟩ := hq.next_message (h.sound hs.1) hlink hb
  have hstate := (hq.hops k hk).seen ((s.proxy.plan c).idAt k)
  have hbefore : ¬2*k+2 ≤ q (k+1) := of_decide_eq_false
    (Except.ok.inj ((hstate.known_iid (h.sound hs.1) hk).symm.trans hknown))
  have hfirst : 2*k ≤ q (k+1) := hq.pipeline.first_le k hk
  have heven : q (k+1)%2 = 0 := by
    by_contra hodd
    rw [Plan.msgType_msgAt, if_neg hodd] at ht
    exact absurd ht nofun
  rw [show q (k+1) = 2*k by omega, Plan.payload_key]
  exact ((h.sound hs.1).key_length k hk).le

theorem handled_inside {index : ℕ} {x : Handled} (hx : x ≠ .error .badIndex) :
    handled s index x ≠ .error .badIndex ∧ handled s index x ≠ .error (.router .badIndex) := by
  cases x with
  | error f =>
    refine ⟨nofun, fun h => hx ?_⟩
    injection h with h
    injection h with h
    rw [h]
  | ok p => exact ⟨nofun, nofun⟩

theorem Separated.cid_at_proxy (h : Separated aes net s) {src : ℕ} {m : Message}
    (hm : m ∈ s.links src s.proxy.port) : 0 < m.cid ∧ m.cid-1 < flowSize := by
  cases h.messages _ _ m hm with
  | build c k hs _ hport => exact absurd hport.symm (h.config.port_ne _)
  | relay c k packet hs _ hport => exact absurd hport.symm (h.config.port_ne _)
  | back c k hs _ hport hid =>
    cases k with
    | zero =>
      have hcid : m.cid = c+1 := hid.trans (cID_eq (Nat.lt_of_lt_of_le hs.1 h.few))
      have := hs.1
      have := h.few
      unfold flowSize
      omega
    | succ k => exact absurd hport.symm (h.config.port_ne _)
  | stray hport => exact absurd hport h.config.port_pos.ne'

theorem netNext_inside (h : Separated aes net s) {e : NetEvent} (he : FewCircuits s e) :
    netNext aes s e ≠ .error .badIndex ∧ netNext aes s e ≠ .error (.router .badIndex) := by
  cases e with
  | deliver src index =>
    change deliver aes s src index ≠ _ ∧ deliver aes s src index ≠ _
    unfold deliver
    cases hlink : s.links src (s.proxy.rinfoPort index) with
    | nil =>
      simp only [hlink]
      exact ⟨nofun, nofun⟩
    | cons m ms =>
      simp only [hlink]
      exact handled_inside (h.receive_inside hlink)
  | reply src =>
    change reply aes s src ≠ _ ∧ reply aes s src ≠ _
    unfold reply
    cases hlink : s.links src s.proxy.port with
    | nil =>
      simp only [hlink]
      exact ⟨nofun, nofun⟩
    | cons m ms =>
      have hmem : m ∈ s.links src s.proxy.port := by simp [hlink]
      simp only [hlink]
      rw [if_pos (h.cid_at_proxy hmem)]
      split
      · exact ⟨nofun, nofun⟩
      · exact ⟨nofun, nofun⟩
      · split
        · exact ⟨nofun, nofun⟩
        · exact ⟨nofun, nofun⟩
  | tunnel packet hops =>
    change tunnel aes s packet hops ≠ _ ∧ tunnel aes s packet hops ≠ _
    unfold tunnel
    dsimp only
    by_cases hidle : s.proxy.state = .idle ∧ iphdrSize ≤ packet.length ∧
        (protocol packet = 1 ∨ protocol packet = 6)
    · rw [if_pos hidle]
      cases hflow : flowOf s.proxy packet with
      | some c => exact ⟨nofun, nofun⟩
      | none =>
        have hbound : s.proxy.numberPath < flowSize ∧ s.proxy.numHops ≤ maxRouterCount :=
          ⟨Nat.lt_trans (he hflow) (by decide), h.config.hops_le⟩
        dsimp only
        rw [if_pos hbound]
        split_ifs
        · exact ⟨nofun, nofun⟩
        · exact ⟨nofun, nofun⟩
    · rw [if_neg hidle]
      exact ⟨nofun, nofun⟩
  | relay =>
    change relay aes s ≠ _ ∧ relay aes s ≠ _
    unfold relay
    dsimp only
    split
    · exact ⟨nofun, nofun⟩
    · exact ⟨nofun, nofun⟩
  | rawIcmp index packet =>
    exact handled_inside (rawMitToTunnle_inside (h.routers index).seq_lt)
  | rawTcp index packet =>
    exact handled_inside (handleRawsockTcp_inside (h.routers index).seq_lt)

end Indices

/-! ### Separate circuits -/

/-- A datagram from port `a` to port `b` belongs to a circuit: it is between two neighbours on
its path, in one direction or the other, under the id of the circuit between them. -/
def Belongs (p : Proxy) (c a b : ℕ) (m : Message) : Prop :=
  ∃ k < p.numHops, m.cid = (p.plan c).idAt k ∧
    (a = (p.plan c).portAt k ∧ b = (p.plan c).portAt (k+1) ∨
      a = (p.plan c).portAt (k+1) ∧ b = (p.plan c).portAt k)

/-- The circuits use different slots, no step leaves a table, and what a router is going to use
for a message, the row and the entry in the slot of its id, is unused or has been filled for the
one circuit that the message belongs to. -/
structure CircuitsApart (aes : Aes) (net s : Network) : Prop where
  slots : ∀ c d, c < s.proxy.numberPath → d < s.proxy.numberPath → c ≠ d →
    ∀ j k, slot ((s.proxy.plan c).idAt j) ≠ slot ((s.proxy.plan d).idAt k)
  indices : ∀ e, FewCircuits s e →
    netNext aes s e ≠ .error .badIndex ∧ netNext aes s e ≠ .error (.router .badIndex)
  own : ∀ j, 1 ≤ j → j ≤ s.proxy.numNodes → ∀ a m, m ∈ s.links a (s.proxy.rinfoPort j) →
    ∃ c < s.proxy.numberPath, Belongs s.proxy c a (s.proxy.rinfoPort j) m ∧
      (∀ d < s.proxy.numberPath, Belongs s.proxy d a (s.proxy.rinfoPort j) m → d = c) ∧
      ((s.routers j).aesKey (slot m.cid) = (net.routers j).aesKey (slot m.cid) ∨
        ∃ k < s.proxy.numHops, j = (s.proxy.plan c).hop k ∧
          (s.routers j).aesKey (slot m.cid) = (s.proxy.plan c).key k) ∧
      (((s.routers j).cc (slot m.cid)).route = (0, 0, 0, 0) ∨
        ∃ k < s.proxy.numHops, j = (s.proxy.plan c).hop k ∧
          ((s.routers j).cc (slot m.cid)).route = (s.proxy.plan c).route k)

section Apart

variable {aes : Aes} {net s : Network} {c d j a b : ℕ} {m : Message} (h : Separated aes net s)

include h

theorem Separated.slot_inj (hc : c < s.proxy.numberPath) (hd : d < s.proxy.numberPath)
    (heq : (s.proxy.plan c).slot = (s.proxy.plan d).slot) : c = d := by
  rw [h.slot_eq hc, h.slot_eq hd] at heq
  exact Nat.succ.inj heq

theorem Separated.belongs (hj : 1 ≤ j ∧ j ≤ s.proxy.numNodes)
    (hm : Placed aes s.proxy s.routers a (s.proxy.rinfoPort j) m) :
    ∃ c < s.proxy.numberPath, Belongs s.proxy c a (s.proxy.rinfoPort j) m := by
  cases hm with
  | build c k hs ha hb hid => exact ⟨c, hs.1, k, hs.2, hid, .inl ⟨ha, hb⟩⟩
  | relay c k packet hs ha hb hm =>
    have hid : m.cid = (s.proxy.plan c).idAt k := by rw [hm]
    exact ⟨c, hs.1, k, hs.2, hid, .inl ⟨ha, hb⟩⟩
  | back c k hs ha hb hid => exact ⟨c, hs.1, k, hs.2, hid, .inr ⟨ha, hb⟩⟩
  | stray hb => exact absurd hb (h.config.port_range j hj.1 hj.2).1.ne'

theorem Separated.apart : CircuitsApart aes net s := by
  constructor
  · intro c d hc hd hne j k heq
    rw [Plan.slot_idAt, Plan.slot_idAt] at heq
    exact hne (h.slot_inj hc hd heq)
  · exact fun e he => netNext_inside h he
  · intro j hj1 hj2 a m hm
    obtain ⟨c, hc, hbelongs⟩ := h.belongs ⟨hj1, hj2⟩ (h.messages _ _ m hm)
    have hslot : ∀ d, Belongs s.proxy d a (s.proxy.rinfoPort j) m →
        slot m.cid = (s.proxy.plan d).slot := by
      rintro d ⟨k, _, hid, _⟩
      rw [hid, Plan.slot_idAt]
    have hunique : ∀ d < s.proxy.numberPath, slot m.cid = (s.proxy.plan d).slot → d = c :=
      fun d hd heq => h.slot_inj hd hc (heq.symm.trans (hslot c hbelongs))
    refine ⟨c, hc, hbelongs, fun d hd hb => hunique d hd (hslot d hb), ?_, ?_⟩
    · rcases h.rows j (slot m.cid) with h0 | ⟨d, k, hs, hd, hj, hrow⟩
      · exact .inl h0
      · obtain rfl := hunique d hs.1 hd
        exact .inr ⟨k, hs.2, hj, hrow⟩
    · rcases h.routes j (slot m.cid) with h0 | ⟨d, k, hs, hd, hj, hroute⟩
      · exact .inl h0
      · obtain rfl := hunique d hs.1 hd
        exact .inr ⟨k, hs.2, hj, hroute⟩

end Apart

instance (s : Network) (e : NetEvent) : Decidable (FewCircuits s e) := by
  cases e <;> unfold FewCircuits <;> infer_instance

/-- As long as at most nine circuits are built, they stay apart, whatever arrives at the proxy
and at the routers in which order. -/
theorem circuits_stay_apart (aes : Aes) (net s : Network) (es : List NetEvent) (hf : Fresh net)
    (hrun : Run (NetStep aes) FewCircuits net es s) : CircuitsApart aes net s :=
  (hf.run hrun).apart

/-! ### Circuits with one hop -/

def twoRouters : Network := idle (pairPort 1002) 2 1

theorem twoRouters_fresh : Fresh twoRouters where
  config :=
    { hops_pos := by decide
      hops_le := by decide
      nodes_lt := by decide
      port_pos := by decide
      port_inj := by
        intro i j h1 h2 h
        change j ≤ 2 at h2
        change pairPort 1002 i = pairPort 1002 j at h
        unfold pairPort at h
        split_ifs at h <;> omega
      port_range := by
        intro i h1 h2
        change i ≤ 2 at h2
        change 0 < pairPort 1002 i ∧ pairPort 1002 i < 65536
        unfold pairPort
        split_ifs <;> omega
      port_ne := by
        intro i
        change pairPort 1002 i ≠ 1000
        unfold pairPort
        split_ifs <;> omega
      key_length := fun _ _ _ => List.length_replicate }
  idle := rfl
  numberPath := rfl
  flows _ := rfl
  routers _ := ⟨rfl, (by decide : 1 < 10), fun _ => List.length_replicate⟩
  routes _ _ := rfl
  links _ _ := rfl

/-- An echo request to the host with a number. -/
def ping (host : UInt8) : Bytes :=
  [69, 0, 0, 28, 0, 0, 0, 0, 64, 1, 0, 0, 10, 0, 0, 1, 10, 0, 1, host]++[8, 0, 0, 0, 0, 0, 0, 0]

/-- A request for a new circuit over a router, its construction and the delivery of the
request. -/
def newCircuit (host : UInt8) (router : ℕ) : List NetEvent :=
  [.tunnel (ping host) fun _ => router, .deliver 1000 router, .deliver 1000 router,
    .reply (pairPort 1002 router), .relay, .deliver 1000 router]

theorem circuits_stay_apart_two : ∃ s, Run (NetStep addKey) FewCircuits twoRouters
    (newCircuit 1 1++newCircuit 2 2) s ∧ s.proxy.numberPath = 2 ∧
    CircuitsApart addKey twoRouters s := by
  exact (exists_run_net _ _ _ (P := fun s => s.proxy.numberPath = 2) (by decide +kernel)).imp
    fun s h => ⟨h.1, h.2, circuits_stay_apart addKey twoRouters s _ twoRouters_fresh h.1⟩

/-- Requests for nine circuits, over the two routers in turn. -/
def nineCircuits : List NetEvent :=
  newCircuit 1 1++newCircuit 2 2++newCircuit 3 1++newCircuit 4 2++newCircuit 5 1++
    newCircuit 6 2++newCircuit 7 1++newCircuit 8 2++newCircuit 9 1

/-- Whether an event leads to an index outside a table of a router. -/
def leavesTable (s : Network) (e : NetEvent) : Bool :=
  match netNext addKey s e with
  | .error f => decide (f = .router .badIndex)
  | .ok _ => false

/-- The key of the tenth circuit is stored behind the end of `aes_key`. -/
theorem tenth_circuit_leaves_table : ∃ s, Fresh twoRouters ∧
    Run (NetStep addKey) (fun _ _ => True) twoRouters
      (nineCircuits++[.tunnel (ping 10) fun _ => 2]) s ∧
    s.proxy.numberPath = 10 ∧ netNext addKey s (.deliver 1000 2) = .error (.router .badIndex) := by
  obtain ⟨s, hrun, hpaths, hleaves⟩ := exists_run_net (fun _ _ => True) twoRouters
    (nineCircuits++[.tunnel (ping 10) fun _ => 2]) (P := fun s => s.proxy.numberPath = 10 ∧
      leavesTable s (.deliver 1000 2) = true) (by decide +kernel)
  refine ⟨s, twoRouters_fresh, hrun, hpaths, ?_⟩
  unfold leavesTable at hleaves
  cases hn : netNext addKey s (.deliver 1000 2) with
  | error f =>
    rw [hn] at hleaves
    rw [of_decide_eq_true hleaves]
  | ok t =>
    rw [hn] at hleaves
    exact absurd hleaves nofun

end SystemsProjects.OnionNetwork
