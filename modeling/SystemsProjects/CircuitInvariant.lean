import Mathlib.Data.List.Nodup
import SystemsProjects.CircuitConstruction

/-!
# All circuits at once

Up to nine circuits have their own slots in all routers. Every datagram on a link is on the way
along the path of one circuit, under the id that the circuit has on this link, and every entry
and every row of a router is unused or has been filled for one circuit. All steps of the network
keep this, because each circuit is built like a circuit of its own.

Answers that come before any circuit has been used can leave a router under the empty entry 0;
they go to port 0, where nobody is.
-/
namespace SystemsProjects.OnionNetwork

open Function GuardedRuns IpPackets MessagePipelines OnionLayers OnionRouters List

/-! ### What the proxy is started with -/

/-- What never changes: the routers have distinct ports and keys of 16 bytes, and a path fits
into its row. -/
structure Config (p : Proxy) : Prop where
  hops_pos : 0 < p.numHops
  hops_le : p.numHops ≤ maxRouterCount
  nodes_lt : p.numNodes < 256
  port_pos : 0 < p.port
  port_inj : ∀ i j, 1 ≤ j → j ≤ p.numNodes → p.rinfoPort i = p.rinfoPort j → i = j
  port_range : ∀ i, 1 ≤ i → i ≤ p.numNodes → 0 < p.rinfoPort i ∧ p.rinfoPort i < 65536
  port_ne : ∀ i, p.rinfoPort i ≠ p.port
  key_length : ∀ i, 1 ≤ i → i ≤ p.numNodes → (p.paths.rinfoKey i).length = keyLen

structure Drawn (p : Proxy) (c : ℕ) : Prop where
  range : ∀ k < p.numHops, 1 ≤ p.paths.path c k ∧ p.paths.path c k ≤ p.numNodes
  inj : ∀ j k, j < p.numHops → k < p.numHops → p.paths.path c j = p.paths.path c k → j = k

variable {p : Proxy} {c : ℕ}

theorem Drawn.of_plan {p' : Proxy} (h : Drawn p c) (hplan : p'.plan c = p.plan c)
    (hnodes : p'.numNodes = p.numNodes) : Drawn p' c := by
  have hpath : p'.paths.path c = p.paths.path c := congrArg Plan.hop hplan
  have hhops : p'.numHops = p.numHops := congrArg Plan.numHops hplan
  constructor
  · rw [hpath, hhops, hnodes]
    exact h.range
  · rw [hpath, hhops]
    exact h.inj

theorem cID_eq (hc : c < 9) : cID c = c+1 := by
  unfold cID computeCircuitId
  omega

theorem plan_slot (hc : c < 9) : (p.plan c).slot = c+1 := by
  change slot (cID c) = c+1
  rw [cID_eq hc, slot]
  omega

theorem Config.sound (h : Config p) (hd : Drawn p c) (hc : c < 9) : (p.plan c).Sound where
  hop_inj := hd.inj
  hop_range k hk := by
    have := hd.range k hk
    have := h.nodes_lt
    change 0 < p.paths.path c k ∧ p.paths.path c k < 256
    omega
  port_inj i k hk he := h.port_inj i _ (hd.range k hk).1 (hd.range k hk).2 he
  port_lt k hk := (h.port_range _ (hd.range k hk).1 (hd.range k hk).2).2
  port_ne := h.port_ne
  id_pos := by
    change 0 < cID c
    rw [cID_eq hc]
    omega
  slot_lt := by
    rw [plan_slot hc, aesKeyRows]
    omega
  key_length k hk := h.key_length _ (hd.range k hk).1 (hd.range k hk).2

variable {packet : Bytes} {hops : ℕ → ℕ}

theorem drawn_addFlow (h : drawn p hops = true) : Drawn (addFlow p packet hops) p.numberPath := by
  have hpath : (addFlow p packet hops).paths.path p.numberPath = hops := update_self _ _ _
  unfold drawn at h
  rw [Bool.and_eq_true, all_eq_true, decide_eq_true_iff] at h
  constructor
  · intro k hk
    rw [hpath]
    have := of_decide_eq_true (h.1 (hops k) (mem_map_of_mem (mem_range.mpr hk)))
    exact ⟨this.1, this.2.1⟩
  · intro j k hj hk he
    rw [hpath] at he
    have hinj := inj_on_of_nodup_map h.2
    exact hinj (mem_range.mpr hj) (mem_range.mpr hk) he

theorem plan_addFlow (hc : c < p.numberPath) : (addFlow p packet hops).plan c = p.plan c := by
  have hpath : update p.paths.path p.numberPath hops c = p.paths.path c :=
    update_of_ne (Nat.ne_of_lt hc) _ _
  have hkey : (addFlow p packet hops).paths.key c = p.paths.key c := by
    funext k
    exact congrArg (fun path => p.paths.rinfoKey (path k)) hpath
  unfold Proxy.plan
  rw [hkey]
  exact congrArg (fun path => Plan.mk _ _ _ _ path _) hpath

theorem flow_addFlow (hc : c < p.numberPath) : (addFlow p packet hops).flow c = p.flow c :=
  update_of_ne (Nat.ne_of_lt hc) _ _

/-! ### Flows -/

def Flow.Holds (f : Flow) (packet : Bytes) : Prop :=
  iphdrSize ≤ packet.length ∧ f.srcIp = saddr packet ∧ f.dstIp = daddr packet ∧
    f.protocol = IpPackets.protocol packet ∧
    (IpPackets.protocol packet = 6 → f.dstPort = tcpDest packet)

theorem flowOf_holds (hlength : iphdrSize ≤ packet.length) (h : flowOf p packet = some c) :
    (p.flow c).Holds packet := by
  have hfound := find?_some h
  dsimp only at hfound
  exact ⟨hlength, of_decide_eq_true hfound⟩

theorem newFlow_holds (hlength : iphdrSize ≤ packet.length) :
    (newFlow packet).Holds packet := ⟨hlength, rfl, rfl, rfl, fun h => if_pos h⟩

/-! ### The state of all circuits -/

/-- Hop `k` of circuit `c`. -/
def Stage (p : Proxy) (c k : ℕ) : Prop := c < p.numberPath ∧ k < p.numHops

/-- The circuit that the proxy is working on is one of the built ones, and its packet belongs to
its flow. -/
def AtWork (p : Proxy) : Prop :=
  match p.state with
  | .idle => True
  | .creating c _ packet => c < p.numberPath ∧ (p.flow c).Holds packet
  | .created c packet => c < p.numberPath ∧ (p.flow c).Holds packet

theorem AtWork.creating {round : ℕ} (h : AtWork p) (hs : p.state = .creating c round packet) :
    c < p.numberPath ∧ (p.flow c).Holds packet := by
  rwa [AtWork, hs] at h

theorem AtWork.created (h : AtWork p) (hs : p.state = .created c packet) :
    c < p.numberPath ∧ (p.flow c).Holds packet := by
  rwa [AtWork, hs] at h

/-- A datagram from port `a` to port `b` is on the way along a path. -/
inductive Placed (aes : Aes) (p : Proxy) (routers : ℕ → Router) (a b : ℕ) (m : Message) : Prop
  | build (c k : ℕ) : Stage p c k → a = (p.plan c).portAt k → b = (p.plan c).portAt (k+1) →
    m.cid = (p.plan c).idAt k → builds (p.plan c).slot m = true → Placed aes p routers a b m
  | relay (c k : ℕ) (packet : Bytes) : Stage p c k → a = (p.plan c).portAt k →
    b = (p.plan c).portAt (k+1) →
    m = ⟨.encryptedRelay, (p.plan c).idAt k,
      (p.plan c).layers aes k p.numHops (setSource packet [0, 0, 0, 0])⟩ →
    (p.flow c).Holds packet → Placed aes p routers a b m
  | back (c k : ℕ) : Stage p c k → a = (p.plan c).portAt (k+1) → b = (p.plan c).portAt k →
    m.cid = (p.plan c).idAt k →
    m.msgType = .encryptedExtDone ∨ m.msgType = .encryptedRelayReply →
    ((routers ((p.plan c).hop k)).cc (p.plan c).slot).route = (p.plan c).route k →
    Placed aes p routers a b m
  | stray : b = 0 → m.cid = 0 → m.msgType = .encryptedRelayReply → Placed aes p routers a b m

/-- A route is unused or has been filled for a hop of a circuit that uses this slot. -/
def RouteFor (p : Proxy) (j i : ℕ) (route : ℕ×ℕ×ℕ×ℕ) : Prop :=
  route = (0, 0, 0, 0) ∨ ∃ c k, Stage p c k ∧ i = (p.plan c).slot ∧ j = (p.plan c).hop k ∧
    route = (p.plan c).route k

/-- A row is as it was in the beginning or has been filled for a hop of a circuit that uses this
slot. -/
def RowFor (p : Proxy) (j i : ℕ) (first row : Bytes) : Prop :=
  row = first ∨ ∃ c k, Stage p c k ∧ i = (p.plan c).slot ∧ j = (p.plan c).hop k ∧
    row = (p.plan c).key k

structure RouterOk (j : ℕ) (r : Router) : Prop where
  index : r.index = j
  seq_lt : r.ccSeq < 10
  row_length : ∀ i, (r.aesKey i).length = keyLen

structure Separated (aes : Aes) (net s : Network) : Prop where
  config : Config s.proxy
  few : s.proxy.numberPath ≤ 9
  drawn : ∀ c < s.proxy.numberPath, Drawn s.proxy c
  unused : ∀ c, s.proxy.numberPath ≤ c → (s.proxy.flow c).protocol = 0
  atWork : AtWork s.proxy
  routers : ∀ j, RouterOk j (s.routers j)
  routes : ∀ j i, RouteFor s.proxy j i ((s.routers j).cc i).route
  rows : ∀ j i, RowFor s.proxy j i ((net.routers j).aesKey i) ((s.routers j).aesKey i)
  messages : ∀ a b m, m ∈ s.links a b → Placed aes s.proxy s.routers a b m
  progress : ∀ c < s.proxy.numberPath, ∃ q, Progress aes (s.proxy.plan c) s q ∧
    ∀ round packet, s.proxy.state = .creating c round packet →
      q 0 = 2*round ∧ round ≤ s.proxy.numHops

/-! ### What stays true when the network grows -/

/-- What all steps have in common: paths, flows and routes are only added. -/
structure Grows (s s' : Network) : Prop where
  numberPath : s.proxy.numberPath ≤ s'.proxy.numberPath
  numHops : s'.proxy.numHops = s.proxy.numHops
  plan : ∀ c < s.proxy.numberPath, s'.proxy.plan c = s.proxy.plan c
  flow : ∀ c < s.proxy.numberPath, s'.proxy.flow c = s.proxy.flow c
  route : ∀ j i, ((s.routers j).cc i).iid ≠ 0 →
    ((s'.routers j).cc i).route = ((s.routers j).cc i).route

section Growth

variable {aes : Aes} {net s s' : Network} {a b c k : ℕ} {m : Message}

theorem Stage.grows (h : Stage s.proxy c k) (hg : Grows s s') : Stage s'.proxy c k :=
  ⟨Nat.lt_of_lt_of_le h.1 hg.numberPath, by rw [hg.numHops]; exact h.2⟩

theorem RouteFor.grows {j i : ℕ} {route : ℕ×ℕ×ℕ×ℕ} (h : RouteFor s.proxy j i route)
    (hg : Grows s s') : RouteFor s'.proxy j i route := by
  rcases h with h0 | ⟨c, k, hstage, hroute⟩
  · exact .inl h0
  · refine .inr ⟨c, k, hstage.grows hg, ?_⟩
    rw [hg.plan c hstage.1]
    exact hroute

theorem RowFor.grows {j i : ℕ} {first row : Bytes} (h : RowFor s.proxy j i first row)
    (hg : Grows s s') : RowFor s'.proxy j i first row := by
  rcases h with h0 | ⟨c, k, hstage, hrow⟩
  · exact .inl h0
  · refine .inr ⟨c, k, hstage.grows hg, ?_⟩
    rw [hg.plan c hstage.1]
    exact hrow

theorem Placed.circuit_of_builds (hm : Placed aes s.proxy s.routers a b m)
    (hb : builds (slot m.cid) m = true) :
    ∃ c k, Stage s.proxy c k ∧ m.cid = (s.proxy.plan c).idAt k ∧
      slot m.cid = (s.proxy.plan c).slot := by
  have ht := (of_decide_eq_true hb).2
  cases hm with
  | build c k hs _ _ hid => exact ⟨c, k, hs, hid, by rw [hid, Plan.slot_idAt]⟩
  | relay c k packet _ _ _ hm => simp [hm] at ht
  | back c k _ _ _ _ hback => rcases hback with hback | hback <;> simp [hback] at ht
  | stray _ _ hback => simp [hback] at ht

/-- Routers that are equal but for one, which has handled a datagram or sent an answer. -/
theorem grows_of_router {index : ℕ} {r : Router} (hproxy : s'.proxy = s.proxy)
    (hrouters : s'.routers = update s.routers index r)
    (hr : ∀ i, ((s.routers index).cc i).iid ≠ 0 →
      (r.cc i).route = ((s.routers index).cc i).route) : Grows s s' where
  numberPath := by rw [hproxy]
  numHops := by rw [hproxy]
  plan c _ := by rw [hproxy]
  flow c _ := by rw [hproxy]
  route j i hne := by
    rw [hrouters]
    by_cases hj : j = index
    · subst hj
      rw [update_self]
      exact hr i hne
    · rw [update_of_ne hj]

namespace Separated

variable (h : Separated aes net s)

include h

theorem sound (hc : c < s.proxy.numberPath) : (s.proxy.plan c).Sound :=
  h.config.sound (h.drawn c hc) (Nat.lt_of_lt_of_le hc h.few)

theorem slot_eq (hc : c < s.proxy.numberPath) : (s.proxy.plan c).slot = c+1 :=
  plan_slot (Nat.lt_of_lt_of_le hc h.few)

theorem placed_grows (hg : Grows s s') (hm : Placed aes s.proxy s.routers a b m) :
    Placed aes s'.proxy s'.routers a b m := by
  cases hm with
  | build c k hstage =>
    refine .build c k (hstage.grows hg) ?_ ?_ ?_ ?_ <;>
    · rw [hg.plan c hstage.1]
      assumption
  | relay c k packet hstage _ _ _ hflow =>
    refine .relay c k packet (hstage.grows hg) ?_ ?_ ?_ ?_
    · rw [hg.plan c hstage.1]
      assumption
    · rw [hg.plan c hstage.1]
      assumption
    · rw [hg.plan c hstage.1, hg.numHops]
      assumption
    · rw [hg.flow c hstage.1]
      assumption
  | back c k hstage _ _ _ htype hroute =>
    have hpos : ((s.routers ((s.proxy.plan c).hop k)).cc (s.proxy.plan c).slot).iid ≠ 0 := by
      have hid : ((s.routers ((s.proxy.plan c).hop k)).cc (s.proxy.plan c).slot).iid =
          (s.proxy.plan c).idAt k := congrArg Prod.fst hroute
      rw [hid]
      exact ((h.sound hstage.1).idAt_pos hstage.2).ne'
    refine .back c k (hstage.grows hg) ?_ ?_ ?_ htype ?_
    · rw [hg.plan c hstage.1]
      assumption
    · rw [hg.plan c hstage.1]
      assumption
    · rw [hg.plan c hstage.1]
      assumption
    · rw [hg.plan c hstage.1, hg.route _ _ hpos]
      exact hroute
  | stray hb hcid ht => exact .stray hb hcid ht

theorem slot_lt (hm : Placed aes s.proxy s.routers a b m) : slot m.cid < 10 := by
  have hlt : ∀ c < s.proxy.numberPath, ∀ k, m.cid = (s.proxy.plan c).idAt k →
      slot m.cid < 10 := by
    intro c hc k hid
    have := h.few
    rw [hid, Plan.slot_idAt, h.slot_eq hc]
    omega
  cases hm with
  | build c k hstage _ _ hid => exact hlt c hstage.1 k hid
  | relay c k packet hstage _ _ hm =>
    subst hm
    exact hlt c hstage.1 k rfl
  | back c k hstage _ _ hid => exact hlt c hstage.1 k hid
  | stray _ hcid => rw [hcid]; decide

end Separated

end Growth

/-! ### Datagrams that are delivered -/

namespace Separated

variable {aes : Aes} {net s s' : Network} {src index c k port : ℕ} {m m' : Message}
  {ms : List Message} {r : Router} {outs : List Output} (h : Separated aes net s)

include h

section

variable (hs : Stage s.proxy c k)
include hs

theorem hop_of_port (hport : s.proxy.rinfoPort index = (s.proxy.plan c).portAt (k+1)) :
    index = (s.proxy.plan c).hop k := (h.sound hs.1).port_inj index k hs.2 hport

theorem hopState : ∃ q, HopState (s.proxy.plan c) k q (s.routers ((s.proxy.plan c).hop k)) := by
  obtain ⟨q, hq, _⟩ := h.progress c hs.1
  exact ⟨_, hq.hops k hs.2⟩

/-- A hop whose route has been filled, and all hops before it, know the circuit. -/
theorem hopState_built
    (hroute : ((s.routers ((s.proxy.plan c).hop k)).cc (s.proxy.plan c).slot).route =
      (s.proxy.plan c).route k) :
    ∃ q, Progress aes (s.proxy.plan c) s q ∧ 2*k+2 ≤ q (k+1) := by
  obtain ⟨q, hq, _⟩ := h.progress c hs.1
  refine ⟨q, hq, ?_⟩
  by_contra hlt
  have hfree := (hq.hops k hs.2).free (Nat.lt_of_not_le hlt)
  have hid : ((s.routers ((s.proxy.plan c).hop k)).cc (s.proxy.plan c).slot).iid =
      (s.proxy.plan c).idAt k := congrArg Prod.fst hroute
  have := (h.sound hs.1).idAt_pos hs.2
  omega

theorem own_message (hm : builds (s.proxy.plan c).slot m = true)
    (hlink : s.links src (s.proxy.rinfoPort index) = m::ms)
    (hr : receive aes (s.routers index) m src = .ok (r, outs)) :
    ∃ k, Stage s.proxy c k ∧ index = (s.proxy.plan c).hop k ∧
      r.aesKey (s.proxy.plan c).slot = (s.proxy.plan c).key k ∧
      ((r.cc (s.proxy.plan c).slot).iid ≠ 0 →
        (r.cc (s.proxy.plan c).slot).route = (s.proxy.plan c).route k) ∧
      ∀ port m', .udp port m' ∈ outs → Placed aes s.proxy (update s.routers index r)
        (s.proxy.rinfoPort index) port m' := by
  have hp := h.sound hs.1
  obtain ⟨q, hq, _⟩ := h.progress c hs.1
  obtain ⟨k, hk, ⟨rfl, rfl⟩, ⟨hlt, _⟩, hstate, houts⟩ := hq.own_message hp hlink hm hr
  have hfirst : 2*k ≤ q (k+1) := hq.pipeline.first_le k hk
  have hbuilt : (r.cc (s.proxy.plan c).slot).iid ≠ 0 →
      (r.cc (s.proxy.plan c).slot).route = (s.proxy.plan c).route k := by
    intro hne
    apply hstate.built
    by_contra hlt
    exact hne (hstate.free (Nat.lt_of_not_le hlt))
  refine ⟨k, ⟨hs.1, hk⟩, rfl, (hstate.keyed (by omega)).1, hbuilt, ?_⟩
  intro port m' hout
  rcases houts with ⟨_, hk1, rfl⟩ | ⟨_, hdone⟩
  · obtain ⟨rfl, rfl⟩ : port = _ ∧ m' = _ := by simpa using hout
    exact .build c (k+1) ⟨hs.1, hk1⟩ rfl rfl rfl Plan.builds_msgAt
  · obtain ⟨hlast, rfl, rfl⟩ := hdone port m' hout
    refine .back c k ⟨hs.1, hk⟩ rfl rfl rfl (.inl rfl) ?_
    rw [update_self]
    exact hstate.built (by omega)

theorem outs_relay (hindex : index = (s.proxy.plan c).hop k)
    (hm : m = ⟨.encryptedRelay, (s.proxy.plan c).idAt k, (s.proxy.plan c).layers aes k
      s.proxy.numHops (setSource packet [0, 0, 0, 0])⟩) (hflow : (s.proxy.flow c).Holds packet)
    (hh : Handles aes ((s.routers index).seen m.cid) m src r outs) (hout : .udp port m' ∈ outs) :
    Placed aes s.proxy (update s.routers index r) (s.proxy.rinfoPort index) port m' := by
  have hp := h.sound hs.1
  obtain ⟨q, hq⟩ := h.hopState hs
  subst hindex hm
  have hseen := hq.seen ((s.proxy.plan c).idAt k)
  obtain ⟨rfl, hknown, hlast, rfl, clear, hclear, rfl⟩ := hh.relay_out rfl hout
  have hbuilt : 2*k+2 ≤ q :=
    of_decide_eq_true (Except.ok.inj ((hseen.known_iid hp hs.2).symm.trans hknown))
  have hlayer := Except.ok.inj (hclear.symm.trans (hseen.decryptAt_layers hp (by omega) hs.2))
  dsimp only at hlast ⊢
  rw [Plan.slot_idAt, hseen.oport_eq hbuilt] at hlast ⊢
  have hk1 : k+1 ≠ s.proxy.numHops := fun hk => hlast (if_pos hk)
  have hport : (s.proxy.plan c).outPort k = (s.proxy.plan c).portAt (k+2) := if_neg hk1
  rw [hseen.oid_eq hbuilt, hport, hlayer]
  exact .relay c (k+1) packet ⟨hs.1, Nat.lt_of_le_of_ne hs.2 hk1⟩ rfl rfl rfl hflow

end

theorem outs_back (hs : Stage s.proxy c (k+1)) (hindex : index = (s.proxy.plan c).hop k)
    (hid : m.cid = (s.proxy.plan c).idAt (k+1))
    (ht : m.msgType = .encryptedExtDone ∨ m.msgType = .encryptedRelayReply)
    (hroute : ((s.routers ((s.proxy.plan c).hop (k+1))).cc (s.proxy.plan c).slot).route =
      (s.proxy.plan c).route (k+1))
    (hh : Handles aes ((s.routers index).seen m.cid) m src r outs)
    (hout : .udp port m' ∈ outs) :
    Placed aes s.proxy (update s.routers index r) (s.proxy.rinfoPort index) port m' := by
  have hs' : Stage s.proxy c k := ⟨hs.1, Nat.lt_of_succ_lt hs.2⟩
  obtain ⟨q, hq, hbuilt⟩ := h.hopState_built hs hroute
  have hle : q (k+1+1) ≤ max (2*(k+1)) (q (k+1)) := hq.pipeline.le_max (k+1) hs.2
  have hprev : 2*k+2 ≤ q (k+1) := by omega
  have hstate := (hq.hops k hs'.2).seen m.cid
  subst hindex
  obtain ⟨rfl, rfl, hcid, htype⟩ := hh.back_out ht hout
  have hslot : slot m.cid = (s.proxy.plan c).slot := by rw [hid, Plan.slot_idAt]
  rw [hslot, hstate.iid_eq hprev] at hcid
  rw [hslot, hstate.iport_eq hprev]
  refine .back c k hs' rfl rfl hcid ?_ ?_
  · rw [htype]
    exact ht
  · rw [update_self]
    exact hstate.built hprev

theorem route_zero (j : ℕ) : ((s.routers j).cc 0).route = (0, 0, 0, 0) := by
  rcases h.routes j 0 with h0 | ⟨c, k, hs, hslot, _⟩
  · exact h0
  · rw [h.slot_eq hs.1] at hslot
    exact absurd hslot (by omega)

theorem outs_placed (hlink : s.links src (s.proxy.rinfoPort index) = m::ms)
    (hr : receive aes (s.routers index) m src = .ok (r, outs)) (hout : .udp port m' ∈ outs) :
    Placed aes s.proxy (update s.routers index r) (s.proxy.rinfoPort index) port m' := by
  have hh := receive_handles hr
  cases h.messages src (s.proxy.rinfoPort index) m (by simp [hlink]) with
  | build c k hs _ _ _ hm =>
    obtain ⟨_, _, _, _, _, houts⟩ := h.own_message hs hm hlink hr
    exact houts port m' hout
  | relay c k packet hs _ hport hm hflow =>
    exact h.outs_relay hs (h.hop_of_port hs hport) hm hflow hh hout
  | back c k hs _ hport hid ht hroute =>
    cases k with
    | zero => exact absurd hport (h.config.port_ne index)
    | succ k =>
      have hindex : index = (s.proxy.plan c).hop k :=
        h.hop_of_port ⟨hs.1, Nat.lt_of_succ_lt hs.2⟩ hport
      exact h.outs_back hs hindex hid ht hroute hh hout
  | stray _ hcid ht =>
    obtain ⟨rfl, rfl, hcid', htype⟩ := hh.back_out (.inr ht) hout
    have hzero : ((((s.routers index).seen m.cid).cc (slot m.cid)).route) = (0, 0, 0, 0) := by
      rw [hcid]
      exact h.route_zero index
    refine .stray (congrArg (fun e => e.2.2.1) hzero) ?_ (htype.trans ht)
    rw [hcid']
    exact congrArg (fun e => e.1) hzero

theorem router_delivered (hlink : s.links src (s.proxy.rinfoPort index) = m::ms)
    (hr : receive aes (s.routers index) m src = .ok (r, outs)) :
    RouterOk index r ∧ ∀ i, RouteFor s.proxy index i (r.cc i).route ∧
      RowFor s.proxy index i ((net.routers index).aesKey i) (r.aesKey i) ∧
      (((s.routers index).cc i).iid ≠ 0 → (r.cc i).route = ((s.routers index).cc i).route) := by
  have hh := receive_handles hr
  have hplaced := h.messages src (s.proxy.rinfoPort index) m (by simp [hlink])
  have hok := h.routers index
  obtain ⟨hindex, _, hseq⟩ := hh.fixed.1
  refine ⟨⟨hindex.trans hok.index, ?_, hh.row_length hok.row_length⟩, fun i => ?_⟩
  · rw [hseq]
    exact max_lt hok.seq_lt (h.slot_lt hplaced)
  have hkept : ((s.routers index).cc i).iid ≠ 0 →
      (r.cc i).route = ((s.routers index).cc i).route := by
    intro hne
    rcases hh.route_cases i with heq | ⟨_, _, hfree, _⟩
    · exact heq
    · exact absurd hfree hne
  have hold := h.routes index i
  have holdRow := h.rows index i
  by_cases hi : i = slot m.cid
  · cases hb : builds (slot m.cid) m with
    | false =>
      obtain ⟨hkeys, hroutes⟩ := hh.spares hb
      rw [hroutes i, hkeys]
      exact ⟨hold, holdRow, fun _ => rfl⟩
    | true =>
      obtain ⟨c, k, hs, hid, hslot⟩ := hplaced.circuit_of_builds hb
      rw [hslot] at hb hi
      obtain ⟨k', hs', rfl, hrow, hroute, _⟩ := h.own_message hs hb hlink hr
      subst hi
      refine ⟨?_, .inr ⟨c, k', hs', rfl, rfl, hrow⟩, hkept⟩
      rcases hh.route_cases (s.proxy.plan c).slot with heq | ⟨_, _, _, port, heq⟩
      · rw [heq]
        exact hold
      · refine .inr ⟨c, k', hs', rfl, rfl, hroute ?_⟩
        have hiid : (r.cc (s.proxy.plan c).slot).iid = m.cid := congrArg Prod.fst heq
        rw [hiid, hid]
        exact ((h.sound hs.1).idAt_pos hs.2).ne'
  · obtain ⟨hcc, hkey⟩ := hh.fixed.2 i hi
    rw [hcc, hkey]
    exact ⟨hold, holdRow, fun _ => rfl⟩

theorem router_step (hproxy : s'.proxy = s.proxy)
    (hrouters : s'.routers = update s.routers index r) (hok : RouterOk index r)
    (hslots : ∀ i, RouteFor s.proxy index i (r.cc i).route ∧
      RowFor s.proxy index i ((net.routers index).aesKey i) (r.aesKey i) ∧
      (((s.routers index).cc i).iid ≠ 0 → (r.cc i).route = ((s.routers index).cc i).route))
    (hmessages : ∀ a b m, m ∈ s'.links a b → m ∈ s.links a b ∨
      Placed aes s.proxy (update s.routers index r) a b m)
    (hprogress : ∀ c < s.proxy.numberPath, ∀ q, Progress aes (s.proxy.plan c) s q →
      ∃ q', q' 0 = q 0 ∧ Progress aes (s.proxy.plan c) s' q') : Separated aes net s' := by
  have hg := grows_of_router hproxy hrouters fun i => (hslots i).2.2
  have hrouter : ∀ (P : ℕ → Router → Prop), P index r → (∀ j, P j (s.routers j)) →
      ∀ j, P j (s'.routers j) := by
    intro P hr hall j
    rw [hrouters]
    by_cases hj : j = index
    · subst hj
      rw [update_self]
      exact hr
    · rw [update_of_ne hj]
      exact hall j
  constructor
  · rw [hproxy]
    exact h.config
  · rw [hproxy]
    exact h.few
  · rw [hproxy]
    exact h.drawn
  · rw [hproxy]
    exact h.unused
  · rw [hproxy]
    exact h.atWork
  · exact hrouter RouterOk hok h.routers
  · rw [hproxy]
    exact hrouter (fun j r => ∀ i, RouteFor s.proxy j i (r.cc i).route)
      (fun i => (hslots i).1) h.routes
  · rw [hproxy]
    exact hrouter (fun j r => ∀ i, RowFor s.proxy j i ((net.routers j).aesKey i) (r.aesKey i))
      (fun i => (hslots i).2.1) h.rows
  · intro a b m hm
    rcases hmessages a b m hm with hold | hnew
    · exact h.placed_grows hg (h.messages a b m hold)
    · rw [hproxy, hrouters]
      exact hnew
  · rw [hproxy]
    intro c hc
    obtain ⟨q, hq, hround⟩ := h.progress c hc
    obtain ⟨q', h0, hq'⟩ := hprogress c hc q hq
    exact ⟨q', hq', by rw [h0]; exact hround⟩

theorem deliver (hs : OnionNetwork.deliver aes s src index = .ok s') : Separated aes net s' := by
  have hproxy := deliver_proxy hs
  have hprogress : ∀ c < s.proxy.numberPath, ∀ q, Progress aes (s.proxy.plan c) s q →
      ∃ q', q' 0 = q 0 ∧ Progress aes (s.proxy.plan c) s' q' :=
    fun c hc q hq => hq.deliver (h.sound hc) rfl hs
  obtain ⟨m, ms, r, outs, hlink, hr, rfl⟩ := deliver_spec hs
  obtain ⟨hok, hslots⟩ := h.router_delivered hlink hr
  refine h.router_step hproxy (sendAll_fixed _ _).1 hok hslots ?_ hprogress
  intro a b m' hm'
  rcases mem_links_sendAll hm' with hold | ⟨rfl, hout⟩
  · exact .inl (mem_links_pop hold)
  · exact .inr (h.outs_placed hlink hr hout)

theorem answer {x : Handled} (hs : handled s index x = .ok s')
    (hx : ∀ r outs, x = .ok (r, outs) → Answers (s.routers index) r outs) :
    Separated aes net s' := by
  have hproxy := handled_proxy hs
  have hprogress : ∀ c < s.proxy.numberPath, ∀ q, Progress aes (s.proxy.plan c) s q →
      ∃ q', q' 0 = q 0 ∧ Progress aes (s.proxy.plan c) s' q' :=
    fun c hc q hq => ⟨q, rfl, hq.answer hs hx⟩
  obtain ⟨r, outs, rfl, rfl⟩ := handled_spec hs
  obtain ⟨rfl, houts⟩ := hx r outs rfl
  refine h.router_step hproxy (sendAll_fixed _ _).1 (h.routers index)
    (fun i => ⟨h.routes index i, h.rows index i, fun _ => rfl⟩) ?_ hprogress
  intro a b m' hm'
  rcases mem_links_sendAll hm' with hold | ⟨rfl, hout⟩
  · exact .inl hold
  right
  rcases houts with rfl | ⟨i, _, payload, rfl⟩
  · exact absurd hout nofun
  · obtain ⟨rfl, rfl⟩ : b = _ ∧ m' = _ := by simpa using hout
    rw [update_eq_self]
    rcases h.routes index i with h0 | ⟨c, k, hstage, rfl, rfl, hroute⟩
    · exact .stray (congrArg (fun e => e.2.2.1) h0) (congrArg (fun e => e.1) h0) rfl
    · exact .back c k hstage rfl (congrArg (fun e => e.2.2.1) hroute)
        (congrArg (fun e => e.1) hroute) (.inr rfl) hroute

end Separated

/-! ### Steps of the proxy -/

theorem Config.update (h : Config p) (state : ProxyAt) (oldSrc : Bytes) :
    Config { p with state := state, oldSrc := oldSrc } := { h with }

theorem Config.addFlow (h : Config p) (packet : Bytes) (hops : ℕ → ℕ) :
    Config (addFlow p packet hops) := { h with }

namespace Separated

variable {aes : Aes} {net s s' : Network} {src c round : ℕ} {packet : Bytes}
  (h : Separated aes net s)

include h

theorem proxy_step {state : ProxyAt} {oldSrc : Bytes}
    (hproxy : s'.proxy = { s.proxy with state := state, oldSrc := oldSrc })
    (hrouters : s'.routers = s.routers) (hwork : AtWork s'.proxy)
    (hstate : ∀ c round packet, state ≠ .creating c round packet)
    (hmessages : ∀ a b m, m ∈ s'.links a b → m ∈ s.links a b ∨ Placed aes s'.proxy s'.routers a b m)
    (hprogress : ∀ c < s.proxy.numberPath, ∀ q, Progress aes (s.proxy.plan c) s q →
      Progress aes (s.proxy.plan c) s' q) : Separated aes net s' := by
  have hg : Grows s s' := by
    constructor
    · rw [hproxy]
    · rw [hproxy]
    · intro c _
      rw [hproxy]
      rfl
    · intro c _
      rw [hproxy]
    · intro j i _
      rw [hrouters]
  constructor
  · rw [hproxy]
    exact h.config.update _ _
  · rw [hproxy]
    exact h.few
  · rw [hproxy]
    exact fun c hc => (h.drawn c hc).of_plan rfl rfl
  · rw [hproxy]
    exact h.unused
  · exact hwork
  · rw [hrouters]
    exact h.routers
  · rw [hrouters]
    exact fun j i => (h.routes j i).grows hg
  · rw [hrouters]
    exact fun j i => (h.rows j i).grows hg
  · intro a b m hm
    rcases hmessages a b m hm with hold | hnew
    · exact h.placed_grows hg (h.messages a b m hold)
    · exact hnew
  · rw [hproxy]
    intro c hc
    obtain ⟨q, hq, _⟩ := h.progress c hc
    exact ⟨q, hprogress c hc q hq, fun round packet hcreating =>
      absurd hcreating (hstate c round packet)⟩

theorem sendRound (hc : c < s.proxy.numberPath) (hflow : (s.proxy.flow c).Holds packet)
    (hlt : round < s.proxy.numHops)
    (hq : ∃ q, Progress aes (s.proxy.plan c) s q ∧ q 0 = 2*round) :
    Separated aes net (sendRound aes s c (round+1) packet) := by
  have hg : Grows s (OnionNetwork.sendRound aes s c (round+1) packet) :=
    ⟨Nat.le_refl _, rfl, fun _ _ => rfl, fun _ _ => rfl, fun _ _ _ => rfl⟩
  constructor
  · exact h.config.update _ _
  · exact h.few
  · exact fun d hd => (h.drawn d hd).of_plan rfl rfl
  · exact h.unused
  · exact ⟨hc, hflow⟩
  · exact h.routers
  · exact fun j i => (h.routes j i).grows hg
  · exact fun j i => (h.rows j i).grows hg
  · intro a b m hm
    rcases mem_links_send hm with hold | ⟨⟨rfl, rfl⟩, hnew⟩
    · exact h.placed_grows hg (h.messages a b m hold)
    · rw [keyMessage_eq, extMessage_eq] at hnew
      have hstage : Stage s.proxy c 0 := ⟨hc, Nat.zero_lt_of_lt hlt⟩
      rcases mem_cons.mp hnew with rfl | hnew
      · exact .build c 0 hstage rfl rfl rfl Plan.builds_msgAt
      · rw [mem_singleton.mp hnew]
        exact .build c 0 hstage rfl rfl rfl Plan.builds_msgAt
  · intro d hd
    by_cases hdc : d = c
    · subst hdc
      obtain ⟨q, hq, h0⟩ := hq
      refine ⟨fed q 2, hq.sendRound (h.sound hc) h0 hlt, ?_⟩
      rintro _ _ ⟨rfl, rfl⟩
      rw [fed_zero, h0]
      exact ⟨rfl, hlt⟩
    · obtain ⟨q, hq, _⟩ := h.progress d hd
      refine ⟨q, hq.frame hq.hops ?_, fun round packet hcreating => ?_⟩
      · have hne : (s.proxy.plan c).slot ≠ (s.proxy.plan d).slot := by
          rw [h.slot_eq hc, h.slot_eq hd]
          omega
        apply building_send_other
        intro m hm
        rw [keyMessage_eq, extMessage_eq] at hm
        rcases mem_cons.mp hm with rfl | hm
        · exact Plan.not_builds_msgAt hne
        · rw [mem_singleton.mp hm]
          exact Plan.not_builds_msgAt hne
      · injection hcreating with hcd
        exact absurd hcd.symm hdc

theorem buildable (hfew : s.proxy.numberPath < 9) (hdrawn : OnionNetwork.drawn s.proxy hops = true)
    :
    Buildable ((addFlow s.proxy packet hops).plan s.proxy.numberPath) s := by
  have hslot : ((addFlow s.proxy packet hops).plan s.proxy.numberPath).slot =
      s.proxy.numberPath+1 := plan_slot hfew
  constructor
  · exact (h.config.addFlow packet hops).sound (drawn_addFlow hdrawn) hfew
  · exact h.config.hops_pos
  · intro k _
    have hok := h.routers (((addFlow s.proxy packet hops).plan s.proxy.numberPath).hop k)
    constructor
    · exact hok.index
    · exact Nat.lt_trans hok.seq_lt (by decide)
    · exact hok.row_length _
    · intro i hi
      rcases h.routes _ i with h0 | ⟨c, k, hs, rfl, _, hroute⟩
      · exact .inl (congrArg (fun e => e.1) h0)
      · have hiid := congrArg (fun e => e.1) hroute
        right
        change slot (Circuit.route _).1 ≠ _
        rw [hiid]
        change slot ((s.proxy.plan c).idAt k) ≠ _
        rw [Plan.slot_idAt]
        exact hi
    · exact fun hlt => absurd hlt (by omega)
    · intro _
      rcases h.routes _ (s.proxy.numberPath+1) with h0 | ⟨c, k, hs, hi, _⟩
      · rw [hslot]
        exact congrArg (fun e => e.1) h0
      · have := hs.1
        rw [h.slot_eq hs.1] at hi
        omega
    · exact fun hle => absurd hle (by omega)
  · intro a b
    apply filter_eq_nil_iff.mpr
    intro m hm hb
    have hs := (of_decide_eq_true hb).1
    rw [← hs] at hb
    obtain ⟨c, k, hstage, _, hslot'⟩ := (h.messages a b m hm).circuit_of_builds hb
    have := hstage.1
    rw [hs, hslot, h.slot_eq hstage.1] at hslot'
    omega

theorem addFlow (hfew : s.proxy.numberPath < 9) (hidle : s.proxy.state = .idle)
    (hdrawn : OnionNetwork.drawn s.proxy hops = true) :
    Separated aes net (s.setProxy (addFlow s.proxy packet hops)) := by
  have hplan : ∀ c < s.proxy.numberPath,
      (OnionNetwork.addFlow s.proxy packet hops).plan c = s.proxy.plan c :=
    fun c hc => plan_addFlow hc
  have hg : Grows s (s.setProxy (OnionNetwork.addFlow s.proxy packet hops)) :=
    ⟨Nat.le_succ _, rfl, hplan, fun c hc => flow_addFlow hc, fun _ _ _ => rfl⟩
  constructor
  · exact h.config.addFlow packet hops
  · exact hfew
  · intro c hc
    rcases Nat.lt_succ_iff_lt_or_eq.mp hc with hc | rfl
    · exact (h.drawn c hc).of_plan (hplan c hc) rfl
    · exact drawn_addFlow hdrawn
  · intro c hc
    have hne : c ≠ s.proxy.numberPath := by
      change s.proxy.numberPath+1 ≤ c at hc
      omega
    change (update s.proxy.flow _ _ c).protocol = 0
    rw [update_of_ne hne]
    exact h.unused c (Nat.le_of_succ_le hc)
  · change AtWork { OnionNetwork.addFlow s.proxy packet hops with state := s.proxy.state }
    rw [hidle]
    trivial
  · exact h.routers
  · exact fun j i => (h.routes j i).grows hg
  · exact fun j i => (h.rows j i).grows hg
  · exact fun a b m hm => h.placed_grows hg (h.messages a b m hm)
  · intro c hc
    have hstate : ∀ round packet', s.proxy.state ≠ .creating c round packet' := by
      rw [hidle]
      exact nofun
    rcases Nat.lt_succ_iff_lt_or_eq.mp hc with hc | rfl
    · obtain ⟨q, hq, _⟩ := h.progress c hc
      refine ⟨q, ?_, fun round packet' hcreating => absurd hcreating (hstate round packet')⟩
      change Progress aes ((OnionNetwork.addFlow s.proxy packet hops).plan c) _ q
      rw [hplan c hc]
      exact hq.frame hq.hops rfl
    · have hstart : Progress aes
          ((OnionNetwork.addFlow s.proxy packet hops).plan s.proxy.numberPath) s unsent :=
        (h.buildable hfew hdrawn).progress
      exact ⟨unsent, hstart.frame hstart.hops rfl, fun round packet' hcreating =>
        absurd hcreating (hstate round packet')⟩

theorem tunnel (hs : OnionNetwork.tunnel aes s packet hops = .ok s')
    (hfew : flowOf s.proxy packet = none → s.proxy.numberPath < 9) : Separated aes net s' := by
  obtain ⟨⟨hidle, hlength, hproto⟩, ⟨c, hflow, rfl⟩ | ⟨hnone, hdrawn, _, rfl⟩⟩ := tunnel_spec hs
  · have hholds := flowOf_holds hlength hflow
    have hc : c < s.proxy.numberPath := by
      by_contra hle
      have := h.unused c (Nat.le_of_not_lt hle)
      rw [hholds.2.2.2.1] at this
      omega
    have hproxy : (s.setProxy { s.proxy with state := .created c packet }).proxy =
      { s.proxy with state := .created c packet, oldSrc := s.proxy.oldSrc } := rfl
    refine h.proxy_step hproxy rfl ⟨hc, hholds⟩ (fun _ _ _ => nofun) (fun a b m hm => .inl hm) ?_
    exact fun d hd q hq => hq.frame hq.hops rfl
  · have hadd : Separated aes net (s.setProxy (OnionNetwork.addFlow s.proxy packet hops)) :=
      h.addFlow (hfew hnone) hidle hdrawn
    have hflow : (update s.proxy.flow s.proxy.numberPath (newFlow packet)
        s.proxy.numberPath).Holds packet := by
      rw [update_self]
      exact newFlow_holds hlength
    have hstart : Progress aes
        ((OnionNetwork.addFlow s.proxy packet hops).plan s.proxy.numberPath) s unsent :=
      (h.buildable (hfew hnone) hdrawn).progress
    exact hadd.sendRound (Nat.lt_succ_self _) hflow h.config.hops_pos
      ⟨unsent, hstart.frame hstart.hops rfl, rfl⟩

theorem relay (hs : OnionNetwork.relay aes s = .ok s') : Separated aes net s' := by
  obtain ⟨c, packet, hstate, rfl⟩ := relay_spec hs
  have hwork := h.atWork.created hstate
  split_ifs
  · refine h.proxy_step rfl rfl trivial (fun _ _ _ => nofun) ?_ ?_
    · intro a b m hm
      rcases mem_links_send hm with hold | ⟨⟨rfl, rfl⟩, hnew⟩
      · exact .inl hold
      · rw [mem_singleton.mp hnew, relayMessage, encryptMultiround_eq]
        exact .inr (.relay c 0 packet ⟨hwork.1, h.config.hops_pos⟩ rfl rfl rfl hwork.2)
    · intro d hd q hq
      refine hq.frame hq.hops (building_send_other ?_)
      intro m hm
      rw [mem_singleton.mp hm]
      simp [builds, relayMessage]
  · exact h.proxy_step rfl rfl trivial (fun _ _ _ => nofun) (fun a b m hm => .inl hm)
      fun d hd q hq => hq.frame hq.hops rfl

theorem pop_proxy {m : Message} {ms : List Message} (hlink : s.links src s.proxy.port = m::ms) :
    Separated aes net (s.pop src s.proxy.port) :=
  { h with
    messages := fun a b m hm => h.messages a b m (mem_links_pop hm)
    progress := fun c hc => by
      obtain ⟨q, hq, hround⟩ := h.progress c hc
      exact ⟨q, hq.pop_proxy (h.sound hc) hlink, hround⟩ }

theorem reply (hs : OnionNetwork.reply aes s src = .ok s') : Separated aes net s' := by
  obtain ⟨m, ms, hlink, ⟨c, round, packet, hstate, rfl⟩ | ⟨_, out, rfl⟩⟩ := reply_spec hs
  · have hpop := h.pop_proxy hlink
    have hwork := h.atWork.creating hstate
    obtain ⟨q, hq, hround⟩ := hpop.progress c hwork.1
    obtain ⟨h0, hle⟩ := hround round packet hstate
    split_ifs with hlast
    · have hproxy : ((s.pop src s.proxy.port).setProxy
          { s.proxy with state := .created c packet }).proxy =
        { s.proxy with state := .created c packet, oldSrc := s.proxy.oldSrc } := rfl
      exact hpop.proxy_step hproxy rfl hwork (fun _ _ _ => nofun) (fun a b m hm => .inl hm)
        fun d hd q hq => hq.frame hq.hops rfl
    · exact hpop.sendRound hwork.1 hwork.2 (Nat.lt_of_le_of_ne hle hlast) ⟨q, hq, h0⟩
  · have hpop := h.pop_proxy hlink
    exact { hpop with
      progress := fun c hc => by
        obtain ⟨q, hq, hround⟩ := hpop.progress c hc
        exact ⟨q, hq.frame hq.hops rfl, hround⟩ }

end Separated

/-! ### Runs with few circuits -/

/-- A packet of a new flow comes only as long as fewer than nine circuits have been built. -/
def FewCircuits (s : Network) : NetEvent → Prop
  | .tunnel packet _ => flowOf s.proxy packet = none → s.proxy.numberPath < 9
  | _ => True

variable {aes : Aes} {net : Network}

theorem Separated.step {s s' : Network} (h : Separated aes net s) {e : NetEvent}
    (he : FewCircuits s e) (hs : NetStep aes s e s') : Separated aes net s' := by
  cases e with
  | deliver src index => exact h.deliver hs
  | reply src => exact h.reply hs
  | tunnel packet hops => exact h.tunnel hs he
  | relay => exact h.relay hs
  | rawIcmp index packet => exact h.answer hs fun r outs hr => rawMitToTunnle_answers hr
  | rawTcp index packet => exact h.answer hs fun r outs hr => handleRawsockTcp_answers hr

/-- A network in which nothing has happened yet. -/
structure Fresh (net : Network) : Prop where
  config : Config net.proxy
  idle : net.proxy.state = .idle
  numberPath : net.proxy.numberPath = 0
  flows : ∀ c, (net.proxy.flow c).protocol = 0
  routers : ∀ j, RouterOk j (net.routers j)
  routes : ∀ j i, ((net.routers j).cc i).route = (0, 0, 0, 0)
  links : ∀ a b, net.links a b = []

theorem Fresh.separated (h : Fresh net) : Separated aes net net where
  config := h.config
  few := by
    rw [h.numberPath]
    exact Nat.zero_le _
  drawn c hc := by
    rw [h.numberPath] at hc
    exact absurd hc (Nat.not_lt_zero c)
  unused c _ := h.flows c
  atWork := by
    unfold AtWork
    rw [h.idle]
    trivial
  routers := h.routers
  routes j i := .inl (h.routes j i)
  rows j i := .inl rfl
  messages a b m hm := by
    rw [h.links] at hm
    exact absurd hm not_mem_nil
  progress c hc := by
    rw [h.numberPath] at hc
    exact absurd hc (Nat.not_lt_zero c)

theorem Fresh.run {s : Network} (h : Fresh net) {es : List NetEvent}
    (hrun : Run (NetStep aes) FewCircuits net es s) : Separated aes net s :=
  hrun.invariant (fun _ _ _ he hs h => h.step he hs) h.separated

end SystemsProjects.OnionNetwork
