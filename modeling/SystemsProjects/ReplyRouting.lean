import SystemsProjects.CircuitSeparation

/-!
# The way back of answers

The exit router keeps the destination of the last packet of a circuit in its entry. For an answer
from the ICMP socket it looks for an entry with the source address of the answer, and for one from
the TCP socket for the address and the port.
-/
namespace SystemsProjects.OnionNetwork

open Function GuardedRuns IpPackets OnionLayers OnionRouters List

/-! ### Destinations -/

def exitOf (p : Proxy) (c : ℕ) : ℕ := (p.plan c).hop (p.numHops-1)

/-- Answers for the two flows can be told apart by one router. -/
def Flow.Apart (f g : Flow) : Prop :=
  f.dstIp ≠ g.dstIp ∨ f.protocol = 6 ∧ g.protocol = 6 ∧ f.dstPort ≠ g.dstPort

def Flow.InEntry (f : Flow) (e : Circuit) : Prop :=
  e.oip = f.dstIp ∧ (f.protocol = 6 → e.lastHopPort = f.dstPort)

/-- A new flow leads to a circuit only as long as there are fewer than nine, and if its
destination is an address and differs from those of the flows that leave at the same router. -/
def Distinguished (s : Network) : NetEvent → Prop
  | .tunnel packet hops => flowOf s.proxy packet = none →
    s.proxy.numberPath < 9 ∧ daddr packet ≠ [0, 0, 0, 0] ∧
    ∀ d < s.proxy.numberPath, exitOf s.proxy d = hops (s.proxy.numHops-1) →
      (s.proxy.flow d).Apart (newFlow packet)
  | _ => True

theorem Distinguished.few {s : Network} {e : NetEvent} (h : Distinguished s e) :
    FewCircuits s e := by
  cases e with
  | tunnel packet hops => exact fun hnone => (h hnone).1
  | _ => trivial

theorem Flow.Apart.symm {f g : Flow} (h : f.Apart g) : g.Apart f :=
  h.imp Ne.symm fun h => ⟨h.2.1, h.1, h.2.2.symm⟩

/-- An entry has been used for a packet of a circuit that ends here. -/
def UsedBy (p : Proxy) (c : ℕ) (e : Circuit) : Prop :=
  (p.flow c).InEntry e ∧ e.route = (p.plan c).route (p.numHops-1)

/-- A destination is unused or the one of the flow whose circuit has this slot and ends here. -/
def DestFor (p : Proxy) (j i : ℕ) (e : Circuit) : Prop :=
  e.oip = [0, 0, 0, 0] ∨ ∃ c < p.numberPath, i = (p.plan c).slot ∧ j = exitOf p c ∧ UsedBy p c e

structure ExitsApart (s : Network) : Prop where
  unmarked : ∀ i, 1 ≤ i → i ≤ s.proxy.numNodes → s.proxy.rinfoPort i ≠ lastHop
  entries : ∀ j i, DestFor s.proxy j i ((s.routers j).cc i)
  addresses : ∀ c < s.proxy.numberPath, (s.proxy.flow c).dstIp ≠ [0, 0, 0, 0]
  apart : ∀ c d, c < s.proxy.numberPath → d < s.proxy.numberPath → c ≠ d →
    exitOf s.proxy c = exitOf s.proxy d → (s.proxy.flow c).Apart (s.proxy.flow d)

/-- The exit router of a circuit has sent out a packet of its flow. -/
def Requested (s : Network) (c : ℕ) : Prop :=
  UsedBy s.proxy c ((s.routers (exitOf s.proxy c)).cc (s.proxy.plan c).slot)

/-! ### Packets that leave the network -/

section Leaving

variable {aes : Aes} {net s : Network} {src index c k : ℕ} {m : Message} {ms : List Message}
  {r : Router} {outs : List Output} {packet : Bytes}

theorem holds_inEntry {f : Flow} {e : Circuit} (h : f.Holds packet)
    (hoip : e.oip = daddr (setSource packet [0, 0, 0, 0]))
    (hport : protocol (setSource packet [0, 0, 0, 0]) = 6 →
      e.lastHopPort = tcpDest (setSource packet [0, 0, 0, 0])) : f.InEntry e := by
  obtain ⟨hlength, _, hdst, hproto, hdport⟩ := h
  have hlong : 16 ≤ packet.length := Nat.le_trans (by decide) hlength
  constructor
  · rw [hoip, hdst]
    exact field_setSource hlong rfl (by decide) 4
  · intro h6
    rw [hproto] at h6
    rw [hport ((byteAt_setSource hlong rfl (by decide)).trans h6), hdport h6]
    exact field_setSource hlong rfl (by decide) 2

theorem relay_built (h : Separated aes net s) (hs : Stage s.proxy c k)
    (hm : m.msgType = .encryptedRelay) (hid : m.cid = (s.proxy.plan c).idAt k)
    (hh : Handles aes ((s.routers ((s.proxy.plan c).hop k)).seen m.cid) m src r outs) :
    ∃ q, 2*k+2 ≤ q ∧
      HopState (s.proxy.plan c) k q ((s.routers ((s.proxy.plan c).hop k)).seen m.cid) := by
  obtain ⟨q, hq⟩ := h.hopState hs
  have hseen := hq.seen m.cid
  have hknown := hh.relay_known hm
  rw [hid] at hknown hseen ⊢
  exact ⟨q, of_decide_eq_true (Except.ok.inj
    ((hseen.known_iid (h.sound hs.1) hs.2).symm.trans hknown)), hseen⟩

theorem relay_at_exit (h : Separated aes net s) (hs : Stage s.proxy c k)
    (hlast : k+1 = s.proxy.numHops)
    (hm : m = ⟨.encryptedRelay, (s.proxy.plan c).idAt k, (s.proxy.plan c).layers aes k
      s.proxy.numHops (setSource packet [0, 0, 0, 0])⟩)
    (hflow : (s.proxy.flow c).Holds packet)
    (hh : Handles aes ((s.routers ((s.proxy.plan c).hop k)).seen m.cid) m src r outs) :
    UsedBy s.proxy c (r.cc (s.proxy.plan c).slot) := by
  have hp := h.sound hs.1
  subst hm
  obtain ⟨q, hbuilt, hseen⟩ := relay_built h hs rfl rfl hh
  have hslot : slot ((s.proxy.plan c).idAt k) = (s.proxy.plan c).slot := Plan.slot_idAt
  have hout : (s.proxy.plan c).outPort k = lastHop := if_pos hlast
  obtain ⟨clear, hclear, hoip, hport⟩ := hh.exit_dest rfl (by
    rw [hslot, hseen.oport_eq hbuilt, hout])
  have hlayer := hclear.symm.trans (hseen.decryptAt_layers hp (by omega) hs.2)
  rw [Except.ok.inj hlayer, hlast, Plan.layers_self] at hoip hport
  rw [hslot] at hoip hport
  refine ⟨holds_inEntry hflow hoip hport, ?_⟩
  rw [(hh.spares (by simp [builds])).2, hseen.built hbuilt, ← hlast, Nat.add_sub_cancel]

theorem entry_delivered (h : Separated aes net s) (hx : ExitsApart s)
    (hlink : s.links src (s.proxy.rinfoPort index) = m::ms)
    (hr : receive aes (s.routers index) m src = .ok (r, outs)) (i : ℕ) :
    (r.cc i).oip = ((s.routers index).cc i).oip ∧
      (r.cc i).lastHopPort = ((s.routers index).cc i).lastHopPort ∨
    ∃ c < s.proxy.numberPath, i = (s.proxy.plan c).slot ∧ index = exitOf s.proxy c ∧
      UsedBy s.proxy c (r.cc i) := by
  have hh := receive_handles hr
  rcases hh.dest_cases i with hsame | ⟨rfl, ht, hlast⟩
  · exact .inl hsame
  · right
    cases h.messages src (s.proxy.rinfoPort index) m (by simp [hlink]) with
    | build c k hs _ _ _ hb => simp [builds, ht] at hb
    | back c k _ _ _ _ hback => rcases hback with hback | hback <;> simp [hback] at ht
    | stray _ _ hback => simp [hback] at ht
    | relay c k packet hs _ hto hm hflow =>
      obtain rfl := h.hop_of_port hs hto
      have hid : m.cid = (s.proxy.plan c).idAt k := by rw [hm]
      have hslot : slot m.cid = (s.proxy.plan c).slot := by rw [hid, Plan.slot_idAt]
      obtain ⟨q, hbuilt, hseen⟩ := relay_built h hs ht hid hh
      have hk : k+1 = s.proxy.numHops := by
        by_contra hk
        have hrange := (h.drawn c hs.1).range (k+1) (Nat.lt_of_le_of_ne hs.2 hk)
        have hout : (s.proxy.plan c).outPort k = (s.proxy.plan c).portAt (k+2) := if_neg hk
        rw [hslot, hseen.oport_eq hbuilt, hout] at hlast
        exact hx.unmarked _ hrange.1 hrange.2 hlast
      have hexit : (s.proxy.plan c).hop k = exitOf s.proxy c := by
        unfold exitOf
        rw [← hk, Nat.add_sub_cancel]
      rw [hslot]
      exact ⟨c, hs.1, rfl, hexit, relay_at_exit h hs hk hm hflow hh⟩

end Leaving

/-! ### Steps -/

section Steps

variable {aes : Aes} {net s s' : Network} {e : NetEvent} {c : ℕ}

theorem step_proxy (hs : NetStep aes s e s') :
    (∃ state oldSrc, s'.proxy = { s.proxy with state := state, oldSrc := oldSrc }) ∨
    ∃ packet hops state, e = .tunnel packet hops ∧ flowOf s.proxy packet = none ∧
      s'.proxy = { addFlow s.proxy packet hops with state := state } := by
  cases e with
  | deliver src index => exact .inl ⟨_, _, deliver_proxy hs⟩
  | reply src =>
    obtain ⟨_, _, _, ⟨_, _, _, _, rfl⟩ | ⟨_, _, rfl⟩⟩ := reply_spec hs
    · split_ifs
      · exact .inl ⟨_, _, rfl⟩
      · exact .inl ⟨_, _, rfl⟩
    · exact .inl ⟨_, _, rfl⟩
  | tunnel packet hops =>
    obtain ⟨_, ⟨c, _, rfl⟩ | ⟨hnone, _, _, rfl⟩⟩ := tunnel_spec hs
    · exact .inl ⟨_, _, rfl⟩
    · exact .inr ⟨packet, hops, _, rfl, hnone, rfl⟩
  | relay =>
    obtain ⟨c, packet, _, rfl⟩ := relay_spec hs
    split_ifs
    · exact .inl ⟨_, _, rfl⟩
    · exact .inl ⟨_, _, rfl⟩
  | rawIcmp index packet => exact .inl ⟨_, _, handled_proxy hs⟩
  | rawTcp index packet => exact .inl ⟨_, _, handled_proxy hs⟩

theorem step_routers (hs : NetStep aes s e s') (he : ∀ src index, e ≠ .deliver src index) :
    s'.routers = s.routers := by
  cases e with
  | deliver src index => exact absurd rfl (he src index)
  | reply src => exact reply_routers hs
  | tunnel packet hops => exact tunnel_routers hs
  | relay => exact relay_routers hs
  | rawIcmp index packet => exact answer_routers hs fun r outs hr => rawMitToTunnle_answers hr
  | rawTcp index packet => exact answer_routers hs fun r outs hr => handleRawsockTcp_answers hr

theorem UsedBy.keep {p : Proxy} {e e' : Circuit} (h : UsedBy p c e)
    (hdest : e'.oip = e.oip ∧ e'.lastHopPort = e.lastHopPort) (hroute : e'.route = e.route) :
    UsedBy p c e' := by
  unfold UsedBy Flow.InEntry
  rw [hdest.1, hdest.2, hroute]
  exact h

theorem UsedBy.iid_ne (h : Separated aes net s) (hc : c < s.proxy.numberPath) {e : Circuit}
    (hu : UsedBy s.proxy c e) : e.iid ≠ 0 := by
  have hid : e.iid = (s.proxy.plan c).idAt (s.proxy.numHops-1) := congrArg (fun e => e.1) hu.2
  rw [hid]
  exact ((h.sound hc).idAt_pos (Nat.sub_lt h.config.hops_pos Nat.zero_lt_one)).ne'

theorem ExitsApart.deliver (hx : ExitsApart s) (h : Separated aes net s) {src index : ℕ}
    (hs : deliver aes s src index = .ok s') :
    ExitsApart s' ∧ ∀ c < s.proxy.numberPath, Requested s c → Requested s' c := by
  have hproxy := deliver_proxy hs
  obtain ⟨m, ms, r, outs, hlink, hr, rfl⟩ := deliver_spec hs
  have hrouters := (sendAll_fixed (s := (s.pop src (s.proxy.rinfoPort index)).setRouter index r)
    (s.proxy.rinfoPort index) outs).1
  have hslots := (h.router_delivered hlink hr).2
  have hentry := entry_delivered h hx hlink hr
  -- An entry of the router is kept if it is in use, or is used by the circuit in its slot.
  have hkeep : ∀ c < s.proxy.numberPath, ∀ i, UsedBy s.proxy c ((s.routers index).cc i) →
      i = (s.proxy.plan c).slot → UsedBy s.proxy c (r.cc i) := by
    intro c hc i hu hi
    rcases hentry i with hsame | ⟨d, hd, hid, _, hused⟩
    · exact hu.keep hsame ((hslots i).2.2 (UsedBy.iid_ne h hc hu))
    · obtain rfl := h.slot_inj hc hd (hi.symm.trans hid)
      exact hused
  constructor
  · constructor
    · rw [hproxy]
      exact hx.unmarked
    · intro j i
      rw [hproxy, hrouters]
      change DestFor s.proxy j i ((update s.routers index r j).cc i)
      by_cases hj : j = index
      · subst hj
        rw [update_self]
        rcases hentry i with hsame | ⟨c, hc, hi, hexit, hused⟩
        · rcases hx.entries j i with h0 | ⟨c, hc, hi, hexit, hused⟩
          · exact .inl (hsame.1.trans h0)
          · exact .inr ⟨c, hc, hi, hexit, hkeep c hc i hused hi⟩
        · exact .inr ⟨c, hc, hi, hexit, hused⟩
      · rw [update_of_ne hj]
        exact hx.entries j i
    · rw [hproxy]
      exact hx.addresses
    · rw [hproxy]
      exact hx.apart
  · intro c hc hreq
    unfold Requested at hreq ⊢
    rw [hproxy, hrouters]
    change UsedBy s.proxy c ((update s.routers index r (exitOf s.proxy c)).cc _)
    by_cases hj : exitOf s.proxy c = index
    · rw [hj] at hreq ⊢
      rw [update_self]
      exact hkeep c hc _ hreq rfl
    · rw [update_of_ne hj]
      exact hreq

theorem exitOf_congr {p p' : Proxy} (hplan : p'.plan c = p.plan c) : exitOf p' c = exitOf p c := by
  have hhops : p'.numHops = p.numHops := congrArg Plan.numHops hplan
  unfold exitOf
  rw [hplan, hhops]

theorem usedBy_congr {p p' : Proxy} {e : Circuit} (hplan : p'.plan c = p.plan c)
    (hflow : p'.flow c = p.flow c) : UsedBy p' c e ↔ UsedBy p c e := by
  have hhops : p'.numHops = p.numHops := congrArg Plan.numHops hplan
  unfold UsedBy
  rw [hplan, hflow, hhops]

theorem ExitsApart.addFlow (hx : ExitsApart s) {packet : Bytes} {hops : ℕ → ℕ}
    {state : ProxyAt} (haddr : daddr packet ≠ [0, 0, 0, 0])
    (hapart : ∀ d < s.proxy.numberPath, exitOf s.proxy d = hops (s.proxy.numHops-1) →
      (s.proxy.flow d).Apart (newFlow packet))
    (hrouters : s'.routers = s.routers)
    (hproxy : s'.proxy = { addFlow s.proxy packet hops with state := state }) :
    ExitsApart s' ∧ ∀ c < s.proxy.numberPath, Requested s c → Requested s' c := by
  have hplan : ∀ c < s.proxy.numberPath, s'.proxy.plan c = s.proxy.plan c := by
    intro c hc
    rw [hproxy]
    exact (plan_addFlow hc : (OnionNetwork.addFlow s.proxy packet hops).plan c = _)
  have hflow : ∀ c < s.proxy.numberPath, s'.proxy.flow c = s.proxy.flow c := by
    intro c hc
    rw [hproxy]
    exact (flow_addFlow hc : (OnionNetwork.addFlow s.proxy packet hops).flow c = _)
  have hexit : ∀ c < s.proxy.numberPath, exitOf s'.proxy c = exitOf s.proxy c :=
    fun c hc => exitOf_congr (hplan c hc)
  have hused : ∀ c < s.proxy.numberPath, ∀ e, UsedBy s'.proxy c e ↔ UsedBy s.proxy c e :=
    fun c hc e => usedBy_congr (hplan c hc) (hflow c hc)
  have hnum : s'.proxy.numberPath = s.proxy.numberPath+1 := by
    rw [hproxy]
    rfl
  have hnew : s'.proxy.flow s.proxy.numberPath = newFlow packet ∧
      exitOf s'.proxy s.proxy.numberPath = hops (s.proxy.numHops-1) := by
    rw [hproxy]
    constructor
    · exact update_self _ _ _
    · change update s.proxy.paths.path s.proxy.numberPath hops s.proxy.numberPath _ = _
      rw [update_self]
      rfl
  constructor
  · constructor
    · rw [hproxy]
      exact hx.unmarked
    · intro j i
      rw [hrouters]
      rcases hx.entries j i with h0 | ⟨c, hc, hi, hj, hu⟩
      · exact .inl h0
      · refine .inr ⟨c, by omega, ?_, ?_, (hused c hc _).mpr hu⟩
        · rw [hplan c hc]
          exact hi
        · rw [hexit c hc]
          exact hj
    · intro c hc
      rcases Nat.lt_succ_iff_lt_or_eq.mp (hnum ▸ hc) with hc | rfl
      · rw [hflow c hc]
        exact hx.addresses c hc
      · rw [hnew.1]
        exact haddr
    · intro c d hc hd hne heq
      rcases Nat.lt_succ_iff_lt_or_eq.mp (hnum ▸ hc) with hc | rfl
      · rcases Nat.lt_succ_iff_lt_or_eq.mp (hnum ▸ hd) with hd | rfl
        · rw [hexit c hc, hexit d hd] at heq
          rw [hflow c hc, hflow d hd]
          exact hx.apart c d hc hd hne heq
        · rw [hexit c hc, hnew.2] at heq
          rw [hflow c hc, hnew.1]
          exact hapart c hc heq
      · rcases Nat.lt_succ_iff_lt_or_eq.mp (hnum ▸ hd) with hd | rfl
        · rw [hnew.2, hexit d hd] at heq
          rw [hnew.1, hflow d hd]
          exact (hapart d hd heq.symm).symm
        · exact absurd rfl hne
  · intro c hc hreq
    unfold Requested at hreq ⊢
    rw [hexit c hc, hrouters, hplan c hc]
    exact (hused c hc _).mpr hreq

/-- What every step keeps: the exits tell their flows apart, and what has been requested stays
so. -/
theorem ExitsApart.step (hx : ExitsApart s) (h : Separated aes net s) (he : Distinguished s e)
    (hs : NetStep aes s e s') :
    ExitsApart s' ∧ ∀ c < s.proxy.numberPath, Requested s c → Requested s' c := by
  by_cases hdeliver : ∃ src index, e = .deliver src index
  · obtain ⟨src, index, rfl⟩ := hdeliver
    exact hx.deliver h hs
  · push Not at hdeliver
    have hrouters := step_routers hs hdeliver
    rcases step_proxy hs with ⟨state, oldSrc, hproxy⟩ | ⟨packet, hops, state, rfl, hnone, hproxy⟩
    · constructor
      · constructor
        · rw [hproxy]
          exact hx.unmarked
        · rw [hproxy, hrouters]
          exact hx.entries
        · rw [hproxy]
          exact hx.addresses
        · rw [hproxy]
          exact hx.apart
      · intro c _ hreq
        unfold Requested
        rw [hproxy, hrouters]
        exact hreq
    · exact hx.addFlow (he hnone).2.1 (he hnone).2.2 hrouters hproxy

theorem step_circuit (hs : NetStep aes s e s') (hc : c < s.proxy.numberPath) :
    c < s'.proxy.numberPath ∧ s'.proxy.plan c = s.proxy.plan c ∧
      s'.proxy.flow c = s.proxy.flow c := by
  rcases step_proxy hs with ⟨state, oldSrc, hproxy⟩ | ⟨packet, hops, state, _, _, hproxy⟩
  · rw [hproxy]
    exact ⟨hc, rfl, rfl⟩
  · rw [hproxy]
    exact ⟨Nat.lt_succ_of_lt hc, (plan_addFlow hc : (addFlow s.proxy packet hops).plan c = _),
      (flow_addFlow hc : (addFlow s.proxy packet hops).flow c = _)⟩

end Steps

/-! ### Answers -/

section Answers

variable {aes : Aes} {net s s' : Network} {c i : ℕ} {r : Router} {answer : Bytes}

theorem icmpCircuit_eq (hi : i ≤ r.ccSeq) (hmatch : saddr answer = (r.cc i).oip)
    (hunique : ∀ j ≤ r.ccSeq, saddr answer = (r.cc j).oip → j = i) :
    icmpCircuit r answer = i := by
  have hfold : ∀ (l : List ℕ) d, (∀ j ∈ l, saddr answer = (r.cc j).oip → j = i) →
      l.foldl (fun c j => if saddr answer = (r.cc j).oip then j else c) d =
        if i ∈ l then i else d := by
    intro l
    induction l with
    | nil => exact fun d _ => rfl
    | cons j l ih =>
      intro d hl
      rw [foldl_cons, ih _ fun j hj => hl j (mem_cons_of_mem _ hj)]
      by_cases hj : j = i
      · subst hj
        simp [hmatch]
      · have hno : saddr answer ≠ (r.cc j).oip := fun hm => hj (hl j mem_cons_self hm)
        simp [hno, Ne.symm hj]
  unfold icmpCircuit
  rw [hfold _ _ fun j hj => hunique j (Nat.le_of_lt_succ (mem_range.mp hj)),
    if_pos (mem_range.mpr (Nat.lt_succ_of_le hi))]

theorem tcpCircuit_eq (hi : i ≤ r.ccSeq)
    (hmatch : saddr answer = (r.cc i).oip ∧ tcpSource answer = (r.cc i).lastHopPort)
    (hunique : ∀ j ≤ r.ccSeq, saddr answer = (r.cc j).oip →
      tcpSource answer = (r.cc j).lastHopPort → j = i) : tcpCircuit r answer = some i := by
  unfold tcpCircuit
  cases hfind : (range (r.ccSeq+1)).find? fun i =>
      decide (saddr answer = (r.cc i).oip ∧ tcpSource answer = (r.cc i).lastHopPort) with
  | none =>
    have := find?_eq_none.mp hfind i (mem_range.mpr (Nat.lt_succ_of_le hi))
    exact absurd (decide_eq_true hmatch) this
  | some j =>
    have hfound := find?_some hfind
    rw [decide_eq_true_iff] at hfound
    have hj := mem_range.mp (mem_of_find?_eq_some hfind)
    rw [hunique j (Nat.le_of_lt_succ hj) hfound.1 hfound.2]

theorem slot_of_dest (hx : ExitsApart s) (hc : c < s.proxy.numberPath)
    (hoip : ((s.routers (exitOf s.proxy c)).cc i).oip = (s.proxy.flow c).dstIp)
    (hport : (s.proxy.flow c).protocol = 6 →
      ((s.routers (exitOf s.proxy c)).cc i).lastHopPort = (s.proxy.flow c).dstPort) :
    i = (s.proxy.plan c).slot := by
  rcases hx.entries (exitOf s.proxy c) i with h0 | ⟨d, hd, rfl, hexit, ⟨hdip, hdport⟩, _⟩
  · exact absurd (hoip.symm.trans h0) (hx.addresses c hc)
  · by_cases hcd : c = d
    · rw [hcd]
    · rcases hx.apart c d hc hd hcd hexit with hne | ⟨hc6, hd6, hne⟩
      · exact absurd (hoip.symm.trans hdip) hne
      · exact absurd ((hport hc6).symm.trans (hdport hd6)) hne

/-- The entry of a circuit whose flow has been requested is known to its exit router. -/
theorem Requested.hopState (h : Separated aes net s) (hc : c < s.proxy.numberPath)
    (hreq : Requested s c) : ∃ q, 2*(s.proxy.numHops-1)+2 ≤ q ∧
      HopState (s.proxy.plan c) (s.proxy.numHops-1) q (s.routers (exitOf s.proxy c)) := by
  have hs : Stage s.proxy c (s.proxy.numHops-1) :=
    ⟨hc, Nat.sub_lt h.config.hops_pos Nat.zero_lt_one⟩
  obtain ⟨q, hq, hbuilt⟩ := h.hopState_built hs hreq.2
  exact ⟨_, hbuilt, hq.hops _ hs.2⟩

/-- The exit router of a circuit gets a relayed packet of it. -/
def RequestAtExit (s : Network) (c : ℕ) : NetEvent → Prop
  | .deliver src index => c < s.proxy.numberPath ∧ index = exitOf s.proxy c ∧
    ∃ m ∈ (s.links src (s.proxy.rinfoPort index)).head?, m.msgType = .encryptedRelay ∧
      m.cid = (s.proxy.plan c).idAt (s.proxy.numHops-1)
  | _ => False

theorem requested_of_request (h : Separated aes net s) {e : NetEvent} (he : RequestAtExit s c e)
    (hs : NetStep aes s e s') : c < s.proxy.numberPath ∧ Requested s' c := by
  cases e with
  | deliver src index =>
    obtain ⟨hc, rfl, m, hhead, ht, hid⟩ := he
    have hproxy := deliver_proxy hs
    obtain ⟨m', ms, r, outs, hlink, hr, rfl⟩ := deliver_spec hs
    obtain rfl : m = m' := by simpa [hlink] using hhead.symm
    have hh := receive_handles hr
    have hlast : s.proxy.numHops-1 < s.proxy.numHops :=
      Nat.sub_lt h.config.hops_pos Nat.zero_lt_one
    refine ⟨hc, ?_⟩
    cases h.messages src (s.proxy.rinfoPort (exitOf s.proxy c)) m (by simp [hlink]) with
    | build d k hs _ _ _ hb => simp [builds, ht] at hb
    | back d k _ _ _ _ hback => rcases hback with hback | hback <;> simp [hback] at ht
    | stray _ _ hback => simp [hback] at ht
    | relay d k packet hstage _ hto hm hflow =>
      have hslot : (s.proxy.plan c).slot = (s.proxy.plan d).slot := by
        have hid' : m.cid = (s.proxy.plan d).idAt k := by rw [hm]
        rw [← Plan.slot_idAt, ← hid, hid', Plan.slot_idAt]
      obtain rfl := h.slot_inj hc hstage.1 hslot
      have hhop : (s.proxy.plan c).hop (s.proxy.numHops-1) = (s.proxy.plan c).hop k :=
        h.hop_of_port hstage hto
      obtain rfl := (h.sound hc).hop_inj _ _ hlast hstage.2 hhop
      unfold Requested
      rw [hproxy, (sendAll_fixed _ _).1]
      change UsedBy s.proxy c ((update s.routers (exitOf s.proxy c) r _).cc _)
      rw [update_self]
      exact relay_at_exit h hstage (Nat.sub_add_cancel h.config.hops_pos) hm hflow hh
  | _ => exact absurd he id

/-- The exit router sends every answer to a flow on the circuit of the flow. -/
def AnswersReturn (aes : Aes) (r : Router) (f : Flow) (pl : Plan) : Prop :=
  ∀ answer, saddr answer = f.dstIp →
    (f.protocol = 1 → rawMitToTunnle aes r answer = .ok (r, [.udp (pl.portAt (pl.numHops-1))
      ⟨.encryptedRelayReply, pl.idAt (pl.numHops-1),
        encryptMsg aes (pl.key (pl.numHops-1)) answer⟩])) ∧
    (f.protocol = 6 → tcpSource answer = f.dstPort →
      handleRawsockTcp aes r answer = .ok (r, [.udp (pl.portAt (pl.numHops-1))
        ⟨.encryptedRelayReply, pl.idAt (pl.numHops-1), encryptMsg aes (pl.key (pl.numHops-1))
          (setTcpCheck (setIpCheck answer) iphdrSize)⟩]))

theorem answersReturn_of_requested (h : Separated aes net s) (hx : ExitsApart s)
    (hc : c < s.proxy.numberPath) (hreq : Requested s c) :
    AnswersReturn aes (s.routers (exitOf s.proxy c)) (s.proxy.flow c) (s.proxy.plan c) := by
  obtain ⟨q, hq, hstate⟩ := hreq.hopState h hc
  have hp := h.sound hc
  have hseq := (hstate.keyed (by omega)).2
  intro answer haddr
  constructor
  · intro h1
    have hi : icmpCircuit (s.routers (exitOf s.proxy c)) answer = (s.proxy.plan c).slot := by
      apply icmpCircuit_eq hseq (haddr.trans hreq.1.1.symm)
      intro j _ hj
      exact slot_of_dest hx hc (hj.symm.trans haddr) fun h6 => absurd (h1.symm.trans h6) nofun
    unfold rawMitToTunnle
    rw [hi]
    exact hstate.answerOn_eq hp hq
  · intro h6 hport
    have hi : tcpCircuit (s.routers (exitOf s.proxy c)) answer = some (s.proxy.plan c).slot := by
      apply tcpCircuit_eq hseq ⟨haddr.trans hreq.1.1.symm, hport.trans (hreq.1.2 h6).symm⟩
      intro j _ hj hjport
      exact slot_of_dest hx hc (hj.symm.trans haddr) fun _ => hjport.symm.trans hport
    unfold handleRawsockTcp
    rw [hi]
    exact hstate.answerOn_eq hp hq

end Answers

/-! ### Runs -/

section Runs

variable {aes : Aes} {net s s' : Network} {es : List NetEvent} {c : ℕ}

/-- No router has used an entry, and none has the port that marks the last hop. -/
structure Unused (net : Network) : Prop where
  fresh : Fresh net
  unmarked : ∀ i, 1 ≤ i → i ≤ net.proxy.numNodes → net.proxy.rinfoPort i ≠ lastHop
  entries : ∀ j i, ((net.routers j).cc i).oip = [0, 0, 0, 0]

theorem Unused.exitsApart (hf : Unused net) : ExitsApart net := by
  have hnone : ∀ c, ¬c < net.proxy.numberPath := fun c hc => by
    rw [hf.fresh.numberPath] at hc
    exact absurd hc (Nat.not_lt_zero c)
  exact
    { unmarked := hf.unmarked
      entries := fun j i => .inl (hf.entries j i)
      addresses := fun c hc => absurd hc (hnone c)
      apart := fun c _ hc => absurd hc (hnone c) }

theorem exitsApart_run (h : Separated aes net s ∧ ExitsApart s)
    (hrun : Run (NetStep aes) Distinguished s es s') : Separated aes net s' ∧ ExitsApart s' :=
  hrun.invariant (I := fun t => Separated aes net t ∧ ExitsApart t)
    (fun _ _ _ he hs h => ⟨h.1.step he.few hs, (h.2.step h.1 he hs).1⟩) h

theorem requested_run (h : Separated aes net s ∧ ExitsApart s) (hc : c < s.proxy.numberPath)
    (hreq : Requested s c) (hrun : Run (NetStep aes) Distinguished s es s') :
    c < s'.proxy.numberPath ∧ s'.proxy.plan c = s.proxy.plan c ∧
      s'.proxy.flow c = s.proxy.flow c ∧ Requested s' c := by
  have hall : (Separated aes net s' ∧ ExitsApart s') ∧ c < s'.proxy.numberPath ∧
      s'.proxy.plan c = s.proxy.plan c ∧ s'.proxy.flow c = s.proxy.flow c ∧ Requested s' c := by
    apply hrun.invariant (I := fun t => (Separated aes net t ∧ ExitsApart t) ∧
      c < t.proxy.numberPath ∧ t.proxy.plan c = s.proxy.plan c ∧
        t.proxy.flow c = s.proxy.flow c ∧ Requested t c)
    · intro t e t' he hs ⟨⟨hsep, hx⟩, hct, hplan, hflow, hreqt⟩
      obtain ⟨hct', hplan', hflow'⟩ := step_circuit hs hct
      obtain ⟨hx', hreq'⟩ := hx.step hsep he hs
      exact ⟨⟨hsep.step he.few hs, hx'⟩, hct', hplan'.trans hplan, hflow'.trans hflow,
        hreq' c hct hreqt⟩
    · exact ⟨h, hc, rfl, rfl, hreq⟩
  exact hall.2

end Runs

/-- When the exit router of a circuit has got a packet of its flow, it sends the answers on the
circuit, whatever happens before they come. -/
theorem answers_return_on_circuit (aes : Aes) (net s₁ s₂ s₃ : Network) (es₁ es₂ : List NetEvent)
    (request : NetEvent) (c : ℕ) (hf : Unused net)
    (hrun₁ : Run (NetStep aes) Distinguished net es₁ s₁)
    (hrequest : RequestAtExit s₁ c request) (hstep : NetStep aes s₁ request s₂)
    (hrun₂ : Run (NetStep aes) Distinguished s₂ es₂ s₃) :
    AnswersReturn aes (s₃.routers (exitOf s₁.proxy c)) (s₁.proxy.flow c) (s₁.proxy.plan c) := by
  have h₁ := exitsApart_run ⟨hf.fresh.separated, hf.exitsApart⟩ hrun₁
  obtain ⟨hc₁, hreq₂⟩ := requested_of_request h₁.1 hrequest hstep
  have hguard : Distinguished s₁ request := by
    cases request with
    | tunnel packet hops => exact absurd hrequest id
    | _ => trivial
  have h₂ : Separated aes net s₂ ∧ ExitsApart s₂ :=
    ⟨h₁.1.step hguard.few hstep, (h₁.2.step h₁.1 hguard hstep).1⟩
  obtain ⟨hc₂, hplan₂, hflow₂⟩ := step_circuit hstep hc₁
  obtain ⟨hc₃, hplan₃, hflow₃, hreq₃⟩ := requested_run h₂ hc₂ hreq₂ hrun₂
  have h₃ := exitsApart_run h₂ hrun₂
  have hplan := hplan₃.trans hplan₂
  have hreturn := answersReturn_of_requested h₃.1 h₃.2 hc₃ hreq₃
  rw [exitOf_congr hplan, hplan, hflow₃.trans hflow₂] at hreturn
  exact hreturn

/-! ### Two flows to one host -/

instance (f g : Flow) : Decidable (f.Apart g) := by
  unfold Flow.Apart
  infer_instance

instance (s : Network) (e : NetEvent) : Decidable (Distinguished s e) := by
  rcases e with _ | _ <;> unfold Distinguished <;> infer_instance

instance (s : Network) (c : ℕ) (e : NetEvent) : Decidable (RequestAtExit s c e) := by
  rcases e with _ | _ <;> unfold RequestAtExit <;> infer_instance

theorem twoRouters_unused : Unused twoRouters where
  fresh := twoRouters_fresh
  unmarked := by
    intro i _ _
    change pairPort 1002 i ≠ 0xffff
    unfold pairPort
    split_ifs <;> omega
  entries _ _ := rfl

def pong (host : UInt8) : Bytes :=
  [69, 0, 0, 28, 0, 0, 0, 0, 64, 1, 0, 0, 10, 0, 1, host, 10, 0, 2, 1]++[0, 0, 0, 0, 0, 0, 0, 0]

/-- Whether a request of the first circuit is delivered next and the events after it can happen,
so that the states before the request and at the end meet a condition. -/
def requestThen (good : Network → NetEvent → Prop) [∀ s e, Decidable (good s e)]
    (es : List NetEvent) (p : Network → Network → Bool) (s : Network) : Bool :=
  decide (RequestAtExit s 0 (.deliver 1000 1)) &&
    (netNext addKey s (.deliver 1000 1)).toOption.any fun t =>
      (exec (fun s e => (netNext addKey s e).toOption) good t es).any (p s)

theorem requestThen_spec {good : Network → NetEvent → Prop} [∀ s e, Decidable (good s e)]
    {es : List NetEvent} {p : Network → Network → Bool} {s : Network}
    (h : requestThen good es p s = true) : RequestAtExit s 0 (.deliver 1000 1) ∧
    ∃ t u, NetStep addKey s (.deliver 1000 1) t ∧ Run (NetStep addKey) good t es u ∧
      p s u = true := by
  unfold requestThen at h
  rw [Bool.and_eq_true, decide_eq_true_iff, Option.any_eq_true] at h
  obtain ⟨hreq, t, ht, hany⟩ := h
  obtain ⟨u, hrun, hu⟩ := exists_run_net good t es (P := fun u => p s u) (by simpa using hany)
  exact ⟨hreq, t, u, netNext_toOption _ _ _ ht, hrun, hu⟩

theorem answers_return_on_circuit_two : ∃ s t u, Run (NetStep addKey) Distinguished twoRouters
      ((newCircuit 1 1).take 5) s ∧ NetStep addKey s (.deliver 1000 1) t ∧
    Run (NetStep addKey) Distinguished t (newCircuit 2 2++newCircuit 3 1) u ∧
    (s.proxy.flow 0).protocol = 1 ∧ saddr (pong 1) = (s.proxy.flow 0).dstIp ∧
    AnswersReturn addKey (u.routers 1) (s.proxy.flow 0) (s.proxy.plan 0) := by
  obtain ⟨s, hrun₁, hs⟩ := exists_run_net Distinguished twoRouters ((newCircuit 1 1).take 5)
    (P := fun s => requestThen Distinguished (newCircuit 2 2++newCircuit 3 1) (fun s _ =>
      decide (exitOf s.proxy 0 = 1 ∧ (s.proxy.flow 0).protocol = 1 ∧
        saddr (pong 1) = (s.proxy.flow 0).dstIp)) s = true) (by decide +kernel)
  obtain ⟨hreq, t, u, hstep, hrun₂, hu⟩ := requestThen_spec hs
  rw [decide_eq_true_iff] at hu
  have hreturn := answers_return_on_circuit addKey twoRouters s t u _ _ _ 0 twoRouters_unused
    hrun₁ hreq hstep hrun₂
  rw [hu.1] at hreturn
  exact ⟨s, t, u, hrun₁, hstep, hrun₂, hu.2.1, hu.2.2, hreturn⟩

/-- A request to the host 1 from a client with a number, on a circuit over the router 1. -/
def otherClient (client : UInt8) : List NetEvent :=
  [.tunnel ([69, 0, 0, 28, 0, 0, 0, 0, 64, 1, 0, 0, 10, 0, 0, client, 10, 0, 1, 1]++
      [8, 0, 0, 0, 0, 0, 0, 0]) fun _ => 1,
    .deliver 1000 1, .deliver 1000 1, .reply (pairPort 1002 1), .relay, .deliver 1000 1]

/-- The id under which the first router sends an ICMP answer to the proxy. -/
def answerId (s : Network) (answer : Bytes) : Option ℕ :=
  match rawMitToTunnle addKey (s.routers 1) answer with
  | .ok (_, [.udp 1000 m]) => some m.cid
  | _ => none

/-- Two clients have requested something from one host over one router. The answer for the first
one goes back on the circuit of the second one. -/
theorem answer_takes_other_circuit : ∃ s t u, Unused twoRouters ∧
    Run (NetStep addKey) FewCircuits twoRouters
      ((newCircuit 1 1).take 5) s ∧ RequestAtExit s 0 (.deliver 1000 1) ∧
    NetStep addKey s (.deliver 1000 1) t ∧
    Run (NetStep addKey) FewCircuits t (newCircuit 2 2++otherClient 2) u ∧
    exitOf s.proxy 0 = 1 ∧ (s.proxy.flow 0).protocol = 1 ∧
    saddr (pong 1) = (s.proxy.flow 0).dstIp ∧
    answerId u (pong 1) = some ((u.proxy.plan 2).idAt 0) ∧
    (u.proxy.plan 2).idAt 0 ≠ (s.proxy.plan 0).idAt 0 := by
  obtain ⟨s, hrun₁, hs⟩ := exists_run_net FewCircuits twoRouters ((newCircuit 1 1).take 5)
    (P := fun s => requestThen FewCircuits (newCircuit 2 2++otherClient 2) (fun s u =>
      decide (exitOf s.proxy 0 = 1 ∧ (s.proxy.flow 0).protocol = 1 ∧
        saddr (pong 1) = (s.proxy.flow 0).dstIp ∧
        answerId u (pong 1) = some ((u.proxy.plan 2).idAt 0) ∧
        (u.proxy.plan 2).idAt 0 ≠ (s.proxy.plan 0).idAt 0)) s = true) (by decide +kernel)
  obtain ⟨hreq, t, u, hstep, hrun₂, hu⟩ := requestThen_spec hs
  rw [decide_eq_true_iff] at hu
  exact ⟨s, t, u, twoRouters_unused, hrun₁, hreq, hstep, hrun₂, hu⟩

end SystemsProjects.OnionNetwork
