import SystemsProjects.ReplyRouting

/-!
# The address that is restored in replies

The proxy keeps one source address, the one of the last packet it has relayed, and writes it into
every reply as the destination, whatever the circuit of the reply is.
-/
namespace SystemsProjects.OnionNetwork

open Function GuardedRuns IpPackets OnionLayers

/-- The packet that the proxy relays next. -/
def toRelay (s : Network) : Option Bytes :=
  match s.proxy.state with
  | .created _ packet => if relays packet then some packet else none
  | _ => none

/-- Packets that are relayed have the given source address. -/
def SameSource (addr : Bytes) (s : Network) : NetEvent → Prop
  | .relay => ∀ packet ∈ toRelay s, saddr packet = addr
  | _ => True

instance (addr : Bytes) (s : Network) (e : NetEvent) : Decidable (SameSource addr s e) :=
  match e with
  | .relay => inferInstanceAs (Decidable (∀ packet ∈ toRelay s, saddr packet = addr))
  | .deliver .. | .reply _ | .tunnel .. | .rawIcmp .. | .rawTcp .. => isTrue trivial

/-- The flows are the first entries of the table, and the packet at work belongs to one of them. -/
structure FlowsOk (p : Proxy) : Prop where
  unused : ∀ c, p.numberPath ≤ c → (p.flow c).protocol = 0
  atWork : AtWork p

/-- What a step does to the flows and to the address: flows stay as they are, and the address
changes only when a packet is relayed. -/
structure FlowStep (s : Network) (e : NetEvent) (s' : Network) : Prop where
  kept : ∀ c < s.proxy.numberPath, c < s'.proxy.numberPath ∧ s'.proxy.flow c = s.proxy.flow c
  address : s'.proxy.oldSrc = s.proxy.oldSrc ∨ ∃ c packet, e = .relay ∧
    s.proxy.state = .created c packet ∧ relays packet = true ∧ s'.proxy.oldSrc = saddr packet
  ok : FlowsOk s.proxy → FlowsOk s'.proxy

section Flows

variable {aes : Aes} {s s' : Network} {e : NetEvent} {src c : ℕ}

theorem flowStep_of_eq (h : s'.proxy = s.proxy) : FlowStep s e s' where
  kept c hc := by
    rw [h]
    exact ⟨hc, rfl⟩
  address := .inl (by rw [h])
  ok hok := by rwa [h]

theorem step_flows (hs : NetStep aes s e s') : FlowStep s e s' := by
  cases e with
  | deliver src index => exact flowStep_of_eq (deliver_proxy hs)
  | rawIcmp index packet => exact flowStep_of_eq (handled_proxy hs)
  | rawTcp index packet => exact flowStep_of_eq (handled_proxy hs)
  | reply src =>
    obtain ⟨m, ms, -, ⟨c, round, packet, hstate, rfl⟩ | ⟨-, out, rfl⟩⟩ := reply_spec hs
    · split_ifs
      · exact ⟨fun c hc => ⟨hc, rfl⟩, .inl rfl, fun h => ⟨h.unused, h.atWork.creating hstate⟩⟩
      · exact ⟨fun c hc => ⟨hc, rfl⟩, .inl rfl, fun h => ⟨h.unused, h.atWork.creating hstate⟩⟩
    · exact flowStep_of_eq rfl
  | tunnel packet hops =>
    obtain ⟨⟨-, hlength, hproto⟩, ⟨c, hflow, rfl⟩ | ⟨hnone, -, -, rfl⟩⟩ := tunnel_spec hs
    · refine ⟨fun c hc => ⟨hc, rfl⟩, .inl rfl, fun h => ⟨h.unused, ?_, flowOf_holds hlength hflow⟩⟩
      -- an entry that is not in use has no protocol, so that no packet finds it
      by_contra hc
      have := h.unused c (Nat.le_of_not_lt hc)
      rw [(flowOf_holds hlength hflow).2.2.2.1] at this
      omega
    · refine ⟨fun c hc => ⟨Nat.lt_succ_of_lt hc, update_of_ne (Nat.ne_of_lt hc) _ _⟩, .inl rfl,
        fun h => ⟨fun c hc => ?_, Nat.lt_succ_self _, ?_⟩⟩
      · exact (congrArg Flow.protocol (update_of_ne (Nat.ne_of_gt hc) _ _)).trans
          (h.unused c (Nat.le_of_succ_le hc))
      · change (update s.proxy.flow s.proxy.numberPath (newFlow packet) _).Holds packet
        rw [update_self]
        exact newFlow_holds hlength
  | relay =>
    obtain ⟨c, packet, hstate, rfl⟩ := relay_spec hs
    split_ifs with hr
    · exact ⟨fun c hc => ⟨hc, rfl⟩, .inr ⟨c, packet, rfl, hstate, hr, rfl⟩,
        fun h => ⟨h.unused, trivial⟩⟩
    · exact ⟨fun c hc => ⟨hc, rfl⟩, .inl rfl, fun h => ⟨h.unused, trivial⟩⟩

/-- While only packets from one address are relayed, that address is kept, and the flow too. -/
theorem source_kept {addr : Bytes} {es : List NetEvent}
    (hrun : Run (NetStep aes) (SameSource addr) s es s') (hc : c < s.proxy.numberPath)
    (haddr : s.proxy.oldSrc = addr) :
    s'.proxy.oldSrc = addr ∧ s'.proxy.flow c = s.proxy.flow c := by
  obtain ⟨-, hold, hflow⟩ := hrun.invariant
    (I := fun t => c < t.proxy.numberPath ∧ t.proxy.oldSrc = addr ∧ t.proxy.flow c = s.proxy.flow c)
    (fun t e u hg hs ⟨hlt, hold, hflow⟩ => by
      have hstep := step_flows hs
      obtain ⟨hlt', hkept⟩ := hstep.kept c hlt
      refine ⟨hlt', ?_, hkept.trans hflow⟩
      rcases hstep.address with hsame | ⟨d, packet, rfl, hstate, hr, hnew⟩
      · exact hsame.trans hold
      · exact hnew.trans (hg packet (by simp [toRelay, hstate, hr])))
    ⟨hc, haddr, rfl⟩
  exact ⟨hold, hflow⟩

theorem daddr_toTunnel {p : Proxy} {clear : Bytes} (hp : p.oldSrc.length = 4)
    (hclear : iphdrSize ≤ clear.length) : daddr (toTunnel p clear) = p.oldSrc := by
  unfold iphdrSize at hclear
  have hlen : (overlay clear 16 p.oldSrc).length = clear.length := length_overlay (by omega)
  have hlen' := length_setIpCheck (p := overlay clear 16 p.oldSrc) (by omega)
  have hanswer : daddr (setIpCheck (overlay clear 16 p.oldSrc)) = p.oldSrc := by
    have hself : field (overlay clear 16 p.oldSrc) 16 p.oldSrc.length = _ :=
      field_overlay (by omega)
    rw [hp] at hself
    exact (field_congr fun j _ => getElem_setIpCheck (by omega) (by omega)).trans hself
  unfold toTunnel
  dsimp only
  split_ifs
  · refine Eq.trans (field_congr fun j hj => ?_) hanswer
    unfold setTcpCheck iphdrSize
    dsimp only
    rw [getElem_overlay_left (by omega) (by simp [overlay.eq_1 _ 36]; omega),
      getElem_overlay_left (by omega) (by omega)]
  · exact hanswer

end Flows

/-- A packet of a flow is relayed, and after it only packets with the same source address. A reply
on the circuit of the flow is then written to the tunnel with that address as its destination. -/
theorem reply_reaches_source (aes : Aes) (net s u v : Network) (es mid : List NetEvent)
    (src c : ℕ) (packet : Bytes) (m : OnionRouters.Message) (ms : List OnionRouters.Message)
    (hinit : FlowsOk net.proxy) (hrun : Run (NetStep aes) (fun _ _ => True) net es s)
    (hstate : s.proxy.state = .created c packet) (hrelays : relays packet = true)
    (hmid : Run (NetStep aes) (SameSource (saddr packet)) s (.relay::mid) u)
    (hidle : u.proxy.state = .idle) (hlink : u.links src u.proxy.port = m::ms)
    (hcid : m.cid = c+1) (hreply : NetStep aes u (.reply src) v) :
    ∃ clear, decryptMultiround aes u.proxy.paths m.payload u.proxy.numHops c = some clear ∧
      v.tunOut = u.tunOut++[toTunnel u.proxy clear] ∧
      (iphdrSize ≤ clear.length → daddr (toTunnel u.proxy clear) = (v.proxy.flow c).srcIp) := by
  have hok := hrun.invariant (fun _ _ _ _ hs h => (step_flows hs).ok h) hinit
  obtain ⟨hc, hholds⟩ := hok.atWork.created hstate
  cases hmid with
  | next hg hs hrest =>
    obtain ⟨d, packet', hstate', rfl⟩ := relay_spec hs
    obtain ⟨rfl, rfl⟩ := ProxyAt.created.inj (hstate.symm.trans hstate')
    rw [if_pos hrelays] at hrest
    obtain ⟨hold, hflow⟩ := source_kept hrest hc rfl
    have hsource : u.proxy.oldSrc = (u.proxy.flow c).srcIp := by
      rw [hold, hflow]
      exact hholds.2.1.symm
    have hfour : u.proxy.oldSrc.length = 4 := by
      have := hholds.1
      unfold iphdrSize at this
      rw [hold, saddr, field, List.length_take, List.length_drop]
      omega
    change reply aes u src = .ok v at hreply
    unfold reply at hreply
    dsimp only at hreply
    rw [hlink, hidle] at hreply
    dsimp only at hreply
    rw [hcid, Nat.add_sub_cancel] at hreply
    split_ifs at hreply with hsize
    cases hd : decryptMultiround aes u.proxy.paths m.payload u.proxy.numHops c with
    | none =>
      rw [hd] at hreply
      cases hreply
    | some clear =>
      rw [hd] at hreply
      obtain rfl := Except.ok.inj hreply
      exact ⟨clear, rfl, rfl, fun hclear => (daddr_toTunnel hfour hclear).trans hsource⟩

/-! ### Two clients -/

/-- Whether a reply from the first router can be received, so that the states before and after it
meet a condition. -/
def replyThen (p : Network → Network → Bool) (u : Network) : Bool :=
  (netNext addKey u (.reply 1001)).toOption.any (p u)

theorem replyThen_spec {p : Network → Network → Bool} {u : Network} (h : replyThen p u = true) :
    ∃ v, NetStep addKey u (.reply 1001) v ∧ p u v = true := by
  rw [replyThen, Option.any_eq_true] at h
  obtain ⟨v, hv, hp⟩ := h
  exact ⟨v, netNext_toOption u _ v hv, hp⟩

/-- Whether the next datagram from the first router is a reply on the first circuit with at least an
IP header. -/
def replyNext (u : Network) : Bool :=
  decide (u.proxy.state = .idle) && (u.links 1001 u.proxy.port).head?.any fun m =>
    decide (m.cid = 1) && (decryptMultiround addKey u.proxy.paths m.payload u.proxy.numHops 0).any
      fun clear => decide (iphdrSize ≤ clear.length)

/-- A request of the same client to another host is relayed, on a circuit of its own, before the
reply arrives. -/
theorem reply_reaches_source_ping : ∃ u v clear, u.proxy.numberPath = 2 ∧
    NetStep addKey u (.reply 1001) v ∧ v.tunOut = u.tunOut++[toTunnel u.proxy clear] ∧
    daddr (toTunnel u.proxy clear) = (v.proxy.flow 0).srcIp := by
  obtain ⟨s, hrun, hs⟩ := exists_run_net (fun _ _ => True) twoRouters ((newCircuit 1 1).take 4)
    (P := fun s => s.proxy.state = .created 0 (ping 1) ∧
      (exec (fun s e => (netNext addKey s e).toOption) (SameSource (saddr (ping 1))) s
        (.relay::.deliver 1000 1::newCircuit 2 2++[.rawIcmp 1 (pong 1)])).any fun u =>
          decide (u.proxy.numberPath = 2 ∧ replyThen (fun u _ => replyNext u) u = true))
      (by decide +kernel)
  obtain ⟨u, hmid, hpaths, hu⟩ := exists_run_net _ _ _ hs.2
  obtain ⟨v, hstep, hnext⟩ := replyThen_spec hu
  simp only [replyNext, Bool.and_eq_true, decide_eq_true_iff, Option.any_eq_true] at hnext
  obtain ⟨hidle, m, hhead, hcid, clear, hclear, hlong⟩ := hnext
  obtain ⟨ms, hlink⟩ := List.head?_eq_some_iff.mp hhead
  obtain ⟨clear', hclear', hout, haddr⟩ := reply_reaches_source addKey twoRouters s u v _ _ 1001 0
    (ping 1) m ms ⟨fun _ _ => rfl, trivial⟩ hrun hs.1 (by decide) hmid hidle hlink hcid hstep
  obtain rfl := Option.some.inj (hclear.symm.trans hclear')
  exact ⟨u, v, clear, hpaths, hstep, hout, haddr hlong⟩

/-- A request of a second client is relayed before the reply for the first one arrives. The reply
is written to the tunnel for the second one. -/
theorem reply_takes_other_source : ∃ u v, Run (NetStep addKey) (fun _ _ => True) twoRouters
      (newCircuit 1 1++[.tunnel ((ping 2).set 15 2) fun _ => 2, .deliver 1000 2, .deliver 1000 2,
        .reply 1002, .relay, .rawIcmp 1 (pong 1)]) u ∧
    NetStep addKey u (.reply 1001) v ∧ (u.links 1001 1000).map (·.cid) = [cID 0] ∧
    v.tunOut.map daddr = [[10, 0, 0, 2]] ∧ (v.proxy.flow 0).srcIp = [10, 0, 0, 1] := by
  simp only [exists_and_left]
  refine (exists_run_net _ _ _ (P := fun u => replyThen (fun u v => decide
    ((u.links 1001 1000).map (·.cid) = [cID 0] ∧ v.tunOut.map daddr = [[10, 0, 0, 2]] ∧
      (v.proxy.flow 0).srcIp = [10, 0, 0, 1])) u) (by decide +kernel)).imp fun u h => ⟨h.1, ?_⟩
  obtain ⟨v, hstep, hv⟩ := replyThen_spec h.2
  exact ⟨v, hstep, of_decide_eq_true hv⟩

end SystemsProjects.OnionNetwork
