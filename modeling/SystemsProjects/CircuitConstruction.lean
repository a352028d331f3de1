import SystemsProjects.CircuitPlans
import SystemsProjects.GuardedRuns
import SystemsProjects.MessagePipelines

/-!
# The construction of a circuit

The messages of a construction pass the hops like a pipeline, in the order in which the proxy
sends them, whatever else is on the links. When the proxy has sent them all and none is on its
way any more, all hops have their keys and routes, and the messages of the circuit follow the
path.
-/
namespace SystemsProjects.OnionNetwork

open Function GuardedRuns IpPackets MessagePipelines OnionLayers OnionRouters List

/-! ### Links -/

variable {aes : Aes} {packet : Bytes} {index src : ℕ}

section Links

variable {s s' : Network} {a b a' b' i : ℕ} {m : Message} {ms : List Message}

theorem links_send : (s.send a b ms).links a' b' =
    if a' = a ∧ b' = b then s.links a b++ms else s.links a' b' := by
  unfold Network.send
  by_cases ha : a' = a
  · subst ha
    by_cases hb : b' = b
    · subst hb
      simp
    · simp [hb]
  · simp [ha]

theorem links_pop : (s.pop a b).links a' b' =
    if a' = a ∧ b' = b then (s.links a b).tail else s.links a' b' := by
  unfold Network.pop
  by_cases ha : a' = a
  · subst ha
    by_cases hb : b' = b
    · subst hb
      simp
    · simp [hb]
  · simp [ha]

/-- The messages on a link that build a circuit in a slot. -/
def Network.building (s : Network) (i a b : ℕ) : List Message := (s.links a b).filter (builds i)

theorem building_send : (s.send a b ms).building i a' b' =
    if a' = a ∧ b' = b then s.building i a b++ms.filter (builds i) else s.building i a' b' := by
  unfold Network.building
  rw [links_send]
  split_ifs
  · exact filter_append _ _
  · rfl

theorem building_send_other (hms : ∀ m ∈ ms, builds i m = false) :
    (s.send a b ms).building i = s.building i := by
  funext a' b'
  rw [building_send, filter_eq_nil_iff.mpr fun m hm => by simp [hms m hm]]
  split_ifs with h
  · rw [h.1, h.2]
    exact append_nil _
  · rfl

theorem building_pop (h : s.links a b = m::ms) : (s.pop a b).building i a' b' =
    if a' = a ∧ b' = b then ms.filter (builds i) else s.building i a' b' := by
  unfold Network.building
  rw [links_pop, h]
  split_ifs
  · rfl
  · rfl

theorem building_pop_other (h : s.links a b = m::ms) (hm : builds i m = false) :
    (s.pop a b).building i = s.building i := by
  funext a' b'
  rw [building_pop h]
  split_ifs with hab
  · rw [hab.1, hab.2, Network.building, h, filter_cons_of_neg (by simp [hm])]
  · rfl

theorem sendAll_fixed (src : ℕ) (outs : List Output) :
    (s.sendAll src outs).routers = s.routers ∧ (s.sendAll src outs).proxy = s.proxy ∧
      (s.sendAll src outs).tunOut = s.tunOut := by
  induction outs generalizing s with
  | nil => exact ⟨rfl, rfl, rfl⟩
  | cons out outs ih =>
    cases out with
    | udp port m => exact ih
    | rawSock dest segment => exact ih

theorem building_sendAll_other {outs : List Output}
    (h : ∀ port m, .udp port m ∈ outs → builds i m = false) :
    (s.sendAll src outs).building i = s.building i := by
  induction outs generalizing s with
  | nil => rfl
  | cons out outs ih =>
    have hrest : ∀ port m, .udp port m ∈ outs → builds i m = false :=
      fun port m hm => h port m (mem_cons_of_mem _ hm)
    cases out with
    | udp port m =>
      have hm := h port m mem_cons_self
      exact (ih hrest).trans (building_send_other (by simpa using hm))
    | rawSock dest segment => exact ih hrest

theorem mem_links_send (h : m ∈ (s.send a' b' ms).links a b) :
    m ∈ s.links a b ∨ (a = a' ∧ b = b') ∧ m ∈ ms := by
  rw [links_send] at h
  split_ifs at h with hab
  · rw [hab.1, hab.2]
    exact (mem_append.mp h).imp id fun hm => ⟨⟨rfl, rfl⟩, hm⟩
  · exact .inl h

theorem mem_links_pop (h : m ∈ (s.pop a' b').links a b) : m ∈ s.links a b := by
  rw [links_pop] at h
  split_ifs at h with hab
  · rw [hab.1, hab.2]
    exact mem_of_mem_tail h
  · exact h

theorem mem_links_sendAll {outs : List Output} (h : m ∈ (s.sendAll src outs).links a b) :
    m ∈ s.links a b ∨ a = src ∧ .udp b m ∈ outs := by
  induction outs generalizing s with
  | nil => exact .inl h
  | cons out outs ih =>
    cases out with
    | udp port m' =>
      rcases ih h with h | ⟨ha, hm⟩
      · rcases mem_links_send h with h | ⟨⟨ha, hb⟩, hm⟩
        · exact .inl h
        · rw [mem_singleton.mp hm, hb]
          exact .inr ⟨ha, mem_cons_self⟩
      · exact .inr ⟨ha, mem_cons_of_mem _ hm⟩
    | rawSock dest segment =>
      rcases ih h with h | ⟨ha, hm⟩
      · exact .inl h
      · exact .inr ⟨ha, mem_cons_of_mem _ hm⟩

theorem handled_spec {h : Handled} (hs : handled s index h = .ok s') : ∃ r outs, h = .ok (r, outs) ∧
      s' = (s.setRouter index r).sendAll (s.proxy.rinfoPort index) outs := by
  cases h with
  | error f => exact absurd hs nofun
  | ok p => exact ⟨p.1, p.2, rfl, (Except.ok.inj hs).symm⟩

theorem deliver_spec (h : deliver aes s src index = .ok s') :
    ∃ m ms r outs, s.links src (s.proxy.rinfoPort index) = m::ms ∧
      receive aes (s.routers index) m src = .ok (r, outs) ∧
      s' = ((s.pop src (s.proxy.rinfoPort index)).setRouter index r).sendAll
        (s.proxy.rinfoPort index) outs := by
  unfold deliver at h
  cases hlink : s.links src (s.proxy.rinfoPort index) with
  | nil =>
    simp only [hlink] at h
    exact absurd h nofun
  | cons m ms =>
    simp only [hlink] at h
    obtain ⟨r, outs, hr, hs⟩ := handled_spec h
    exact ⟨m, ms, r, outs, rfl, hr, hs⟩

theorem tunnel_spec {hops : ℕ → ℕ} (h : tunnel aes s packet hops = .ok s') :
    (s.proxy.state = .idle ∧ iphdrSize ≤ packet.length ∧
      (protocol packet = 1 ∨ protocol packet = 6)) ∧
    ((∃ c, flowOf s.proxy packet = some c ∧
        s' = s.setProxy { s.proxy with state := .created c packet }) ∨
      flowOf s.proxy packet = none ∧ drawn s.proxy hops ∧
        (s.proxy.numberPath < flowSize ∧ s.proxy.numHops ≤ maxRouterCount) ∧
        s' = sendRound aes (s.setProxy (addFlow s.proxy packet hops)) s.proxy.numberPath 1
          packet) := by
  unfold tunnel at h
  dsimp only at h
  by_cases hidle : s.proxy.state = .idle ∧ iphdrSize ≤ packet.length ∧
      (protocol packet = 1 ∨ protocol packet = 6)
  · rw [if_pos hidle] at h
    refine ⟨hidle, ?_⟩
    cases hflow : flowOf s.proxy packet with
    | some c =>
      rw [hflow] at h
      exact .inl ⟨c, rfl, (Except.ok.inj h).symm⟩
    | none =>
      rw [hflow] at h
      dsimp only at h
      split_ifs at h with hdrawn hbound
      exact .inr ⟨rfl, hdrawn, hbound, (Except.ok.inj h).symm⟩
  · rw [if_neg hidle] at h
    exact absurd h nofun

theorem reply_spec (h : reply aes s src = .ok s') : ∃ m ms, s.links src s.proxy.port = m::ms ∧
      ((∃ c round packet, s.proxy.state = .creating c round packet ∧
          s' = if round = s.proxy.numHops then
              (s.pop src s.proxy.port).setProxy { s.proxy with state := .created c packet }
            else sendRound aes (s.pop src s.proxy.port) c (round+1) packet) ∨
        s.proxy.state = .idle ∧ ∃ out, s' = { s.pop src s.proxy.port with tunOut := out }) := by
  unfold reply at h
  cases hlink : s.links src s.proxy.port with
  | nil =>
    simp only [hlink] at h
    exact absurd h nofun
  | cons m ms =>
    simp only [hlink] at h
    refine ⟨m, ms, rfl, ?_⟩
    cases hstate : s.proxy.state with
    | creating c round packet =>
      rw [hstate] at h
      exact .inl ⟨c, round, packet, rfl, (Except.ok.inj h).symm⟩
    | created c packet =>
      rw [hstate] at h
      exact absurd h nofun
    | idle =>
      rw [hstate] at h
      dsimp only at h
      split_ifs at h
      split at h
      · exact absurd h nofun
      · exact .inr ⟨rfl, _, (Except.ok.inj h).symm⟩

theorem relay_spec (h : relay aes s = .ok s') : ∃ c packet, s.proxy.state = .created c packet ∧
      s' = if relays packet then
          (s.setProxy { s.proxy with state := .idle, oldSrc := saddr packet }).send s.proxy.port
            (s.proxy.rinfoPort (s.proxy.paths.path c 0)) [relayMessage aes s.proxy c packet]
        else s.setProxy { s.proxy with state := .idle } := by
  unfold relay at h
  dsimp only at h
  cases hstate : s.proxy.state with
  | created c packet =>
    rw [hstate] at h
    exact ⟨c, packet, rfl, (Except.ok.inj h).symm⟩
  | idle =>
    rw [hstate] at h
    exact absurd h nofun
  | creating c round packet =>
    rw [hstate] at h
    exact absurd h nofun

end Links

/-! ### One circuit among others -/

/-- The construction of a circuit after `q 0` messages of the proxy, where hop `k` waits for
message `q (k+1)`. -/
structure Progress (aes : Aes) (pl : Plan) (s : Network) (q : ℕ → ℕ) : Prop where
  pipeline : Pipeline pl.numHops (2*·) q
  bound : q 0 ≤ 2*pl.numHops
  hops : ∀ k < pl.numHops, HopState pl k (q (k+1)) (s.routers (pl.hop k))
  links : ∀ k < pl.numHops, s.building pl.slot (pl.portAt k) (pl.portAt (k+1)) =
    (inTransit q k).map (pl.msgAt aes k)
  clear : ∀ a b, (∀ k < pl.numHops, a = pl.portAt k → b ≠ pl.portAt (k+1)) →
    s.building pl.slot a b = []

variable {x : Handled} {k : ℕ}

section Steps

variable {aes : Aes} {pl : Plan} {s s' : Network} {q : ℕ → ℕ} {src index : ℕ} {m : Message}
  {ms : List Message} {r : Router} {outs : List Output}

namespace Progress

theorem frame (h : Progress aes pl s q)
    (hhops : ∀ k < pl.numHops, HopState pl k (q (k+1)) (s'.routers (pl.hop k)))
    (hlinks : s'.building pl.slot = s.building pl.slot) : Progress aes pl s' q where
  pipeline := h.pipeline
  bound := h.bound
  hops := hhops
  links := by
    rw [hlinks]
    exact h.links
  clear := by
    rw [hlinks]
    exact h.clear

theorem deliver_other (h : Progress aes pl s q)
    (hlink : s.links src (s.proxy.rinfoPort index) = m::ms) (hm : builds pl.slot m = false)
    (hr : receive aes (s.routers index) m src = .ok (r, outs)) :
    Progress aes pl (((s.pop src (s.proxy.rinfoPort index)).setRouter index r).sendAll
      (s.proxy.rinfoPort index) outs) q := by
  have hh := receive_handles hr
  apply h.frame
  · intro k hk
    rw [(sendAll_fixed _ _).1]
    change HopState pl k _ (update s.routers index r (pl.hop k))
    by_cases hi : pl.hop k = index
    · rw [hi, update_self]
      apply HopState.frame _ hh hm
      rw [← hi]
      exact (h.hops k hk).seen m.cid
    · rw [update_of_ne hi]
      exact h.hops k hk
  · have hout : ∀ port m', .udp port m' ∈ outs → builds pl.slot m' = false := by
      intro port m' hout
      by_contra hb
      exact absurd (hh.builds_out hout (by simpa using hb)) (by simp [hm])
    rw [building_sendAll_other hout]
    exact building_pop_other hlink hm

/-- The messages of the circuit are only on the links between its hops, and the next one on such
a link is the one that the hop waits for. -/
theorem next_message (h : Progress aes pl s q) (hp : pl.Sound)
    (hlink : s.links src (pl.rinfoPort index) = m::ms) (hm : builds pl.slot m = true) :
    ∃ k < pl.numHops, src = pl.portAt k ∧ index = pl.hop k ∧ m = pl.msgAt aes k (q (k+1)) ∧
      q (k+1) < q k ∧ ms.filter (builds pl.slot) =
        (range' (q (k+1)+1) (q k-(q (k+1)+1))).map (pl.msgAt aes k) := by
  have hbuilding : s.building pl.slot src (pl.rinfoPort index) =
      m::ms.filter (builds pl.slot) := by
    rw [Network.building, hlink, filter_cons_of_pos hm]
  obtain ⟨k, hk, rfl, hport⟩ : ∃ k < pl.numHops, src = pl.portAt k ∧
      pl.rinfoPort index = pl.portAt (k+1) := by
    by_contra hno
    push Not at hno
    rw [h.clear _ _ hno] at hbuilding
    exact absurd hbuilding nofun
  obtain rfl := hp.port_inj index k hk hport
  have hmap := h.links k hk
  rw [show pl.portAt (k+1) = pl.rinfoPort (pl.hop k) from rfl, hbuilding] at hmap
  obtain ⟨i, l, hil, hmi, hms⟩ := map_eq_cons_iff.mp hmap.symm
  obtain ⟨rfl, hlt, rfl⟩ := lt_of_inTransit hil
  exact ⟨k, hk, rfl, rfl, hmi.symm, hlt, hms.symm⟩

theorem link_inj (hp : pl.Sound) {j : ℕ} (hj : j < pl.numHops) (hk : k < pl.numHops)
    (h : pl.portAt j = pl.portAt k ∧ pl.portAt (j+1) = pl.portAt (k+1)) : j = k :=
  hp.portAt_inj (by omega) (by omega) h.1

section

variable (h : Progress aes pl s q)
include h

/-- A hop has handled the message that it waits for: what is on the links and in the hops is
what the next state of the pipeline says, if the message that it passes on is added. -/
theorem taken (hp : pl.Sound) (hk : k < pl.numHops) (hlt : q (k+1) < q k)
    (hr : HopState pl k (q (k+1)+1) r) (hrouters : s'.routers = update s.routers (pl.hop k) r)
    (hpop : s'.building pl.slot (pl.portAt k) (pl.portAt (k+1)) =
      (range' (q (k+1)+1) (q k-(q (k+1)+1))).map (pl.msgAt aes k))
    (hsend : k+1 < pl.numHops → s'.building pl.slot (pl.portAt (k+1)) (pl.portAt (k+2)) =
      s.building pl.slot (pl.portAt (k+1)) (pl.portAt (k+2))++
        if 2*(k+1) ≤ q (k+1) then [pl.msgAt aes (k+1) (q (k+1))] else [])
    (hothers : ∀ a b, (a = pl.portAt k → b ≠ pl.portAt (k+1)) →
      (k+1 < pl.numHops → a = pl.portAt (k+1) → b ≠ pl.portAt (k+2)) →
      s'.building pl.slot a b = s.building pl.slot a b) :
    Progress aes pl s' (taken q k) where
  pipeline := h.pipeline.taken hlt
  bound := by
    rw [taken_zero]
    exact h.bound
  hops := by
    intro j hj
    rw [hrouters]
    by_cases hjk : j = k
    · subst hjk
      rw [update_self, taken_self]
      exact hr
    · rw [taken_of_ne (by omega), update_of_ne fun he => hjk (hp.hop_inj j k hj hk he)]
      exact h.hops j hj
  links := by
    intro j hj
    by_cases hjk : j = k
    · rw [hjk, hpop, inTransit_taken_self]
    · by_cases hjs : j = k+1
      · subst hjs
        rw [hsend hj, h.links (k+1) hj]
        split_ifs with hfirst
        · rw [h.pipeline.inTransit_taken_succ hj hfirst, map_append]
          rfl
        · rw [h.pipeline.inTransit_taken_idle hj (Nat.lt_of_not_le hfirst), append_nil]
      · rw [inTransit_taken_of_ne hjk hjs, ← h.links j hj]
        apply hothers
        · exact fun ha hb => hjk (link_inj hp hj hk ⟨ha, hb⟩)
        · exact fun hk1 ha hb => hjs (link_inj hp hj hk1 ⟨ha, hb⟩)
  clear := by
    intro a b hab
    rw [hothers a b (hab k hk) fun hk1 => hab (k+1) hk1]
    exact h.clear a b hab

theorem own_message (hp : pl.Sound) (hlink : s.links src (pl.rinfoPort index) = m::ms)
    (hm : builds pl.slot m = true) (hr : receive aes (s.routers index) m src = .ok (r, outs)) :
    ∃ k < pl.numHops, (src = pl.portAt k ∧ index = pl.hop k) ∧
      (q (k+1) < q k ∧ ms.filter (builds pl.slot) =
        (range' (q (k+1)+1) (q k-(q (k+1)+1))).map (pl.msgAt aes k)) ∧
      HopState pl k (q (k+1)+1) r ∧
      (2*(k+1) ≤ q (k+1) ∧ k+1 < pl.numHops ∧
          outs = [.udp (pl.portAt (k+2)) (pl.msgAt aes (k+1) (q (k+1)))] ∨
        q (k+1) < 2*(k+1) ∧ ∀ port m', .udp port m' ∈ outs → q (k+1) = 2*k+1 ∧
          port = pl.portAt k ∧ m' = ⟨.encryptedExtDone, pl.idAt k, []⟩) := by
  have hh := receive_handles hr
  obtain ⟨k, hk, rfl, rfl, rfl, hlt, hrest⟩ := h.next_message hp hlink hm
  have hslot : slot (pl.msgAt aes k (q (k+1))).cid = pl.slot := Plan.slot_idAt
  have hseen : pl.slot ≤ ((s.routers (pl.hop k)).seen (pl.msgAt aes k (q (k+1))).cid).ccSeq := by
    rw [← hslot]
    exact Nat.le_max_right _ _
  obtain ⟨hstate, hforward, hreply⟩ := ((h.hops k hk).seen _).take hp hk
    (h.pipeline.first_le k hk) hseen hh
  have hbound := h.pipeline.le_bound h.bound (fun j hj => by omega) k (by omega)
  refine ⟨k, hk, ⟨rfl, rfl⟩, ⟨hlt, hrest⟩, hstate, ?_⟩
  by_cases hfirst : 2*k+2 ≤ q (k+1)
  · have hout : pl.outPort k = pl.portAt (k+2) := if_neg (by omega)
    rw [hforward hfirst, hout]
    exact .inl ⟨hfirst, by omega, rfl⟩
  · exact .inr ⟨Nat.lt_of_not_le hfirst, hreply (Nat.lt_of_not_le hfirst)⟩

theorem deliver_own (hp : pl.Sound) (hports : s.proxy.rinfoPort = pl.rinfoPort)
    (hlink : s.links src (s.proxy.rinfoPort index) = m::ms) (hm : builds pl.slot m = true)
    (hr : receive aes (s.routers index) m src = .ok (r, outs)) :
    ∃ k, Progress aes pl (((s.pop src (s.proxy.rinfoPort index)).setRouter index r).sendAll
      (s.proxy.rinfoPort index) outs) (MessagePipelines.taken q k) := by
  rw [hports] at hlink ⊢
  obtain ⟨k, hk, ⟨rfl, rfl⟩, ⟨hlt, hrest⟩, hstate, houts⟩ := h.own_message hp hlink hm hr
  rw [show pl.rinfoPort (pl.hop k) = pl.portAt (k+1) from rfl] at hlink ⊢
  have hne : ¬(pl.portAt (k+1) = pl.portAt k ∧ pl.portAt (k+2) = pl.portAt (k+1)) := by
    intro he
    exact absurd (hp.portAt_inj (by omega) (by omega) he.1) (by omega)
  -- The links after the step: one message has been taken from link `k`, and it has been added
  -- to link `k+1` if it is passed on.
  have hbuilding : ∀ a b, ((((s.pop (pl.portAt k) (pl.portAt (k+1))).setRouter
      (pl.hop k) r).sendAll (pl.portAt (k+1)) outs).building pl.slot a b) =
      if a = pl.portAt k ∧ b = pl.portAt (k+1) then ms.filter (builds pl.slot)
      else if a = pl.portAt (k+1) ∧ b = pl.portAt (k+2) ∧ 2*(k+1) ≤ q (k+1) then
        s.building pl.slot a b++[pl.msgAt aes (k+1) (q (k+1))]
      else s.building pl.slot a b := by
    intro a b
    rcases houts with ⟨hfirst, _, rfl⟩ | ⟨hfirst, hreply⟩
    · change ((s.pop (pl.portAt k) (pl.portAt (k+1))).send (pl.portAt (k+1)) (pl.portAt (k+2))
        [pl.msgAt aes (k+1) (q (k+1))]).building pl.slot a b = _
      rw [building_send, building_pop hlink, building_pop hlink, if_neg hne,
        filter_cons_of_pos Plan.builds_msgAt]
      by_cases hnext : a = pl.portAt (k+1) ∧ b = pl.portAt (k+2)
      · obtain ⟨rfl, rfl⟩ := hnext
        rw [if_pos ⟨rfl, rfl⟩, if_neg hne, if_pos ⟨rfl, rfl, hfirst⟩]
        rfl
      · have hnot : ¬(a = pl.portAt (k+1) ∧ b = pl.portAt (k+2) ∧ 2*(k+1) ≤ q (k+1)) :=
          fun hab => hnext ⟨hab.1, hab.2.1⟩
        rw [if_neg hnext, if_neg hnot]
    · have hnot : ¬(a = pl.portAt (k+1) ∧ b = pl.portAt (k+2) ∧ 2*(k+1) ≤ q (k+1)) :=
        fun hab => absurd hab.2.2 (Nat.not_le_of_lt hfirst)
      have hout : ∀ port m', .udp port m' ∈ outs → builds pl.slot m' = false := by
        intro port m' hout
        rw [(hreply port m' hout).2.2]
        simp [builds]
      rw [building_sendAll_other hout, if_neg hnot]
      exact building_pop hlink
  refine ⟨k, h.taken hp hk hlt hstate (sendAll_fixed _ _).1 ?_ ?_ ?_⟩
  · rw [hbuilding, if_pos ⟨rfl, rfl⟩, hrest]
  · intro hk1
    rw [hbuilding, if_neg hne]
    split_ifs with h1 h2 h2
    · rfl
    · exact absurd h1.2.2 h2
    · exact absurd ⟨rfl, rfl, h2⟩ h1
    · rw [append_nil]
  · intro a b ha hb
    rw [hbuilding, if_neg fun hab => ha hab.1 hab.2, if_neg]
    rintro ⟨ha1, hb1, hfirst⟩
    rcases houts with ⟨_, hk1, _⟩ | ⟨hlt1, _⟩
    · exact hb hk1 ha1 hb1
    · omega

theorem deliver (hp : pl.Sound) (hports : s.proxy.rinfoPort = pl.rinfoPort)
    (hs : OnionNetwork.deliver aes s src index = .ok s') :
    ∃ q', q' 0 = q 0 ∧ Progress aes pl s' q' := by
  obtain ⟨m, ms, r, outs, hlink, hr, rfl⟩ := deliver_spec hs
  cases hm : builds pl.slot m with
  | true =>
    obtain ⟨k, hprogress⟩ := h.deliver_own hp hports hlink hm hr
    exact ⟨_, taken_zero, hprogress⟩
  | false => exact ⟨q, rfl, h.deliver_other hlink hm hr⟩

theorem answer (hs : handled s index x = .ok s')
    (hx : ∀ r outs, x = .ok (r, outs) → Answers (s.routers index) r outs) :
    Progress aes pl s' q := by
  obtain ⟨r, outs, rfl, rfl⟩ := handled_spec hs
  have ha := hx r outs rfl
  apply h.frame
  · rw [(sendAll_fixed _ _).1, ha.1]
    change ∀ k < pl.numHops, HopState pl k _ (update s.routers index _ (pl.hop k))
    rw [update_eq_self]
    exact h.hops
  · exact building_sendAll_other fun port m hout => ha.not_builds hout

theorem pop_proxy (hp : pl.Sound) (hlink : s.links src pl.port = m::ms) :
    Progress aes pl (s.pop src pl.port) q := by
  have hclear := h.clear src pl.port fun k _ _ => (hp.port_ne (pl.hop k)).symm
  have hm : builds pl.slot m = false := by
    cases hb : builds pl.slot m with
    | false => rfl
    | true =>
      rw [Network.building, hlink, filter_cons_of_pos hb] at hclear
      exact absurd hclear nofun
  exact h.frame h.hops (building_pop_other hlink hm)

end

theorem sendRound {c round : ℕ} (h : Progress aes (s.proxy.plan c) s q)
    (hp : (s.proxy.plan c).Sound) (hround : q 0 = 2*round) (hlt : round < s.proxy.numHops) :
    Progress aes (s.proxy.plan c) (sendRound aes s c (round+1) packet) (fed q 2) := by
  have hfirst : q 1 ≤ q 0 := by
    have := h.pipeline.le_max 0 (Nat.zero_lt_of_lt hlt)
    simpa using this
  have hbuilding : ∀ a b, (OnionNetwork.sendRound aes s c (round+1) packet).building
      (s.proxy.plan c).slot a b =
      if a = (s.proxy.plan c).portAt 0 ∧ b = (s.proxy.plan c).portAt 1 then
        s.building (s.proxy.plan c).slot a b++
          [(s.proxy.plan c).msgAt aes 0 (2*round), (s.proxy.plan c).msgAt aes 0 (2*round+1)]
      else s.building (s.proxy.plan c).slot a b := by
    intro a b
    change (s.send ((s.proxy.plan c).portAt 0) ((s.proxy.plan c).portAt 1)
      [keyMessage aes s.proxy c (round+1), extMessage aes s.proxy c (round+1)]).building _ a b = _
    rw [building_send, keyMessage_eq, extMessage_eq, filter_cons_of_pos Plan.builds_msgAt,
      filter_cons_of_pos Plan.builds_msgAt]
    split_ifs with hab
    · rw [hab.1, hab.2]
      rfl
    · rfl
  constructor
  · exact h.pipeline.fed 2
  · rw [fed_zero, hround]
    change 2*round+2 ≤ 2*s.proxy.numHops
    omega
  · intro k hk
    rw [fed_succ]
    exact h.hops k hk
  · intro k hk
    rw [hbuilding]
    cases k with
    | zero =>
      rw [if_pos ⟨rfl, rfl⟩, h.links 0 hk, inTransit_fed_zero hfirst, map_append, hround]
      rfl
    | succ k =>
      rw [if_neg, inTransit_fed_succ]
      · exact h.links (k+1) hk
      · intro he
        exact absurd (hp.portAt_inj (by omega) (by omega) he.1) (by omega)
  · intro a b hab
    rw [hbuilding, if_neg fun he => hab 0 (Nat.zero_lt_of_lt hlt) he.1 he.2]
    exact h.clear a b hab

end Progress

end Steps

/-! ### The whole construction -/

/-- What a circuit needs of the network that it is built in: distinct routers under distinct
ports, in each of which its slot is free, and no messages that build a circuit in that slot.
The other slots and the other messages are arbitrary. -/
structure Buildable (pl : Plan) (s : Network) : Prop where
  sound : pl.Sound
  hops_pos : 0 < pl.numHops
  hops : ∀ k < pl.numHops, HopState pl k (2*k) (s.routers (pl.hop k))
  quiet : ∀ a b, s.building pl.slot a b = []

/-- The messages that a path waits for before any has been sent. -/
def unsent (k : ℕ) : ℕ := 2*(k-1)

variable {s : Network}

theorem Buildable.progress {pl : Plan} (h : Buildable pl s) : Progress aes pl s unsent := by
  constructor
  · constructor
    · exact fun k _ => Nat.le_refl _
    · exact fun k _ => Nat.le_max_left _ _
  · exact Nat.zero_le _
  · exact h.hops
  · intro k _
    rw [h.quiet, inTransit, show unsent k-unsent (k+1) = 0 by unfold unsent; omega]
    rfl
  · exact fun a b _ => h.quiet a b

/-- The events before the packet is relayed that a circuit was built for. -/
def NetEvent.early : NetEvent → Bool
  | .relay => false
  | _ => true

/-- The proxy is in `create_circuit` for a circuit, or has just left it. -/
structure Creating (aes : Aes) (pl : Plan) (c : ℕ) (packet : Bytes) (s : Network) : Prop where
  plan : s.proxy.plan c = pl
  progress : ∃ q, Progress aes pl s q ∧
    ((∃ round ≤ pl.numHops, s.proxy.state = .creating c round packet ∧ q 0 = 2*round) ∨
      s.proxy.state = .created c packet ∧ q 0 = 2*pl.numHops)

section Runs

variable {aes : Aes} {pl : Plan} {c : ℕ} {packet : Bytes} {s s' : Network}

theorem Buildable.creating {net : Network} (h : Buildable (net.proxy.plan c) net) :
    Creating aes (net.proxy.plan c) c packet (sendRound aes net c 1 packet) := by
  refine ⟨rfl, _, h.progress.sendRound h.sound rfl h.hops_pos, .inl ⟨1, h.hops_pos, rfl, rfl⟩⟩

theorem Creating.not_idle (h : Creating aes pl c packet s) : s.proxy.state ≠ .idle := by
  obtain ⟨q, _, ⟨round, _, hstate, _⟩ | ⟨hstate, _⟩⟩ := h.progress
  · rw [hstate]
    exact nofun
  · rw [hstate]
    exact nofun

theorem Creating.of_progress (h : Creating aes pl c packet s) (hproxy : s'.proxy = s.proxy)
    (hs : ∀ q, Progress aes pl s q → ∃ q', q' 0 = q 0 ∧ Progress aes pl s' q') :
    Creating aes pl c packet s' := by
  obtain ⟨q, hq, hstate⟩ := h.progress
  obtain ⟨q', h0, hq'⟩ := hs q hq
  refine ⟨by rw [hproxy, h.plan], q', hq', ?_⟩
  rw [hproxy, h0]
  exact hstate

theorem handled_proxy (hs : handled s index x = .ok s') : s'.proxy = s.proxy := by
  obtain ⟨r, outs, _, rfl⟩ := handled_spec hs
  exact (sendAll_fixed _ _).2.1

theorem deliver_proxy (hs : deliver aes s src index = .ok s') : s'.proxy = s.proxy := by
  obtain ⟨m, ms, r, outs, _, _, rfl⟩ := deliver_spec hs
  exact (sendAll_fixed _ _).2.1

/-- The proxy takes a datagram for the reply of a round, and goes on with the next one. -/
theorem Creating.reply (h : Creating aes pl c packet s) (hp : pl.Sound)
    (hs : reply aes s src = .ok s') : Creating aes pl c packet s' := by
  obtain ⟨q, hq, hround⟩ := h.progress
  obtain rfl := h.plan
  obtain ⟨m, ms, hlink, ⟨c', round', packet', hstate, rfl⟩ | ⟨hidle, _⟩⟩ := reply_spec hs
  · rcases hround with ⟨round, hle, hcreating, h0⟩ | ⟨hcreated, h0⟩
    · obtain ⟨rfl, rfl, rfl⟩ : c' = c ∧ round' = round ∧ packet' = packet := by
        simpa using hstate.symm.trans hcreating
      have hpop := hq.pop_proxy hp hlink
      split_ifs with hlast
      · have h0' : q 0 = 2*s.proxy.numHops := by rw [h0, hlast]
        exact ⟨rfl, q, hpop.frame hpop.hops rfl, .inr ⟨rfl, h0'⟩⟩
      · have hlt : round' < s.proxy.numHops := Nat.lt_of_le_of_ne hle hlast
        have hpop' : Progress aes ((s.pop src s.proxy.port).proxy.plan c') _ q := hpop
        refine ⟨rfl, _, hpop'.sendRound hp h0 hlt, .inl ⟨round'+1, hlt, rfl, ?_⟩⟩
        rw [fed_zero, h0]
        rfl
    · exact absurd (hstate.symm.trans hcreated) nofun
  · exact absurd hidle h.not_idle

theorem Creating.step (h : Creating aes pl c packet s) (hp : pl.Sound) {e : NetEvent}
    (he : e.early = true) (hs : NetStep aes s e s') : Creating aes pl c packet s' := by
  cases e with
  | deliver src index =>
    have hports : s.proxy.rinfoPort = pl.rinfoPort := by rw [← h.plan]; rfl
    exact h.of_progress (deliver_proxy hs) fun q hq => hq.deliver hp hports hs
  | reply src => exact h.reply hp hs
  | tunnel packet hops =>
    have hoff : tunnel aes s packet hops = .error .disabled := if_neg fun hi => h.not_idle hi.1
    exact absurd (hoff.symm.trans hs) nofun
  | relay => exact absurd he nofun
  | rawIcmp index packet =>
    exact h.of_progress (handled_proxy hs) fun q hq =>
      ⟨q, rfl, hq.answer hs fun r outs hr => rawMitToTunnle_answers hr⟩
  | rawTcp index packet =>
    exact h.of_progress (handled_proxy hs) fun q hq =>
      ⟨q, rfl, hq.answer hs fun r outs hr => handleRawsockTcp_answers hr⟩

/-- When all messages have been sent and none is on its way, every hop has been built. -/
theorem Creating.built (h : Creating aes pl c packet s) (hstate : s.proxy.state = .created c packet)
    (hdelivered : ∀ k < pl.numHops, s.building pl.slot (pl.portAt k) (pl.portAt (k+1)) = [])
    (hk : k < pl.numHops) :
    HopState pl k (2*pl.numHops) (s.routers (pl.hop k)) := by
  obtain ⟨q, hq, hround⟩ := h.progress
  have h0 : q 0 = 2*pl.numHops := by
    rcases hround with ⟨round, _, hcreating, _⟩ | ⟨_, h0⟩
    · rw [hstate] at hcreating
      exact absurd hcreating nofun
    · exact h0
  have hempty : ∀ j < pl.numHops, inTransit q j = [] := by
    intro j hj
    have hmap := hq.links j hj
    rw [hdelivered j hj] at hmap
    exact map_eq_nil_iff.mp hmap.symm
  have hlast := hq.pipeline.drained (by intro j hj; rw [h0]; omega) hempty (k+1) hk
  rw [← h0, ← hlast]
  exact hq.hops k hk

end Runs

/-! ### The other circuits -/

/-- An event that brings no message of a slot to a router. -/
def Untouched (i : ℕ) (s : Network) : NetEvent → Prop
  | .deliver src index => ∀ m ∈ (s.links src (s.proxy.rinfoPort index)).head?, slot m.cid ≠ i
  | _ => True

variable {s' : Network}

theorem reply_routers (hs : reply aes s src = .ok s') : s'.routers = s.routers := by
  obtain ⟨_, _, _, ⟨_, _, _, _, rfl⟩ | ⟨_, _, rfl⟩⟩ := reply_spec hs
  · split_ifs
    · rfl
    · rfl
  · rfl

theorem tunnel_routers {hops : ℕ → ℕ} (hs : tunnel aes s packet hops = .ok s') :
    s'.routers = s.routers := by
  obtain ⟨_, ⟨c, _, rfl⟩ | ⟨_, _, _, rfl⟩⟩ := tunnel_spec hs
  · rfl
  · rfl

theorem relay_routers (hs : relay aes s = .ok s') : s'.routers = s.routers := by
  obtain ⟨c, packet, _, rfl⟩ := relay_spec hs
  split_ifs
  · rfl
  · rfl

theorem answer_routers (hs : handled s index x = .ok s')
    (hx : ∀ r outs, x = .ok (r, outs) → Answers (s.routers index) r outs) :
    s'.routers = s.routers := by
  obtain ⟨r, outs, rfl, rfl⟩ := handled_spec hs
  rw [(sendAll_fixed _ _).1, (hx r outs rfl).1]
  exact update_eq_self _ _

theorem untouched_step {e : NetEvent} {i : ℕ} (he : Untouched i s e) (hs : NetStep aes s e s')
    (j : ℕ) :
    (s'.routers j).cc i = (s.routers j).cc i ∧
      (s'.routers j).aesKey i = (s.routers j).aesKey i := by
  cases e with
  | deliver src index =>
    obtain ⟨m, ms, r, outs, hlink, hr, rfl⟩ := deliver_spec hs
    have hslot : i ≠ slot m.cid := fun hi => he m (by rw [hlink]; rfl) hi.symm
    obtain ⟨hcc, hkey⟩ := (receive_handles hr).fixed.2 i hslot
    rw [(sendAll_fixed _ _).1]
    change (update s.routers index r j).cc i = _ ∧
      (update s.routers index r j).aesKey i = _
    by_cases hj : j = index
    · rw [hj, update_self]
      exact ⟨hcc, hkey⟩
    · rw [update_of_ne hj]
      exact ⟨rfl, rfl⟩
  | reply src => rw [reply_routers hs]; exact ⟨rfl, rfl⟩
  | tunnel packet hops => rw [tunnel_routers hs]; exact ⟨rfl, rfl⟩
  | relay => rw [relay_routers hs]; exact ⟨rfl, rfl⟩
  | rawIcmp index packet =>
    rw [answer_routers hs fun r outs hr => rawMitToTunnle_answers hr]
    exact ⟨rfl, rfl⟩
  | rawTcp index packet =>
    rw [answer_routers hs fun r outs hr => handleRawsockTcp_answers hr]
    exact ⟨rfl, rfl⟩

/-! ### The way of a message -/

/-- The routers that a message visits one after the other, until it gets to the proxy or to a
router that sends no datagram on. -/
inductive Visits (aes : Aes) (s : Network) : ℕ → ℕ → Message → List ℕ → Prop
  | proxy (src : ℕ) (m : Message) : Visits aes s src s.proxy.port m []
  | exit {src i : ℕ} {m : Message} {r : Router} {outs : List Output} :
    receive aes (s.routers i) m src = .ok (r, outs) → (∀ port m', .udp port m' ∉ outs) →
    Visits aes s src (s.proxy.rinfoPort i) m [i]
  | pass {src i port : ℕ} {m m' : Message} {r : Router} {is : List ℕ} :
    receive aes (s.routers i) m src = .ok (r, [.udp port m']) →
    Visits aes s (s.proxy.rinfoPort i) port m' is →
    Visits aes s src (s.proxy.rinfoPort i) m (i::is)

section Ways

variable {aes : Aes} {pl : Plan} {s : Network} {x : Bytes}

theorem visits_relay (hp : pl.Sound) (hports : s.proxy.rinfoPort = pl.rinfoPort)
    (hbuilt : ∀ k < pl.numHops, HopState pl k (2*pl.numHops) (s.routers (pl.hop k)))
    (hlast : ∀ k < pl.numHops, pl.rinfoPort (pl.hop k) ≠ lastHop) (d k : ℕ)
    (hk : k+d+1 = pl.numHops) :
    Visits aes s (pl.portAt k) (pl.portAt (k+1))
      ⟨.encryptedRelay, pl.idAt k, pl.layers aes k pl.numHops x⟩
      ((range' k (d+1)).map pl.hop) := by
  have hport : pl.portAt (k+1) = s.proxy.rinfoPort (pl.hop k) := by rw [hports]; rfl
  induction d generalizing k with
  | zero =>
    rw [← hk, hport]
    exact .exit ((hbuilt k (by omega)).receive_exit hp hk (by omega)) (sendOut_spec _ _ _ _).2
  | succ d ih =>
    have hout : pl.outPort k = pl.portAt (k+2) := if_neg (by omega)
    rw [range'_succ, map_cons, hport]
    refine .pass ((hbuilt k (by omega)).receive_relay hp (by omega) (by omega) ?_ (by omega)) ?_
    · rw [hout]
      exact hlast (k+1) (by omega)
    · rw [hout, ← hport]
      exact ih (k+1) (by omega) (by rw [hports]; rfl)

theorem visits_reply (hp : pl.Sound) (hports : s.proxy.rinfoPort = pl.rinfoPort)
    (hproxy : s.proxy.port = pl.port)
    (hbuilt : ∀ k < pl.numHops, HopState pl k (2*pl.numHops) (s.routers (pl.hop k))) (k : ℕ)
    (hk : k < pl.numHops) :
    Visits aes s (pl.portAt (k+1)) (pl.portAt k) ⟨.encryptedRelayReply, pl.idAt k, x⟩
      ((range k).map pl.hop).reverse := by
  induction k generalizing x with
  | zero =>
    rw [show pl.portAt 0 = s.proxy.port from hproxy.symm]
    exact .proxy _ _
  | succ k ih =>
    have hport : pl.portAt (k+1) = s.proxy.rinfoPort (pl.hop k) := by rw [hports]; rfl
    rw [range_succ, map_append, reverse_append, hport]
    refine .pass ((hbuilt k (by omega)).receive_reply hp (by omega)) ?_
    rw [← hport]
    exact ih (by omega)

end Ways

/-- When `create_circuit` has finished and its messages have been delivered, each hop has the
key that the proxy has for it and the ids and ports of its neighbours. Relayed packets visit the
path in order if no hop has the port that marks a last one, and answers of the last hop go through
it in reverse. A slot of another circuit is as it was before, if no message of that circuit has
been delivered meanwhile. -/
theorem circuit_is_built (aes : Aes) (net s : Network) (c : ℕ) (packet : Bytes)
    (es : List NetEvent) (hb : Buildable (net.proxy.plan c) net)
    (hrun : Run (NetStep aes) (fun _ e => e.early = true) (sendRound aes net c 1 packet) es s)
    (hfinished : s.proxy.state = .created c packet)
    (hdelivered : ∀ k < net.proxy.numHops, s.building (net.proxy.plan c).slot
      ((net.proxy.plan c).portAt k) ((net.proxy.plan c).portAt (k+1)) = []) :
    let pl := net.proxy.plan c
    (∀ k < pl.numHops, (s.routers (pl.hop k)).aesKey pl.slot = pl.key k ∧
      ((s.routers (pl.hop k)).cc pl.slot).route = pl.route k) ∧
    ((∀ k < pl.numHops, pl.portAt (k+1) ≠ lastHop) → ∀ x, Visits aes s (pl.portAt 0) (pl.portAt 1)
      ⟨.encryptedRelay, pl.cid, encryptMultiround aes net.proxy.paths x pl.numHops c⟩
      ((range pl.numHops).map pl.hop)) ∧
    (∀ x, ∃ m, answerOn aes (s.routers (pl.hop (pl.numHops-1))) pl.slot x =
        .ok (s.routers (pl.hop (pl.numHops-1)), [.udp (pl.portAt (pl.numHops-1)) m]) ∧
      Visits aes s (pl.portAt pl.numHops) (pl.portAt (pl.numHops-1)) m
        ((range (pl.numHops-1)).map pl.hop).reverse) ∧
    ∀ i, Run (NetStep aes) (Untouched i) (sendRound aes net c 1 packet) es s →
      ∀ j, (s.routers j).cc i = (net.routers j).cc i ∧
        (s.routers j).aesKey i = (net.routers j).aesKey i := by
  intro pl
  have hp : pl.Sound := hb.sound
  have hpos : 0 < pl.numHops := hb.hops_pos
  have hcreating : Creating aes pl c packet s :=
    hrun.invariant (fun _ _ _ he hs h => h.step hp he hs) hb.creating
  have hbuilt : ∀ k < pl.numHops, HopState pl k (2*pl.numHops) (s.routers (pl.hop k)) :=
    fun k hk => hcreating.built hfinished hdelivered hk
  have hports : s.proxy.rinfoPort = pl.rinfoPort := congrArg Plan.rinfoPort hcreating.plan
  have hport : s.proxy.port = pl.port := congrArg Plan.port hcreating.plan
  refine ⟨fun k hk => ?_, fun hlast x => ?_, fun x => ?_, fun i hi j => ?_⟩
  · have hk2 : 2*k+2 ≤ 2*pl.numHops := by omega
    exact ⟨((hbuilt k hk).keyed (by omega)).1, (hbuilt k hk).built hk2⟩
  · have hway : Visits aes s (pl.portAt 0) (pl.portAt (0+1))
        ⟨.encryptedRelay, pl.idAt 0, pl.layers aes 0 pl.numHops x⟩
        ((range' 0 (pl.numHops-1+1)).map pl.hop) :=
      visits_relay hp hports hbuilt hlast (pl.numHops-1) 0 (by omega)
    rw [Nat.sub_add_cancel hpos, ← range_eq_range'] at hway
    rw [encryptMultiround_eq]
    exact hway
  · obtain ⟨k, hk⟩ : ∃ k, pl.numHops = k+1 := Nat.exists_eq_succ_of_ne_zero hpos.ne'
    rw [hk, Nat.add_sub_cancel]
    exact ⟨_, (hbuilt k (by omega)).answerOn_eq hp (by omega),
      visits_reply hp hports hport hbuilt k (by omega)⟩
  · refine hi.invariant (I := fun t => (t.routers j).cc i = (net.routers j).cc i ∧
      (t.routers j).aesKey i = (net.routers j).aesKey i) ?_ ⟨rfl, rfl⟩
    intro t e u he hs ht
    obtain ⟨hcc, hkey⟩ := untouched_step he hs j
    exact ⟨hcc.trans ht.1, hkey.trans ht.2⟩

/-! ### A path of two routers -/

section Pair

theorem netNext_toOption (s : Network) (e : NetEvent) (s' : Network)
    (h : (netNext aes s e).toOption = some s') : NetStep aes s e s' := by
  unfold NetStep
  cases hn : netNext aes s e with
  | error f =>
    rw [hn] at h
    exact absurd h nofun
  | ok t =>
    rw [hn] at h
    exact congrArg _ (Option.some.inj h)

theorem exists_run_net (good : Network → NetEvent → Prop) [∀ s e, Decidable (good s e)]
    (s : Network) (es : List NetEvent) {P : Network → Prop} [DecidablePred P]
    (h : (exec (fun s e => (netNext addKey s e).toOption) good s es).any (fun t => decide (P t))
      = true) : ∃ t, Run (NetStep addKey) good s es t ∧ P t := exists_run netNext_toOption h

def idle (rinfoPort : ℕ → ℕ) (numNodes numHops : ℕ) : Network where
  proxy :=
    { paths := ⟨fun i => replicate 16 (UInt8.ofNat i), fun _ k => k+1⟩
      rinfoPort := rinfoPort
      numNodes := numNodes
      numHops := numHops
      port := 1000
      flow := fun _ => ⟨[], [], [], 0⟩
      numberPath := 0
      random1 := 0
      oldSrc := []
      state := .idle }
  routers := fun i => ⟨i, [127, 0, 0, 1], 1,
    fun _ => ⟨0, 0, 0, 0, [0, 0], [0, 0, 0, 0], [0, 0, 0, 0]⟩,
    fun _ => replicate 16 0⟩
  links := fun _ _ => []
  tunOut := []

def pairPort (port i : ℕ) : ℕ := if i = 1 then 1001 else if i = 2 then port else 0

/-- A path of two routers, the second one under a given port. -/
def pair (port : ℕ) : Network := idle (pairPort port) 2 2

theorem pair_buildable {port : ℕ} (hpos : 1001 < port) (hlt : port < 65536) :
    Buildable ((pair port).proxy.plan 0) (pair port) := by
  constructor
  · constructor
    · intro j k _ _ h
      exact Nat.succ.inj h
    · intro k hk
      exact ⟨Nat.succ_pos k, by change k+1 < 256; change k < 2 at hk; omega⟩
    · intro i k hk h
      change k < 2 at hk
      change i = k+1
      change (if i = 1 then 1001 else if i = 2 then port else 0) =
        (if k+1 = 1 then 1001 else if k+1 = 2 then port else 0) at h
      split_ifs at h <;> omega
    · intro k hk
      change (if k+1 = 1 then 1001 else if k+1 = 2 then port else 0) < 65536
      split_ifs <;> omega
    · intro i
      change (if i = 1 then 1001 else if i = 2 then port else 0) ≠ 1000
      split_ifs <;> omega
    · change 0 < cID 0
      decide
    · change slot (cID 0) < aesKeyRows
      decide
    · intro k _
      exact length_replicate
  · exact Nat.succ_pos 1
  · intro k _
    constructor
    · rfl
    · exact (by decide : 1 < 16)
    · exact length_replicate
    · exact fun _ _ => .inl rfl
    · exact fun h => absurd h (by omega)
    · exact fun _ => rfl
    · exact fun h => absurd h (by omega)
  · exact fun _ _ => rfl

/-- The deliveries of a construction over two hops. -/
def pairEvents (port : ℕ) : List NetEvent :=
  [.deliver 1000 1, .deliver 1000 1, .reply 1001, .deliver 1000 1, .deliver 1000 1,
    .deliver 1001 2, .deliver 1001 2, .deliver port 1, .reply 1001]

/-- Whether a construction over two hops has finished. -/
def pairFinished (port : ℕ) (s : Network) : Bool :=
  decide (s.proxy.state = .created 0 []) && (s.building 1 1000 1001).isEmpty &&
    (s.building 1 1001 port).isEmpty

theorem pairFinished_iff {port : ℕ} (h : pairFinished port s = true) :
    s.proxy.state = .created 0 [] ∧ ∀ k < (pair port).proxy.numHops,
      s.building ((pair port).proxy.plan 0).slot (((pair port).proxy.plan 0).portAt k)
        (((pair port).proxy.plan 0).portAt (k+1)) = [] := by
  unfold pairFinished at h
  rw [Bool.and_eq_true, Bool.and_eq_true, decide_eq_true_iff, List.isEmpty_iff,
    List.isEmpty_iff] at h
  refine ⟨h.1.1, fun k hk => ?_⟩
  change k < 2 at hk
  obtain rfl | rfl : k = 0 ∨ k = 1 := by omega
  · exact h.1.2
  · exact h.2

theorem circuit_is_built_pair : ∃ s : Network,
    (s.routers 1).aesKey 1 = replicate 16 1 ∧
    ((s.routers 1).cc 1).route = (1, 257, 1000, 1002) ∧
    (s.routers 2).aesKey 1 = replicate 16 2 ∧
    ((s.routers 2).cc 1).route = (257, 513, 1001, 0xffff) ∧
    ∀ x, Visits addKey s 1000 1001
      ⟨.encryptedRelay, 1, encryptMultiround addKey (pair 1002).proxy.paths x 2 0⟩ [1, 2] := by
  obtain ⟨s, hrun, hs⟩ := exists_run_net (fun _ e => NetEvent.early e = true)
    (sendRound addKey (pair 1002) 0 1 []) (pairEvents 1002) (P := fun s => pairFinished 1002 s)
    (by decide +kernel)
  obtain ⟨hstate, hdelivered⟩ := pairFinished_iff hs
  obtain ⟨htables, hrelay, _⟩ := circuit_is_built addKey (pair 1002) s 0 [] _
    (pair_buildable (by decide) (by decide)) hrun hstate hdelivered
  exact ⟨s, (htables 0 (by decide)).1, (htables 0 (by decide)).2, (htables 1 (by decide)).1,
    (htables 1 (by decide)).2, hrelay (by decide)⟩

/-- Whether the router with an index sends no datagram on for a message. -/
def keepsBack (s : Network) (i src : ℕ) (m : Message) : Bool :=
  match receive addKey (s.routers i) m src with
  | .ok (_, outs) => outs.all fun
    | .udp _ _ => false
    | .rawSock _ _ => true
  | .error _ => false

theorem visits_of_keepsBack {i : ℕ} {m : Message} (h : keepsBack s i src m = true) :
    Visits addKey s src (s.proxy.rinfoPort i) m [i] := by
  unfold keepsBack at h
  cases hr : receive addKey (s.routers i) m src with
  | error f =>
    rw [hr] at h
    exact absurd h nofun
  | ok p =>
    rw [hr] at h
    refine .exit hr fun port m' hout => ?_
    have := all_eq_true.mp h _ hout
    exact absurd this nofun

/-- If the second router has the port that marks a last hop, the first one does not relay packets
to it. -/
theorem relay_stops_at_marked_port : ∃ s : Network,
    Buildable ((pair 0xffff).proxy.plan 0) (pair 0xffff) ∧
    Run (NetStep addKey) (fun _ e => NetEvent.early e = true)
      (sendRound addKey (pair 0xffff) 0 1 []) (pairEvents 0xffff) s ∧
    pairFinished 0xffff s = true ∧
    s.proxy.rinfoPort 1 = 1001 ∧
    Visits addKey s 1000 (s.proxy.rinfoPort 1)
      ⟨.encryptedRelay, 1, encryptMultiround addKey (pair 0xffff).proxy.paths [69] 2 0⟩ [1] := by
  exact (exists_run_net _ _ _ (P := fun s => pairFinished 0xffff s = true ∧
      s.proxy.rinfoPort 1 = 1001 ∧ keepsBack s 1 1000
        ⟨.encryptedRelay, 1, encryptMultiround addKey (pair 0xffff).proxy.paths [69] 2 0⟩ = true)
      (by decide +kernel)).imp fun s h =>
    ⟨pair_buildable (by decide) (by decide), h.1, h.2.1, h.2.2.1, visits_of_keepsBack h.2.2.2⟩

end Pair

end SystemsProjects.OnionNetwork
