import SystemsProjects.OnionRouters

/-!
# What a router does with a datagram

Every outcome of the handlers is listed once. A datagram touches only the row and the entry in
the slot of its circuit id, and the ids that are passed on with the messages of a circuit
construction stay in that slot.
-/
namespace SystemsProjects.OnionRouters

open Function IpPackets OnionLayers List

/-- The entry of a router after an extend message that was meant for it. -/
def extended (r : Router) (cid src : ℕ) (tport : Bytes) : Router :=
  if (r.cc (slot cid)).iid = 0 then
    r.setCircuit (slot cid) { r.cc (slot cid) with
      iid := cid
      oid := r.oID cid
      iport := src
      oport := swapBytes (atoi tport%65536) }
  else r

/-- The outcomes of the handler of a datagram, for a router that has raised its number of
circuits. -/
inductive Handles (aes : Aes) (r : Router) (m : Message) (src : ℕ) :
    Router → List Output → Prop
  | forward (clear : Bytes) :
    m.msgType = .fakeDiffieHellman ∨ m.msgType = .encryptedExt →
    r.known Circuit.iid m.cid = .ok true → decryptAt aes r m.cid m.payload = .ok clear →
    Handles aes r m src r [.udp (r.cc (slot m.cid)).oport ⟨m.msgType, r.oID m.cid, clear⟩]
  | storeKey (r' : Router) :
    m.msgType = .fakeDiffieHellman → r.known Circuit.iid m.cid = .ok false →
    r.storeKey (slot m.cid) m.payload = .ok r' → Handles aes r m src r' []
  | extend (tport : Bytes) :
    m.msgType = .encryptedExt → r.known Circuit.iid m.cid = .ok false →
    decryptAt aes r m.cid m.payload = .ok tport →
    Handles aes r m src (extended r m.cid src tport) [.udp src ⟨.encryptedExtDone, m.cid, []⟩]
  | back :
    m.msgType = .encryptedExtDone → r.known Circuit.oid m.cid = .ok true →
    Handles aes r m src r
      [.udp (r.cc (slot m.cid)).iport ⟨.encryptedExtDone, (r.cc (slot m.cid)).iid, m.payload⟩]
  | ignore :
    m.msgType = .encryptedExtDone → r.known Circuit.oid m.cid = .ok false →
    Handles aes r m src r []
  | exit (clear : Bytes) :
    m.msgType = .encryptedRelay → r.known Circuit.iid m.cid = .ok true →
    decryptAt aes r m.cid m.payload = .ok clear → (r.cc (slot m.cid)).oport = lastHop →
    Handles aes r m src (sendOut r (slot m.cid) clear (m.payload.drop clear.length)).1
      (sendOut r (slot m.cid) clear (m.payload.drop clear.length)).2
  | relay (clear : Bytes) :
    m.msgType = .encryptedRelay → r.known Circuit.iid m.cid = .ok true →
    decryptAt aes r m.cid m.payload = .ok clear → (r.cc (slot m.cid)).oport ≠ lastHop →
    Handles aes r m src r
      [.udp (r.cc (slot m.cid)).oport ⟨.encryptedRelay, (r.cc (slot m.cid)).oid, clear⟩]
  | reply (key : Bytes) :
    m.msgType = .encryptedRelayReply → r.known Circuit.oid m.cid = .ok true →
    r.keyAt (slot m.cid) = .ok key →
    Handles aes r m src r [.udp (r.cc (slot m.cid)).iport
      ⟨.encryptedRelayReply, (r.cc (slot m.cid)).iid, encryptMsg aes key m.payload⟩]

section Outcomes

variable {aes : Aes} {r r' : Router} {m : Message} {src : ℕ} {outs : List Output}

theorem bind_ok {α β : Type} {x : Except Fault α} {f : α → Except Fault β} {b : β}
    (h : (x >>= f) = .ok b) : ∃ a, x = .ok a ∧ f a = .ok b := by
  cases x with
  | error e => exact absurd h nofun
  | ok a => exact ⟨a, rfl, h⟩

theorem handleDeffieHellman_handles (ht : m.msgType = .fakeDiffieHellman)
    (h : handleDeffieHellman aes r m = .ok (r', outs)) : Handles aes r m src r' outs := by
  obtain ⟨b, hknown, h⟩ := bind_ok h
  cases b with
  | true =>
    obtain ⟨clear, hclear, h⟩ := bind_ok h
    cases h
    exact .forward clear (.inl ht) hknown hclear
  | false =>
    obtain ⟨_, hstore, h⟩ := bind_ok h
    cases h
    exact .storeKey _ ht hknown hstore

theorem handleCcext_handles (ht : m.msgType = .encryptedExt)
    (h : handleCcext aes r m src = .ok (r', outs)) : Handles aes r m src r' outs := by
  obtain ⟨b, hknown, h⟩ := bind_ok h
  cases b with
  | true =>
    obtain ⟨clear, hclear, h⟩ := bind_ok h
    cases h
    exact .forward clear (.inr ht) hknown hclear
  | false =>
    obtain ⟨tport, hport, h⟩ := bind_ok h
    cases h
    exact .extend tport ht hknown hport

theorem handleCcextDone_handles (ht : m.msgType = .encryptedExtDone)
    (h : handleCcextDone r m = .ok (r', outs)) : Handles aes r m src r' outs := by
  obtain ⟨b, hknown, h⟩ := bind_ok h
  cases b with
  | true =>
    cases h
    rw [ht]
    exact .back ht hknown
  | false =>
    cases h
    exact .ignore ht hknown

theorem handleRelay_handles (ht : m.msgType = .encryptedRelay)
    (h : handleRelay aes r m = .ok (r', outs)) : Handles aes r m src r' outs := by
  obtain ⟨clear, hclear, h⟩ := bind_ok h
  obtain ⟨b, hknown, h⟩ := bind_ok h
  cases b with
  | true =>
    rw [if_pos rfl] at h
    split_ifs at h with hlast
    · have hpair : sendOut r (slot m.cid) clear (m.payload.drop clear.length) = (r', outs) :=
        Except.ok.inj h
      have hexit : Handles aes r m src _ _ := .exit clear ht hknown hclear hlast
      rw [hpair] at hexit
      exact hexit
    · cases h
      rw [ht]
      exact .relay clear ht hknown hclear hlast
  | false => exact absurd h nofun

theorem handleRelayReply_handles (ht : m.msgType = .encryptedRelayReply)
    (h : handleRelayReply aes r m = .ok (r', outs)) : Handles aes r m src r' outs := by
  obtain ⟨key, hkey, h⟩ := bind_ok h
  obtain ⟨b, hknown, h⟩ := bind_ok h
  cases b with
  | true =>
    cases h
    rw [ht]
    exact .reply key ht hknown hkey
  | false => exact absurd h nofun

theorem receive_handles (h : receive aes r m src = .ok (r', outs)) :
    Handles aes (r.seen m.cid) m src r' outs := by
  unfold receive dispatch at h
  cases ht : m.msgType with
  | fakeDiffieHellman =>
    rw [ht] at h
    exact handleDeffieHellman_handles ht h
  | encryptedExt =>
    rw [ht] at h
    exact handleCcext_handles ht h
  | encryptedExtDone =>
    rw [ht] at h
    exact handleCcextDone_handles ht h
  | encryptedRelay =>
    rw [ht] at h
    exact handleRelay_handles ht h
  | encryptedRelayReply =>
    rw [ht] at h
    exact handleRelayReply_handles ht h

end Outcomes

/-! ### What stays as it is -/

/-- The part of an entry that says where the messages of a circuit go. -/
def Circuit.route (e : Circuit) : ℕ×ℕ×ℕ×ℕ := (e.iid, e.oid, e.iport, e.oport)

/-- The messages that build a circuit in a slot. -/
def builds (s : ℕ) (m : Message) : Bool :=
  decide (slot m.cid = s ∧ (m.msgType = .fakeDiffieHellman ∨ m.msgType = .encryptedExt))

theorem slot_oID (r : Router) (cid : ℕ) : slot (r.oID cid) = slot cid := by
  unfold Router.oID computeCircuitId slot
  omega

@[simp]
theorem setCircuit_self (r : Router) (c : ℕ) (e : Circuit) : (r.setCircuit c e).cc c = e :=
  update_self _ _ _

variable {c : ℕ}

theorem setCircuit_of_ne (r : Router) {i : ℕ} (e : Circuit) (h : i ≠ c) :
    (r.setCircuit c e).cc i = r.cc i := update_of_ne h _ _

theorem sendOut_spec (r : Router) (c : ℕ) (clear rest : Bytes) :
    (∃ e : Circuit, (sendOut r c clear rest).1 = r.setCircuit c e ∧ e.route = (r.cc c).route ∧
      e.oip = daddr clear ∧ (protocol clear = 6 → e.lastHopPort = tcpDest clear) ∧
      (protocol clear ≠ 6 → e.lastHopPort = (r.cc c).lastHopPort)) ∧
    ∀ port m, .udp port m ∉ (sendOut r c clear rest).2 := by
  unfold sendOut
  dsimp only
  split_ifs with h1 h6
  · exact ⟨⟨_, rfl, rfl, rfl, by simp [h1], fun _ => rfl⟩, by simp⟩
  · exact ⟨⟨_, rfl, rfl, rfl, fun _ => rfl, by simp [h6]⟩, by simp⟩
  · exact ⟨⟨_, rfl, rfl, rfl, by simp [h6], fun _ => rfl⟩, by simp⟩

theorem storeKey_spec {r r' : Router} {key : Bytes} (h : r.storeKey c key = .ok r') :
    r' = { r with aesKey := update r.aesKey c (key++(r.aesKey c).drop key.length) } ∧
      key.length ≤ keyLen := by
  unfold Router.storeKey at h
  split_ifs at h with hbound
  exact ⟨(Except.ok.inj h).symm, hbound.2⟩

variable {m' : Message} {port s : ℕ}

section Frames

variable {aes : Aes} {r r' : Router} {m : Message} {src : ℕ} {outs : List Output}

section

variable (h : Handles aes r m src r' outs)
include h

theorem Handles.fixed : (r'.index = r.index ∧ r'.rip = r.rip ∧ r'.ccSeq = r.ccSeq) ∧
    ∀ i, i ≠ slot m.cid → r'.cc i = r.cc i ∧ r'.aesKey i = r.aesKey i := by
  cases h with
  | storeKey r' _ _ hstore =>
    rw [(storeKey_spec hstore).1]
    exact ⟨⟨rfl, rfl, rfl⟩, fun i hi => ⟨rfl, update_of_ne hi _ _⟩⟩
  | extend tport =>
    unfold extended
    split_ifs
    · exact ⟨⟨rfl, rfl, rfl⟩, fun i hi => ⟨update_of_ne hi _ _, rfl⟩⟩
    · exact ⟨⟨rfl, rfl, rfl⟩, fun i hi => ⟨rfl, rfl⟩⟩
  | exit clear =>
    obtain ⟨⟨e, he, _⟩, _⟩ := sendOut_spec r (slot m.cid) clear (m.payload.drop clear.length)
    rw [he]
    exact ⟨⟨rfl, rfl, rfl⟩, fun i hi => ⟨update_of_ne hi _ _, rfl⟩⟩
  | _ => exact ⟨⟨rfl, rfl, rfl⟩, fun i hi => ⟨rfl, rfl⟩⟩

theorem Handles.row_length (hr : ∀ i, (r.aesKey i).length = keyLen) (i : ℕ) :
    (r'.aesKey i).length = keyLen := by
  cases h with
  | storeKey r' _ _ hstore =>
    obtain ⟨rfl, hle⟩ := storeKey_spec hstore
    by_cases hi : i = slot m.cid
    · simp [hi, hr]
      omega
    · simp [hi, hr]
  | extend tport =>
    unfold extended
    split_ifs
    · exact hr i
    · exact hr i
  | exit clear =>
    obtain ⟨⟨e, he, _⟩, _⟩ := sendOut_spec r (slot m.cid) clear (m.payload.drop clear.length)
    rw [he]
    exact hr i
  | _ => exact hr i

/-- A datagram that builds no circuit leaves all keys and routes alone. -/
theorem Handles.spares (hm : builds (slot m.cid) m = false) :
    r'.aesKey = r.aesKey ∧ ∀ i, (r'.cc i).route = (r.cc i).route := by
  have hno : ¬(m.msgType = .fakeDiffieHellman ∨ m.msgType = .encryptedExt) := by
    intro ht
    simp [builds, ht] at hm
  cases h with
  | storeKey _ ht => exact absurd (.inl ht) hno
  | extend _ ht => exact absurd (.inr ht) hno
  | exit clear =>
    obtain ⟨⟨e, he, hroute, _⟩, _⟩ :=
      sendOut_spec r (slot m.cid) clear (m.payload.drop clear.length)
    rw [he]
    refine ⟨rfl, fun i => ?_⟩
    by_cases hi : i = slot m.cid
    · rw [hi, setCircuit_self, hroute]
    · rw [setCircuit_of_ne r e hi]
  | _ => exact ⟨rfl, fun _ => rfl⟩

/-- What a message that builds a circuit leads to: a router that knows the circuit passes it on,
and one that does not learns its key or its route. -/
theorem Handles.builds_cases (hm : builds s m = true) :
    (∃ clear, r.known Circuit.iid m.cid = .ok true ∧
      decryptAt aes r m.cid m.payload = .ok clear ∧ r' = r ∧
      outs = [.udp (r.cc (slot m.cid)).oport ⟨m.msgType, r.oID m.cid, clear⟩]) ∨
    r.known Circuit.iid m.cid = .ok false ∧
      (m.msgType = .fakeDiffieHellman ∧ r.storeKey (slot m.cid) m.payload = .ok r' ∧ outs = [] ∨
      m.msgType = .encryptedExt ∧ ∃ tport, decryptAt aes r m.cid m.payload = .ok tport ∧
        r' = extended r m.cid src tport ∧ outs = [.udp src ⟨.encryptedExtDone, m.cid, []⟩]) := by
  have ht := (of_decide_eq_true hm).2
  cases h with
  | forward clear _ hknown hclear => exact .inl ⟨clear, hknown, hclear, rfl, rfl⟩
  | storeKey _ ht hknown hstore => exact .inr ⟨hknown, .inl ⟨ht, hstore, rfl⟩⟩
  | extend tport ht hknown hport => exact .inr ⟨hknown, .inr ⟨ht, tport, hport, rfl, rfl⟩⟩
  | back hback => simp [hback] at ht
  | ignore hback => simp [hback] at ht
  | exit _ hrelay => simp [hrelay] at ht
  | relay _ hrelay => simp [hrelay] at ht
  | reply _ hreply => simp [hreply] at ht

theorem Handles.relay_out (hm : m.msgType = .encryptedRelay) (hout : .udp port m' ∈ outs) :
    r' = r ∧ r.known Circuit.iid m.cid = .ok true ∧ (r.cc (slot m.cid)).oport ≠ lastHop ∧
      port = (r.cc (slot m.cid)).oport ∧ ∃ clear, decryptAt aes r m.cid m.payload = .ok clear ∧
        m' = ⟨.encryptedRelay, (r.cc (slot m.cid)).oid, clear⟩ := by
  cases h with
  | relay clear _ hknown hclear hlast =>
    obtain ⟨rfl, rfl⟩ : port = _ ∧ m' = _ := by simpa using hout
    exact ⟨rfl, hknown, hlast, rfl, clear, hclear, rfl⟩
  | exit clear => exact absurd hout ((sendOut_spec _ _ _ _).2 _ _)
  | forward _ ht => simp [hm] at ht
  | storeKey => exact absurd hout nofun
  | extend _ ht => simp [hm] at ht
  | back ht => simp [hm] at ht
  | ignore => exact absurd hout nofun
  | reply _ ht => simp [hm] at ht

theorem Handles.back_out (hm : m.msgType = .encryptedExtDone ∨ m.msgType = .encryptedRelayReply)
    (hout : .udp port m' ∈ outs) :
    r' = r ∧ port = (r.cc (slot m.cid)).iport ∧ m'.cid = (r.cc (slot m.cid)).iid ∧
      m'.msgType = m.msgType := by
  cases h with
  | back ht =>
    obtain ⟨rfl, rfl⟩ : port = _ ∧ m' = _ := by simpa using hout
    exact ⟨rfl, rfl, rfl, ht.symm⟩
  | reply key ht =>
    obtain ⟨rfl, rfl⟩ : port = _ ∧ m' = _ := by simpa using hout
    exact ⟨rfl, rfl, rfl, ht.symm⟩
  | exit clear => exact absurd hout ((sendOut_spec _ _ _ _).2 _ _)
  | forward _ ht => rcases hm with hm | hm <;> simp [hm] at ht
  | storeKey => exact absurd hout nofun
  | extend _ ht => simp [ht] at hm
  | ignore => exact absurd hout nofun
  | relay _ ht => simp [ht] at hm

/-- A route changes only by an extend message in its slot, and only if it is not in use. -/
theorem Handles.route_cases (i : ℕ) : (r'.cc i).route = (r.cc i).route ∨
      i = slot m.cid ∧ m.msgType = .encryptedExt ∧ (r.cc i).iid = 0 ∧
        ∃ port, (r'.cc i).route = (m.cid, r.oID m.cid, src, port) := by
  by_cases hi : i = slot m.cid
  · cases h with
    | storeKey r' _ _ hstore =>
      rw [(storeKey_spec hstore).1]
      exact .inl rfl
    | extend tport ht =>
      unfold extended
      split_ifs with hfree
      · refine .inr ⟨hi, ht, by rw [hi, hfree], swapBytes (atoi tport%65536), ?_⟩
        simp [Router.setCircuit, hi, Circuit.route]
      · exact .inl rfl
    | exit clear ht =>
      have hm : builds (slot m.cid) m = false := by simp [builds, ht]
      exact .inl ((Handles.exit clear ht ‹_› ‹_› ‹_› : Handles aes r m src _ _).spares hm |>.2 i)
    | _ => exact .inl rfl
  · rw [(h.fixed.2 i hi).1]
    exact .inl rfl

/-- The destination in an entry changes only by a packet that the router sends out. -/
theorem Handles.dest_cases (i : ℕ) :
    (r'.cc i).oip = (r.cc i).oip ∧ (r'.cc i).lastHopPort = (r.cc i).lastHopPort ∨
      i = slot m.cid ∧ m.msgType = .encryptedRelay ∧ (r.cc i).oport = lastHop := by
  by_cases hi : i = slot m.cid
  · cases h with
    | storeKey r' _ _ hstore =>
      rw [(storeKey_spec hstore).1]
      exact .inl ⟨rfl, rfl⟩
    | extend tport =>
      unfold extended
      split_ifs
      · rw [hi, setCircuit_self]
        exact .inl ⟨rfl, rfl⟩
      · exact .inl ⟨rfl, rfl⟩
    | exit clear ht _ _ hlast =>
      rw [hi]
      exact .inr ⟨rfl, ht, hlast⟩
    | _ => exact .inl ⟨rfl, rfl⟩
  · rw [(h.fixed.2 i hi).1]
    exact .inl ⟨rfl, rfl⟩

theorem Handles.relay_known (hm : m.msgType = .encryptedRelay) :
    r.known Circuit.iid m.cid = .ok true := by
  cases h with
  | exit _ _ hknown => exact hknown
  | relay _ _ hknown => exact hknown
  | forward _ ht => simp [hm] at ht
  | storeKey _ ht => simp [hm] at ht
  | extend _ ht => simp [hm] at ht
  | back ht => simp [hm] at ht
  | ignore ht => simp [hm] at ht
  | reply _ ht => simp [hm] at ht

theorem Handles.exit_dest (hm : m.msgType = .encryptedRelay)
    (hlast : (r.cc (slot m.cid)).oport = lastHop) :
    ∃ clear, decryptAt aes r m.cid m.payload = .ok clear ∧
      (r'.cc (slot m.cid)).oip = daddr clear ∧
      (protocol clear = 6 → (r'.cc (slot m.cid)).lastHopPort = tcpDest clear) := by
  cases h with
  | exit clear _ _ hclear =>
    obtain ⟨⟨e, he, _, hoip, hport, _⟩, _⟩ :=
      sendOut_spec r (slot m.cid) clear (m.payload.drop clear.length)
    rw [he, setCircuit_self]
    exact ⟨clear, hclear, hoip, hport⟩
  | relay _ _ _ _ hne => exact absurd hlast hne
  | forward _ ht => simp [hm] at ht
  | storeKey _ ht => simp [hm] at ht
  | extend _ ht => simp [hm] at ht
  | back ht => simp [hm] at ht
  | ignore ht => simp [hm] at ht
  | reply _ ht => simp [hm] at ht

/-- What is passed on builds a circuit only if it came with a message that does, in the same
slot. -/
theorem Handles.builds_out (hout : .udp port m' ∈ outs) (hm : builds s m' = true) :
    builds s m = true := by
  cases h with
  | forward clear ht =>
    obtain ⟨_, rfl⟩ : port = _ ∧ m' = _ := by simpa using hout
    have := of_decide_eq_true hm
    rw [slot_oID] at this
    exact decide_eq_true this
  | storeKey => simp at hout
  | ignore => simp at hout
  | exit clear => exact absurd hout ((sendOut_spec _ _ _ _).2 _ _)
  | _ =>
    obtain ⟨_, rfl⟩ : port = _ ∧ m' = _ := by simpa using hout
    simp [builds] at hm

end

end Frames

/-! ### Indices -/

section Indices

variable {aes : Aes} {r : Router} {m : Message} {src : ℕ}

theorem bind_inside {α β : Type} {x : Except Fault α} {f : α → Except Fault β}
    (hx : x ≠ .error .badIndex) (hf : ∀ a, x = .ok a → f a ≠ .error .badIndex) :
    (x >>= f) ≠ .error .badIndex := by
  cases x with
  | error e => exact fun h => hx (congrArg Except.error (Except.error.inj h))
  | ok a => exact hf a rfl

theorem known_inside (hseq : r.ccSeq+1 < ccSize) (id : Circuit → ℕ) (cid : ℕ) :
    r.known id cid ≠ .error .badIndex := by
  unfold Router.known
  rw [if_pos hseq]
  exact nofun

theorem keyAt_inside (hc : c < aesKeyRows) : r.keyAt c ≠ .error .badIndex := by
  unfold Router.keyAt
  rw [if_pos hc]
  exact nofun

theorem decryptAt_inside {cid : ℕ} {payload : Bytes} (hc : slot cid < aesKeyRows) :
    decryptAt aes r cid payload ≠ .error .badIndex := by
  refine bind_inside (keyAt_inside hc) fun key _ => ?_
  split
  · exact nofun
  · exact nofun

/-- A router stays inside its tables, if the slot of a datagram is a row of `aes_key`, the number
of circuits is small enough and a key that is stored fits into its row. -/
theorem receive_inside (hslot : slot m.cid < aesKeyRows)
    (hseq : (r.seen m.cid).ccSeq+1 < ccSize)
    (hkey : m.msgType = .fakeDiffieHellman →
      (r.seen m.cid).known Circuit.iid m.cid = .ok false → m.payload.length ≤ keyLen) :
    receive aes r m src ≠ .error .badIndex := by
  unfold receive dispatch
  have hknows := known_inside (r := r.seen m.cid) hseq
  cases ht : m.msgType with
  | fakeDiffieHellman =>
    refine bind_inside (hknows _ _) fun b hknown => ?_
    cases b with
    | true => exact bind_inside (decryptAt_inside hslot) fun _ _ => nofun
    | false =>
      refine bind_inside ?_ fun _ _ => nofun
      unfold Router.storeKey
      rw [if_pos ⟨hslot, hkey ht hknown⟩]
      exact nofun
  | encryptedExt =>
    refine bind_inside (hknows _ _) fun b _ => ?_
    cases b with
    | true => exact bind_inside (decryptAt_inside hslot) fun _ _ => nofun
    | false => exact bind_inside (decryptAt_inside hslot) fun _ _ => nofun
  | encryptedExtDone =>
    refine bind_inside (hknows _ _) fun b _ => ?_
    cases b with
    | true => exact nofun
    | false => exact nofun
  | encryptedRelay =>
    refine bind_inside (decryptAt_inside hslot) fun _ _ => bind_inside (hknows _ _) fun b _ => ?_
    cases b with
    | true =>
      rw [if_pos rfl]
      split_ifs
      · exact nofun
      · exact nofun
    | false => exact nofun
  | encryptedRelayReply =>
    refine bind_inside (keyAt_inside hslot) fun _ _ => bind_inside (hknows _ _) fun b _ => ?_
    cases b with
    | true => exact nofun
    | false => exact nofun

end Indices

/-! ### Answers from the raw sockets -/

section Answers

variable {aes : Aes} {r r' : Router} {packet : Bytes} {outs : List Output}

/-- The outcomes of the handlers of the raw sockets: at most one answer goes back, on one of the
circuits that have been counted. -/
def Answers (r r' : Router) (outs : List Output) : Prop :=
  r' = r ∧ (outs = [] ∨ ∃ i ≤ r.ccSeq, ∃ payload,
    outs = [.udp (r.cc i).iport ⟨.encryptedRelayReply, (r.cc i).iid, payload⟩])

theorem answerOn_spec (hc : c ≤ r.ccSeq) (h : answerOn aes r c packet = .ok (r', outs)) :
    Answers r r' outs := by
  obtain ⟨key, _, h⟩ := bind_ok h
  cases h
  exact ⟨rfl, .inr ⟨c, hc, _, rfl⟩⟩

theorem icmpCircuit_le : icmpCircuit r packet ≤ r.ccSeq := by
  have hfold : ∀ (l : List ℕ) c, c ≤ r.ccSeq → (∀ i ∈ l, i ≤ r.ccSeq) →
      l.foldl (fun c i => if saddr packet = (r.cc i).oip then i else c) c ≤ r.ccSeq := by
    intro l
    induction l with
    | nil => exact fun c hc _ => hc
    | cons i l ih =>
      intro c hc hl
      apply ih
      · dsimp only
        split_ifs
        · exact hl i mem_cons_self
        · exact hc
      · exact fun j hj => hl j (mem_cons_of_mem i hj)
  apply hfold _ 0 (Nat.zero_le _)
  intro i hi
  exact Nat.le_of_lt_succ (mem_range.mp hi)

theorem rawMitToTunnle_answers (h : rawMitToTunnle aes r packet = .ok (r', outs)) :
    Answers r r' outs := answerOn_spec icmpCircuit_le h

theorem handleRawsockTcp_answers (h : handleRawsockTcp aes r packet = .ok (r', outs)) :
    Answers r r' outs := by
  unfold handleRawsockTcp at h
  cases hc : tcpCircuit r packet with
  | none =>
    rw [hc] at h
    cases h
    exact ⟨rfl, .inl rfl⟩
  | some c =>
    rw [hc] at h
    have hmem := mem_range.mp (mem_of_find?_eq_some hc)
    exact answerOn_spec (Nat.le_of_lt_succ hmem) h

theorem answerOn_inside (hc : c < aesKeyRows) : answerOn aes r c packet ≠ .error .badIndex :=
  bind_inside (keyAt_inside hc) fun _ _ => nofun

theorem rawMitToTunnle_inside (hseq : r.ccSeq < aesKeyRows) :
    rawMitToTunnle aes r packet ≠ .error .badIndex :=
  answerOn_inside (Nat.lt_of_le_of_lt icmpCircuit_le hseq)

theorem handleRawsockTcp_inside (hseq : r.ccSeq < aesKeyRows) :
    handleRawsockTcp aes r packet ≠ .error .badIndex := by
  unfold handleRawsockTcp
  cases hc : tcpCircuit r packet with
  | none => exact nofun
  | some c =>
    have hmem := mem_range.mp (mem_of_find?_eq_some hc)
    exact answerOn_inside (Nat.lt_of_le_of_lt (Nat.le_of_lt_succ hmem) hseq)

theorem Answers.not_builds (h : Answers r r' outs) {m : Message} (hout : .udp port m ∈ outs) :
    builds s m = false := by
  rcases h.2 with rfl | ⟨i, _, payload, rfl⟩
  · simp at hout
  · obtain ⟨_, rfl⟩ : port = _ ∧ m = _ := by simpa using hout
    simp [builds]

end Answers

end SystemsProjects.OnionRouters
