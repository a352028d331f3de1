import SystemsProjects.CircuitConstruction

/-!
# What the exit router learns of the source address

The proxy sets the source address of a packet to zero and computes the header checksum again,
but it leaves the checksum of a TCP header, which covers the source address.
-/
namespace SystemsProjects.OnionNetwork

open IpPackets OnionLayers LayeredCodecs List

/-- What the last router has after all hops of a circuit have taken off their layers. -/
def exitPayload (aes : Aes) (p : Proxy) (c : ℕ) (packet : Bytes) : Option Bytes :=
  ((range p.numHops).map (p.paths.key c)).foldlM (fun m k => decryptMsg aes k m)
    (relayMessage aes p c packet).payload

/-- Two packets that differ only in the source address and in the checksums that cover it: the
one of the IP header and, over TCP, the one of the TCP header. -/
structure SameButSource (x y : Packet) : Prop where
  length : y.length = x.length
  same : ∀ i, ¬(10 ≤ i ∧ i < 16) →
    ¬(protocol x = 6 ∧ iphdrlen x+16 ≤ i ∧ i < iphdrlen x+18) → y[i]? = x[i]?

/-- Over TCP, the checksum fields are equal. -/
def SameTcpCheck (x y : Packet) : Prop :=
  protocol x = 6 → field y (iphdrlen x+16) 2 = field x (iphdrlen x+16) 2

instance (x y : Packet) : Decidable (SameTcpCheck x y) := inferInstanceAs (Decidable (_ → _))

theorem exitPayload_eq (aes : Aes) (p : Proxy) (c : ℕ) (packet : Bytes) :
    exitPayload aes p c packet = some (setSource packet [0, 0, 0, 0]) := by
  unfold exitPayload relayMessage encryptMultiround
  rw [unwrap_eq_foldlM, encryptRounds_eq, Codec.unwrap_wrap]

section Rewriting

variable {x y : Packet}

/-- Setting the source address and the header checksum forgets what was there. -/
theorem setSource_congr {addr : Packet} (hx : 16 ≤ x.length) (hy : 16 ≤ y.length)
    (haddr : addr.length = 4) (hxy : ∀ i, ¬(10 ≤ i ∧ i < 16) → y[i]? = x[i]?) :
    setSource y addr = setSource x addr := by
  -- before the checksum is stored, the packet has ten bytes, two zeros, the address and the rest
  have hzeroed : ∀ z : Packet, 16 ≤ z.length → overlay (overlay z 12 addr) 10 [0, 0] =
      field z 0 10++[0, 0]++(addr++z.drop 16) := by
    intro z hz
    have hl : (z.take 10).length = 10 := by simp; omega
    have hz12 : overlay z 12 addr = z.take 10++field z 10 2++(addr++z.drop 16) := by
      unfold overlay field
      rw [haddr, ← take_add, append_assoc]
    rw [hz12, overlay_append hl (by simp [field]; omega)]
    rfl
  have htake : field y 0 10 = field x 0 10 := field_congr fun i hi => hxy _ (by omega)
  have hdrop : y.drop 16 = x.drop 16 := by
    apply ext_getElem?
    intro i
    rw [getElem?_drop, getElem?_drop]
    exact hxy _ (by omega)
  unfold setSource setIpCheck
  rw [hzeroed x hx, hzeroed y hy, htake, hdrop]

/-- Packets with the same TCP checksum are equal outside the bytes 10 to 15. -/
theorem SameButSource.getElem_eq (h : SameButSource x y) (hcheck : SameTcpCheck x y) (i : ℕ)
    (hi : ¬(10 ≤ i ∧ i < 16)) : y[i]? = x[i]? := by
  by_cases htcp : protocol x = 6 ∧ iphdrlen x+16 ≤ i ∧ i < iphdrlen x+18
  · have hfield := congrArg (fun l => l[i-(iphdrlen x+16)]?) (hcheck htcp.1)
    simp only [field, getElem?_take, getElem?_drop] at hfield
    rw [if_pos (by omega), if_pos (by omega)] at hfield
    rwa [show iphdrlen x+16+(i-(iphdrlen x+16)) = i by omega] at hfield
  · exact h.same i hi htcp

end Rewriting

/-- The exit router finds the same bytes in packets that differ only in the source address and
the checksums that cover it exactly if they are no TCP packets or have equal TCP checksums; then
they reach the routers as the same message. -/
theorem exit_payload_hides_source (aes : Aes) (p : Proxy) (c : ℕ) (x y : Packet)
    (hx : iphdrSize ≤ x.length) (hsame : SameButSource x y) :
    (exitPayload aes p c y = exitPayload aes p c x ↔ SameTcpCheck x y) ∧
    (SameTcpCheck x y → relayMessage aes p c y = relayMessage aes p c x) ∧
    exitPayload aes p c x = some (setSource x [0, 0, 0, 0]) := by
  have hlong : 16 ≤ x.length := Nat.le_trans (by decide) hx
  have hlong' : 16 ≤ y.length := by rwa [hsame.length]
  have hsource (hcheck : SameTcpCheck x y) :
      setSource y [0, 0, 0, 0] = setSource x [0, 0, 0, 0] :=
    setSource_congr hlong hlong' rfl (hsame.getElem_eq hcheck)
  refine ⟨?_, fun hcheck => ?_, exitPayload_eq aes p c x⟩
  · rw [exitPayload_eq, exitPayload_eq, Option.some.injEq]
    refine ⟨fun heq _ => ?_, hsource⟩
    have hzero : ([0, 0, 0, 0] : Packet).length = 4 := rfl
    rw [← field_setSource hlong' hzero (by omega), heq, field_setSource hlong hzero (by omega)]
  · unfold relayMessage
    rw [hsource hcheck]

/-! ### Packets from two hosts -/

/-- An echo request from the host with a number, with its checksum. -/
def echoFrom (host : UInt8) : Packet :=
  setIpCheck ([69, 0, 0, 28, 0, 0, 0, 0, 64, 1, 0, 0, 10, 0, 0, host, 10, 0, 1, 1]++
    [8, 0, 247, 255, 0, 0, 0, 0])

/-- The first segment of a connection from the host with a number, with its checksums. -/
def synFrom (host : UInt8) : Packet :=
  setTcpCheck (setIpCheck ([69, 0, 0, 40, 0, 0, 0, 0, 64, 6, 0, 0, 10, 0, 0, host, 10, 0, 1, 1]++
    [4, 0, 0, 80, 0, 0, 0, 0, 0, 0, 0, 0, 80, 2, 16, 0, 0, 0, 0, 0])) iphdrSize

/-- The indices at which packets may differ, checked up to the length of the packets. -/
theorem sameButSource_of_checked {x y : Packet} (hlength : y.length = x.length)
    (h : ∀ i < x.length, ¬(10 ≤ i ∧ i < 16) →
      ¬(protocol x = 6 ∧ iphdrlen x+16 ≤ i ∧ i < iphdrlen x+18) → y[i]? = x[i]?) :
    SameButSource x y := by
  refine ⟨hlength, fun i h1 h2 => ?_⟩
  by_cases hi : i < x.length
  · exact h i hi h1 h2
  · rw [getElem?_eq_none (by omega), getElem?_eq_none (by omega)]

theorem exit_payload_hides_source_echo : echoFrom 1 ≠ echoFrom 2 ∧
    exitPayload addKey (pair 1002).proxy 0 (echoFrom 2) =
      exitPayload addKey (pair 1002).proxy 0 (echoFrom 1) := by
  refine ⟨by decide +kernel, (exit_payload_hides_source addKey (pair 1002).proxy 0
    (echoFrom 1) (echoFrom 2) (by decide +kernel) ?_).1.mpr (by decide +kernel)⟩
  exact sameButSource_of_checked (by decide +kernel) (by decide +kernel)

/-- Two valid TCP packets that differ only in the source address and in the two checksums arrive
at the exit router with different bytes. -/
theorem tcp_checksum_shows_source : SameButSource (synFrom 1) (synFrom 2) ∧
    (∀ host ∈ [1, 2], relays (synFrom host) = true ∧ setIpCheck (synFrom host) = synFrom host ∧
      setTcpCheck (synFrom host) iphdrSize = synFrom host) ∧
    exitPayload addKey (pair 1002).proxy 0 (synFrom 2) ≠
      exitPayload addKey (pair 1002).proxy 0 (synFrom 1) := by
  refine ⟨sameButSource_of_checked (by decide +kernel) (by decide +kernel), by decide +kernel, ?_⟩
  rw [exitPayload_eq, exitPayload_eq]
  decide +kernel

end SystemsProjects.OnionNetwork
