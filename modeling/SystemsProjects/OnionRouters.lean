import SystemsProjects.IpPackets
import SystemsProjects.OnionLayers

/-!
# The routers of the onion network

A router keeps a table of circuits and a table of keys, both indexed by the low four bits of
the circuit ids in its messages, and passes messages on to the port of the next or of the
previous hop. It is modelled from stage 6 on, when messages are encrypted, without the timers
and the kill messages of stage 9 and without its log. `cc` has 36 entries and `aes_key` has 10;
an index behind the end of a table is a fault, and so are a failed assertion and a call of
`exit`.

A message stands for the part of a datagram behind its IP header, which is always the same.
The addresses and ports that are taken out of packets are compared as bytes.
-/
namespace SystemsProjects.OnionRouters

open IpPackets OnionLayers

inductive MsgType where
  | fakeDiffieHellman
  | encryptedExt
  | encryptedExtDone
  | encryptedRelay
  | encryptedRelayReply
  deriving DecidableEq, Repr

structure Message where
  msgType : MsgType
  cid : ℕ
  payload : Bytes
  deriving DecidableEq, Repr

/-- The type `struct circuit`, without its number, which is never read. -/
structure Circuit where
  iid : ℕ
  oid : ℕ
  iport : ℕ
  oport : ℕ
  lastHopPort : Bytes
  iip : Bytes
  oip : Bytes
  deriving DecidableEq, Repr

structure Router where
  index : ℕ
  rip : Bytes
  ccSeq : ℕ
  cc : ℕ → Circuit
  aesKey : ℕ → Bytes

inductive Fault where
  | badIndex
  | assertion
  | exits
  deriving DecidableEq, Repr

inductive Output where
  | udp (port : ℕ) (m : Message)
  | rawSock (dest : Bytes) (segment : Bytes)
  deriving DecidableEq, Repr

abbrev Handled := Except Fault (Router×List Output)

/-- The size of `cc`. -/
def ccSize : ℕ := 36

/-- The number of rows of `aes_key`. -/
def aesKeyRows : ℕ := 10

def keyLen : ℕ := 16

def lastHop : ℕ := 0xffff

def computeCircuitId (index seq : ℕ) : ℕ := index*256+seq

def slot (cid : ℕ) : ℕ := cid%16

namespace Router

/-- The circuit id on the messages that the router sends on to the next hop. -/
def oID (r : Router) (iID : ℕ) : ℕ := computeCircuitId r.index (slot iID)%65536

/-- The number `_cc_seq` of circuits is raised to the one of a message. -/
def seen (r : Router) (cid : ℕ) : Router := { r with ccSeq := max r.ccSeq (slot cid) }

/-- The search for a circuit with the given id in one of its fields. -/
def known (r : Router) (id : Circuit → ℕ) (cid : ℕ) : Except Fault Bool :=
  if r.ccSeq+1 < ccSize then
    .ok ((List.range (r.ccSeq+2)).any fun i => decide (id (r.cc i) = cid))
  else .error .badIndex

def keyAt (r : Router) (c : ℕ) : Except Fault Bytes :=
  if c < aesKeyRows then .ok (r.aesKey c) else .error .badIndex

def setCircuit (r : Router) (c : ℕ) (e : Circuit) : Router :=
  { r with cc := Function.update r.cc c e }

/-- `memcpy` of a message into a row of `aes_key`. -/
def storeKey (r : Router) (c : ℕ) (key : Bytes) : Except Fault Router :=
  if c < aesKeyRows ∧ key.length ≤ keyLen then
    .ok { r with aesKey := Function.update r.aesKey c (key++(r.aesKey c).drop key.length) }
  else .error .badIndex

end Router

/-! ### Messages from other routers and from the proxy -/

section Handlers

variable (aes : Aes) (r : Router)

/-- A layer is taken off with the key of the circuit. -/
def decryptAt (cid : ℕ) (payload : Bytes) : Except Fault Bytes := do
  match decryptMsg aes (← r.keyAt (slot cid)) payload with
  | none => .error .assertion
  | some clear => .ok clear

/-- The decimal digits of an `unsigned short`, as `sprintf` writes them. -/
def digits : ℕ → ℕ → Bytes
  | 0, _ => []
  | n+1, d => if d < 10 then [UInt8.ofNat (48+d)] else digits n (d/10)++[UInt8.ofNat (48+d%10)]

def decimal (d : ℕ) : Bytes := digits 5 d

/-- The value of `atoi` on a text that consists of digits. -/
def atoi (text : Bytes) : ℕ := text.foldl (fun n d => n*10+(d.toNat-48)) 0

def handleDeffieHellman (m : Message) : Handled := do
  if ← r.known Circuit.iid m.cid then
    let decryptedKey ← decryptAt aes r m.cid m.payload
    return (r, [.udp (r.cc (slot m.cid)).oport
      { m with cid := r.oID m.cid, payload := decryptedKey }])
  else
    return (← r.storeKey (slot m.cid) m.payload, [])

def handleCcext (m : Message) (from' : ℕ) : Handled := do
  let c := slot m.cid
  if ← r.known Circuit.iid m.cid then
    let decryptedPort ← decryptAt aes r m.cid m.payload
    return (r, [.udp (r.cc c).oport { m with cid := r.oID m.cid, payload := decryptedPort }])
  else
    let tport ← decryptAt aes r m.cid m.payload
    let nextPort := swapBytes (atoi tport%65536)
    let r' := if (r.cc c).iid = 0 then
      r.setCircuit c
        { r.cc c with iid := m.cid, oid := r.oID m.cid, iport := from', oport := nextPort }
      else r
    return (r', [.udp from' ⟨.encryptedExtDone, m.cid, []⟩])

def handleCcextDone (m : Message) : Handled := do
  let c := slot m.cid
  if ← r.known Circuit.oid m.cid then
    return (r, [.udp (r.cc c).iport { m with cid := (r.cc c).iid }])
  else return (r, [])

/-- The branch of `handle_relay_msg` for the last hop. In the receive buffer the clear packet is
followed by what is left of the encrypted one. Packets of other protocols are not sent. -/
def sendOut (c : ℕ) (clear rest : Bytes) : Router×List Output :=
  let e := { r.cc c with iip := saddr clear, oip := daddr clear }
  let out := setSource clear r.rip
  if protocol clear = 1 then
    let segment := ((out++rest).drop (iphdrlen clear)).take 64
    (r.setCircuit c e, [.rawSock (daddr clear) (segment++List.replicate (64-segment.length) 0)])
  else if protocol clear = 6 then
    let out := setTcpCheck (overlay out (iphdrSize+16) [0, 0]) iphdrSize
    (r.setCircuit c { e with lastHopPort := tcpDest clear },
      [.rawSock (daddr clear) (field (out++rest) (iphdrlen clear) (totLen clear-iphdrlen clear))])
  else (r.setCircuit c e, [])

def handleRelay (m : Message) : Handled := do
  let c := slot m.cid
  let decryptedPayload ← decryptAt aes r m.cid m.payload
  if ← r.known Circuit.iid m.cid then
    if (r.cc c).oport = lastHop then
      return sendOut r c decryptedPayload (m.payload.drop decryptedPayload.length)
    else
      return (r, [.udp (r.cc c).oport { m with cid := (r.cc c).oid, payload := decryptedPayload }])
  else .error .exits

def handleRelayReply (m : Message) : Handled := do
  let c := slot m.cid
  let key ← r.keyAt c
  if ← r.known Circuit.oid m.cid then
    return (r, [.udp (r.cc c).iport
      { m with cid := (r.cc c).iid, payload := encryptMsg aes key m.payload }])
  else .error .exits

/-- The part of `run` that selects the handler of a datagram. -/
def dispatch (m : Message) (from' : ℕ) : Handled :=
  match m.msgType with
  | .fakeDiffieHellman => handleDeffieHellman aes r m
  | .encryptedExt => handleCcext aes r m from'
  | .encryptedExtDone => handleCcextDone r m
  | .encryptedRelay => handleRelay aes r m
  | .encryptedRelayReply => handleRelayReply aes r m

/-- The branch of `run` for a datagram. -/
def receive (m : Message) (from' : ℕ) : Handled := dispatch aes (r.seen m.cid) m from'

/-! ### Answers from the raw sockets -/

def answerOn (c : ℕ) (packet : Bytes) : Handled := do
  let key ← r.keyAt c
  return (r, [.udp (r.cc c).iport ⟨.encryptedRelayReply, (r.cc c).iid, encryptMsg aes key packet⟩])

/-- The search in `raw_mit_to_tunnle`, which takes the last match. -/
def icmpCircuit (packet : Bytes) : ℕ :=
  (List.range (r.ccSeq+1)).foldl (fun c i => if saddr packet = (r.cc i).oip then i else c) 0

def rawMitToTunnle (packet : Bytes) : Handled := answerOn aes r (icmpCircuit r packet) packet

/-- The search in `handle_rawsock_tcp_traffic`, which takes the first match. -/
def tcpCircuit (packet : Bytes) : Option ℕ :=
  (List.range (r.ccSeq+1)).find? fun i =>
    decide (saddr packet = (r.cc i).oip ∧ tcpSource packet = (r.cc i).lastHopPort)

def handleRawsockTcp (packet : Bytes) : Handled :=
  match tcpCircuit r packet with
  | none => .ok (r, [])
  | some c => answerOn aes r c (setTcpCheck (setIpCheck packet) iphdrSize)

end Handlers

end SystemsProjects.OnionRouters
