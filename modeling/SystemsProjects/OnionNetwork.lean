import SystemsProjects.OnionRouters

/-!
# The proxy and the links of the onion network

The proxy and the routers send each other datagrams over links on which none is lost or
overtaken. The proxy gives every new flow a circuit: it draws a path, and in one round for each
hop it sends the hop its key and the port of the hop behind it, through the part of the circuit
that has been built. In a round it waits for one datagram, whatever it is. Afterwards the packet
that the circuit was built for is relayed.

The proxy is modelled from stage 6 on, without the router failures of stage 9, for circuits of
at least one hop. `flow` and `path` have 36 entries, a row of `path` has 10 and `rinfo` has 10.
-/
namespace SystemsProjects.OnionNetwork

open Function IpPackets OnionLayers OnionRouters

/-- The type `flow_cache` without its counter and the source port, which no search looks at. -/
structure Flow where
  srcIp : Bytes
  dstIp : Bytes
  dstPort : Bytes
  protocol : ℕ
  deriving DecidableEq, Repr

/-- Where the proxy is: at its `select`, in `create_circuit` waiting for the reply of a round,
or behind it with the packet still to be relayed. -/
inductive ProxyAt where
  | idle
  | creating (circuitNum round : ℕ) (packet : Bytes)
  | created (circuitNum : ℕ) (packet : Bytes)
  deriving DecidableEq, Repr

structure Proxy where
  paths : Paths
  rinfoPort : ℕ → ℕ
  numNodes : ℕ
  numHops : ℕ
  port : ℕ
  flow : ℕ → Flow
  numberPath : ℕ
  random1 : ℕ
  oldSrc : Bytes
  state : ProxyAt

/-- The number of entries of `flow` and of `path`. -/
def flowSize : ℕ := 36

/-- `MAX_ROUTER_COUNT`. -/
def maxRouterCount : ℕ := 10

section Proxy

variable (aes : Aes) (p : Proxy)

/-- The circuit id on the messages of the proxy. -/
def cID (circuitNum : ℕ) : ℕ := computeCircuitId 0 (circuitNum+1)%65536

/-- The port, in network byte order, that the hop of a round learns. -/
def nextHop (circuitNum round : ℕ) : ℕ :=
  if round = p.numHops then lastHop else swapBytes (p.rinfoPort (p.paths.path circuitNum round))

def keyMessage (circuitNum round : ℕ) : Message :=
  ⟨.fakeDiffieHellman, cID circuitNum,
    encryptMultiround aes p.paths (p.paths.key circuitNum (round-1)) (round-1) circuitNum⟩

def extMessage (circuitNum round : ℕ) : Message :=
  ⟨.encryptedExt, cID circuitNum,
    encryptMultiround aes p.paths (decimal (nextHop p circuitNum round)) round circuitNum⟩

/-- The message of `handle_tun_icmp_traffic` and of `handle_tun_tcp_traffic`, with the source
address set to zero. -/
def relayMessage (circuitNum : ℕ) (packet : Bytes) : Message :=
  ⟨.encryptedRelay, cID circuitNum,
    encryptMultiround aes p.paths (setSource packet [0, 0, 0, 0]) p.numHops circuitNum⟩

/-- ICMP packets are only relayed if they are requests. -/
def relays (packet : Bytes) : Bool :=
  decide (protocol packet = 1 ∧ icmpType packet = 8 ∨ protocol packet = 6)

def flowOf (packet : Bytes) : Option ℕ :=
  (List.range flowSize).find? fun i =>
    let f := p.flow i
    decide (f.srcIp = saddr packet ∧ f.dstIp = daddr packet ∧ f.protocol = protocol packet ∧
      (protocol packet = 6 → f.dstPort = tcpDest packet))

def newFlow (packet : Bytes) : Flow :=
  ⟨saddr packet, daddr packet, if protocol packet = 6 then tcpDest packet else [0, 0],
    protocol packet⟩

/-- The paths that `generate_random_path` can draw: they have no router twice, and none that was
the first one of the path before. -/
def drawn (hops : ℕ → ℕ) : Bool :=
  let path := (List.range p.numHops).map hops
  path.all (fun hop => decide (1 ≤ hop ∧ hop ≤ p.numNodes ∧ hop ≠ p.random1)) && decide path.Nodup

def addFlow (packet : Bytes) (hops : ℕ → ℕ) : Proxy :=
  { p with
    flow := update p.flow p.numberPath (newFlow packet)
    paths := { p.paths with path := update p.paths.path p.numberPath hops }
    numberPath := p.numberPath+1
    random1 := hops 0 }

/-- The answer that `handle_relay_msg` of the proxy writes to the tunnel. -/
def toTunnel (clear : Bytes) : Bytes :=
  let answer := setIpCheck (overlay clear 16 p.oldSrc)
  if protocol clear = 6 then setTcpCheck answer iphdrSize else answer

end Proxy

/-- The system: the proxy, the routers by their index, the datagrams on the way from a port to
a port, and the packets that the proxy has written to the tunnel. -/
structure Network where
  proxy : Proxy
  routers : ℕ → Router
  links : ℕ → ℕ → List Message
  tunOut : List Bytes

namespace Network

variable (net : Network)

def send (src dst : ℕ) (ms : List Message) : Network :=
  { net with
    links := update net.links src (update (net.links src) dst (net.links src dst++ms)) }

def pop (src dst : ℕ) : Network :=
  { net with
    links := update net.links src (update (net.links src) dst (net.links src dst).tail) }

def setRouter (i : ℕ) (r : Router) : Network :=
  { net with routers := update net.routers i r }

def setProxy (p : Proxy) : Network := { net with proxy := p }

/-- The datagrams among the outputs of a router are sent. -/
def sendAll (src : ℕ) (outs : List Output) : Network :=
  outs.foldl (fun net out => match out with
    | .udp dst m => net.send src dst [m]
    | .rawSock _ _ => net) net

end Network

inductive NetEvent where
  | deliver (src index : ℕ)
  | reply (src : ℕ)
  | tunnel (packet : Bytes) (hops : ℕ → ℕ)
  | relay
  | rawIcmp (index : ℕ) (packet : Bytes)
  | rawTcp (index : ℕ) (packet : Bytes)

inductive NetFault where
  | disabled
  | badIndex
  | router (f : Fault)
  deriving DecidableEq, Repr

section Steps

variable (aes : Aes) (net : Network)

def handled (index : ℕ) (h : Handled) : Except NetFault Network :=
  match h with
  | .error f => .error (.router f)
  | .ok (r, outs) =>
    .ok ((net.setRouter index r).sendAll (net.proxy.rinfoPort index) outs)

/-- A router receives the next datagram from a port. -/
def deliver (src index : ℕ) : Except NetFault Network :=
  let port := net.proxy.rinfoPort index
  match net.links src port with
  | [] => .error .disabled
  | m::_ => handled (net.pop src port) index (receive aes (net.routers index) m src)

/-- The two messages of a round of `create_circuit`, and the wait for a reply. -/
def sendRound (circuitNum round : ℕ) (packet : Bytes) : Network :=
  let p := net.proxy
  (net.send p.port (p.rinfoPort (p.paths.path circuitNum 0))
    [keyMessage aes p circuitNum round, extMessage aes p circuitNum round]).setProxy
      { p with state := .creating circuitNum round packet }

/-- The proxy receives the next datagram from a port. In `create_circuit` it goes on with the
next round; otherwise the answer is written to the tunnel. -/
def reply (src : ℕ) : Except NetFault Network :=
  let p := net.proxy
  match net.links src p.port with
  | [] => .error .disabled
  | m::_ =>
    let net := net.pop src p.port
    match p.state with
    | .creating circuitNum round packet =>
      .ok (if round = p.numHops then net.setProxy { p with state := .created circuitNum packet }
        else sendRound aes net circuitNum (round+1) packet)
    | .created _ _ => .error .disabled
    | .idle =>
      if 0 < m.cid ∧ m.cid-1 < flowSize then
        match decryptMultiround aes p.paths m.payload p.numHops (m.cid-1) with
        | none => .error (.router .assertion)
        | some clear => .ok { net with tunOut := net.tunOut++[toTunnel p clear] }
      else .error .badIndex

/-- A packet from the tunnel, which has at least an IP header, finds the circuit of its flow or
gets a new one, on a path that is drawn. -/
def tunnel (packet : Bytes) (hops : ℕ → ℕ) : Except NetFault Network :=
  let p := net.proxy
  if p.state = .idle ∧ iphdrSize ≤ packet.length ∧ (protocol packet = 1 ∨ protocol packet = 6) then
    match flowOf p packet with
    | some c => .ok (net.setProxy { p with state := .created c packet })
    | none =>
      let c := p.numberPath
      if ¬drawn p hops then .error .disabled
      else if c < flowSize ∧ p.numHops ≤ maxRouterCount then
        .ok (sendRound aes (net.setProxy (addFlow p packet hops)) c 1 packet)
      else .error .badIndex
  else .error .disabled

def relay : Except NetFault Network :=
  let p := net.proxy
  match p.state with
  | .created c packet =>
    .ok (if relays packet then
      (net.setProxy { p with state := .idle, oldSrc := saddr packet }).send p.port
        (p.rinfoPort (p.paths.path c 0)) [relayMessage aes p c packet]
    else net.setProxy { p with state := .idle })
  | _ => .error .disabled

def netNext : NetEvent → Except NetFault Network
  | .deliver src index => deliver aes net src index
  | .reply src => reply aes net src
  | .tunnel packet hops => tunnel aes net packet hops
  | .relay => relay aes net
  | .rawIcmp index packet => handled net index (rawMitToTunnle aes (net.routers index) packet)
  | .rawTcp index packet => handled net index (handleRawsockTcp aes (net.routers index) packet)

end Steps

def NetStep (aes : Aes) (net : Network) (e : NetEvent) (net' : Network) : Prop :=
  netNext aes net e = .ok net'

end SystemsProjects.OnionNetwork
