import Mathlib.Algebra.Group.Nat.Defs
import Mathlib.Order.Nat
import SystemsProjects.OnionNetwork
import SystemsProjects.RouterSteps

/-!
# Plans of circuits and the hops on them

What the proxy knows of a circuit fixes the ports, ids and keys along it, and the sequence of
messages that build it: message `2*k` brings the key of hop `k` and message `2*k+1` tells it the
port of the hop behind it. A hop handles the messages of a circuit in this order, from the one
with its key on. Until it has handled two of them it does not know the circuit, and it passes on
the others.
-/
namespace SystemsProjects.OnionNetwork

open IpPackets OnionLayers OnionRouters LayeredCodecs List

/-! ### Text of ports -/

theorem atoi_append (text : Bytes) (d : UInt8) : atoi (text++[d]) = atoi text*10+(d.toNat-48) := by
  unfold atoi
  rw [foldl_append]
  rfl

variable {d : ℕ}

theorem digit_toNat (h : d < 10) : (UInt8.ofNat (48+d)).toNat-48 = d := by
  rw [UInt8.toNat_ofNat', Nat.mod_eq_of_lt (by omega)]
  omega

variable {n : ℕ}

theorem atoi_digits (h : d < 10^n) : atoi (digits n d) = d := by
  induction n generalizing d with
  | zero =>
    obtain rfl : d = 0 := by simpa using h
    rfl
  | succ n ih =>
    rw [digits]
    split_ifs with hd
    · change 0*10+((UInt8.ofNat (48+d)).toNat-48) = d
      rw [digit_toNat hd, Nat.zero_mul, Nat.zero_add]
    · rw [atoi_append, ih (Nat.div_lt_of_lt_mul (by rw [Nat.pow_succ] at h; omega)),
        digit_toNat (Nat.mod_lt _ (by decide))]
      omega

theorem atoi_decimal (h : d < 65536) : atoi (decimal d) = d :=
  atoi_digits (Nat.lt_trans h (by decide))

theorem swapBytes_lt (d : ℕ) : swapBytes d < 65536 := by
  unfold swapBytes
  omega

theorem swapBytes_swapBytes (h : d < 65536) : swapBytes (swapBytes d) = d := by
  have hhigh : d/256%256 = d/256 := Nat.mod_eq_of_lt (by omega)
  have hswap : swapBytes d = d%256*256+d/256 := by rw [swapBytes, hhigh]
  have hx : d%256 < 256 := Nat.mod_lt _ (by decide)
  have hd := Nat.div_add_mod d 256
  rw [hswap, swapBytes]
  generalize d%256 = x at *
  generalize d/256 = y at *
  have hmod : (x*256+y)%256 = y := by omega
  have hdiv : (x*256+y)/256 = x := by omega
  rw [hmod, hdiv]
  omega

def isDigit (b : UInt8) : Bool := decide (48 ≤ b.toNat ∧ b.toNat < 58)

/-- `atoi` on a copy of a text without a zero byte at its end, and how many bytes it reads: it goes
on into the heap behind the copy, up to the first byte that is no digit. -/
def atoiCopy (tport heap : Bytes) : ℕ×ℕ :=
  let read := (tport++heap).takeWhile isDigit
  (atoi read, read.length+1)

theorem isDigit_digits : ∀ b ∈ digits n d, isDigit b = true := by
  have hbyte : ∀ k < 10, isDigit (UInt8.ofNat (48+k)) = true := by decide
  induction n generalizing d with
  | zero => simp [digits]
  | succ n ih =>
    rw [digits]
    split_ifs with hd
    · exact fun b hb => mem_singleton.mp hb ▸ hbyte d hd
    · intro b hb
      rcases mem_append.mp hb with hb | hb
      · exact ih b hb
      · exact mem_singleton.mp hb ▸ hbyte _ (Nat.mod_lt _ (by decide))

/-- The hop of a round gets the text of the port back and reads at least one byte behind it; if
the first of these is no digit, then it stores the port. -/
theorem extMessage_port_read (aes : Aes) (p : Proxy) (hport : ∀ i, p.rinfoPort i < 65536)
    (c round : ℕ) (b : UInt8) (heap : Bytes) :
    ∃ tport, ((range round).map (p.paths.key c)).foldlM (fun m k => decryptMsg aes k m)
        (extMessage aes p c round).payload = some tport ∧
      tport.length < (atoiCopy tport (b::heap)).2 ∧
      (isDigit b = false → (atoiCopy tport (b::heap)).2 = tport.length+1 ∧
        swapBytes ((atoiCopy tport (b::heap)).1%65536) =
          if round = p.numHops then lastHop else p.rinfoPort (p.paths.path c round)) := by
  refine ⟨decimal (nextHop p c round), ?_, ?_⟩
  · rw [unwrap_eq_foldlM, extMessage, encryptMultiround, encryptRounds_eq, Codec.unwrap_wrap]
  have hread : (decimal (nextHop p c round)++b::heap).takeWhile isDigit =
      decimal (nextHop p c round)++(b::heap).takeWhile isDigit :=
    takeWhile_append_of_pos isDigit_digits
  have hnext : nextHop p c round < 65536 := by
    unfold nextHop
    split_ifs
    · decide
    · exact swapBytes_lt _
  simp only [atoiCopy, hread, length_append]
  refine ⟨by omega, fun hb => ?_⟩
  rw [takeWhile_cons_of_neg (by simp [hb]), append_nil, atoi_decimal hnext, Nat.mod_eq_of_lt hnext]
  refine ⟨rfl, ?_⟩
  unfold nextHop
  split_ifs
  · rfl
  · exact swapBytes_swapBytes (hport _)

/-- A proxy whose routers all have one port. -/
def onePort : Proxy :=
  ⟨⟨fun _ => [], fun _ _ => 0⟩, fun _ => 1002, 2, 2, 1000, fun _ => ⟨[], [], [], 0⟩, 0, 0, [],
    .idle⟩

theorem extMessage_port_read_one : ∃ tport,
    ((range 1).map (onePort.paths.key 0)).foldlM (fun m k => decryptMsg addKey k m)
      (extMessage addKey onePort 0 1).payload = some tport ∧
    swapBytes ((atoiCopy tport [0]).1%65536) = 1002 := by
  obtain ⟨tport, htext, -, hread⟩ :=
    extMessage_port_read addKey onePort (fun _ => show 1002 < 65536 by decide) 0 1 0 []
  exact ⟨tport, htext, (hread rfl).2⟩

/-- With a digit behind the copy the port is another one. -/
theorem port_with_digit_behind :
    swapBytes ((atoiCopy (decimal (swapBytes 1)) [48, 0]).1%65536) = 10 ∧
      (atoiCopy (decimal (swapBytes 1)) [48, 0]).2 = 5 := by
  decide

/-! ### Plans -/

structure Plan where
  cid : ℕ
  numHops : ℕ
  port : ℕ
  rinfoPort : ℕ → ℕ
  hop : ℕ → ℕ
  key : ℕ → Bytes

def Proxy.plan (p : Proxy) (c : ℕ) : Plan :=
  ⟨cID c, p.numHops, p.port, p.rinfoPort, p.paths.path c, p.paths.key c⟩

namespace Plan

variable (aes : Aes) (pl : Plan)

/-- The index of the circuit in the tables of the routers. -/
def slot : ℕ := OnionRouters.slot pl.cid

/-- The port of the proxy, and then those of the hops. -/
def portAt : ℕ → ℕ
  | 0 => pl.port
  | k+1 => pl.rinfoPort (pl.hop k)

/-- The id on the messages of the proxy, and then on those that the hops pass on. -/
def idAt : ℕ → ℕ
  | 0 => pl.cid
  | k+1 => computeCircuitId (pl.hop k) pl.slot

/-- The port that a hop passes messages on to. -/
def outPort (k : ℕ) : ℕ := if k+1 = pl.numHops then lastHop else pl.portAt (k+2)

def route (k : ℕ) : ℕ×ℕ×ℕ×ℕ := (pl.idAt k, pl.idAt (k+1), pl.portAt k, pl.outPort k)

/-- A message with the layers for hops `k` to `m-1`. -/
def layers (k m : ℕ) (x : Bytes) : Bytes :=
  (onion aes).wrap ((range' k (m-k)).map pl.key) x

/-- The text of the port that the hop of a round learns. -/
def portText (round : ℕ) : Bytes :=
  decimal (if round = pl.numHops then lastHop else swapBytes (pl.rinfoPort (pl.hop round)))

/-- Message `i` of the construction under its layers. -/
def content (i : ℕ) : Bytes := if i%2 = 0 then pl.key (i/2) else pl.portText (i/2+1)

/-- Message `i` of the construction on its way to hop `k`. -/
def msgAt (k i : ℕ) : Message :=
  ⟨if i%2 = 0 then .fakeDiffieHellman else .encryptedExt, pl.idAt k,
    pl.layers aes k ((i+1)/2) (pl.content i)⟩

/-- The routers on a path are distinct, under distinct ports, their keys have 16 bytes, and the
low four bits of the ids are a row of `aes_key`. -/
structure Sound : Prop where
  hop_inj : ∀ j k, j < pl.numHops → k < pl.numHops → pl.hop j = pl.hop k → j = k
  hop_range : ∀ k < pl.numHops, 0 < pl.hop k ∧ pl.hop k < 256
  port_inj : ∀ i k, k < pl.numHops → pl.rinfoPort i = pl.rinfoPort (pl.hop k) → i = pl.hop k
  port_lt : ∀ k < pl.numHops, pl.rinfoPort (pl.hop k) < 65536
  port_ne : ∀ i, pl.rinfoPort i ≠ pl.port
  id_pos : 0 < pl.cid
  slot_lt : pl.slot < aesKeyRows
  key_length : ∀ k < pl.numHops, (pl.key k).length = keyLen

end Plan

variable {p : Proxy} {c : ℕ}

section Facts

variable {aes : Aes} {pl : Plan} {k m i : ℕ} {x : Bytes}

theorem Plan.layers_self : pl.layers aes k k x = x := by
  unfold Plan.layers
  rw [Nat.sub_self]
  rfl

theorem Plan.dec_layers (h : k < m) :
    decryptMsg aes (pl.key k) (pl.layers aes k m x) = some (pl.layers aes (k+1) m x) := by
  obtain ⟨d, rfl⟩ := Nat.exists_eq_add_of_lt h
  have h1 : k+d+1-k = d+1 := by omega
  have h2 : k+d+1-(k+1) = d := by omega
  unfold Plan.layers
  rw [h1, h2, range'_succ, map_cons]
  exact Codec.dec_wrap (onion aes) _ _ _

theorem encryptMultiround_eq :
    encryptMultiround aes p.paths x m c = (p.plan c).layers aes 0 m x := by
  rw [encryptMultiround, encryptRounds_eq, Plan.layers, Nat.sub_zero, ← range_eq_range']
  rfl

theorem keyMessage_eq : keyMessage aes p c (k+1) = (p.plan c).msgAt aes 0 (2*k) := by
  have h0 : 2*k%2 = 0 := by omega
  have h1 : 2*k/2 = k := by omega
  have h2 : (2*k+1)/2 = k := by omega
  unfold keyMessage Plan.msgAt Plan.content
  rw [h0, h1, h2, encryptMultiround_eq]
  rfl

theorem extMessage_eq : extMessage aes p c (k+1) = (p.plan c).msgAt aes 0 (2*k+1) := by
  have h0 : (2*k+1)%2 = 1 := by omega
  have h1 : (2*k+1)/2 = k := by omega
  have h2 : (2*k+1+1)/2 = k+1 := by omega
  unfold extMessage Plan.msgAt Plan.content
  rw [h0, h1, h2, encryptMultiround_eq]
  rfl

theorem Plan.slot_idAt : OnionRouters.slot (pl.idAt k) = pl.slot := by
  cases k with
  | zero => rfl
  | succ k =>
    change OnionRouters.slot (pl.hop k*256+OnionRouters.slot pl.cid) = OnionRouters.slot pl.cid
    unfold OnionRouters.slot
    omega

theorem Plan.builds_msgAt : builds pl.slot (pl.msgAt aes k i) = true := by
  unfold builds Plan.msgAt
  rw [Plan.slot_idAt]
  split_ifs <;> simp

theorem Plan.not_builds_msgAt {j : ℕ} (hj : pl.slot ≠ j) : builds j (pl.msgAt aes k i) = false := by
  apply decide_eq_false
  rintro ⟨hslot, _⟩
  exact hj (Plan.slot_idAt.symm.trans hslot)

theorem Plan.oID_idAt {r : Router} (hindex : r.index = pl.hop k) (hrange : pl.hop k < 256) :
    r.oID (pl.idAt k) = pl.idAt (k+1) := by
  unfold Router.oID
  rw [slot_idAt, hindex]
  apply Nat.mod_eq_of_lt
  unfold computeCircuitId Plan.slot OnionRouters.slot
  omega

theorem Plan.msgType_msgAt : (pl.msgAt aes k i).msgType =
    if i%2 = 0 then .fakeDiffieHellman else .encryptedExt := rfl

theorem Plan.payload_key : (pl.msgAt aes k (2*k)).payload = pl.key k := by
  have h0 : 2*k%2 = 0 := by omega
  have h1 : 2*k/2 = k := by omega
  have h2 : (2*k+1)/2 = k := by omega
  change pl.layers aes k ((2*k+1)/2) (pl.content (2*k)) = _
  rw [h2, layers_self, Plan.content, if_pos h0, h1]

theorem Plan.payload_ext :
    (pl.msgAt aes k (2*k+1)).payload = pl.layers aes k (k+1) (pl.portText (k+1)) := by
  have h0 : (2*k+1)%2 ≠ 0 := by omega
  have h1 : (2*k+1)/2 = k := by omega
  have h2 : (2*k+1+1)/2 = k+1 := by omega
  change pl.layers aes k ((2*k+1+1)/2) (pl.content (2*k+1)) = _
  rw [h2, Plan.content, if_neg h0, h1]

namespace Plan.Sound

variable (hp : pl.Sound)

include hp

theorem idAt_pos (hk : k < pl.numHops) : 0 < pl.idAt k := by
  cases k with
  | zero => exact hp.id_pos
  | succ k =>
    have := (hp.hop_range k (by omega)).1
    change 0 < pl.hop k*256+pl.slot
    omega

theorem portAt_inj {j : ℕ} (hj : j ≤ pl.numHops) (hk : k ≤ pl.numHops)
    (h : pl.portAt j = pl.portAt k) : j = k := by
  cases j with
  | zero =>
    cases k with
    | zero => rfl
    | succ k => exact absurd h.symm (hp.port_ne _)
  | succ j =>
    cases k with
    | zero => exact absurd h (hp.port_ne _)
    | succ k =>
      have hhop := hp.port_inj _ k (by omega) h
      exact congrArg _ (hp.hop_inj j k (by omega) (by omega) hhop)

theorem atoi_portText (hk : k < pl.numHops) :
    swapBytes (atoi (pl.portText (k+1))%65536) = pl.outPort k := by
  unfold Plan.portText Plan.outPort
  split_ifs with hn
  · decide
  · rw [atoi_decimal (swapBytes_lt _), Nat.mod_eq_of_lt (swapBytes_lt _)]
    exact swapBytes_swapBytes (hp.port_lt (k+1) (by omega))

end Plan.Sound

end Facts

/-! ### Hops -/

/-- A hop that waits for message `q` of the construction. -/
structure HopState (pl : Plan) (k q : ℕ) (r : Router) : Prop where
  index : r.index = pl.hop k
  seq_lt : r.ccSeq < 16
  row_length : (r.aesKey pl.slot).length = keyLen
  others : ∀ i, i ≠ pl.slot → (r.cc i).iid = 0 ∨ slot (r.cc i).iid ≠ pl.slot
  keyed : 2*k < q → r.aesKey pl.slot = pl.key k ∧ pl.slot ≤ r.ccSeq
  free : q < 2*k+2 → (r.cc pl.slot).iid = 0
  built : 2*k+2 ≤ q → (r.cc pl.slot).route = pl.route k

section Hops

variable {aes : Aes} {pl : Plan} {k q src : ℕ} {x : Bytes} {r r' : Router} {m : Message}
  {outs : List Output}

theorem ok_bind {α β : Type} (a : α) (f : α → Except Fault β) : (Except.ok a >>= f) = f a := rfl

theorem seen_ccSeq_lt {cid : ℕ} (h : r.ccSeq < 16) : (r.seen cid).ccSeq < 16 := by
  apply max_lt h
  unfold slot
  omega

namespace HopState

theorem seen (h : HopState pl k q r) (cid : ℕ) : HopState pl k q (r.seen cid) :=
  { h with
    seq_lt := seen_ccSeq_lt h.seq_lt
    keyed := fun hq => ⟨(h.keyed hq).1, Nat.le_trans (h.keyed hq).2 (Nat.le_max_left _ _)⟩ }

theorem frame (h : HopState pl k q r) (hh : Handles aes r m src r' outs)
    (hm : builds pl.slot m = false) : HopState pl k q r' := by
  obtain ⟨hindex, _, hseq⟩ := hh.fixed.1
  have hslot : r'.aesKey pl.slot = r.aesKey pl.slot ∧
      (r'.cc pl.slot).route = (r.cc pl.slot).route := by
    by_cases hs : pl.slot = slot m.cid
    · rw [hs] at hm
      exact ⟨congrFun (hh.spares hm).1 _, (hh.spares hm).2 _⟩
    · obtain ⟨hcc, hkey⟩ := hh.fixed.2 _ hs
      exact ⟨hkey, congrArg _ hcc⟩
  constructor
  · rw [hindex, h.index]
  · rw [hseq]
    exact h.seq_lt
  · rw [hslot.1]
    exact h.row_length
  · intro i hi
    rcases hh.route_cases i with heq | ⟨hslot, _, _, port, heq⟩
    · have hiid : (r'.cc i).iid = (r.cc i).iid := congrArg Prod.fst heq
      rw [hiid]
      exact h.others i hi
    · have hiid : (r'.cc i).iid = m.cid := congrArg Prod.fst heq
      rw [hiid, ← hslot]
      exact .inr hi
  · intro hq
    rw [hslot.1, hseq]
    exact h.keyed hq
  · intro hq
    have hiid : (r'.cc pl.slot).iid = (r.cc pl.slot).iid := congrArg Prod.fst hslot.2
    rw [hiid]
    exact h.free hq
  · intro hq
    rw [hslot.2]
    exact h.built hq

section Built

variable (h : HopState pl k q r) (hq : 2*k+2 ≤ q)

include h hq

theorem iid_eq : (r.cc pl.slot).iid = pl.idAt k := congrArg (fun e => e.1) (h.built hq)

theorem oid_eq : (r.cc pl.slot).oid = pl.idAt (k+1) := congrArg (fun e => e.2.1) (h.built hq)

theorem iport_eq : (r.cc pl.slot).iport = pl.portAt k := congrArg (fun e => e.2.2.1) (h.built hq)

theorem oport_eq : (r.cc pl.slot).oport = pl.outPort k := congrArg (fun e => e.2.2.2) (h.built hq)

end Built

theorem known_iid (h : HopState pl k q r) (hp : pl.Sound) (hk : k < pl.numHops) :
    r.known Circuit.iid (pl.idAt k) = .ok (decide (2*k+2 ≤ q)) := by
  have hseq := h.seq_lt
  unfold Router.known
  rw [if_pos (by unfold ccSize; omega), Except.ok.injEq]
  by_cases hq : 2*k+2 ≤ q
  · rw [decide_eq_true hq, any_eq_true]
    have hle := (h.keyed (by omega)).2
    exact ⟨pl.slot, mem_range.mpr (by omega), decide_eq_true (h.iid_eq hq)⟩
  · rw [decide_eq_false hq, any_eq_false]
    intro i _ heq
    have hpos := hp.idAt_pos hk
    have heq := of_decide_eq_true heq
    by_cases hi : i = pl.slot
    · rw [hi, h.free (by omega)] at heq
      omega
    · rcases h.others i hi with h0 | hne
      · omega
      · rw [heq] at hne
        exact hne Plan.slot_idAt

theorem known_oid (h : HopState pl k q r) (hq : 2*k+2 ≤ q) :
    r.known Circuit.oid (pl.idAt (k+1)) = .ok true := by
  have hseq := h.seq_lt
  have hle := (h.keyed (by omega)).2
  unfold Router.known
  rw [if_pos (by unfold ccSize; omega), Except.ok.injEq, any_eq_true]
  exact ⟨pl.slot, mem_range.mpr (by omega), decide_eq_true (h.oid_eq hq)⟩

theorem decryptAt_layers (h : HopState pl k q r) (hp : pl.Sound) (hq : 2*k < q) (hn : k < n) :
    decryptAt aes r (pl.idAt k) (pl.layers aes k n x) =
      .ok (pl.layers aes (k+1) n x) := by
  unfold decryptAt Router.keyAt
  rw [Plan.slot_idAt, if_pos hp.slot_lt, (h.keyed hq).1]
  rw [ok_bind, Plan.dec_layers hn]

theorem storeKey (h : HopState pl k (2*k) r) (hp : pl.Sound) (hk : k < pl.numHops)
    (hseen : pl.slot ≤ r.ccSeq) (hstore : r.storeKey pl.slot (pl.key k) = .ok r') :
    HopState pl k (2*k+1) r' := by
  have hrow : pl.key k++(r.aesKey pl.slot).drop (pl.key k).length = pl.key k := by
    rw [hp.key_length k hk, ← h.row_length, drop_length, append_nil]
  rw [(storeKey_spec hstore).1, hrow]
  exact { index := h.index
          seq_lt := h.seq_lt
          row_length := by simpa using hp.key_length k hk
          others := h.others
          keyed := fun _ => ⟨Function.update_self _ _ _, hseen⟩
          free := fun _ => h.free (by omega)
          built := fun hq => absurd hq (by omega) }

theorem extend (h : HopState pl k (2*k+1) r) (hp : pl.Sound) (hk : k < pl.numHops) :
    HopState pl k (2*k+2) (extended r (pl.idAt k) (pl.portAt k) (pl.portText (k+1))) := by
  have hfree := h.free (by omega)
  unfold extended
  rw [Plan.slot_idAt, if_pos hfree, Plan.oID_idAt h.index (hp.hop_range k hk).2,
    hp.atoi_portText hk]
  constructor
  · exact h.index
  · exact h.seq_lt
  · exact h.row_length
  · intro i hi
    rw [setCircuit_of_ne r _ hi]
    exact h.others i hi
  · exact fun _ => h.keyed (by omega)
  · exact fun hq => absurd hq (by omega)
  · intro _
    rw [setCircuit_self]
    rfl

section

variable (h : HopState pl k q r)
include h

theorem mono (hq : 2*k+2 ≤ q) : HopState pl k (q+1) r :=
  { h with
    keyed := fun _ => h.keyed (by omega)
    free := fun hlt => absurd hlt (by omega)
    built := fun _ => h.built hq }

theorem take (hp : pl.Sound) (hk : k < pl.numHops) (hq : 2*k ≤ q) (hseen : pl.slot ≤ r.ccSeq)
    (hh : Handles aes r (pl.msgAt aes k q) (pl.portAt k) r' outs) :
    HopState pl k (q+1) r' ∧
    (2*k+2 ≤ q → outs = [.udp (pl.outPort k) (pl.msgAt aes (k+1) q)]) ∧
    (q < 2*k+2 → ∀ port m', .udp port m' ∈ outs →
      q = 2*k+1 ∧ port = pl.portAt k ∧ m' = ⟨.encryptedExtDone, pl.idAt k, []⟩) := by
  have hknown := h.known_iid hp hk
  have hslot : slot (pl.msgAt aes k q).cid = pl.slot := Plan.slot_idAt
  rcases hh.builds_cases Plan.builds_msgAt with ⟨clear, htrue, hclear, rfl, rfl⟩ |
    ⟨hfalse, ⟨ht, hstore, rfl⟩ | ⟨ht, tport, hport, rfl, rfl⟩⟩
  · have hq : 2*k+2 ≤ q := of_decide_eq_true (Except.ok.inj (hknown.symm.trans htrue))
    have hid : r'.oID (pl.msgAt aes k q).cid = pl.idAt (k+1) :=
      Plan.oID_idAt h.index (hp.hop_range k hk).2
    have hlayer : clear = pl.layers aes (k+1) ((q+1)/2) (pl.content q) :=
      Except.ok.inj (hclear.symm.trans (h.decryptAt_layers hp (by omega) (by omega)))
    refine ⟨h.mono hq, fun _ => ?_, fun hlt => absurd hlt (by omega)⟩
    rw [hslot, h.oport_eq hq, hid, hlayer]
    rfl
  · have hlt : ¬2*k+2 ≤ q := of_decide_eq_false (Except.ok.inj (hknown.symm.trans hfalse))
    obtain rfl : q = 2*k := by
      have heven : q%2 = 0 := by
        by_contra hodd
        rw [Plan.msgType_msgAt, if_neg hodd] at ht
        exact absurd ht nofun
      omega
    rw [hslot, Plan.payload_key] at hstore
    exact ⟨h.storeKey hp hk hseen hstore, fun hle => absurd hle hlt, fun _ _ _ hout => nomatch hout⟩
  · have hlt : ¬2*k+2 ≤ q := of_decide_eq_false (Except.ok.inj (hknown.symm.trans hfalse))
    obtain rfl : q = 2*k+1 := by
      have hodd : q%2 ≠ 0 := by
        intro heven
        rw [Plan.msgType_msgAt, if_pos heven] at ht
        exact absurd ht nofun
      omega
    have htext : tport = pl.portText (k+1) := by
      rw [Plan.payload_ext] at hport
      have hlayer : decryptAt aes r (pl.idAt k) (pl.layers aes k (k+1) (pl.portText (k+1))) =
          .ok (pl.layers aes (k+1) (k+1) (pl.portText (k+1))) :=
        h.decryptAt_layers hp (by omega) (Nat.lt_succ_self k)
      rw [Plan.layers_self] at hlayer
      exact Except.ok.inj (hport.symm.trans hlayer)
    rw [htext]
    refine ⟨h.extend hp hk, fun hle => absurd hle hlt, fun _ port m' hout => ?_⟩
    obtain ⟨rfl, rfl⟩ : port = _ ∧ m' = _ := by simpa using hout
    exact ⟨rfl, rfl, rfl⟩

theorem receive_relay (hp : pl.Sound) (hk : k < pl.numHops) (hq : 2*k+2 ≤ q)
    (hlast : pl.outPort k ≠ lastHop) (hn : k < n) :
    receive aes r ⟨.encryptedRelay, pl.idAt k, pl.layers aes k n x⟩ src =
      .ok (r.seen (pl.idAt k), [.udp (pl.outPort k)
        ⟨.encryptedRelay, pl.idAt (k+1), pl.layers aes (k+1) n x⟩]) := by
  have hseen := h.seen (pl.idAt k)
  have hknown := hseen.known_iid hp hk
  rw [decide_eq_true hq] at hknown
  change handleRelay aes (r.seen (pl.idAt k)) _ = _
  unfold handleRelay
  dsimp only
  rw [hseen.decryptAt_layers hp (by omega) hn, ok_bind, hknown, ok_bind, if_pos rfl,
    Plan.slot_idAt, hseen.oport_eq hq, if_neg hlast, hseen.oid_eq hq]
  rfl

theorem receive_exit (hp : pl.Sound) (hk : k+1 = pl.numHops) (hq : 2*k+2 ≤ q) :
    receive aes r ⟨.encryptedRelay, pl.idAt k, pl.layers aes k (k+1) x⟩ src =
      .ok (sendOut (r.seen (pl.idAt k)) pl.slot x ((pl.layers aes k (k+1) x).drop x.length)) := by
  have hseen := h.seen (pl.idAt k)
  have hknown := hseen.known_iid hp (by omega)
  have hport : ((r.seen (pl.idAt k)).cc pl.slot).oport = lastHop := by
    rw [hseen.oport_eq hq]
    exact if_pos hk
  rw [decide_eq_true hq] at hknown
  change handleRelay aes (r.seen (pl.idAt k)) _ = _
  unfold handleRelay
  dsimp only
  rw [hseen.decryptAt_layers hp (by omega) (Nat.lt_succ_self k), ok_bind, hknown, ok_bind,
    if_pos rfl, Plan.slot_idAt, Plan.layers_self, if_pos hport]
  rfl

theorem receive_reply (hp : pl.Sound) (hq : 2*k+2 ≤ q) :
    receive aes r ⟨.encryptedRelayReply, pl.idAt (k+1), x⟩ src =
      .ok (r.seen (pl.idAt (k+1)), [.udp (pl.portAt k)
        ⟨.encryptedRelayReply, pl.idAt k, encryptMsg aes (pl.key k) x⟩]) := by
  have hseen := h.seen (pl.idAt (k+1))
  have hkey : (r.seen (pl.idAt (k+1))).keyAt pl.slot = .ok (pl.key k) := by
    unfold Router.keyAt
    rw [if_pos hp.slot_lt, (hseen.keyed (by omega)).1]
  change handleRelayReply aes (r.seen (pl.idAt (k+1))) _ = _
  unfold handleRelayReply
  dsimp only
  rw [Plan.slot_idAt, hkey, ok_bind, hseen.known_oid hq, ok_bind, if_pos rfl,
    hseen.iport_eq hq, hseen.iid_eq hq]
  rfl

theorem answerOn_eq (hp : pl.Sound) (hq : 2*k+2 ≤ q) :
    answerOn aes r pl.slot x = .ok (r, [.udp (pl.portAt k)
      ⟨.encryptedRelayReply, pl.idAt k, encryptMsg aes (pl.key k) x⟩]) := by
  have hkey : r.keyAt pl.slot = .ok (pl.key k) := by
    unfold Router.keyAt
    rw [if_pos hp.slot_lt, (h.keyed (by omega)).1]
  unfold answerOn
  rw [hkey, ok_bind, h.iport_eq hq, h.iid_eq hq]
  rfl

end

end HopState

end Hops

end SystemsProjects.OnionNetwork
