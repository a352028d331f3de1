import Mathlib.Data.List.Basic

/-!
# Packets as bytes

The fields of an IPv4 header, of the ICMP type and of the TCP ports and checksum are read from
and written to the bytes of a packet, in the byte order of the host for the checksums, as in
`mysocket.cpp`. Numbers of two bytes are read with the low byte first. A read behind the end
of the bytes gives zeros.
-/
namespace SystemsProjects.IpPackets

open List

abbrev Packet := List UInt8

def byteAt (p : Packet) (i : ℕ) : ℕ := (p.getD i 0).toNat

/-- An `unsigned short` in memory on a host with the low byte first. -/
def shortAt (p : Packet) (i : ℕ) : ℕ := byteAt p i+256*byteAt p (i+1)

def field (p : Packet) (i n : ℕ) : Packet := (p.drop i).take n

/-- The bytes of `bs` are written at `i`. -/
def overlay (p : Packet) (i : ℕ) (bs : Packet) : Packet := p.take i++bs++p.drop (i+bs.length)

def shortBytes (n : ℕ) : Packet := [UInt8.ofNat n, UInt8.ofNat (n/256)]

/-- `ntohs` and `htons` on such a host. -/
def swapBytes (n : ℕ) : ℕ := n%256*256+n/256%256

/-! ### Headers -/

/-- `sizeof(struct iphdr)`. -/
def iphdrSize : ℕ := 20

/-- The header length in bytes, `ihl*4`. -/
def iphdrlen (p : Packet) : ℕ := byteAt p 0%16*4

def totLen (p : Packet) : ℕ := swapBytes (shortAt p 2)

def protocol (p : Packet) : ℕ := byteAt p 9

def saddr (p : Packet) : Packet := field p 12 4

def daddr (p : Packet) : Packet := field p 16 4

def icmpType (p : Packet) : ℕ := byteAt p (iphdrlen p)

/-- The ports of a TCP header that is expected right behind an IP header without options. -/
def tcpSource (p : Packet) : Packet := field p iphdrSize 2

def tcpDest (p : Packet) : Packet := field p (iphdrSize+2) 2

/-! ### Checksums -/

/-- The sum of the words of two bytes, with an odd byte at the end. -/
def wordSum : Packet → ℕ
  | [] => 0
  | [b] => b.toNat
  | b::c::p => b.toNat+256*c.toNat+wordSum p

def inCksum (p : Packet) : ℕ :=
  let sum := wordSum p
  let sum := sum/65536+sum%65536
  let sum := sum+sum/65536
  65535-sum%65536

/-- The header checksum is set to zero and computed again. -/
def setIpCheck (p : Packet) : Packet :=
  let zeroed := overlay p 10 [0, 0]
  overlay zeroed 10 (shortBytes (inCksum (zeroed.take iphdrSize)))

/-- The loop that adds the upper half of a sum to its lower one. -/
def foldCarries : ℕ → ℕ → ℕ
  | 0, sum => sum
  | rounds+1, sum => if sum/65536 = 0 then sum else foldCarries rounds (sum%65536+sum/65536)

/-- `compute_tcp_checksum` for the TCP header that starts at a byte. The sum of a segment has
less than 32 bits, and is folded in at most two rounds. -/
def setTcpCheck (p : Packet) (start : ℕ) : Packet :=
  let tcpLen := (totLen p+65536-iphdrlen p)%65536
  let zeroed := overlay p (start+16) [0, 0]
  let sum := wordSum (saddr p)+wordSum (daddr p)+swapBytes 6+swapBytes tcpLen+
    wordSum (field zeroed start tcpLen)
  overlay zeroed (start+16) (shortBytes (65535-foldCarries 2 sum%65536))

/-! ### Packets that the proxy and the exit rewrite -/

/-- The source address is replaced and the header checksum computed again. -/
def setSource (p : Packet) (addr : Packet) : Packet := setIpCheck (overlay p 12 addr)

/-! ### Bytes that stay -/

section Overlay

variable {p l old bs r addr : Packet} {i j n : ℕ}

theorem overlay_append (hl : l.length = i) (hold : old.length = bs.length) :
    overlay (l++old++r) i bs = l++bs++r := by
  unfold overlay
  rw [append_assoc l, take_left' hl, ← append_assoc l, drop_left' (by rw [length_append, hl, hold])]

theorem overlay_overlay (hold : old.length = bs.length) (hp : i ≤ p.length) :
    overlay (overlay p i old) i bs = overlay p i bs := by
  have hl : (p.take i).length = i := by simp; omega
  rw [overlay.eq_1 p i old, overlay_append hl hold, hold]
  rfl

theorem length_overlay (h : i+bs.length ≤ p.length) : (overlay p i bs).length = p.length := by
  simp only [overlay, length_append, length_take, length_drop]
  omega

theorem getElem_overlay_left (hj : j < i) (hp : j < p.length) : (overlay p i bs)[j]? = p[j]? := by
  unfold overlay
  rw [append_assoc, getElem?_append_left (by simp; omega), getElem?_take_of_lt hj]

theorem getElem_overlay (h : i+bs.length ≤ p.length) (hj : j < i ∨ i+bs.length ≤ j) :
    (overlay p i bs)[j]? = p[j]? := by
  rcases hj with hj | hj
  · exact getElem_overlay_left hj (by omega)
  · have hl : (p.take i).length = i := by simp; omega
    unfold overlay
    rw [getElem?_append_right (by simp; omega), getElem?_drop, length_append, hl,
      Nat.add_sub_cancel' hj]

theorem field_overlay (hp : i ≤ p.length) : field (overlay p i bs) i bs.length = bs := by
  have hl : (p.take i).length = i := by simp; omega
  unfold field overlay
  rw [append_assoc, drop_left' hl, take_left' rfl]

theorem getElem_field (hj : j < n) (i : ℕ) : (field p i n)[j]? = p[i+j]? := by
  unfold field
  rw [getElem?_take_of_lt hj, getElem?_drop]

theorem field_congr {q : Packet} (h : ∀ j < n, q[i+j]? = p[i+j]?) : field q i n = field p i n := by
  apply ext_getElem?
  intro j
  by_cases hj : j < n
  · rw [getElem_field hj, getElem_field hj, h j hj]
  · rw [getElem?_eq_none (by simp [field]; omega), getElem?_eq_none (by simp [field]; omega)]

theorem length_setIpCheck (hp : 12 ≤ p.length) : (setIpCheck p).length = p.length := by
  unfold setIpCheck
  dsimp only
  rw [overlay_overlay (by simp [shortBytes]) (by omega),
    length_overlay (by simp [shortBytes]; omega)]

theorem getElem_setIpCheck (hp : 12 ≤ p.length) (hj : j < 10 ∨ 12 ≤ j) :
    (setIpCheck p)[j]? = p[j]? := by
  unfold setIpCheck
  dsimp only
  rw [overlay_overlay (by simp [shortBytes]) (by omega)]
  exact getElem_overlay (by simp [shortBytes]; omega) (by simp [shortBytes]; omega)

/-- A new source address changes bytes 10 to 15 only. -/
theorem getElem_setSource (hp : 16 ≤ p.length) (haddr : addr.length = 4) (hj : j < 10 ∨ 16 ≤ j) :
    (setSource p addr)[j]? = p[j]? := by
  have hlen : (overlay p 12 addr).length = p.length := length_overlay (by omega)
  exact (getElem_setIpCheck (by omega) (by omega)).trans (getElem_overlay (by omega) (by omega))

theorem byteAt_setSource (hp : 16 ≤ p.length) (haddr : addr.length = 4) (hj : j < 10) :
    byteAt (setSource p addr) j = byteAt p j := by
  unfold byteAt
  rw [getD_eq_getElem?_getD, getD_eq_getElem?_getD, getElem_setSource hp haddr (.inl hj)]

theorem field_setSource (hp : 16 ≤ p.length) (haddr : addr.length = 4) (hi : 16 ≤ i) (n : ℕ) :
    field (setSource p addr) i n = field p i n :=
  field_congr fun _ _ => getElem_setSource hp haddr (by omega)

end Overlay

end SystemsProjects.IpPackets
