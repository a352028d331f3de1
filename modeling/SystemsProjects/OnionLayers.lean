import SystemsProjects.LayeredCodecs

/-!
# The onion encryption of the proxy and the routers

A message is encrypted with the key of every router on its path, after it has been padded to
whole blocks each time. AES itself is not part of the repository: all that is used of
`AES_cbc_encrypt` with an initialization vector of zeros is that it keeps the length of whole
blocks and that decryption undoes encryption on them. A buffer with its length is a list of
bytes; the buffers are as large as the code asks for.

`none` as a result of a function stands for a failed assertion.
-/
namespace SystemsProjects.OnionLayers

open LayeredCodecs List

abbrev Bytes := List UInt8

/-- `AES_KEY_LENGTH_IN_CHARS`. -/
def aesKeyLength : ℕ := 16

/-- `AES_cbc_encrypt` with a text as key. -/
structure Aes where
  encrypt : Bytes → Bytes → Bytes
  decrypt : Bytes → Bytes → Bytes
  length_encrypt : ∀ k m, aesKeyLength ∣ m.length → (encrypt k m).length = m.length
  decrypt_encrypt : ∀ k m, aesKeyLength ∣ m.length → decrypt k (encrypt k m) = m

variable (aes : Aes)

/-- The padded input: zeros, and the number of bytes that were added in the last one. -/
def padded (m : Bytes) : Bytes :=
  let paddingRequired := aesKeyLength-m.length%aesKeyLength
  m++replicate (paddingRequired-1) 0++[UInt8.ofNat paddingRequired]

/-- `encrypt_msg_with_padding`, which is `class_AES_encrypt_with_padding`. -/
def encryptMsg (key m : Bytes) : Bytes := aes.encrypt key (padded m)

/-- `decrypt_msg_with_padding`, which is `class_AES_decrypt_with_padding`. -/
def decryptMsg (key c : Bytes) : Option Bytes :=
  let out := aes.decrypt key c
  match out.getLast? with
  | none => none
  | some last =>
    let paddingUsed := last.toNat
    if paddingUsed > 0 ∧ paddingUsed ≤ aesKeyLength ∧ paddingUsed ≤ out.length then
      some (out.take (out.length-paddingUsed))
    else none

/-- The loop of `encrypt_multiround_with_padding`, in which `i` counts down. -/
def encryptRounds (key : ℕ → Bytes) : ℕ → Bytes → Bytes
  | 0, m => m
  | i+1, m => encryptRounds key i (encryptMsg aes (key i) m)

/-- The loop of `decrypt_multiround_with_padding` with the rounds that are left. -/
def decryptRounds (key : ℕ → Bytes) : ℕ → ℕ → Bytes → Option Bytes
  | _, 0, m => some m
  | i, left+1, m => (decryptMsg aes (key i) m).bind (decryptRounds key (i+1) left)

/-- What the proxy knows of the routers and of the paths of its circuits. -/
structure Paths where
  rinfoKey : ℕ → Bytes
  path : ℕ → ℕ → ℕ

/-- The key of hop `i` on a circuit. -/
def Paths.key (paths : Paths) (circuitNum i : ℕ) : Bytes :=
  paths.rinfoKey (paths.path circuitNum i)

def encryptMultiround (paths : Paths) (ctext : Bytes) (round circuitNum : ℕ) : Bytes :=
  encryptRounds aes (paths.key circuitNum) round ctext

def decryptMultiround (paths : Paths) (ctext : Bytes) (round circuitNum : ℕ) : Option Bytes :=
  decryptRounds aes (paths.key circuitNum) 0 round ctext

/-! ### One layer -/

section Padding

variable (m : Bytes)

theorem length_padded : (padded m).length =
    m.length+(aesKeyLength-m.length%aesKeyLength) := by
  have hlt : m.length%aesKeyLength < aesKeyLength := Nat.mod_lt _ (by decide)
  simp only [padded, length_append, length_replicate, length_singleton]
  omega

theorem dvd_length_padded : aesKeyLength ∣ (padded m).length := by
  rw [length_padded]
  have hlt : m.length%aesKeyLength < aesKeyLength := Nat.mod_lt _ (by decide)
  have hdiv := Nat.div_add_mod m.length aesKeyLength
  refine ⟨m.length/aesKeyLength+1, ?_⟩
  rw [Nat.mul_add]
  omega

theorem getLast_padded : (padded m).getLast? =
    some (UInt8.ofNat (aesKeyLength-m.length%aesKeyLength)) := by
  simp [padded]

theorem take_padded : (padded m).take m.length = m := by
  rw [padded, append_assoc, take_left']
  rfl

end Padding

theorem decryptMsg_encryptMsg (key m : Bytes) :
    decryptMsg aes key (encryptMsg aes key m) = some m := by
  have hlt : m.length%aesKeyLength < aesKeyLength := Nat.mod_lt _ (by decide)
  have hlength := length_padded m
  have hbyte : (UInt8.ofNat (aesKeyLength-m.length%aesKeyLength)).toNat =
      aesKeyLength-m.length%aesKeyLength := by
    rw [UInt8.toNat_ofNat']
    exact Nat.mod_eq_of_lt (Nat.lt_of_le_of_lt (Nat.sub_le _ _) (by decide))
  unfold decryptMsg encryptMsg
  rw [aes.decrypt_encrypt key _ (dvd_length_padded m)]
  dsimp only
  rw [getLast_padded]
  dsimp only
  rw [hbyte, if_pos (by omega), hlength, Nat.add_sub_cancel_right, take_padded]

def onion : Codec Bytes Bytes := ⟨encryptMsg aes, decryptMsg aes, decryptMsg_encryptMsg aes⟩

/-! ### All layers -/

section Rounds

variable (key : ℕ → Bytes) (m : Bytes)

theorem encryptRounds_eq (round : ℕ) :
    encryptRounds aes key round m = (onion aes).wrap ((range round).map key) m := by
  induction round generalizing m with
  | zero => rfl
  | succ i ih =>
    rw [encryptRounds, ih, range_succ, map_append, Codec.wrap_append]
    rfl

theorem decryptRounds_eq (i left : ℕ) :
    decryptRounds aes key i left m = (onion aes).unwrap ((range' i left).map key) m := by
  induction left generalizing i m with
  | zero => rfl
  | succ left ih =>
    rw [decryptRounds, range'_succ, map_cons, Codec.unwrap]
    exact congrArg _ (funext fun m => ih m (i+1))

theorem unwrap_eq_foldlM (ks : List Bytes) :
    ks.foldlM (fun m k => decryptMsg aes k m) m = (onion aes).unwrap ks m := by
  induction ks generalizing m with
  | nil => rfl
  | cons k ks ih =>
    rw [foldlM_cons, Codec.unwrap]
    exact congrArg _ (funext ih)

end Rounds

/-- What the proxy has encrypted for the first `n` hops of a circuit is restored by these hops
in turn, and what hops `n-1` to 0 have encrypted in turn is restored by the proxy. -/
theorem onion_round_trip (paths : Paths) (circuitNum n : ℕ) (payload : Bytes) :
    ((range n).map (paths.key circuitNum)).foldlM (fun m k => decryptMsg aes k m)
      (encryptMultiround aes paths payload n circuitNum) = some payload ∧
    decryptMultiround aes paths
      ((range n).foldr (fun i m => encryptMsg aes (paths.key circuitNum i) m) payload)
      n circuitNum = some payload := by
  constructor
  · rw [unwrap_eq_foldlM, encryptMultiround, encryptRounds_eq, Codec.unwrap_wrap]
  · have hwrap : (range n).foldr (fun i m => encryptMsg aes (paths.key circuitNum i) m)
        payload = (onion aes).wrap ((range n).map (paths.key circuitNum)) payload := by
      rw [Codec.wrap, foldr_map]
      rfl
    rw [decryptMultiround, decryptRounds_eq, ← range_eq_range', hwrap, Codec.unwrap_wrap]

/-- A cipher with which the onion can be computed: it adds the bytes of the key to a block. -/
def addKey : Aes where
  encrypt k m := (m.zipIdx).map fun p => p.1+k.getD (p.2%aesKeyLength) 0
  decrypt k m := (m.zipIdx).map fun p => p.1-k.getD (p.2%aesKeyLength) 0
  length_encrypt k m _ := by simp
  decrypt_encrypt k m _ := by
    apply ext_getElem
    · simp
    · intro i h1 h2
      simp

example : decryptMsg addKey [1, 2, 3] (encryptMsg addKey [1, 2, 3] [7, 8]) = some [7, 8] := by
  decide

end SystemsProjects.OnionLayers
