import Topia.Lib.Base32
import Topia.Chain.Types

/-!
# Addresses

`crypt/types/address.go`: an address is a character for the network, a digit for the kind of the
key, and the base 32 text of the payload and a checksum of four bytes. `decode` reads it back. Line
breaks in the text and the unused bits of the last character make no difference to `decode`. A text
of one character makes it panic.
-/

namespace Topia.Crypt

open Lib

inductive NetworkType where
  | unknown
  | mainnet
  | testnet
deriving DecidableEq, Repr

inductive CryptType where
  | unknown
  | bls12381
  | secp256
  | ed25519
deriving DecidableEq, Repr

def CryptType.byte : CryptType → UInt8
  | .unknown => 0
  | .bls12381 => 1
  | .secp256 => 2
  | .ed25519 => 3

def AddressLen_Secp256 : Nat := 20
def AddressLen_BLS12381 : Nat := 48
def AddressLen_ED25519 : Nat := 32

def CryptType.addressLen : CryptType → Nat
  | .unknown => 0
  | .bls12381 => AddressLen_BLS12381
  | .secp256 => AddressLen_Secp256
  | .ed25519 => AddressLen_ED25519

def checksumHashLength : Nat := 4

open Base32

def encodeStd : Alphabet where
  chars := ascii "topianewrkbcdfghjlmqsuvxyz123456"
  length_chars := by decide
  nodup := by decide
  newline := by decide
  carriageReturn := by decide

abbrev Address := Bytes

def UndefAddress : Address := ascii "<empty>"

structure Checksum where
  checksum : Bytes → Bytes
  length_checksum : ∀ data, (checksum data).length = checksumHashLength

/-- Errors of `encode` and `decode`; the last one is a panic. -/
inductive AddressError where
  | invalidPayload
  | unknownNetworkType (network : Nat)
  | unknownCryptType (cryptType : Nat)
  | corruptInput
  | invalidChecksumLen (length : Nat)
  | invalidPayloadLen (length expected : Nat)
  | invalidChecksum
  | indexOutOfRange
deriving DecidableEq, Repr

def NetworkType.letter : NetworkType → Option UInt8
  | .mainnet => some 109
  | .testnet => some 116
  | .unknown => none

def NetworkType.Value (netType : UInt8) : NetworkType :=
  if netType = 109 then .mainnet else if netType = 116 then .testnet else .unknown

open List

section Codec

variable {H : Checksum} {network : NetworkType} {cryptType : CryptType} {payload : Bytes}
  {a b : Address}

def payloadcksm (H : Checksum) (cryptType : CryptType) (payload : Bytes) : Bytes :=
  payload ++ H.checksum (cryptType.byte :: payload)

def encode (H : Checksum) (network : NetworkType) (cryptType : CryptType) (payload : Bytes) :
    Except AddressError Address :=
  if payload.length = 0 then .error .invalidPayload
  else
    match network.letter with
    | none => .error (.unknownNetworkType 0)
    | some ntwPrefix =>
      if cryptType = .unknown then .error (.unknownCryptType 0)
      else .ok (ntwPrefix :: (48 + cryptType.byte) ::
        encodeToString encodeStd (payloadcksm H cryptType payload))

def cryptTypeOf (c : UInt8) : Option CryptType :=
  if c = 49 then some .bls12381
  else if c = 50 then some .secp256
  else if c = 51 then some .ed25519
  else none

def checkPayload (H : Checksum) (cryptType : CryptType) (bytes : Bytes) :
    Except AddressError Bytes :=
  if bytes.length < checksumHashLength then .error (.invalidChecksumLen bytes.length)
  else
    let payload := bytes.take (bytes.length - checksumHashLength)
    let cksm := bytes.drop (bytes.length - checksumHashLength)
    if payload.length ≠ cryptType.addressLen then
      .error (.invalidPayloadLen payload.length cryptType.addressLen)
    else if H.checksum (cryptType.byte :: payload) ≠ cksm then .error .invalidChecksum
    else .ok payload

open NetworkType

def readRaw (H : Checksum) (netType cryptChar : UInt8) (raw : Bytes) :
    Except AddressError (NetworkType × CryptType × Bytes) :=
  match cryptTypeOf cryptChar with
  | none => .error (.unknownCryptType 0)
  | some cryptType =>
    match decodeString encodeStd raw with
    | none => .error .corruptInput
    | some bytes =>
      (checkPayload H cryptType bytes).map fun payload =>
        (Value netType, cryptType, payload)

def decode (H : Checksum) : Address → Except AddressError (NetworkType × CryptType × Bytes)
  | [] => .ok (.unknown, .unknown, [])
  | netType :: rest =>
    if netType :: rest = UndefAddress then .ok (.unknown, .unknown, [])
    else if netType ≠ 109 ∧ netType ≠ 116 then .error (.unknownNetworkType netType.toNat)
    else
      match rest with
      | [] => .error .indexOutOfRange
      | cryptChar :: raw => readRaw H netType cryptChar raw

theorem length_payloadcksm : (payloadcksm H cryptType payload).length = payload.length + 4 := by
  rw [payloadcksm, length_append, H.length_checksum]
  rfl

theorem checkPayload_ok_iff {bytes : Bytes} :
    checkPayload H cryptType bytes = .ok payload ↔
      payload.length = cryptType.addressLen ∧ bytes = payloadcksm H cryptType payload := by
  simp only [checkPayload]
  constructor
  · intro hok
    split_ifs at hok with hshort hlength hcksm
    cases hok
    rw [not_not] at hlength hcksm
    refine ⟨hlength, ?_⟩
    rw [payloadcksm, hcksm, take_append_drop]
  · rintro ⟨hlength, rfl⟩
    have htotal : (payloadcksm H cryptType payload).length - checksumHashLength =
        payload.length := by
      rw [length_payloadcksm]
      exact Nat.add_sub_cancel _ _
    have htake : (payloadcksm H cryptType payload).take payload.length = payload :=
      take_left
    have hdrop : (payloadcksm H cryptType payload).drop payload.length =
        H.checksum (cryptType.byte :: payload) := drop_left
    have hshort : ¬ (payloadcksm H cryptType payload).length < checksumHashLength := by
      rw [length_payloadcksm, checksumHashLength]
      omega
    rw [if_neg hshort, htotal, htake, hdrop, if_neg (not_not.mpr hlength), if_neg (not_not.mpr rfl)]

variable {letter c netType cryptChar : UInt8}

theorem NetworkType.Value_letter :
    network.letter = some letter ↔
      (letter = 109 ∨ letter = 116) ∧ Value letter = network := by
  constructor
  · intro hletter
    cases network with
    | unknown => cases hletter
    | mainnet =>
      cases hletter
      exact ⟨.inl rfl, rfl⟩
    | testnet =>
      cases hletter
      exact ⟨.inr rfl, rfl⟩
  · rintro ⟨rfl | rfl, rfl⟩ <;> rfl

theorem letter_ne_undef {rest : Bytes} (hletter : network.letter = some letter) :
    letter :: rest ≠ UndefAddress := by
  intro heq
  have hfirst : letter = 60 := (cons.inj heq).1
  rcases (Value_letter.mp hletter).1 with rfl | rfl
  · exact absurd hfirst (by decide)
  · exact absurd hfirst (by decide)

theorem letter_ne_newline (hletter : network.letter = some letter) : letter ≠ 13 ∧ letter ≠ 10 := by
  rcases (Value_letter.mp hletter).1 with rfl | rfl
  · decide
  · decide

theorem cryptTypeOf_eq_some_iff :
    cryptTypeOf c = some cryptType ↔ cryptType ≠ .unknown ∧ c = 48 + cryptType.byte := by
  unfold cryptTypeOf
  constructor
  · intro hc
    split_ifs at hc with hbls hsecp hed
    · cases hc
      exact ⟨by decide, hbls⟩
    · cases hc
      exact ⟨by decide, hsecp⟩
    · cases hc
      exact ⟨by decide, hed⟩
  · rintro ⟨hknown, rfl⟩
    cases cryptType with
    | unknown => exact absurd rfl hknown
    | _ => rfl

theorem readRaw_ok_iff {raw : Bytes} :
    readRaw H netType cryptChar raw = .ok (network, cryptType, payload) ↔
      Value netType = network ∧ cryptType ≠ .unknown ∧
        cryptChar = 48 + cryptType.byte ∧
        decodeString encodeStd raw = some (payloadcksm H cryptType payload) ∧
        payload.length = cryptType.addressLen := by
  unfold readRaw
  constructor
  · intro hok
    cases hcrypt : cryptTypeOf cryptChar with
    | none =>
      rw [hcrypt] at hok
      cases hok
    | some found =>
      cases hraw : decodeString encodeStd raw with
      | none =>
        simp only [hcrypt, hraw] at hok
        cases hok
      | some bytes =>
        simp only [hcrypt, hraw] at hok
        cases hcheck : checkPayload H found bytes with
        | error err =>
          rw [hcheck] at hok
          cases hok
        | ok checked =>
          rw [hcheck] at hok
          cases hok
          obtain ⟨hknown, rfl⟩ := cryptTypeOf_eq_some_iff.mp hcrypt
          obtain ⟨hlength, rfl⟩ := checkPayload_ok_iff.mp hcheck
          exact ⟨rfl, hknown, rfl, rfl, hlength⟩
  · rintro ⟨rfl, hknown, rfl, hraw, hlength⟩
    have hcrypt : cryptTypeOf (48 + cryptType.byte) = some cryptType :=
      cryptTypeOf_eq_some_iff.mpr ⟨hknown, rfl⟩
    have hcheck : checkPayload H cryptType (payloadcksm H cryptType payload) = .ok payload :=
      checkPayload_ok_iff.mpr ⟨hlength, rfl⟩
    simp only [hcrypt, hraw, hcheck]
    rfl

theorem decode_ok_iff :
    decode H a = .ok (network, cryptType, payload) ↔
      ((a = [] ∨ a = UndefAddress) ∧ network = .unknown ∧ cryptType = .unknown ∧ payload = []) ∨
      ∃ letter raw, network.letter = some letter ∧ cryptType ≠ .unknown ∧
        a = letter :: (48 + cryptType.byte) :: raw ∧
        decodeString encodeStd raw = some (payloadcksm H cryptType payload) ∧
        payload.length = cryptType.addressLen := by
  constructor
  · intro hok
    match a with
    | [] =>
      cases hok
      exact .inl ⟨.inl rfl, rfl, rfl, rfl⟩
    | netType :: rest =>
      unfold decode at hok
      dsimp only at hok
      split_ifs at hok with hundef hnet
      · cases hok
        exact .inl ⟨.inr hundef, rfl, rfl, rfl⟩
      match rest with
      | [] => cases hok
      | cryptChar :: raw =>
        obtain ⟨hvalue, hknown, rfl, hraw, hlength⟩ := readRaw_ok_iff.mp hok
        have hletter : netType = 109 ∨ netType = 116 := by
          by_contra hother
          exact hnet (not_or.mp hother)
        exact .inr ⟨netType, raw, Value_letter.mpr ⟨hletter, hvalue⟩, hknown,
          rfl, hraw, hlength⟩
  · rintro (⟨rfl | rfl, rfl, rfl, rfl⟩ | ⟨letter, raw, hletter, hknown, rfl, hraw, hlength⟩)
    · rfl
    · rfl
    · obtain ⟨hnet, hvalue⟩ := Value_letter.mp hletter
      have hnot : ¬ (letter ≠ 109 ∧ letter ≠ 116) :=
        fun hother => hnet.elim hother.1 hother.2
      rw [decode, if_neg (letter_ne_undef hletter), if_neg hnot]
      exact readRaw_ok_iff.mpr ⟨hvalue, hknown, rfl, hraw, hlength⟩

theorem addressLen_pos (hknown : cryptType ≠ .unknown) : 0 < cryptType.addressLen := by
  cases cryptType with
  | unknown => exact absurd rfl hknown
  | _ => decide

theorem addressLen_mod (hknown : cryptType ≠ .unknown) : (cryptType.addressLen + 4) % 5 ≠ 0 := by
  cases cryptType with
  | unknown => exact absurd rfl hknown
  | _ => decide

theorem encode_ok (hletter : network.letter = some letter)
    (hknown : cryptType ≠ .unknown) (hlength : payload.length = cryptType.addressLen) :
    encode H network cryptType payload =
      .ok (letter :: (48 + cryptType.byte) ::
        encodeToString encodeStd (payloadcksm H cryptType payload)) := by
  have hpos := addressLen_pos hknown
  rw [encode, if_neg (by omega), hletter]
  exact if_neg hknown

theorem decode_encode (hnetwork : network ≠ .unknown) (hknown : cryptType ≠ .unknown)
    (hlength : payload.length = cryptType.addressLen) :
    ∃ a, encode H network cryptType payload = .ok a ∧
      decode H a = .ok (network, cryptType, payload) := by
  obtain ⟨letter, hletter⟩ : ∃ letter, network.letter = some letter := by
    cases network with
    | unknown => exact absurd rfl hnetwork
    | mainnet => exact ⟨109, rfl⟩
    | testnet => exact ⟨116, rfl⟩
  refine ⟨_, encode_ok hletter hknown hlength, decode_ok_iff.mpr (.inr ?_)⟩
  exact ⟨letter, _, hletter, hknown, rfl, decodeString_encodeToString, hlength⟩

structure Canonical (a : Address) : Prop where
  defined : a ≠ [] ∧ a ≠ UndefAddress
  newlines : ∀ c ∈ a, c ≠ 13 ∧ c ≠ 10
  unused : UnusedZero ((a.drop 2).map encodeStd.value)

theorem encode_eq_iff (hok : decode H a = .ok (network, cryptType, payload)) :
    encode H network cryptType payload = .ok a ↔ Canonical a := by
  rcases decode_ok_iff.mp hok with ⟨hnone, rfl, rfl, rfl⟩ |
    ⟨letter, raw, hletter, hknown, rfl, hraw, hlength⟩
  · constructor
    · intro hencode
      cases hencode
    · rintro ⟨⟨hnil, hundef⟩, _, _⟩
      exact absurd hnone (not_or.mpr ⟨hnil, hundef⟩)
  · have hwhole := whole_of_decodeString hraw (by
      rw [length_payloadcksm, hlength]
      exact addressLen_mod hknown)
    have htext := encodeToString_eq_iff hraw hwhole
    rw [stripNewlines_eq_self_iff] at htext
    rw [encode_ok hletter hknown hlength]
    constructor
    · intro hencode
      injection hencode with hencode
      injection hencode with _ hencode
      injection hencode with _ hencode
      obtain ⟨hnewlines, hunused⟩ := htext.mp hencode
      refine ⟨⟨cons_ne_nil _ _, ?_⟩, ?_, hunused⟩
      · exact letter_ne_undef hletter
      intro c hc
      rcases mem_cons.mp hc with rfl | hc
      · exact letter_ne_newline hletter
      rcases mem_cons.mp hc with rfl | hc
      · cases cryptType <;> decide
      · exact hnewlines c hc
    · rintro ⟨_, hnewlines, hunused⟩
      have hraw' : ∀ c ∈ raw, c ≠ 13 ∧ c ≠ 10 := fun c hc =>
        hnewlines c (mem_cons_of_mem _ (mem_cons_of_mem _ hc))
      rw [htext.mpr ⟨hraw', hunused⟩]

/-- **The codec of the addresses.** A constructed address is read back, and an accepted text is the
constructed address of what it is read as exactly when it is canonical. -/
theorem addressCodec_iff (H : Checksum) :
    (∀ network cryptType payload, network ≠ .unknown → cryptType ≠ .unknown →
      payload.length = cryptType.addressLen → ∃ a, encode H network cryptType payload = .ok a ∧
          decode H a = .ok (network, cryptType, payload)) ∧
    ∀ a network cryptType payload, decode H a = .ok (network, cryptType, payload) →
      (encode H network cryptType payload = .ok a ↔ Canonical a) :=
  ⟨fun _ _ _ => decode_encode,
    fun _ _ _ _ => encode_eq_iff⟩

def zeroChecksum : Checksum where
  checksum _ := replicate 4 0
  length_checksum _ := rfl

/-- The second text ends in a line break, the third has other unused bits. -/
theorem three_texts_of_one_payload :
    decode zeroChecksum (ascii "t2ttttttttttttttttttttttttttttttttttttttt") =
        .ok (.testnet, .secp256, replicate 20 0) ∧
      decode zeroChecksum (ascii "t2ttttttttttttttttttttttttttttttttttttttt" ++ [10]) =
        .ok (.testnet, .secp256, replicate 20 0) ∧
      decode zeroChecksum (ascii "t2tttttttttttttttttttttttttttttttttttttto") =
        .ok (.testnet, .secp256, replicate 20 0) := by
  decide +kernel

end Codec

section Contract

variable {H : Checksum} {network : NetworkType} {a : Address}

def IsValid (H : Checksum) (a : Address) (netType : NetworkType) : Option Bool :=
  match decode H a with
  | .error .indexOutOfRange => none
  | .error _ => some false
  | .ok (nType, _, _) => some (nType == netType)

theorem IsValid_eq_true_iff :
    IsValid H a network = some true ↔
      ∃ cryptType payload, decode H a = .ok (network, cryptType, payload) := by
  unfold IsValid
  constructor
  · intro hvalid
    split at hvalid
    · cases hvalid
    · cases hvalid
    · rename_i nType cryptType payload hok
      have heq : nType = network := by simpa using hvalid
      exact ⟨cryptType, payload, heq ▸ hok⟩
  · rintro ⟨cryptType, payload, hok⟩
    rw [hok]
    simp

def CreateNativeContractAddress (CurrentNetworkType : NetworkType) (id : UInt64) : Address :=
  match CurrentNetworkType.letter with
  | none => UndefAddress
  | some ntwPrefix =>
    ntwPrefix :: 48 ::
      encodeToString encodeStd (replicate 12 0 ++ Chain.bigEndian64 id.toNat)

end Contract

section Hex

def AddressLen_ETH : Nat := 20

def Has0xPrefix (str : Bytes) : Bool :=
  match str with
  | c :: d :: _ => c == 48 && (d == 120 || d == 88)
  | _ => false

def IsHexCharacter (c : UInt8) : Bool :=
  (48 ≤ c && c ≤ 57) || (97 ≤ c && c ≤ 102) || (65 ≤ c && c ≤ 70)

def IsHex (str : Bytes) : Bool :=
  str.length % 2 == 0 && str.all IsHexCharacter

/-- Hexadecimal without `0x`, of one of three lengths; that of a BLS key is not
doubled. -/
def IsHexs (a : Address) : Bool :=
  let t := if Has0xPrefix a then a.drop 2 else a
  (t.length == 2 * AddressLen_ETH || t.length == 2 * AddressLen_Secp256 ||
    t.length == AddressLen_BLS12381) && IsHex t

def hexEncode (b : Bytes) : Bytes :=
  b.flatMap fun c => [c / 16, c % 16].map fun d => if d < 10 then d + 48 else d + 87

/-- `HexString`; `none` is the panic on less than two characters. -/
def HexString (a : Address) : Option Bytes :=
  if IsHexs a then some a
  else
    match a with
    | c :: d :: rest => some (formatUint c.toNat ++ formatUint d.toNat ++ hexEncode rest)
    | _ => none

end Hex

section Methods

variable {α : Type} {H : Checksum} {a : Address}

inductive MethodError where
  | lenZero
  | decode (err : AddressError)
deriving DecidableEq, Repr

def Address.fromDecode (H : Checksum) (a : Address)
    (f : NetworkType × CryptType × Bytes → α) : Option (Except MethodError α) :=
  match decode H a with
  | .error .indexOutOfRange => none
  | .error err => some (.error (.decode err))
  | .ok decoded => some (.ok (f decoded))

def Address.fromNonempty (H : Checksum) (a : Address)
    (f : NetworkType × CryptType × Bytes → α) : Option (Except MethodError α) :=
  if a.length = 0 then some (.error .lenZero) else a.fromDecode H f

def Address.NetworkType (H : Checksum) (a : Address) :
    Option (Except MethodError NetworkType) :=
  a.fromNonempty H fun (netType, _, _) => netType

def Address.CryptType (H : Checksum) (a : Address) : Option (Except MethodError CryptType) :=
  a.fromNonempty H fun (_, cryptType, _) => cryptType

def Address.Payload (H : Checksum) (a : Address) : Option (Except MethodError Bytes) :=
  a.fromNonempty H fun (_, _, pLoad) => pLoad

/-- Hexadecimal characters without `0x`, or as many characters as an address. -/
def IsEth (a : Bytes) : Bool :=
  let t := if Has0xPrefix a then a.drop 2 else a
  (t.length == 2 * AddressLen_ETH && IsHex t) || t.length == AddressLen_ETH

theorem checkPayload_ne_panic {cryptType : CryptType} {bytes : Bytes} :
    checkPayload H cryptType bytes ≠ .error .indexOutOfRange := by
  intro hpanic
  rw [checkPayload] at hpanic
  dsimp only at hpanic
  split_ifs at hpanic
  all_goals cases hpanic

theorem readRaw_ne_panic {netType cryptChar : UInt8} {raw : Bytes} :
    readRaw H netType cryptChar raw ≠ .error .indexOutOfRange := by
  intro hpanic
  unfold readRaw at hpanic
  cases hcrypt : cryptTypeOf cryptChar with
  | none =>
    rw [hcrypt] at hpanic
    cases hpanic
  | some cryptType =>
    cases hraw : Lib.Base32.decodeString encodeStd raw with
    | none =>
      simp only [hcrypt, hraw] at hpanic
      cases hpanic
    | some bytes =>
      simp only [hcrypt, hraw] at hpanic
      cases hcheck : checkPayload H cryptType bytes with
      | error err =>
        rw [hcheck] at hpanic
        injection hpanic with herr
        exact checkPayload_ne_panic (hcheck.trans (congrArg Except.error herr))
      | ok payload =>
        rw [hcheck] at hpanic
        cases hpanic

theorem decode_panics_iff :
    decode H a = .error .indexOutOfRange ↔ a = ascii "m" ∨ a = ascii "t" := by
  constructor
  · intro hpanic
    match a with
    | [] => cases hpanic
    | netType :: rest =>
      unfold decode at hpanic
      dsimp only at hpanic
      split_ifs at hpanic with hundef hnet
      · cases hpanic
      match rest with
      | cryptChar :: raw => exact absurd hpanic readRaw_ne_panic
      | [] =>
        have hletter : netType = 109 ∨ netType = 116 := by
          by_contra hother
          exact hnet (not_or.mp hother)
        rcases hletter with rfl | rfl
        · exact .inl rfl
        · exact .inr rfl
  · rintro (rfl | rfl) <;> rfl

theorem fromDecode_eq_none_iff {f : NetworkType × CryptType × Bytes → α} :
    a.fromDecode H f = none ↔ a = ascii "m" ∨ a = ascii "t" := by
  rw [← decode_panics_iff (H := H), Address.fromDecode]
  constructor
  · intro hnone
    split at hnone
    · assumption
    · cases hnone
    · cases hnone
  · intro hpanic
    rw [hpanic]

theorem fromNonempty_eq_none_iff {f : NetworkType × CryptType × Bytes → α} :
    a.fromNonempty H f = none ↔ a = ascii "m" ∨ a = ascii "t" := by
  rw [Address.fromNonempty]
  split_ifs with hlength
  · have hnil : a = [] := List.eq_nil_of_length_eq_zero hlength
    subst hnil
    exact iff_of_false (by simp) (by decide)
  · exact fromDecode_eq_none_iff

theorem IsValid_eq_none_iff (network : NetworkType) :
    IsValid H a network = none ↔ a = ascii "m" ∨ a = ascii "t" := by
  rw [← decode_panics_iff (H := H), IsValid]
  constructor
  · intro hnone
    split at hnone
    · assumption
    · cases hnone
    · cases hnone
  · intro hpanic
    rw [hpanic]

theorem HexString_panics_iff : HexString a = none ↔ a.length < 2 := by
  unfold HexString
  match a with
  | [] => exact iff_of_true rfl (by decide)
  | [c] =>
    refine iff_of_true ?_ (by simp)
    simp [IsHexs, Has0xPrefix, AddressLen_ETH, AddressLen_Secp256, AddressLen_BLS12381]
  | c :: d :: rest =>
    refine iff_of_false ?_ (by simp)
    split_ifs <;> simp

end Methods

end Topia.Crypt
