import Topia.Common
import Mathlib.Data.List.Nodup

/-!
# Threshold signatures of the consensus participants

`consensus/dkg.go` signs, verifies and recovers threshold signatures with the distributed key of an
epoch. `DKGBls` is the interface of `dkg_bls.go` with the documented behaviour of the library: a
share carries the index of its participant, only participants make shares that verify, and
`RecoverSig` verifies as many shares as the threshold asks for, of different participants.
-/

namespace Topia.Consensus

def dkgThreshold (nParticipant : Nat) : Nat :=
  2 * nParticipant / 3 + 1

theorem dkgThreshold_pos (nParticipant : Nat) : 0 < dkgThreshold nParticipant := by
  simp [dkgThreshold]

structure DKGBls where
  nParticipant : Nat
  PubKey : Option Bytes
  /-- The participant a share belongs to. -/
  index : Bytes → Nat
  /-- A share and the public key: `none` is an error. -/
  Sign : Bytes → Option (Bytes × Bytes)
  Verify : Bytes → Bytes → Bool
  RecoverSig : Bytes → List Bytes → Option Bytes
  index_lt : ∀ msg sig, Verify msg sig = true → index sig < nParticipant
  verify_sign : ∀ msg sig pubKey, Sign msg = some (sig, pubKey) → Verify msg sig = true
  recoverSig_isSome_iff :
    ∀ msg sigs, (RecoverSig msg sigs).isSome = true ↔
      dkgThreshold nParticipant ≤ sigs.length ∧
      (∀ sig ∈ sigs.take (dkgThreshold nParticipant), Verify msg sig = true) ∧
      ((sigs.take (dkgThreshold nParticipant)).map index).Nodup

namespace DKGBls

def Threshold (d : DKGBls) : Nat :=
  dkgThreshold d.nParticipant

def plain (nParticipant self : Nat) (hself : self < nParticipant) (hsmall : nParticipant ≤ 256) :
    DKGBls where
  nParticipant := nParticipant
  PubKey := some []
  index := fun sig => (sig.headD 0).toNat
  Sign := fun msg => some (UInt8.ofNat self :: msg, [])
  Verify := fun msg sig => decide ((sig.headD 0).toNat < nParticipant ∧ sig.tail = msg)
  RecoverSig := fun msg sigs =>
    if dkgThreshold nParticipant ≤ sigs.length ∧
        (∀ sig ∈ sigs.take (dkgThreshold nParticipant),
          decide ((sig.headD 0).toNat < nParticipant ∧ sig.tail = msg) = true) ∧
        ((sigs.take (dkgThreshold nParticipant)).map (fun sig => (sig.headD 0).toNat)).Nodup then
      some msg
    else none
  index_lt := by
    intro msg sig hverify
    exact (of_decide_eq_true hverify).1
  verify_sign := by
    intro msg sig pubKey hsign
    cases hsign
    have hlt : self < 256 := by omega
    simp [Nat.mod_eq_of_lt hlt, hself]
  recoverSig_isSome_iff := by
    intro msg sigs
    split_ifs with hgood
    · simpa using hgood
    · simpa using hgood

end DKGBls

end Topia.Consensus
