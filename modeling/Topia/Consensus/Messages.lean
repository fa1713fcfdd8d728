import Topia.Chain.Types

/-!
# Consensus messages

The messages of `consensus/proto/message_cons.proto` that the proposer and the
validator exchange, with the fields these two read or fill in.
-/

namespace Topia.Consensus

def CONSENSUS_VER : Nat := 1

structure PreparePackedMessageProp where
  (Launcher TxRoot TxResultRoot : Bytes)
  (TxHashs TxResultHashs : List Bytes)
deriving DecidableEq, Repr

structure PreparePackedMessagePropMap where
  StateVersion : Nat
  PPMProps : List (Bytes × PreparePackedMessageProp)
deriving DecidableEq, Repr

structure PropData where
  Version : Nat
  DomainID : Bytes
  (TxHashs TxResultHashs : List Bytes)
deriving DecidableEq, Repr

def PropData.Marshal (d : PropData) : Bytes :=
  Lib.ProtoWire.encode
    ([⟨1, .number d.Version⟩, ⟨2, .bytes d.DomainID⟩] ++
      d.TxHashs.map (fun h => ⟨3, .message (some h)⟩) ++
      d.TxResultHashs.map (fun h => ⟨4, .message (some h)⟩))

structure ProposeMessage where
  ChainID : Bytes
  (Version Epoch Round StateVersion : Nat)
  (MaxPri Proposer : Bytes)
  PropDatas : List Bytes
  BlockHead : Bytes
deriving DecidableEq, Repr

structure BestProposeMessage where
  ChainID : Bytes
  (Version Epoch Round StateVersion : Nat)
  (MaxPri Proposer PropMsgData : Bytes)
deriving DecidableEq, Repr

structure VoteMessage where
  ChainID : Bytes
  (Version Epoch Round : Nat)
  (Signature Voter PubKey : Bytes)
  StateVersion : Nat
  BlockHead : Bytes
deriving DecidableEq, Repr

structure CommitMessage where
  ChainID : Bytes
  (Version Epoch Round StateVersion : Nat)
  BlockHead : Bytes
deriving DecidableEq, Repr

def produceVoteMsg (nodeID : Bytes) (msg : ProposeMessage) : VoteMessage where
  ChainID := msg.ChainID
  Version := CONSENSUS_VER
  Epoch := msg.Epoch
  Round := msg.Round
  Signature := []
  Voter := nodeID
  PubKey := []
  StateVersion := msg.StateVersion
  BlockHead := msg.BlockHead

end Topia.Consensus
