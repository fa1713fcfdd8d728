import Topia.Common
import Topia.Lib.ProtoWire

/-!
# Blocks, consensus proofs and their encodings

The messages of `chain/types/block.proto` and the two codecs' views of them. `codec/proto` marshals
an object only when it has the methods of a message itself: pointers to messages have them, messages
by value and pointers to pointers are refused (`Marshaler`).

A byte slice that is compared with nil is an `Option`; on the wire nil and empty are the same.
-/

namespace Topia.Chain

open Lib

def BLOCK_VER : Nat := 1

structure ConsensusProof where
  ParentBlockHash : Bytes
  Height : Nat
  AggSign : Bytes
deriving DecidableEq, Repr

structure BlockHead where
  ChainID : Bytes
  (Version Height Epoch Round : Nat)
  (ParentBlockHash Proposer Proof VRFProof : Option Bytes)
  VRFProofHeight : Nat
  MaxPri : Bytes
  VoteAggSignature : Option Bytes
  ChunkCount : Nat
  HeadChunks : List Bytes
  StateRoot : Bytes
  TimeStamp : Nat
deriving DecidableEq, Repr

structure Block where
  Head : BlockHead
  Data : Bytes
deriving DecidableEq, Repr

variable (height : Nat) (h : BlockHead) (p : ConsensusProof)

/-- The head and the block of a height, for examples. -/
def emptyHead : BlockHead :=
  ⟨[], BLOCK_VER, height, 0, 0, none, none, none, none, 0, [], none, 0, [], [], 0⟩

def emptyBlock : Block :=
  ⟨emptyHead height, []⟩

open ProtoWire

def ConsensusProof.fields : List Field :=
  [⟨1, .bytes p.ParentBlockHash⟩, ⟨2, .number p.Height⟩, ⟨3, .bytes p.AggSign⟩]

def ConsensusProof.Marshal : Bytes :=
  encode p.fields

def BlockHead.fields : List Field :=
  [⟨1, .bytes h.ChainID⟩, ⟨2, .number h.Version⟩, ⟨3, .number h.Height⟩,
    ⟨4, .number h.Epoch⟩, ⟨5, .number h.Round⟩, ⟨6, .bytes (h.ParentBlockHash.getD [])⟩,
    ⟨7, .bytes (h.Proposer.getD [])⟩, ⟨8, .bytes (h.Proof.getD [])⟩,
    ⟨9, .bytes (h.VRFProof.getD [])⟩, ⟨10, .number h.VRFProofHeight⟩, ⟨11, .bytes h.MaxPri⟩,
    ⟨12, .bytes (h.VoteAggSignature.getD [])⟩, ⟨13, .number h.ChunkCount⟩] ++
  h.HeadChunks.map (fun chunk => ⟨14, .message (some chunk)⟩) ++
  [⟨15, .bytes h.StateRoot⟩, ⟨17, .number h.TimeStamp⟩]

def BlockHead.Marshal : Bytes :=
  encode h.fields

structure BlockHeadChunk where
  Version : Nat
  (DomainID Launcher : Bytes)
  TxCount : Nat
  (TxRoot TxResultRoot : Bytes)
deriving DecidableEq, Repr

def BlockHeadChunk.Marshal (c : BlockHeadChunk) : Bytes :=
  encode
    [⟨1, .number c.Version⟩, ⟨2, .bytes c.DomainID⟩, ⟨3, .bytes c.Launcher⟩,
      ⟨4, .number c.TxCount⟩, ⟨5, .bytes c.TxRoot⟩, ⟨6, .bytes c.TxResultRoot⟩]

inductive Passed where
  | value
  | pointer
  | pointerToPointer
deriving DecidableEq, Repr

structure Marshaler where
  marshalProof : Passed → ConsensusProof → Option Bytes
  marshalHead : Passed → BlockHead → Option Bytes

/-- `MarshalProto`, the codec the nodes are created with. -/
def marshalProto : Marshaler where
  marshalProof
    | .pointer, p => some p.Marshal
    | _, _ => none
  marshalHead
    | .pointer, h => some h.Marshal
    | _, _ => none

def bigEndian64 (n : Nat) : Bytes :=
  (List.range 8).map (fun i => UInt8.ofNat (n / 256 ^ (7 - i) % 256))

def vrfInput (blake2b : Bytes → Bytes) (epoch proposeHeight : Nat) (csProofBytes : Bytes) : Bytes :=
  blake2b (bigEndian64 epoch ++ bigEndian64 proposeHeight ++ csProofBytes)

theorem ConsensusProof.Marshal_inj {p q : ConsensusProof} (heq : p.Marshal = q.Marshal) :
    p = q := by
  have hfields : p.fields = q.fields := by
    refine encode_inj ?_ ?_ heq
    · simp [SameShape, ConsensusProof.fields, Value.SameKind]
    · simp [ConsensusProof.fields]
  obtain ⟨h, n, s⟩ := p
  obtain ⟨h', n', s'⟩ := q
  simp only [ConsensusProof.fields, List.cons.injEq, Field.mk.injEq,
    Value.number.injEq, Value.bytes.injEq, true_and, and_true] at hfields
  simpa using hfields

theorem BlockHead.Height_of_Marshal {h h' : BlockHead} (heq : h.Marshal = h'.Marshal) :
    h.Height = h'.Height := by
  obtain ⟨-, hrest⟩ := encode_cons_inj heq rfl trivial (by simp) (by simp)
  obtain ⟨-, hrest⟩ := encode_cons_inj hrest rfl trivial (by simp) (by simp)
  obtain ⟨hfield, -⟩ := encode_cons_inj hrest rfl trivial (by simp) (by simp)
  injection hfield with _ hvalue
  injection hvalue

end Topia.Chain
