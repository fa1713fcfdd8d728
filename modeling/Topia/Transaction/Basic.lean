import Topia.Lib.ProtoWire
import Topia.Transaction.Transfer

/-!
# Transactions as bytes

`Transaction` of `transaction/basic` with its wire format, size and identifier, the hexadecimal text
of the Blake2b hash of the bytes; the hash is taken to have no collisions.
-/

namespace Topia

/-- `Transaction` with both parts; the nonce is a `uint64`. -/
structure Transaction where
  Head : Transaction.TransactionHead
  Specification : Bytes
  nonce_lt : Head.Nonce < 2 ^ 64
deriving DecidableEq, Repr

namespace Transaction

open Lib

def TransactionCategory_Topia_Universal : Bytes := ascii "topia_universal"

open ProtoWire

def TransactionHead.fields (h : TransactionHead) : List Field :=
  [⟨1, .bytes h.Category⟩, ⟨2, .bytes h.ChainID⟩, ⟨3, .number h.Version⟩,
    ⟨4, .number h.TimeStamp⟩, ⟨5, .number h.Index⟩, ⟨6, .bytes h.FromAddr⟩,
    ⟨7, .number h.Nonce⟩, ⟨8, .bytes h.Signature⟩]

/-- The hash text of a transaction, and `TransactionUniversal.Unmarshal`, whose head can be
missing. -/
structure TxCodec where
  hashHex : Bytes → Bytes
  hashHex_injective : Function.Injective hashHex
  unmarshalUni : Bytes → Option (Option TransactionUniversalHead)

variable {T : TxCodec} {tx tx' : Transaction}

def fields (tx : Transaction) : List Field :=
  [⟨1, .message (some (encode tx.Head.fields))⟩,
    ⟨2, .message (some (encode [⟨1, .bytes tx.Specification⟩]))⟩]

def TxBytes (tx : Transaction) : Bytes :=
  encode tx.fields

def Size (tx : Transaction) : Nat :=
  tx.TxBytes.length

def TxID (T : TxCodec) (tx : Transaction) : Bytes :=
  T.hashHex tx.TxBytes

theorem head_and_data_inj
    {head head' : List Field} {spec spec' : Bytes}
    (hshape : SameShape head head') (hnodup : (head.map Field.num).Nodup)
    (heq : encode [⟨1, .message (some (encode head))⟩,
        ⟨2, .message (some (encode [⟨1, .bytes spec⟩]))⟩] =
      encode [⟨1, .message (some (encode head'))⟩,
        ⟨2, .message (some (encode [⟨1, .bytes spec'⟩]))⟩]) :
    head = head' ∧ spec = spec' := by
  have hfields := encode_inj
    (by simp [SameShape, Value.SameKind]) (by simp) heq
  simp only [List.cons.injEq, Field.mk.injEq, Value.message.injEq,
    Option.some.injEq, true_and, and_true] at hfields
  obtain ⟨hhead, hdata⟩ := hfields
  have hdata' := encode_inj
    (by simp [SameShape, Value.SameKind]) (by simp) hdata
  simp only [List.cons.injEq, Field.mk.injEq, Value.bytes.injEq, true_and, and_true] at hdata'
  exact ⟨encode_inj hshape hnodup hhead, hdata'⟩

theorem TxBytes_inj (heq : tx.TxBytes = tx'.TxBytes) : tx = tx' := by
  obtain ⟨hhead, hspec⟩ := head_and_data_inj
    (by simp [SameShape, TransactionHead.fields, Value.SameKind])
    (by simp [TransactionHead.fields]) heq
  obtain ⟨⟨c, ci, v, t, i, a, n, s⟩, spec, hn⟩ := tx
  obtain ⟨⟨c', ci', v', t', i', a', n', s'⟩, spec', hn'⟩ := tx'
  obtain ⟨rfl, rfl, rfl, rfl, rfl, rfl, rfl, rfl⟩ := hhead
  obtain rfl : spec = spec' := hspec
  rfl

theorem TxID_inj (heq : tx.TxID T = tx'.TxID T) : tx = tx' :=
  TxBytes_inj (T.hashHex_injective heq)

variable (ok : Bool) (h : TransactionUniversalHead)

def TransactionUniversalHead.fields : List Field :=
  [⟨1, .number h.Version⟩, ⟨2, .bytes h.FeePayer⟩, ⟨3, .number h.GasPrice⟩,
    ⟨4, .number h.GasLimit⟩, ⟨5, .number h.Type_⟩, ⟨6, .bytes h.FeePayerSignature⟩,
    ⟨7, .number h.Options⟩]

def marshalUniversal (data : Bytes) : Bytes :=
  encode [⟨1, .message (some (encode h.fields))⟩, ⟨2, .message (some (encode [⟨1, .bytes data⟩]))⟩]

theorem marshalUniversal_inj {h h' : TransactionUniversalHead} {data data' : Bytes}
    (heq : marshalUniversal h data = marshalUniversal h' data') : h = h' := by
  obtain ⟨hfields, -⟩ := head_and_data_inj
    (by simp [SameShape, TransactionUniversalHead.fields, Value.SameKind])
    (by simp [TransactionUniversalHead.fields]) heq
  obtain ⟨v, p, g, l, t, s, o⟩ := h
  obtain ⟨v', p', g', l', t', s', o'⟩ := h'
  obtain ⟨rfl, rfl, rfl, rfl, rfl, rfl, rfl⟩ := hfields
  rfl

inductive VerifyResult where
  | accept
  | reject
  | ignore
deriving DecidableEq, Repr

def acceptIf : Option VerifyResult :=
  some (if ok then .accept else .reject)

@[simp] theorem acceptIf_ne_ignore : acceptIf ok ≠ some .ignore := by
  cases ok <;> simp [acceptIf]

theorem acceptIf_accept {ok : Bool} (haccept : acceptIf ok = some .accept) : ok = true := by
  cases ok with
  | false => simp [acceptIf] at haccept
  | true => rfl

/-- Bytes are their own hash, the gas price is the length of the specification. -/
def plainCodec : TxCodec where
  hashHex := id
  hashHex_injective := Function.injective_id
  unmarshalUni := fun spec => some (some ⟨1, [], spec.length, 0, 0, [], 0⟩)

-- for the literals of the nonces
instance : NeZero 64 :=
  ⟨by decide⟩

def plainTx (fromAddr : UInt8) (nonce : Fin 64) (gasPrice : Nat) : Transaction where
  Head := ⟨TransactionCategory_Topia_Universal, [], 1, 0, 0, [fromAddr], nonce, []⟩
  Specification := List.replicate gasPrice 0
  nonce_lt := Nat.lt_trans nonce.isLt (by decide)

end Transaction
end Topia
