import Topia.Lib.Framing
import Topia.Consensus.Epoch
import Topia.Consensus.ResultValidation

/-!
# The bytes that are signed

The sender of a consensus message signs some of its fields, one after the other
(`consensus/message_cons.go`): nothing says where one ends, and the role and the weight of a member
are not signed. A signature is then also one of another message.
-/

namespace Topia.Consensus

open Lib

structure PreparePackedMessageExe where
  ChainID : Bytes
  (Epoch Round : Nat)
  (DomainID Launcher : Bytes)
  StateVersion : Nat
  TxRoot : Bytes
  Txs : List Bytes
deriving DecidableEq, Repr

structure PreparePackedMessageExeIndication where
  ChainID : Bytes
  (Epoch Round : Nat)
  DomainID : Bytes
  StateVersion : UInt64
deriving DecidableEq, Repr

structure ExeResultValidateReqMessage where
  ChainID : Bytes
  (Version Epoch Round : Nat)
  Validator : Bytes
  StateVersion : Nat
  (TxHashs TxResultHashs : List Bytes)
deriving DecidableEq, Repr

open List

section SignedBytes

def bigEndian32 (n : UInt32) : Bytes :=
  (range 4).map (fun i => UInt8.ofNat (n.toNat / 256 ^ (3 - i) % 256))

def ConsensusDomainSelectedMessage.DataBytes (m : ConsensusDomainSelectedMessage) : Bytes :=
  m.DomainID ++ bigEndian32 m.MemberNumber ++ m.NodeIDOfMember

variable (dataBytes : Bytes) (elements : List Bytes)

def appendAll : Bytes :=
  elements.foldl (fun acc element => acc ++ element) dataBytes

def PreparePackedMessageExe.TxsData (m : PreparePackedMessageExe) : Bytes :=
  appendAll [] m.Txs

def PreparePackedMessageExeIndication.DataBytes (m : PreparePackedMessageExeIndication) : Bytes :=
  Chain.bigEndian64 m.StateVersion.toNat

def PreparePackedMessageProp.TxHashsData (m : PreparePackedMessageProp) : Bytes :=
  appendAll [] m.TxHashs

def ExeResultValidateReqMessage.TxAndResultHashsData (m : ExeResultValidateReqMessage) : Bytes :=
  appendAll (appendAll [] m.TxHashs) m.TxResultHashs

def ExeResultValidateRespMessage.TxAndResultProofsData (m : ExeResultValidateRespMessage) : Bytes :=
  appendAll (appendAll [] m.TxProofs) m.TxResultProofs

theorem appendAll_eq : appendAll dataBytes elements = dataBytes ++ elements.flatten := by
  unfold appendAll
  induction elements generalizing dataBytes with
  | nil => simp
  | cons element elements ih => simp [ih]

end SignedBytes

section Covered

variable {M C : Type}

/-- Messages of a class that differ in what a receiver acts on have different signed bytes. -/
def CoveredOn (P : M → Prop) (content : M → C) (signed : M → Bytes) : Prop :=
  ∀ m m', P m → P m' → content m ≠ content m' → signed m ≠ signed m'

variable {signed : M → Bytes}

theorem coveredOn_iff {P : M → Prop} {content : M → C} :
    CoveredOn P content signed ↔
      ∀ m m', P m → P m' → signed m = signed m' → content m = content m' := by
  refine forall_congr' fun m => forall_congr' fun m' => ?_
  exact imp_congr_right fun _ => imp_congr_right fun _ => not_imp_not

theorem covered_lists_iff (content : M → List Bytes)
    (hsigned : ∀ m, signed m = appendAll [] (content m))
    (hcontent : Function.Surjective content) {S : Set Nat} :
    CoveredOn (fun m => SizesIn S (content m)) content signed ↔ S.Subsingleton ∧ 0 ∉ S := by
  rw [coveredOn_iff, ← flatten_injOn_iff (α := UInt8)]
  constructor
  · intro hcovered xs ys hxs hys heq
    obtain ⟨m, rfl⟩ := hcontent xs
    obtain ⟨m', rfl⟩ := hcontent ys
    refine hcovered m m' hxs hys ?_
    rw [hsigned, hsigned, appendAll_eq, appendAll_eq, heq]
  · intro hinj m m' hm hm' heq
    rw [hsigned, hsigned, appendAll_eq, appendAll_eq] at heq
    exact hinj _ _ hm hm' heq

theorem covered_pairs_iff (content : M → List Bytes × List Bytes)
    (hsigned : ∀ m, signed m = appendAll (appendAll [] (content m).1) (content m).2)
    (hcontent : Function.Surjective content) {S : Set Nat} :
    CoveredOn (fun m => (content m).1.length = (content m).2.length ∧
        SizesIn S ((content m).1 ++ (content m).2)) content signed ↔
      S.Subsingleton ∧ 0 ∉ S := by
  rw [coveredOn_iff, ← flatten_pair_injOn_iff (α := UInt8)]
  constructor
  · intro hcovered xs xs' ys ys' hxs hxsS hys hysS heq
    obtain ⟨m, hm⟩ := hcontent (xs, xs')
    obtain ⟨m', hm'⟩ := hcontent (ys, ys')
    have hpair := hcovered m m' (by rw [hm]; exact ⟨hxs, hxsS⟩) (by rw [hm']; exact ⟨hys, hysS⟩) ?_
    · rw [hm, hm'] at hpair
      exact Prod.mk.inj hpair
    · simp only [hsigned, hm, hm', appendAll_eq, nil_append]
      exact heq
  · intro hinj m m' hm hm' heq
    simp only [hsigned, appendAll_eq, nil_append] at heq
    obtain ⟨hfst, hsnd⟩ := hinj _ _ _ _ hm.1 hm.2 hm'.1 hm'.2 heq
    exact Prod.ext hfst hsnd

end Covered

section Numbers

theorem toNat_ofNat_mod (n : Nat) : (UInt8.ofNat (n % 256)).toNat = n % 256 := by
  exact Nat.mod_mod n 256

theorem mod_eq_of_bytes {k n m : Nat}
    (heq : (range k).map (fun i => UInt8.ofNat (n / 256 ^ (k - 1 - i) % 256)) =
      (range k).map (fun i => UInt8.ofNat (m / 256 ^ (k - 1 - i) % 256))) :
    n % 256 ^ k = m % 256 ^ k := by
  refine mod_pow_eq_of_digits fun i hi => ?_
  have hbyte := map_inj_left.mp heq (k - 1 - i) (mem_range.mpr (by omega))
  have hnat := congrArg UInt8.toNat hbyte
  rw [toNat_ofNat_mod, toNat_ofNat_mod, show k - 1 - (k - 1 - i) = i by omega] at hnat
  exact hnat

theorem bigEndian32_injective : Function.Injective bigEndian32 := by
  intro n m heq
  have hmod : n.toNat % 2 ^ 32 = m.toNat % 2 ^ 32 := mod_eq_of_bytes (k := 4) heq
  rw [Nat.mod_eq_of_lt n.toNat_lt, Nat.mod_eq_of_lt m.toNat_lt] at hmod
  exact UInt32.toNat_inj.mp hmod

@[simp] theorem length_bigEndian32 (n : UInt32) : (bigEndian32 n).length = 4 := by
  rw [bigEndian32, length_map, length_range]

theorem bigEndian64_toNat_injective :
    Function.Injective fun n : UInt64 => Chain.bigEndian64 n.toNat := by
  intro n m heq
  have hmod : n.toNat % 2 ^ 64 = m.toNat % 2 ^ 64 := mod_eq_of_bytes (k := 8) heq
  rw [Nat.mod_eq_of_lt n.toNat_lt, Nat.mod_eq_of_lt m.toNat_lt] at hmod
  exact UInt64.toNat_inj.mp hmod

end Numbers

open ConsensusDomainSelectedMessage

section DomainSelected

def ConsensusDomainSelectedMessage.content (m : ConsensusDomainSelectedMessage) :
    Bytes × UInt32 × Bytes × UInt64 × UInt64 :=
  (m.DomainID, m.MemberNumber, m.NodeIDOfMember, m.NodeRoleOfMember, m.NodeWeightOfMember)

theorem dataBytes_eq_iff {m m' : ConsensusDomainSelectedMessage}
    (hlength : m.DomainID.length = m'.DomainID.length) :
    m.DataBytes = m'.DataBytes ↔
      m.DomainID = m'.DomainID ∧ m.MemberNumber = m'.MemberNumber ∧
        m.NodeIDOfMember = m'.NodeIDOfMember := by
  constructor
  · intro heq
    obtain ⟨hfront, hnode⟩ := append_inj heq (by simp [hlength])
    obtain ⟨hdomain, hnumber⟩ := append_inj hfront hlength
    exact ⟨hdomain, bigEndian32_injective hnumber, hnode⟩
  · rintro ⟨hdomain, hnumber, hnode⟩
    unfold DataBytes
    rw [hdomain, hnumber, hnode]

variable (domainSize nodeSize : Nat) (role weight : UInt64)

def zeroMessage : ConsensusDomainSelectedMessage where
  ChainID := []
  Version := 0
  DomainID := replicate domainSize 0
  MemberNumber := 0
  NodeIDOfMember := replicate nodeSize 0
  NodeRoleOfMember := role
  NodeWeightOfMember := weight

theorem dataBytes_zeroMessage :
    (zeroMessage domainSize nodeSize role weight).DataBytes =
      replicate (domainSize + 4 + nodeSize) 0 := by
  have hnumber : bigEndian32 0 = replicate 4 0 := by decide
  unfold DataBytes zeroMessage
  rw [hnumber, ← replicate_add, ← replicate_add]

theorem covered_selected_iff {S : Set Nat} {R : Set (UInt64 × UInt64)}
    (hS : S.Nonempty) (hR : R.Nonempty) :
    CoveredOn (fun m => m.DomainID.length ∈ S ∧ (m.NodeRoleOfMember, m.NodeWeightOfMember) ∈ R)
        content DataBytes ↔
      S.Subsingleton ∧ R.Subsingleton := by
  rw [coveredOn_iff]
  constructor
  · intro hcovered
    obtain ⟨size, hsize⟩ := hS
    obtain ⟨⟨role, weight⟩, hrole⟩ := hR
    refine ⟨?_, ?_⟩
    · -- the bytes of the domain ID are moved into the ID of the member
      intro a ha b hb
      have hcontent := hcovered (zeroMessage a b role weight) (zeroMessage b a role weight)
        ⟨by simpa [zeroMessage] using ha, hrole⟩ ⟨by simpa [zeroMessage] using hb, hrole⟩
        (by rw [dataBytes_zeroMessage, dataBytes_zeroMessage,
          show a + 4 + b = b + 4 + a by omega])
      simpa [content, zeroMessage] using
        congrArg (fun content => content.1.length) hcontent
    · rintro ⟨role, weight⟩ hrole ⟨role', weight'⟩ hrole'
      have hcontent := hcovered (zeroMessage size 0 role weight) (zeroMessage size 0 role' weight')
        ⟨by simpa [zeroMessage] using hsize, hrole⟩ ⟨by simpa [zeroMessage] using hsize, hrole'⟩
        (by rw [dataBytes_zeroMessage, dataBytes_zeroMessage])
      exact congrArg (fun content => content.2.2.2) hcontent
  · rintro ⟨hS, hR⟩ m m' ⟨hm, hmR⟩ ⟨hm', hmR'⟩ heq
    obtain ⟨hdomain, hnumber, hnode⟩ := (dataBytes_eq_iff (hS hm hm')).mp heq
    obtain ⟨hrole, hweight⟩ := Prod.mk.inj (hR hmR hmR')
    unfold content
    rw [hdomain, hnumber, hnode, hrole, hweight]

end DomainSelected

open PreparePackedMessageExe PreparePackedMessageProp ExeResultValidateRespMessage

/-- **What a signature covers.** A selected member: exactly with one size of domain IDs, one role
and one weight. Lists of transactions or hashes: exactly when all elements have one size that is not
zero. An indication: the state version. -/
theorem signedBytes_iff (S : Set Nat) (R : Set (UInt64 × UInt64)) :
    (S.Nonempty → R.Nonempty →
      (CoveredOn (fun m => m.DomainID.length ∈ S ∧ (m.NodeRoleOfMember, m.NodeWeightOfMember) ∈ R)
          content DataBytes ↔ S.Subsingleton ∧ R.Subsingleton)) ∧
    (CoveredOn (fun m => SizesIn S m.Txs)
        Txs TxsData ↔ S.Subsingleton ∧ 0 ∉ S) ∧
    (CoveredOn (fun m => SizesIn S m.TxHashs)
        TxHashs TxHashsData ↔ S.Subsingleton ∧ 0 ∉ S) ∧
    (CoveredOn (fun m => m.TxHashs.length = m.TxResultHashs.length ∧
          SizesIn S (m.TxHashs ++ m.TxResultHashs))
        (fun m : ExeResultValidateReqMessage => (m.TxHashs, m.TxResultHashs))
        ExeResultValidateReqMessage.TxAndResultHashsData ↔ S.Subsingleton ∧ 0 ∉ S) ∧
    (CoveredOn (fun m => m.TxProofs.length = m.TxResultProofs.length ∧
          SizesIn S (m.TxProofs ++ m.TxResultProofs))
        (fun m : ExeResultValidateRespMessage => (m.TxProofs, m.TxResultProofs))
        TxAndResultProofsData ↔ S.Subsingleton ∧ 0 ∉ S) ∧
    CoveredOn (fun _ => True) PreparePackedMessageExeIndication.StateVersion
      PreparePackedMessageExeIndication.DataBytes := by
  refine ⟨covered_selected_iff, ?_, ?_, ?_, ?_, ?_⟩
  · exact covered_lists_iff Txs (fun _ => rfl)
      fun txs => ⟨⟨[], 0, 0, [], [], 0, [], txs⟩, rfl⟩
  · exact covered_lists_iff TxHashs (fun _ => rfl)
      fun hashs => ⟨⟨[], [], [], hashs, []⟩, rfl⟩
  · exact covered_pairs_iff
      (fun m : ExeResultValidateReqMessage => (m.TxHashs, m.TxResultHashs)) (fun _ => rfl)
      fun lists => ⟨⟨[], 0, 0, 0, [], 0, lists.1, lists.2⟩, rfl⟩
  · exact covered_pairs_iff
      (fun m : ExeResultValidateRespMessage => (m.TxProofs, m.TxResultProofs)) (fun _ => rfl)
      fun lists => ⟨⟨[], lists.1, lists.2⟩, rfl⟩
  · exact coveredOn_iff.mpr fun m m' _ _ heq => bigEndian64_toNat_injective heq

/-- The same bytes: of two weights, of a domain ID with a byte moved, of one transaction and two,
and of a hash as a result. -/
theorem signedBytes_carried_over :
    (DataBytes ⟨[], 0, [1], 7, [2], 1, 10⟩ = DataBytes ⟨[], 0, [1], 7, [2], 1, 1000⟩) ∧
    (DataBytes ⟨[], 0, [0], 0, [0, 2], 1, 10⟩ = DataBytes ⟨[], 0, [0, 0], 0, [2], 1, 10⟩) ∧
    (TxsData ⟨[], 0, 0, [], [], 0, [], [[1, 2]]⟩ = TxsData ⟨[], 0, 0, [], [], 0, [], [[1], [2]]⟩) ∧
    (TxHashsData ⟨[], [], [], [[1, 2]], []⟩ = TxHashsData ⟨[], [], [], [[1], [2]], []⟩) ∧
    (ExeResultValidateReqMessage.TxAndResultHashsData ⟨[], 0, 0, 0, [], 0, [[1], [2]], []⟩ =
      ExeResultValidateReqMessage.TxAndResultHashsData ⟨[], 0, 0, 0, [], 0, [[1]], [[2]]⟩) ∧
    TxAndResultProofsData ⟨[], [[1], [2]], []⟩ =
      TxAndResultProofsData ⟨[], [[1]], [[2]]⟩ := by
  decide

end Topia.Consensus
