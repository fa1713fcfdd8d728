import Topia.Lib.DistinctDraws
import Topia.Consensus.MessageDeliver
import Topia.Consensus.SignedBytes

/-!
# The executors that are asked for a validation

`deliverResultValidateReqMessage` of `consensus/message_deliver.go` asks
`TxsResultValidity_MaxExecutor` executors of a domain, which `GenerateRandomNumber` of
`common/util.go` draws. With fewer executors no number is drawn, and the loop over the numbers reads
past their end.
-/

namespace Topia.Consensus

open Lib

def TxsResultValidity_MaxExecutor : Nat := 2

open List

section RandomNumbers

/-- `GenerateRandomNumber(start, stop, count)` returns these; `r k` is behind the `k`-th `Intn`. -/
def GeneratesRandomNumber (r : Nat → Nat) (start stop count : Nat) (nums : List Nat) : Prop :=
  if stop < start ∨ stop - start < count then nums = []
  else Ends (drawRound (fun k => r k % (stop - start) + start) count) (0, []) nums

def Varied (r : Nat → Nat) (n : Nat) : Prop :=
  2 ≤ n → ∃ k, r k % n ≠ r 0 % n

variable {r : Nat → Nat} {n : Nat} {nums : List Nat}

theorem generatesRandomNumber_of_few (hn : n < 2) :
    GeneratesRandomNumber r 0 n TxsResultValidity_MaxExecutor nums ↔ nums = [] := by
  rw [GeneratesRandomNumber, if_pos]
  exact .inr hn

theorem generatesRandomNumber_of_two (hn : 2 ≤ n) :
    GeneratesRandomNumber r 0 n TxsResultValidity_MaxExecutor nums ↔
      Ends (drawRound (fun k => r k % n) 2) (0, []) nums := by
  rw [GeneratesRandomNumber, if_neg]
  · rfl
  · simp only [TxsResultValidity_MaxExecutor]
    omega

theorem generateRandomNumber_sound (hn : 2 ≤ n)
    (hnums : GeneratesRandomNumber r 0 n TxsResultValidity_MaxExecutor nums) :
    ∃ i j, nums = [i, j] ∧ i ≠ j ∧ i < n ∧ j < n := by
  obtain ⟨hlength, hnodup, hdrawn⟩ :=
    drawDistinct_sound ((generatesRandomNumber_of_two hn).mp hnums)
  obtain ⟨i, j, rfl⟩ := length_eq_two.mp hlength
  have hlt : ∀ x ∈ [i, j], x < n := by
    intro x hx
    obtain ⟨k, rfl⟩ := hdrawn x hx
    exact Nat.mod_lt _ (by omega)
  refine ⟨i, j, rfl, ?_, hlt i (by simp), hlt j (by simp)⟩
  rintro rfl
  simp at hnodup

theorem generateRandomNumber_returns (hn : 2 ≤ n) (hr : Varied r n) :
    ∃ nums, GeneratesRandomNumber r 0 n TxsResultValidity_MaxExecutor nums := by
  obtain ⟨k, hk⟩ := hr hn
  simp only [generatesRandomNumber_of_two hn]
  refine drawDistinct_ends_iff.mpr ⟨[r 0 % n, r k % n], ?_, rfl, ?_⟩
  · simpa using Ne.symm hk
  · intro x hx
    simp only [mem_cons, not_mem_nil, or_false] at hx
    rcases hx with rfl | rfl
    · exact ⟨0, rfl⟩
    · exact ⟨k, rfl⟩

def firstThen (i j : Nat) : Nat → Nat
  | 0 => i
  | _ + 1 => j

theorem generatesRandomNumber_firstThen {i j : Nat} (hi : i < n) (hj : j < n) (hij : i ≠ j) :
    Varied (firstThen i j) n ∧
      GeneratesRandomNumber (firstThen i j) 0 n TxsResultValidity_MaxExecutor [i, j] := by
  have hzero : firstThen i j 0 % n = i := Nat.mod_eq_of_lt hi
  have hone : firstThen i j 1 % n = j := Nat.mod_eq_of_lt hj
  refine ⟨fun _ => ⟨1, ?_⟩, ?_⟩
  · rw [hzero, hone]
    exact Ne.symm hij
  · rw [generatesRandomNumber_of_two (by omega)]
    refine ⟨3, ?_⟩
    simp [rounds, drawRound, hzero, hone, Ne.symm hij]

end RandomNumbers

section Request

structure ValidateDeliver extends MessageDeliver where
  marshalValidateReq : ExeResultValidateReqMessage → (signature pubKey : Bytes) → Option Bytes
  SendWithResponse : Option (List Bytes) → Bytes → Option (List (Bytes × Bytes))
  unmarshalValidateResp : Bytes → Option ExeResultValidateRespMessage

inductive RequestOutcome where
  | indexOutOfRange
  | returned (peers : Option (List Bytes))
      (resp : Except DeliverError ExeResultValidateRespMessage)
deriving DecidableEq

namespace ValidateDeliver

variable (peerIDs : List Bytes) (vd : ValidateDeliver) (peers : Option (List Bytes))

/-- The answers without an error, if any. -/
def deliverSendWithRespCommon (dataBytes : Bytes) : Except DeliverError (List Bytes) :=
  match vd.marshalConsensusMessage .exeRSValidateReq dataBytes with
  | none => .error .marshal
  | some csMsgBytes =>
    match vd.SendWithResponse peers csMsgBytes with
    | none => .error .send
    | some resps =>
      let rtnBytes := (resps.filter (·.2 = [])).map Prod.fst
      if 0 < rtnBytes.length then .ok rtnBytes else .error .noResponse

def request (msg : ExeResultValidateReqMessage) : Except DeliverError
    ExeResultValidateRespMessage :=
  match vd.Sign msg.TxAndResultHashsData with
  | none => .error .sign
  | some sigData =>
    match vd.ConvertToPublic with
    | none => .error .publicKey
    | some pubKey =>
      match vd.marshalValidateReq msg sigData pubKey with
      | none => .error .marshal
      | some msgBytes =>
        match vd.deliverSendWithRespCommon peers msgBytes with
        | .error err => .error err
        | .ok [] => .error .noResponse
        | .ok (resp :: _) =>
          match vd.unmarshalValidateResp resp with
          | none => .error .unmarshal
          | some validateResp => .ok validateResp

def randExecutorID (randIndexs : List Nat) : Option (List Bytes) :=
  (range TxsResultValidity_MaxExecutor).mapM fun i =>
    randIndexs[i]?.bind fun j => peerIDs[j]?

def DrawsExecutors (peerIDs : List Bytes) (msg : ExeResultValidateReqMessage) (r : Nat → Nat)
    (out : RequestOutcome) : Prop :=
  ∃ randIndexs,
    GeneratesRandomNumber r 0 peerIDs.length TxsResultValidity_MaxExecutor randIndexs ∧
      out = match randExecutorID peerIDs randIndexs with
        | none => .indexOutOfRange
        | some executors => .returned (some executors) (vd.request (some executors) msg)

/-- `deliverResultValidateReqMessage` can end so, drawing from `r`. -/
def DeliversResultValidateReqMessage (domainID : Bytes) (msg : ExeResultValidateReqMessage)
    (r : Nat → Nat) (out : RequestOutcome) : Prop :=
  match vd.strategy with
  | .specifically => vd.DrawsExecutors (vd.GetActiveExecutorIDsOfDomain domainID) msg r out
  | _ => out = .returned none (vd.request none msg)

/-- Two different executors of the domain are asked, or the one there is; it fails with none. -/
def FansOut : RequestOutcome → Prop
  | .indexOutOfRange => False
  | .returned peers resp =>
    if peerIDs.length = 0 then ∃ err, resp = .error err
    else ∃ executors, peers = some executors ∧
      executors.length = min peerIDs.length TxsResultValidity_MaxExecutor ∧
        executors.Nodup ∧ ∀ executor ∈ executors, executor ∈ peerIDs

variable {vd : ValidateDeliver} {domainID : Bytes} {msg : ExeResultValidateReqMessage}
  {peerIDs : List Bytes} {r : Nat → Nat} {out : RequestOutcome}

theorem randExecutorID_nil : randExecutorID peerIDs [] = none := by
  simp [randExecutorID, TxsResultValidity_MaxExecutor, range_succ]

theorem randExecutorID_pair {i j : Nat} (hi : i < peerIDs.length) (hj : j < peerIDs.length) :
    randExecutorID peerIDs [i, j] = some [peerIDs[i], peerIDs[j]] := by
  simp [randExecutorID, TxsResultValidity_MaxExecutor, range_succ, hi, hj]

section Specifically

variable (hstrategy : vd.strategy = .specifically)
include hstrategy

variable (hpeers : vd.GetActiveExecutorIDsOfDomain domainID = peerIDs)
include hpeers

theorem delivers_iff :
    vd.DeliversResultValidateReqMessage domainID msg r out ↔
      vd.DrawsExecutors peerIDs msg r out := by
  unfold DeliversResultValidateReqMessage
  rw [hstrategy, hpeers]

theorem delivers_of_few (hfew : peerIDs.length < 2) :
    vd.DeliversResultValidateReqMessage domainID msg r .indexOutOfRange := by
  refine (delivers_iff hstrategy hpeers).mpr ⟨[], (generatesRandomNumber_of_few hfew).mpr rfl, ?_⟩
  rw [randExecutorID_nil]

theorem delivers_pair {i j : Nat} (hi : i < peerIDs.length) (hj : j < peerIDs.length) (hij : i ≠ j)
    :
    vd.DeliversResultValidateReqMessage domainID msg (firstThen i j)
      (.returned (some [peerIDs[i], peerIDs[j]])
        (vd.request (some [peerIDs[i], peerIDs[j]]) msg)) := by
  refine (delivers_iff hstrategy hpeers).mpr
    ⟨[i, j], (generatesRandomNumber_firstThen hi hj hij).2, ?_⟩
  rw [randExecutorID_pair hi hj]

theorem exists_pair_of_delivers (htwo : 2 ≤ peerIDs.length)
    (hout : vd.DeliversResultValidateReqMessage domainID msg r out) :
    ∃ (i j : Nat) (hi : i < peerIDs.length) (hj : j < peerIDs.length), i ≠ j ∧
      out = .returned (some [peerIDs[i], peerIDs[j]])
        (vd.request (some [peerIDs[i], peerIDs[j]]) msg) := by
  obtain ⟨nums, hnums, rfl⟩ := (delivers_iff hstrategy hpeers).mp hout
  obtain ⟨i, j, rfl, hij, hi, hj⟩ := generateRandomNumber_sound htwo hnums
  exact ⟨i, j, hi, hj, hij, by rw [randExecutorID_pair hi hj]⟩

end Specifically

theorem fansOut_pair_iff {i j : Nat} (hi : i < peerIDs.length) (hj : j < peerIDs.length)
    (htwo : 2 ≤ peerIDs.length) {resp : Except DeliverError ExeResultValidateRespMessage} :
    FansOut peerIDs (.returned (some [peerIDs[i], peerIDs[j]]) resp) ↔ peerIDs[i] ≠ peerIDs[j] := by
  rw [FansOut, if_neg (by omega)]
  constructor
  · rintro ⟨executors, heq, -, hnodup, -⟩
    cases heq
    simpa using hnodup
  intro hne
  refine ⟨_, rfl, (Nat.min_eq_right htwo).symm, by simpa using hne, ?_⟩
  intro executor hmem
  simp only [mem_cons, not_mem_nil, or_false] at hmem
  rcases hmem with rfl | rfl
  · exact getElem_mem hi
  · exact getElem_mem hj

theorem delivers_of_all (hstrategy : vd.strategy ≠ .specifically) :
    vd.DeliversResultValidateReqMessage domainID msg r out ↔
      out = .returned none (vd.request none msg) := by
  unfold DeliversResultValidateReqMessage
  split
  · next heq => exact absurd heq hstrategy
  · rfl

theorem fansOut_none_iff {resp : Except DeliverError ExeResultValidateRespMessage} :
    FansOut peerIDs (.returned none resp) ↔ peerIDs = [] ∧ ∃ err, resp = .error err := by
  rw [FansOut]
  split_ifs with hempty
  · simp [length_eq_zero_iff.mp hempty]
  · refine iff_of_false ?_ fun h => hempty (by rw [h.1]; rfl)
    rintro ⟨executors, heq, -⟩
    cases heq

/-- **Who is asked for a validation**: two different executors or the one, exactly when the domain
has at least two and all are different; without a choice of peers, exactly when there are none. -/
theorem fanOut_iff (vd : ValidateDeliver) (domainID : Bytes) (msg : ExeResultValidateReqMessage) :
    (∀ r, Varied r (vd.GetActiveExecutorIDsOfDomain domainID).length →
      (∃ out, vd.DeliversResultValidateReqMessage domainID msg r out) ∧
        ∀ out, vd.DeliversResultValidateReqMessage domainID msg r out →
          FansOut (vd.GetActiveExecutorIDsOfDomain domainID) out) ↔
      if vd.strategy = .specifically then
        2 ≤ (vd.GetActiveExecutorIDsOfDomain domainID).length ∧
          (vd.GetActiveExecutorIDsOfDomain domainID).Nodup
      else
        vd.GetActiveExecutorIDsOfDomain domainID = [] ∧
          ∃ err, vd.request none msg = .error err := by
  generalize hpeers : vd.GetActiveExecutorIDsOfDomain domainID = peerIDs
  split_ifs with hstrategy
  · constructor
    · intro hall
      have htwo : 2 ≤ peerIDs.length := by
        by_contra hfew
        exact (hall id (fun htwo => absurd htwo hfew)).2 _
          (delivers_of_few hstrategy hpeers (Nat.not_le.mp hfew))
      refine ⟨htwo, ?_⟩
      -- two places with the same executor could be drawn
      rw [Nodup, pairwise_iff_getElem]
      intro i j hi hj hij
      exact (fansOut_pair_iff hi hj htwo).mp
        ((hall _ (generatesRandomNumber_firstThen hi hj (Nat.ne_of_lt hij)).1).2 _
          (delivers_pair hstrategy hpeers hi hj (Nat.ne_of_lt hij)))
    · rintro ⟨htwo, hnodup⟩ r hr
      refine ⟨?_, ?_⟩
      · obtain ⟨nums, hnums⟩ := generateRandomNumber_returns htwo hr
        exact ⟨_, (delivers_iff hstrategy hpeers).mpr ⟨nums, hnums, rfl⟩⟩
      · intro out hout
        obtain ⟨i, j, hi, hj, hij, rfl⟩ := exists_pair_of_delivers hstrategy hpeers htwo hout
        refine (fansOut_pair_iff hi hj htwo).mpr fun heq => hij ?_
        exact (hnodup.getElem_inj_iff).mp heq
  · simp only [delivers_of_all hstrategy, forall_eq, fansOut_none_iff, exists_eq, true_and]
    constructor
    · intro hall
      -- the source can always be one that does not repeat itself
      refine hall id fun htwo => ⟨1, ?_⟩
      rw [id, id, Nat.mod_eq_of_lt (by omega), Nat.zero_mod]
      exact Nat.one_ne_zero
    · intro h _ _
      exact h

def fewExecutors (executors : List Bytes) : ValidateDeliver where
  nodeID := [1]
  strategy := .specifically
  GetActiveProposerIDs := []
  GetActiveValidatorIDs := [[1]]
  GetActiveExecutorIDsOfDomain := fun _ => executors
  dkgBls := none
  Sign := fun _ => some []
  ConvertToPublic := some []
  marshalPropose := fun _ _ _ => none
  marshalBestPropose := fun _ _ _ => none
  marshalCommit := fun _ _ _ _ => none
  marshalConsensusMessage := fun _ dataBytes => some dataBytes
  Send := fun _ => true
  HeadChunks := fun _ => []
  DomainID := fun _ => []
  marshalValidateReq := fun _ _ _ => some []
  SendWithResponse := fun _ _ => some [([], [])]
  unmarshalValidateResp := fun _ => some ⟨[4], [], []⟩

theorem request_panics_of_few :
    (fewExecutors [[4]]).DeliversResultValidateReqMessage [7] ⟨[], 0, 0, 0, [1], 5, [], []⟩ id
      .indexOutOfRange ∧
    (fewExecutors []).DeliversResultValidateReqMessage [7] ⟨[], 0, 0, 0, [1], 5, [], []⟩ id
      .indexOutOfRange :=
  ⟨⟨[], rfl, rfl⟩, ⟨[], rfl, rfl⟩⟩

end ValidateDeliver

end Request

end Topia.Consensus
