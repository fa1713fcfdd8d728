import Topia.Lib.Run
import Topia.Consensus.Messages

/-!
# Delivery of the consensus messages

`deliverProposeMessage`, `deliverBestProposeMessage` and `deliverCommitMessage` of
`consensus/message_deliver.go` sign a message and send it to the proposers and validators, a commit
message also to the executors of the block's domains.

The first two return nil when the proposers cannot be reached. A commit message is sent by two
goroutines that share the field `RefIndex` of the message; what is returned is the nil error of the
key.
-/

namespace Topia.Consensus

open Lib

inductive DeliverStrategy where
  | unknown
  | all
  | specifically
deriving DecidableEq, Repr

inductive ConsensusMessageType where
  | propose
  | bestPropose
  | commit
  | exeRSValidateReq
deriving DecidableEq, Repr

inductive TargetNetwork where
  | proposers
  | validators
  | executors (i : Nat)
deriving DecidableEq, Repr

inductive DeliverError where
  | nilMessage
  | nilDkg
  | sign
  | publicKey
  | marshal
  | send
  | noResponse
  | unmarshal
deriving DecidableEq, Repr

/-- `messageDeliver` with its services. `none` and the `false` of `Send` are errors; `HeadChunks`
and `DomainID` decode a head and its chunks. -/
structure MessageDeliver where
  nodeID : Bytes
  strategy : DeliverStrategy
  (GetActiveProposerIDs GetActiveValidatorIDs : List Bytes)
  GetActiveExecutorIDsOfDomain : Bytes → List Bytes
  dkgBls : Option (Bytes → Option (Bytes × Bytes))
  Sign : Bytes → Option Bytes
  ConvertToPublic : Option Bytes
  marshalPropose : ProposeMessage → (signature pubKey : Bytes) → Option Bytes
  marshalBestPropose : BestProposeMessage → (signature pubKey : Bytes) → Option Bytes
  marshalCommit : CommitMessage → (refIndex : UInt32) → (signature pubKey : Bytes) → Option Bytes
  marshalConsensusMessage : ConsensusMessageType → Bytes → Option Bytes
  Send : TargetNetwork → Bool
  HeadChunks : Bytes → List Bytes
  DomainID : Bytes → Bytes

structure SendAttempt where
  target : TargetNetwork
  peers : Option (List Bytes)
  data : Bytes
  ok : Bool
deriving DecidableEq, Repr

structure Delivery where
  err : Option DeliverError
  attempts : List SendAttempt
deriving DecidableEq, Repr

/-- Nil only if every network was reached; all are tried if one cannot be reached. -/
structure Delivery.Reported (d : Delivery) (targets : List TargetNetwork) : Prop where
  complete : d.err = none → ∀ target ∈ targets, ∃ a ∈ d.attempts, a.target = target ∧ a.ok = true
  independent : (∃ a ∈ d.attempts, a.ok = false) →
    ∀ target ∈ targets, ∃ a ∈ d.attempts, a.target = target

theorem Delivery.reported_of_error (e : DeliverError) (targets : List TargetNetwork) :
    Delivery.Reported { err := some e, attempts := [] } targets := by
  refine ⟨?_, ?_⟩
  · rintro ⟨⟩
  · rintro ⟨a, ha, -⟩
    cases ha

namespace MessageDeliver

variable (md : MessageDeliver)

def deliverSendCommon (target : TargetNetwork) (peers : Option (List Bytes))
    (msgType : ConsensusMessageType) (dataBytes : Bytes) : SendAttempt where
  target := target
  peers := peers
  data := dataBytes
  ok :=
    match md.marshalConsensusMessage msgType dataBytes with
    | none => false
    | some _ => md.Send target

def proposerPeers : Option (List Bytes) :=
  match md.strategy with
  | .specifically => some (md.GetActiveProposerIDs.filter (· ≠ md.nodeID))
  | _ => none

def validatorPeers : Option (List Bytes) :=
  match md.strategy with
  | .specifically => some md.GetActiveValidatorIDs
  | _ => none

def exeCtxs (blockHead : Bytes) : List (Option (List Bytes)) :=
  match md.strategy, md.HeadChunks blockHead with
  | .specifically, chunk :: chunks =>
    (chunk :: chunks).map fun hChunk =>
      some (md.GetActiveExecutorIDsOfDomain (md.DomainID hChunk))
  | _, _ => [none]

open List

section Propose

variable (md : MessageDeliver) (msgType : ConsensusMessageType)

def proposeBytes : Option ProposeMessage → Except DeliverError Bytes
  | none => .error .nilMessage
  | some msg =>
    match md.dkgBls with
    | none => .error .nilDkg
    | some sign =>
      match sign msg.BlockHead with
      | none => .error .sign
      | some (sigData, pubKey) =>
        match md.marshalPropose msg sigData pubKey with
        | none => .error .marshal
        | some msgBytes => .ok msgBytes

def bestProposeBytes : Option BestProposeMessage → Except DeliverError Bytes
  | none => .error .nilMessage
  | some msg =>
    match md.Sign msg.PropMsgData with
    | none => .error .sign
    | some sigData =>
      match md.ConvertToPublic with
      | none => .error .publicKey
      | some pubKey =>
        match md.marshalBestPropose msg sigData pubKey with
        | none => .error .marshal
        | some msgBytes => .ok msgBytes

/-- The end of the proposal deliveries. An error of the proposers is not returned, and the
validators are not tried then. -/
def sendToBoth (msgBytes : Bytes) : Delivery :=
  let proposers := md.deliverSendCommon .proposers md.proposerPeers msgType msgBytes
  if proposers.ok then
    let validators := md.deliverSendCommon .validators md.validatorPeers msgType msgBytes
    { err := if validators.ok then none else some .send
      attempts := [proposers, validators] }
  else { err := none, attempts := [proposers] }

def deliverBytes : Except DeliverError Bytes → Delivery
  | .error err => { err := some err, attempts := [] }
  | .ok msgBytes => md.sendToBoth msgType msgBytes

def deliverProposeMessage (msg : Option ProposeMessage) : Delivery :=
  md.deliverBytes .propose (md.proposeBytes msg)

def deliverBestProposeMessage (msg : Option BestProposeMessage) : Delivery :=
  md.deliverBytes .bestPropose (md.bestProposeBytes msg)

variable {md : MessageDeliver} {msgType : ConsensusMessageType} {msgBytes : Bytes}

theorem reported_sendToBoth_iff :
    (md.sendToBoth msgType msgBytes).Reported [.proposers, .validators] ↔
      (md.deliverSendCommon .proposers md.proposerPeers msgType msgBytes).ok = true := by
  by_cases hproposers :
      (md.deliverSendCommon .proposers md.proposerPeers msgType msgBytes).ok = true
  · simp only [sendToBoth, if_pos hproposers]
    refine iff_of_true ⟨?_, ?_⟩ hproposers
    · intro hnil target htarget
      simp only [mem_cons, not_mem_nil, or_false] at htarget
      rcases htarget with rfl | rfl
      · exact ⟨_, mem_cons_self, rfl, hproposers⟩
      · refine ⟨_, mem_cons_of_mem _ mem_cons_self, rfl, ?_⟩
        by_contra hfailed
        simp [hfailed] at hnil
    · intro _ target htarget
      simp only [mem_cons, not_mem_nil, or_false] at htarget
      rcases htarget with rfl | rfl
      · exact ⟨_, mem_cons_self, rfl⟩
      · exact ⟨_, mem_cons_of_mem _ mem_cons_self, rfl⟩
  · simp only [sendToBoth, if_neg hproposers]
    refine iff_of_false ?_ hproposers
    rintro ⟨hcomplete, -⟩
    obtain ⟨a, ha, -, hok⟩ := hcomplete rfl .proposers mem_cons_self
    rw [mem_singleton.mp ha] at hok
    exact hproposers hok

theorem reported_deliverBytes_iff {bytes : Except DeliverError Bytes} :
    (md.deliverBytes msgType bytes).Reported [.proposers, .validators] ↔
      ∀ msgBytes, bytes = .ok msgBytes →
        (md.deliverSendCommon .proposers md.proposerPeers msgType msgBytes).ok = true := by
  cases bytes with
  | error err =>
    refine iff_of_true (Delivery.reported_of_error err _) ?_
    rintro _ ⟨⟩
  | ok msgBytes =>
    rw [deliverBytes, reported_sendToBoth_iff]
    simp

end Propose

section Commit

inductive ExeStage where
  | set (i : Nat)
  | marshal (i : Nat)
  | send (i : Nat) (msgBytes : Bytes)
  | done
deriving DecidableEq, Repr

inductive PropStage where
  | set
  | marshal
  | sendProposers (msgBytes : Bytes)
  | sendValidators (msgBytes : Bytes)
  | done
deriving DecidableEq, Repr

structure CommitSending where
  RefIndex : UInt32
  exe : ExeStage
  prop : PropStage
  attempts : List SendAttempt
deriving DecidableEq, Repr

inductive Turn where
  | exe
  | prop
deriving DecidableEq, Repr

structure SignedCommit where
  msg : CommitMessage
  orginRefIndex : UInt32
  (sigData pubKey : Bytes)
deriving DecidableEq, Repr

variable (md : MessageDeliver) (c : SignedCommit) (s : CommitSending)

def SignedCommit.Marshal (refIndex : UInt32) : Option Bytes :=
  md.marshalCommit c.msg refIndex c.sigData c.pubKey

def exeStep : Option CommitSending :=
  match s.exe with
  | .set i =>
    if i < (md.exeCtxs c.msg.BlockHead).length then
      some { s with RefIndex := UInt32.ofNat i, exe := .marshal i }
    else some { s with exe := .done }
  | .marshal i =>
    match c.Marshal md s.RefIndex with
    | none => some { s with exe := .set (i + 1) }
    | some msgBytes => some { s with exe := .send i msgBytes }
  | .send i msgBytes =>
    some { s with
      exe := .set (i + 1)
      attempts := s.attempts ++ [md.deliverSendCommon (.executors i)
        (((md.exeCtxs c.msg.BlockHead)[i]?).getD none) .commit msgBytes] }
  | .done => none

def propStep : Option CommitSending :=
  match s.prop with
  | .set => some { s with RefIndex := c.orginRefIndex, prop := .marshal }
  | .marshal =>
    match c.Marshal md s.RefIndex with
    | none => some { s with prop := .done }
    | some msgBytes => some { s with prop := .sendProposers msgBytes }
  | .sendProposers msgBytes =>
    some { s with
      prop := .sendValidators msgBytes
      attempts := s.attempts ++
        [md.deliverSendCommon .proposers md.proposerPeers .commit msgBytes] }
  | .sendValidators msgBytes =>
    some { s with
      prop := .done
      attempts := s.attempts ++
        [md.deliverSendCommon .validators md.validatorPeers .commit msgBytes] }
  | .done => none

def commitStep : Turn → Option CommitSending
  | .exe => md.exeStep c s
  | .prop => md.propStep c s

def startSending : CommitSending where
  RefIndex := c.orginRefIndex
  exe := .set 0
  prop := .set
  attempts := []

/-- `deliverCommitMessage` can end so; the error of `ConvertToPublic` is returned. -/
inductive DeliversCommit (md : MessageDeliver) (msg : CommitMessage) (refIndex : UInt32) :
    Delivery → Prop where
  | sign (hsign : md.Sign msg.BlockHead = none) :
      DeliversCommit md msg refIndex { err := some .sign, attempts := [] }
  | publicKey {sigData : Bytes} (hsign : md.Sign msg.BlockHead = some sigData)
      (hkey : md.ConvertToPublic = none) :
      DeliversCommit md msg refIndex { err := some .publicKey, attempts := [] }
  | sent {sigData pubKey : Bytes} {turns : List Turn} {s : CommitSending}
      (hsign : md.Sign msg.BlockHead = some sigData)
      (hkey : md.ConvertToPublic = some pubKey)
      (hrun : turns.foldlM (md.commitStep ⟨msg, refIndex, sigData, pubKey⟩)
        (startSending ⟨msg, refIndex, sigData, pubKey⟩) = some s)
      (hexe : s.exe = .done) (hprop : s.prop = .done) :
      DeliversCommit md msg refIndex { err := none, attempts := s.attempts }

def commitTargets (msg : CommitMessage) : List TargetNetwork :=
  .proposers :: .validators ::
    (range (md.exeCtxs msg.BlockHead).length).map TargetNetwork.executors

def refIndexes : List UInt32 :=
  c.orginRefIndex :: (range (md.exeCtxs c.msg.BlockHead).length).map UInt32.ofNat

def Sendable (msgBytes : Bytes) : Prop :=
  (md.marshalConsensusMessage .commit msgBytes).isSome = true

def Encodes : Prop :=
  ∀ refIndex ∈ md.refIndexes c,
    ∃ msgBytes, c.Marshal md refIndex = some msgBytes ∧ md.Sendable msgBytes

/-- A commit message that can be signed can be encoded and sent to every target. -/
def CommitReaches (msg : CommitMessage) (refIndex : UInt32) : Prop :=
  ∀ sigData pubKey, md.Sign msg.BlockHead = some sigData → md.ConvertToPublic = some pubKey →
    md.Encodes ⟨msg, refIndex, sigData, pubKey⟩ ∧
      ∀ target ∈ md.commitTargets msg, md.Send target = true

def CommitSending.Reached (target : TargetNetwork) : Prop :=
  ∃ a ∈ s.attempts, a.target = target ∧ a.ok = true

variable {md : MessageDeliver} {c : SignedCommit} {s s' : CommitSending}

theorem executors_mem_commitTargets {msg : CommitMessage} {i : Nat}
    (hi : i < (md.exeCtxs msg.BlockHead).length) : .executors i ∈ md.commitTargets msg :=
  mem_cons_of_mem _ (mem_cons_of_mem _ (mem_map_of_mem (mem_range.mpr hi)))

theorem deliverSendCommon_ok {target : TargetNetwork} {peers : Option (List Bytes)}
    {msgBytes : Bytes} :
    (md.deliverSendCommon target peers .commit msgBytes).ok = true ↔
      md.Sendable msgBytes ∧ md.Send target = true := by
  unfold deliverSendCommon Sendable
  cases md.marshalConsensusMessage .commit msgBytes <;> simp

def ExeOk (md : MessageDeliver) (n : Nat) (s : CommitSending) : ExeStage → Prop
  | .set i => ∀ j < i, s.Reached (.executors j)
  | .marshal i => i < n ∧ ∀ j < i, s.Reached (.executors j)
  | .send i msgBytes => i < n ∧ md.Sendable msgBytes ∧ ∀ j < i, s.Reached (.executors j)
  | .done => ∀ j < n, s.Reached (.executors j)

def PropOk (md : MessageDeliver) (s : CommitSending) : PropStage → Prop
  | .set => True
  | .marshal => True
  | .sendProposers msgBytes => md.Sendable msgBytes
  | .sendValidators msgBytes => md.Sendable msgBytes ∧ s.Reached .proposers
  | .done => s.Reached .proposers ∧ s.Reached .validators

structure SendingOk (md : MessageDeliver) (c : SignedCommit) (s : CommitSending) : Prop where
  refIndex : s.RefIndex ∈ md.refIndexes c
  exe : md.ExeOk (md.exeCtxs c.msg.BlockHead).length s s.exe
  prop : md.PropOk s s.prop

theorem ExeOk.mono {n : Nat} {stage : ExeStage} (h : md.ExeOk n s stage)
    (hmono : ∀ target, s.Reached target → s'.Reached target) : md.ExeOk n s' stage := by
  cases stage with
  | marshal i => exact ⟨h.1, fun j hj => hmono _ (h.2 j hj)⟩
  | send i msgBytes => exact ⟨h.1, h.2.1, fun j hj => hmono _ (h.2.2 j hj)⟩
  | _ => exact fun j hj => hmono _ (h j hj)

theorem PropOk.mono {stage : PropStage} (h : md.PropOk s stage)
    (hmono : ∀ target, s.Reached target → s'.Reached target) : md.PropOk s' stage := by
  cases stage with
  | set => trivial
  | marshal => trivial
  | sendProposers msgBytes => exact h
  | sendValidators msgBytes => exact ⟨h.1, hmono _ h.2⟩
  | done => exact ⟨hmono _ h.1, hmono _ h.2⟩

theorem reached_append {attempts : List SendAttempt} (h : s'.attempts = s.attempts ++ attempts)
    (target : TargetNetwork) (hreached : s.Reached target) : s'.Reached target := by
  obtain ⟨a, ha, hok⟩ := hreached
  exact ⟨a, h ▸ mem_append_left _ ha, hok⟩

theorem reached_last {target : TargetNetwork} {peers : Option (List Bytes)} {msgBytes : Bytes}
    (h : s'.attempts = s.attempts ++ [md.deliverSendCommon target peers .commit msgBytes])
    (hsendable : md.Sendable msgBytes) (hsend : md.Send target = true) : s'.Reached target :=
  ⟨_, h ▸ mem_append_right _ (mem_singleton.mpr rfl), rfl,
    deliverSendCommon_ok.mpr ⟨hsendable, hsend⟩⟩

section Sending

variable (hencodes : md.Encodes c)
  (hsend : ∀ target ∈ md.commitTargets c.msg, md.Send target = true)
include hencodes hsend

theorem sendingOk_exeStep
    (h : md.SendingOk c s) (hstep : md.exeStep c s = some s') : md.SendingOk c s' := by
  obtain ⟨hrefIndex, hexe, hprop⟩ := h
  unfold exeStep at hstep
  cases hstage : s.exe with
  | set i =>
    rw [hstage] at hexe
    simp only [hstage] at hstep
    split_ifs at hstep with hi <;> cases hstep
    · refine ⟨mem_cons_of_mem _ (mem_map_of_mem (mem_range.mpr hi)), ?_, hprop⟩
      exact ⟨hi, hexe⟩
    · exact ⟨hrefIndex, fun j hj => hexe j (by omega), hprop⟩
  | marshal i =>
    rw [hstage] at hexe
    obtain ⟨msgBytes, hmarshal, hsendable⟩ := hencodes s.RefIndex hrefIndex
    simp only [hstage, hmarshal, Option.some.injEq] at hstep
    subst hstep
    exact ⟨hrefIndex, ⟨hexe.1, hsendable, hexe.2⟩, hprop⟩
  | send i msgBytes =>
    rw [hstage] at hexe
    simp only [hstage, Option.some.injEq] at hstep
    subst hstep
    obtain ⟨hi, hsendable, hbefore⟩ := hexe
    refine ⟨hrefIndex, ?_, hprop.mono (reached_append rfl)⟩
    intro j hj
    rcases Nat.lt_succ_iff_lt_or_eq.mp hj with hj | rfl
    · exact reached_append rfl _ (hbefore j hj)
    · exact reached_last rfl hsendable (hsend _ (executors_mem_commitTargets hi))
  | done =>
    simp only [hstage] at hstep
    cases hstep

theorem sendingOk_propStep
    (h : md.SendingOk c s) (hstep : md.propStep c s = some s') : md.SendingOk c s' := by
  obtain ⟨hrefIndex, hexe, hprop⟩ := h
  unfold propStep at hstep
  cases hstage : s.prop with
  | set =>
    simp only [hstage, Option.some.injEq] at hstep
    subst hstep
    exact ⟨mem_cons_self, hexe, trivial⟩
  | marshal =>
    obtain ⟨msgBytes, hmarshal, hsendable⟩ := hencodes s.RefIndex hrefIndex
    simp only [hstage, hmarshal, Option.some.injEq] at hstep
    subst hstep
    exact ⟨hrefIndex, hexe, hsendable⟩
  | sendProposers msgBytes =>
    rw [hstage] at hprop
    simp only [hstage, Option.some.injEq] at hstep
    subst hstep
    refine ⟨hrefIndex, hexe.mono (reached_append rfl), hprop, ?_⟩
    exact reached_last rfl hprop (hsend _ mem_cons_self)
  | sendValidators msgBytes =>
    rw [hstage] at hprop
    simp only [hstage, Option.some.injEq] at hstep
    subst hstep
    refine ⟨hrefIndex, hexe.mono (reached_append rfl), reached_append rfl _ hprop.2, ?_⟩
    exact reached_last rfl hprop.1 (hsend _ (mem_cons_of_mem _ mem_cons_self))
  | done =>
    simp only [hstage] at hstep
    cases hstep

theorem reached_of_run {turns : List Turn}
    (hrun : turns.foldlM (md.commitStep c) (startSending c) = some s) (hexe : s.exe = .done)
    (hprop : s.prop = .done) : ∀ target ∈ md.commitTargets c.msg, s.Reached target := by
  have hstart : md.SendingOk c (startSending c) :=
    ⟨mem_cons_self, fun j hj => absurd hj (Nat.not_lt_zero j), trivial⟩
  have hok : md.SendingOk c s := by
    refine run_invariant (fun s turn s' hs hstep => ?_) hstart hrun
    cases turn with
    | exe => exact sendingOk_exeStep hencodes hsend hs hstep
    | prop => exact sendingOk_propStep hencodes hsend hs hstep
  obtain ⟨-, hexeOk, hpropOk⟩ := hok
  rw [hexe] at hexeOk
  rw [hprop] at hpropOk
  intro target htarget
  simp only [commitTargets, mem_cons, mem_map, mem_range] at htarget
  rcases htarget with rfl | rfl | ⟨j, hj, rfl⟩
  · exact hpropOk.1
  · exact hpropOk.2
  · exact hexeOk j hj

end Sending

def exeAttempts (md : MessageDeliver) (c : SignedCommit) (i : Nat) : List SendAttempt :=
  match c.Marshal md (UInt32.ofNat i) with
  | none => []
  | some msgBytes =>
    [md.deliverSendCommon (.executors i)
      (((md.exeCtxs c.msg.BlockHead)[i]?).getD none) .commit msgBytes]

def propAttempts (md : MessageDeliver) (c : SignedCommit) : List SendAttempt :=
  match c.Marshal md c.orginRefIndex with
  | none => []
  | some msgBytes =>
    [md.deliverSendCommon .proposers md.proposerPeers .commit msgBytes,
      md.deliverSendCommon .validators md.validatorPeers .commit msgBytes]

theorem exists_exe_run (md : MessageDeliver) (c : SignedCommit) {k i : Nat}
    (hlength : (md.exeCtxs c.msg.BlockHead).length = i + k) (hexe : s.exe = .set i) :
    ∃ (turns : List Turn) (s' : CommitSending),
      turns.foldlM (md.commitStep c) s = some s' ∧ s'.exe = .done ∧ s'.prop = s.prop ∧
        s'.attempts = s.attempts ++ (range' i k).flatMap (md.exeAttempts c) := by
  induction k generalizing i s with
  | zero =>
    refine ⟨[.exe], { s with exe := .done }, ?_, rfl, rfl, by simp⟩
    simp [commitStep, exeStep, hexe, hlength]
  | succ k ih =>
    -- one round writes the index, encodes the message and sends it
    have hround : ∃ (turns : List Turn) (s' : CommitSending),
        turns.foldlM (md.commitStep c) s = some s' ∧ s'.exe = .set (i + 1) ∧ s'.prop = s.prop ∧
        s'.attempts = s.attempts ++ md.exeAttempts c i := by
      have hi : i < (md.exeCtxs c.msg.BlockHead).length := by omega
      cases hmarshal : c.Marshal md (UInt32.ofNat i) with
      | none =>
        refine ⟨[.exe, .exe], { s with RefIndex := UInt32.ofNat i, exe := .set (i + 1) },
          ?_, rfl, rfl, by simp [exeAttempts, hmarshal]⟩
        simp [commitStep, exeStep, hexe, hi, hmarshal]
      | some msgBytes =>
        refine ⟨[.exe, .exe, .exe], { s with
            RefIndex := UInt32.ofNat i
            exe := .set (i + 1)
            attempts := s.attempts ++ md.exeAttempts c i }, ?_, rfl, rfl, rfl⟩
        simp [commitStep, exeStep, exeAttempts, hexe, hi, hmarshal]
    obtain ⟨first, m, hfirst, hmexe, hmprop, hmattempts⟩ := hround
    obtain ⟨rest, s', hrest, hdone, hprop, hattempts⟩ := ih (by omega) hmexe
    refine ⟨first ++ rest, s', run_append_iff.mpr ⟨m, hfirst, hrest⟩, hdone, ?_, ?_⟩
    · rw [hprop, hmprop]
    · rw [hattempts, hmattempts, range'_succ, flatMap_cons, append_assoc]

theorem exists_prop_run (md : MessageDeliver) (c : SignedCommit) (hprop : s.prop = .set) :
    ∃ (turns : List Turn) (s' : CommitSending),
      turns.foldlM (md.commitStep c) s = some s' ∧ s'.prop = .done ∧ s'.exe = s.exe ∧
        s'.attempts = s.attempts ++ md.propAttempts c := by
  cases hmarshal : c.Marshal md c.orginRefIndex with
  | none =>
    refine ⟨[.prop, .prop], { s with RefIndex := c.orginRefIndex, prop := .done },
      ?_, rfl, rfl, by simp [propAttempts, hmarshal]⟩
    simp [commitStep, propStep, hprop, hmarshal]
  | some msgBytes =>
    refine ⟨[.prop, .prop, .prop, .prop], { s with
        RefIndex := c.orginRefIndex
        prop := .done
        attempts := s.attempts ++ md.propAttempts c }, ?_, rfl, rfl, rfl⟩
    simp [commitStep, propStep, propAttempts, hprop, hmarshal]

theorem exists_sequential_run (md : MessageDeliver) (c : SignedCommit) :
    ∃ (turns : List Turn) (s : CommitSending),
      turns.foldlM (md.commitStep c) (startSending c) = some s ∧ s.exe = .done ∧
        s.prop = .done ∧ s.attempts =
          (range (md.exeCtxs c.msg.BlockHead).length).flatMap (md.exeAttempts c) ++
            md.propAttempts c := by
  obtain ⟨turns, m, hrun, hmexe, hmprop, hmattempts⟩ :=
    exists_exe_run md c (s := startSending c) (Nat.zero_add _).symm rfl
  obtain ⟨turns', s, hrun', hprop, hexe, hattempts⟩ := exists_prop_run md c hmprop
  refine ⟨turns ++ turns', s, run_append_iff.mpr ⟨m, hrun, hrun'⟩, ?_, hprop, ?_⟩
  · rw [hexe, hmexe]
  · rw [hattempts, hmattempts, range_eq_range']
    rfl

theorem sendable_of_mem_attempts {a : SendAttempt}
    (ha : a ∈ (range (md.exeCtxs c.msg.BlockHead).length).flatMap (md.exeAttempts c) ++
      md.propAttempts c) (hok : a.ok = true) :
    md.Send a.target = true ∧
      ∃ msgBytes, md.Sendable msgBytes ∧
        ((∃ i, a.target = .executors i ∧ c.Marshal md (UInt32.ofNat i) = some msgBytes) ∨
          (∀ i, a.target ≠ .executors i) ∧ c.Marshal md c.orginRefIndex = some msgBytes) := by
  rcases mem_append.mp ha with hexe | hprop
  · obtain ⟨i, -, hi⟩ := mem_flatMap.mp hexe
    unfold exeAttempts at hi
    split at hi
    · cases hi
    · next msgBytes hmarshal =>
        obtain rfl := mem_singleton.mp hi
        obtain ⟨hsendable, hsend⟩ := deliverSendCommon_ok.mp hok
        exact ⟨hsend, msgBytes, hsendable, .inl ⟨i, rfl, hmarshal⟩⟩
  · unfold propAttempts at hprop
    split at hprop
    · cases hprop
    next msgBytes hmarshal =>
      simp only [mem_cons, not_mem_nil, or_false] at hprop
      rcases hprop with rfl | rfl
      all_goals
        obtain ⟨hsendable, hsend⟩ := deliverSendCommon_ok.mp hok
        refine ⟨hsend, msgBytes, hsendable, .inr ⟨?_, hmarshal⟩⟩
        rintro i ⟨⟩

theorem reported_commit_iff {msg : CommitMessage} {refIndex : UInt32} :
    (∀ d, DeliversCommit md msg refIndex d → d.Reported (md.commitTargets msg)) ↔
      md.CommitReaches msg refIndex := by
  constructor
  · intro hreported sigData pubKey hsign hkey
    obtain ⟨turns, s, hrun, hexe, hprop, hattempts⟩ :=
      exists_sequential_run md ⟨msg, refIndex, sigData, pubKey⟩
    have hcomplete := (hreported _ (.sent hsign hkey hrun hexe hprop)).complete rfl
    rw [hattempts] at hcomplete
    refine ⟨?_, ?_⟩
    · intro r hr
      rcases mem_cons.mp hr with rfl | hr
      · obtain ⟨a, ha, htarget, hok⟩ := hcomplete .proposers mem_cons_self
        obtain ⟨-, msgBytes, hsendable, ⟨i, hi, -⟩ | ⟨-, hmarshal⟩⟩ :=
          sendable_of_mem_attempts ha hok
        · rw [htarget] at hi
          cases hi
        · exact ⟨msgBytes, hmarshal, hsendable⟩
      · obtain ⟨i, hi, rfl⟩ := mem_map.mp hr
        obtain ⟨a, ha, htarget, hok⟩ := hcomplete (.executors i)
          (executors_mem_commitTargets (mem_range.mp hi))
        obtain ⟨-, msgBytes, hsendable, ⟨j, hj, hmarshal⟩ | ⟨hnot, -⟩⟩ :=
          sendable_of_mem_attempts ha hok
        · obtain rfl : i = j := by
            rw [htarget] at hj
            injection hj
          exact ⟨msgBytes, hmarshal, hsendable⟩
        · exact absurd htarget (hnot i)
    · intro target htarget
      obtain ⟨a, ha, rfl, hok⟩ := hcomplete target htarget
      exact (sendable_of_mem_attempts ha hok).1
  · intro hgood d hd
    cases hd with
    | sent hsign hkey hrun hexe hprop =>
      obtain ⟨hencodes, hsend⟩ := hgood _ _ hsign hkey
      have hreached := reached_of_run hencodes hsend hrun hexe hprop
      refine ⟨fun _ => hreached, ?_⟩
      intro _ target htarget
      obtain ⟨a, ha, heq, -⟩ := hreached target htarget
      exact ⟨a, ha, heq⟩
    | _ => exact Delivery.reported_of_error _ _

end Commit

/-- **When a delivery may be believed**: a proposal, exactly when it cannot be made or the proposers
can be reached; a commit message, exactly when it cannot be signed or every encoding and send
succeeds. -/
theorem delivery_iff (md : MessageDeliver) :
    (∀ msg, (md.deliverProposeMessage msg).Reported [.proposers, .validators] ↔
      ∀ msgBytes, md.proposeBytes msg = .ok msgBytes →
        (md.deliverSendCommon .proposers md.proposerPeers .propose msgBytes).ok = true) ∧
    (∀ msg, (md.deliverBestProposeMessage msg).Reported [.proposers, .validators] ↔
      ∀ msgBytes, md.bestProposeBytes msg = .ok msgBytes →
        (md.deliverSendCommon .proposers md.proposerPeers .bestPropose msgBytes).ok = true) ∧
    ∀ msg refIndex,
      (∀ d, DeliversCommit md msg refIndex d → d.Reported (md.commitTargets msg)) ↔
        md.CommitReaches msg refIndex :=
  ⟨fun _ => reported_deliverBytes_iff, fun _ => reported_deliverBytes_iff,
    fun _ _ => reported_commit_iff⟩

def cutOff : MessageDeliver where
  nodeID := [1]
  strategy := .specifically
  GetActiveProposerIDs := [[1], [2]]
  GetActiveValidatorIDs := [[3]]
  GetActiveExecutorIDsOfDomain := fun _ => [[4]]
  dkgBls := some fun _ => some ([], [])
  Sign := fun _ => some []
  ConvertToPublic := some []
  marshalPropose := fun msg _ _ => some msg.BlockHead
  marshalBestPropose := fun msg _ _ => some msg.PropMsgData
  marshalCommit := fun msg _ _ _ => some msg.BlockHead
  marshalConsensusMessage := fun _ dataBytes => some dataBytes
  Send := fun target => target ≠ .proposers
  HeadChunks := fun _ => []
  DomainID := fun _ => []

/-- A proposal is lost, a commit message reaches two networks; both return nil. -/
theorem deliver_nil_of_cutOff :
    cutOff.deliverProposeMessage (some ⟨[], 0, 0, 0, 0, [], [], [], [7]⟩) =
      { err := none
        attempts := [⟨.proposers, some [[2]], [7], false⟩] } ∧
    cutOff.deliverBestProposeMessage (some ⟨[], 0, 0, 0, 0, [], [], [8]⟩) =
      { err := none
        attempts := [⟨.proposers, some [[2]], [8], false⟩] } ∧
    DeliversCommit cutOff ⟨[], 0, 0, 0, 0, [9]⟩ 0
      { err := none
        attempts := [⟨.executors 0, none, [9], true⟩, ⟨.proposers, some [[2]], [9], false⟩,
          ⟨.validators, some [[3]], [9], true⟩] } := by
  refine ⟨by decide, by decide, ?_⟩
  have hrun : [Turn.exe, .exe, .exe, .exe, .prop, .prop, .prop, .prop].foldlM
      (cutOff.commitStep ⟨⟨[], 0, 0, 0, 0, [9]⟩, 0, [], []⟩)
      (startSending ⟨⟨[], 0, 0, 0, 0, [9]⟩, 0, [], []⟩) =
        some ⟨0, .done, .done, [⟨.executors 0, none, [9], true⟩,
          ⟨.proposers, some [[2]], [9], false⟩, ⟨.validators, some [[3]], [9], true⟩]⟩ := by
    decide
  exact .sent rfl rfl hrun rfl rfl

end MessageDeliver

end Topia.Consensus
