import Topia.Lib.Run
import Topia.Lib.Lru
import Topia.Consensus.Dkg
import Topia.Consensus.Messages

/-!
# Collecting votes

`consensus/vote_collector.go` and the vote handling of `consensus/proposer.go`.
`receiveVoteMessageStart` takes one vote after the other from its channel, and
`proposeBlockSpecification` replaces the collector and adds the node's own vote; both end in
`aggSignDisposeWhenRecvVoteMsg`. A step is an access to a cache, a call under the lock of the
collector, or a delivery.

`history` records, oldest first, the votes that a collector took, the signatures it recovered, and
the commit messages.
-/

namespace Topia.Consensus

open Lib Chain

structure VoteCollector where
  latestHeight : Nat
  votes : List VoteMessage
  dkgBls : DKGBls

/-- How `tryAggregateSignAndAddVote` ends: nil for `discarded` and `notReached`, an error for
`failed`. -/
inductive AggSign where
  | discarded
  | notReached
  | failed
  | signature (aggSign : Bytes)
deriving DecidableEq, Repr

open VoteMessage List

namespace VoteCollector

def newConsensusVoteCollector (latestHeight : Nat) (dkgBls : DKGBls) : VoteCollector where
  latestHeight := latestHeight
  votes := []
  dkgBls := dkgBls

variable (vc : VoteCollector) (vote : VoteMessage)

def firstHead : Bytes :=
  ((vc.votes ++ [vote]).headD vote).BlockHead

def produceAggSign (msg : Bytes) (signArr : List Bytes) : AggSign :=
  match vc.dkgBls.RecoverSig msg signArr with
  | some aggSign => .signature aggSign
  | none => .failed

def addVote : VoteCollector × AggSign :=
  ({ vc with votes := vc.votes ++ [vote] },
    if vc.dkgBls.Threshold ≤ (vc.votes ++ [vote]).length then
      vc.produceAggSign (vc.firstHead vote) ((vc.votes ++ [vote]).map Signature) else .notReached)

def tryAggregateSignAndAddVote : VoteCollector × AggSign :=
  match vc.votes with
  | first :: _ =>
    if first.BlockHead ≠ vote.BlockHead then (vc, .discarded) else vc.addVote vote
  | [] => vc.addVote vote

def reset : VoteCollector :=
  { vc with votes := [] }

def SameHead (head : Bytes) : Prop :=
  ∀ v ∈ vc.votes, v.BlockHead = head

theorem firstHead_eq {vc : VoteCollector} {vote : VoteMessage}
    (hsame : vc.SameHead vote.BlockHead) :
    vc.firstHead vote = vote.BlockHead := by
  unfold firstHead
  cases hvotes : vc.votes with
  | nil => simp
  | cons first rest =>
    have hfirst := hsame first (by simp [hvotes])
    simpa using hfirst

theorem addVote_cases :
    (vc.votes.length + 1 < vc.dkgBls.Threshold ∧ (vc.addVote vote).2 = .notReached) ∨
    (vc.dkgBls.Threshold ≤ vc.votes.length + 1 ∧ vc.dkgBls.RecoverSig (vc.firstHead vote)
        ((vc.votes ++ [vote]).map Signature) = none ∧ (vc.addVote vote).2 = .failed) ∨
    ∃ aggSign,
      vc.dkgBls.RecoverSig (vc.firstHead vote)
        ((vc.votes ++ [vote]).map Signature) = some aggSign ∧
      (vc.addVote vote).2 = .signature aggSign := by
  by_cases hreached : vc.dkgBls.Threshold ≤ (vc.votes ++ [vote]).length
  · right
    have hresult : (vc.addVote vote).2 = vc.produceAggSign (vc.firstHead vote)
        ((vc.votes ++ [vote]).map Signature) := if_pos hreached
    rw [hresult]
    unfold produceAggSign
    cases vc.dkgBls.RecoverSig (vc.firstHead vote)
        ((vc.votes ++ [vote]).map Signature) with
    | none => exact .inl ⟨by simpa using hreached, rfl, rfl⟩
    | some aggSign => exact .inr ⟨aggSign, rfl, rfl⟩
  · left
    refine ⟨?_, if_neg hreached⟩
    rw [length_append, length_singleton] at hreached
    omega

theorem tryAggregateSignAndAddVote_cases {head : Bytes} (hsame : vc.SameHead head) :
    (vc.votes ≠ [] ∧ vote.BlockHead ≠ head ∧
      vc.tryAggregateSignAndAddVote vote = (vc, .discarded)) ∨
    (vc.SameHead vote.BlockHead ∧ vc.tryAggregateSignAndAddVote vote = vc.addVote vote) := by
  unfold tryAggregateSignAndAddVote
  cases hvotes : vc.votes with
  | nil =>
    right
    exact ⟨by simp [SameHead, hvotes], rfl⟩
  | cons first rest =>
    have hfirst : first.BlockHead = head := hsame first (by simp [hvotes])
    by_cases heq : first.BlockHead = vote.BlockHead
    · right
      refine ⟨?_, by simp [heq]⟩
      intro v hv
      rw [hsame v hv, ← hfirst, heq]
    · left
      refine ⟨by simp, ?_, by simp [heq]⟩
      intro hvote
      exact heq (hfirst.trans hvote.symm)

end VoteCollector

structure CommitEnv where
  nodeID : Bytes
  marshaler : Marshaler
  /-- `marshaler.Unmarshal` into a `BlockHead`. -/
  unmarshalHead : Bytes → Option BlockHead
  /-- The JSON text of a `SignatureInfo` with this key and signature. -/
  signInfo : Bytes → Bytes → Bytes

def produceCommitMsg (env : CommitEnv) (dkgBls : DKGBls) (msg : VoteMessage) (aggSign : Bytes) :
    Option CommitMessage :=
  match env.unmarshalHead msg.BlockHead with
  | none => none
  | some blockHead =>
    match dkgBls.PubKey with
    | none => none
    | some pubKey =>
      let signed := { blockHead with VoteAggSignature := some (env.signInfo pubKey aggSign) }
      match env.marshaler.marshalHead .pointer signed with
      | none => none
      | some newBlockHeadBytes =>
        some
          { ChainID := msg.ChainID
            Version := msg.Version
            Epoch := msg.Epoch
            Round := msg.Round
            StateVersion := msg.StateVersion
            BlockHead := newBlockHeadBytes }

/-- Where `aggSignDisposeWhenRecvVoteMsg` stands: before the collector, the look at the committed
versions, the addition, or the delivery. -/
inductive Dispose where
  | tryAggregate (voteMsg : VoteMessage)
  | checkCommit (voteMsg : VoteMessage) (aggSign : Bytes)
  | addCommit (voteMsg : VoteMessage) (commitMsg : CommitMessage)
  | deliver (voteMsg : VoteMessage) (commitMsg : CommitMessage)
deriving DecidableEq, Repr

inductive DisposeEnd where
  | goOn (next : Dispose)
  | ok
  | err
deriving DecidableEq, Repr

/-- Where `receiveVoteMessageStart` stands: waiting, before the checks, in the disposal, before the
reset. -/
inductive Voting where
  | idle
  | received (voteMsg : VoteMessage)
  | dispose (d : Dispose)
  | reset
deriving DecidableEq, Repr

inductive Entry where
  | collected (vote : VoteMessage)
  | aggregated (dkgBls : DKGBls) (head aggSign : Bytes)
  | sent (voteMsg : VoteMessage) (commitMsg : CommitMessage)

def AggSign.entries (vc : VoteCollector) (vote : VoteMessage) : AggSign → List Entry
  | .discarded => []
  | .notReached => [.collected vote]
  | .failed => [.collected vote]
  | .signature aggSign =>
    [.collected vote, .aggregated vc.dkgBls (vc.firstHead vote) aggSign]

/-- The votes in `consensusProposer`; `proposing` is where `proposeBlockSpecification` stands,
`commitMsg` the cache of committed versions. -/
structure VoteHandler (LV : Lru Bytes) (LC : Lru Nat) where
  votedRecord : LV.Cache
  commitMsg : LC.Cache
  dkgBls : Option DKGBls
  voteCollector : Option VoteCollector
  voting : Voting
  proposing : Option Dispose
  panicked : Bool
  history : List Entry

def voteKey (stateVersion : Nat) (voter : Bytes) : Bytes :=
  formatUint stateVersion ++ ascii "@" ++ voter

/-- `selected` and `delivered` are answers of the epoch service and the deliverer. -/
inductive VoteEvent where
  | voteMsg (msg : VoteMessage) (selected : Bool)
  | checkVote
  | disposeVote (delivered : Bool)
  | resetVotes
  | propose (latestHeight : Nat) (proposal : ProposeMessage)
  | disposeOwn (delivered : Bool)
  | updateDKGBls (dkgBls : DKGBls)
  | commitMsgReceived (stateVersion : Nat)

namespace VoteHandler

variable {LV : Lru Bytes} {LC : Lru Nat}

def newConsensusProposer (LV : Lru Bytes) (LC : Lru Nat) : VoteHandler LV LC where
  votedRecord := LV.new 200
  commitMsg := LC.new 5
  dkgBls := none
  voteCollector := none
  voting := .idle
  proposing := none
  panicked := false
  history := []

def afterAggregate (voteMsg : VoteMessage) : AggSign → DisposeEnd
  | .signature aggSign => .goOn (.checkCommit voteMsg aggSign)
  | _ => .err

variable (env : CommitEnv) (s : VoteHandler LV LC) (msg : VoteMessage) (selected : Bool)

def aggSignDispose (delivered : Bool) : Dispose → VoteHandler LV LC × DisposeEnd
  | .tryAggregate voteMsg =>
    match s.voteCollector with
    | none => ({ s with panicked := true }, .err)
    | some vc =>
      ({ s with
          voteCollector := some (vc.tryAggregateSignAndAddVote voteMsg).1
          history :=
            s.history ++ (vc.tryAggregateSignAndAddVote voteMsg).2.entries vc voteMsg },
        afterAggregate voteMsg (vc.tryAggregateSignAndAddVote voteMsg).2)
  | .checkCommit voteMsg aggSign =>
    match s.dkgBls with
    | none => ({ s with panicked := true }, .err)
    | some dkgBls =>
      match produceCommitMsg env dkgBls voteMsg aggSign with
      | none => (s, .err)
      | some commitMsg =>
        if LC.Contains s.commitMsg commitMsg.StateVersion then (s, .ok)
        else (s, .goOn (.addCommit voteMsg commitMsg))
  | .addCommit voteMsg commitMsg =>
    ({ s with commitMsg := LC.Add s.commitMsg commitMsg.StateVersion },
      .goOn (.deliver voteMsg commitMsg))
  | .deliver voteMsg commitMsg =>
    ({ s with history := s.history ++ [.sent voteMsg commitMsg] },
      if delivered then .ok else .err)

/-- A vote is taken: `setIfNotVoted` records the voter before any check. -/
def receiveVote : VoteHandler LV LC :=
  if ¬ selected then s
  else if LC.Contains s.commitMsg msg.StateVersion then s
  else
    match LV.ContainsOrAdd s.votedRecord (voteKey msg.StateVersion msg.Voter) with
    | (true, _) => s
    | (false, votedRecord) => { s with votedRecord := votedRecord, voting := .received msg }

def checkVote : VoteHandler LV LC :=
  match s.voteCollector with
  | none => { s with panicked := true }
  | some vc =>
    if msg.StateVersion ≠ wrap64 (vc.latestHeight + 1) then { s with voting := .idle }
    else
      match s.dkgBls with
      | none => { s with panicked := true }
      | some dkgBls =>
        if dkgBls.Verify msg.BlockHead msg.Signature then
          { s with voting := .dispose (.tryAggregate msg) }
        else { s with voting := .idle }

def ownVote (dkgBls : DKGBls) (proposal : ProposeMessage) : Option VoteMessage :=
  let voteMsg := produceVoteMsg env.nodeID proposal
  (dkgBls.Sign voteMsg.BlockHead).map
    (fun signed => { voteMsg with Signature := signed.1, PubKey := signed.2 })

open VoteCollector

/-- `proposeBlockSpecification` replaces the collector and makes the own vote. -/
def proposeBlock (latestHeight : Nat) (proposal : ProposeMessage) : VoteHandler LV LC :=
  match s.dkgBls with
  | none => { s with panicked := true }
  | some dkgBls =>
    { s with
      voteCollector := some (newConsensusVoteCollector latestHeight dkgBls)
      proposing := (ownVote env dkgBls proposal).map Dispose.tryAggregate }

def afterVote : DisposeEnd → Voting
  | .goOn next => .dispose next
  | .ok => .reset
  | .err => .idle

def afterOwn : DisposeEnd → Option Dispose
  | .goOn next => some next
  | .ok => none
  | .err => none

def step (e : VoteEvent) : Option (VoteHandler LV LC) :=
  if s.panicked then none
  else
    match e, s.voting, s.proposing with
    | .voteMsg msg selected, .idle, _ => some (s.receiveVote msg selected)
    | .checkVote, .received msg, _ => some (s.checkVote msg)
    | .disposeVote delivered, .dispose d, _ =>
      let result := s.aggSignDispose env delivered d
      some { result.1 with voting := afterVote result.2 }
    | .resetVotes, .reset, _ =>
      some { s with voteCollector := s.voteCollector.map reset, voting := .idle }
    | .propose latestHeight proposal, _, none => some (s.proposeBlock env latestHeight proposal)
    | .disposeOwn delivered, _, some d =>
      let result := s.aggSignDispose env delivered d
      some { result.1 with proposing := afterOwn result.2 }
    | .updateDKGBls dkgBls, _, _ => some { s with dkgBls := some dkgBls }
    | .commitMsgReceived stateVersion, _, _ =>
      some { s with commitMsg := (LC.ContainsOrAdd s.commitMsg stateVersion).2 }
    | _, _, _ => none

theorem step_cases {env : CommitEnv} {s s' : VoteHandler LV LC} {e : VoteEvent}
    (hstep : step env s e = some s') :
    s.panicked = false ∧
    match e with
    | .voteMsg msg selected => s.voting = .idle ∧ s' = s.receiveVote msg selected
    | .checkVote => ∃ msg, s.voting = .received msg ∧ s' = s.checkVote msg
    | .disposeVote delivered =>
      ∃ d, s.voting = .dispose d ∧
        s' = { (s.aggSignDispose env delivered d).1 with
                voting := afterVote (s.aggSignDispose env delivered d).2 }
    | .resetVotes =>
      s.voting = .reset ∧
        s' = { s with
                voteCollector := s.voteCollector.map reset
                voting := .idle }
    | .propose latestHeight proposal =>
      s.proposing = none ∧ s' = s.proposeBlock env latestHeight proposal
    | .disposeOwn delivered =>
      ∃ d, s.proposing = some d ∧
        s' = { (s.aggSignDispose env delivered d).1 with
                proposing := afterOwn (s.aggSignDispose env delivered d).2 }
    | .updateDKGBls dkgBls => s' = { s with dkgBls := some dkgBls }
    | .commitMsgReceived stateVersion =>
      s' = { s with commitMsg := (LC.ContainsOrAdd s.commitMsg stateVersion).2 } := by
  unfold step at hstep
  cases hpanicked : s.panicked with
  | true => simp [hpanicked] at hstep
  | false =>
    refine ⟨rfl, ?_⟩
    simp only [hpanicked, Bool.false_eq_true, if_false] at hstep
    cases e with
    | propose latestHeight proposal | disposeOwn delivered =>
      cases hproposing : s.proposing <;> simp_all
    | updateDKGBls dkgBls => simp_all
    | commitMsgReceived stateVersion => simp_all
    | _ =>
      cases hvoting : s.voting <;> simp_all

theorem receiveVote_cases :
    s.receiveVote msg selected = s ∨
    (selected = true ∧ LC.Contains s.commitMsg msg.StateVersion = false ∧
      voteKey msg.StateVersion msg.Voter ∉ LV.recent s.votedRecord ∧ s.receiveVote msg selected =
        { s with
          votedRecord := LV.Add s.votedRecord (voteKey msg.StateVersion msg.Voter)
          voting := .received msg }) := by
  unfold receiveVote
  cases selected with
  | false => simp
  | true =>
    cases hcommit : LC.Contains s.commitMsg msg.StateVersion with
    | true => simp
    | false =>
      rw [LV.containsOrAdd_eq]
      cases hvoted : LV.Contains s.votedRecord (voteKey msg.StateVersion msg.Voter) with
      | true => simp
      | false =>
        right
        refine ⟨rfl, rfl, ?_, by simp⟩
        rw [← LV.contains_iff, hvoted]
        simp

section Soundness

variable (env : CommitEnv) (history before : List Entry)

def CommitSound (voteMsg : VoteMessage) (commitMsg : CommitMessage) : Prop :=
  ∃ d d' aggSign, .aggregated d voteMsg.BlockHead aggSign ∈ before ∧
    produceCommitMsg env d' voteMsg aggSign = some commitMsg

/-- Verified shares over `head` of as many participants as the threshold. -/
def ThresholdCollected (d : DKGBls) (head : Bytes) : Prop :=
  ∃ votes : List VoteMessage,
    d.Threshold ≤ votes.length ∧
    (votes.map (fun v => d.index v.Signature)).Nodup ∧
    ∀ v ∈ votes, .collected v ∈ before ∧ v.BlockHead = head ∧
      d.Verify head v.Signature = true ∧ d.index v.Signature < d.nParticipant

def EntrySound : Entry → Prop
  | .collected _ => True
  | .aggregated d head _ => ThresholdCollected before d head
  | .sent voteMsg commitMsg => CommitSound env before voteMsg commitMsg

def DisposeSound : Dispose → Prop
  | .tryAggregate _ => True
  | .checkCommit voteMsg aggSign => ∃ d, .aggregated d voteMsg.BlockHead aggSign ∈ history
  | .addCommit voteMsg commitMsg
  | .deliver voteMsg commitMsg => CommitSound env history voteMsg commitMsg

def VotesSound (vc : VoteCollector) : Prop :=
  (∃ head, vc.SameHead head) ∧ ∀ v ∈ vc.votes, .collected v ∈ history

structure Sound (s : VoteHandler LV LC) : Prop where
  history : EveryEntry (EntrySound env) s.history
  votes : ∀ vc, s.voteCollector = some vc → VotesSound s.history vc
  voting : ∀ d, s.voting = .dispose d → DisposeSound env s.history d
  proposing : ∀ d, s.proposing = some d → DisposeSound env s.history d

variable {env : CommitEnv} {s s' : VoteHandler LV LC} {history history' : List Entry}
variable {d next : Dispose}

theorem DisposeSound.mono (hsub : history ⊆ history')
    (hd : DisposeSound env history d) : DisposeSound env history' d := by
  cases d with
  | tryAggregate voteMsg => exact trivial
  | checkCommit voteMsg aggSign =>
    obtain ⟨d, hmem⟩ := hd
    exact ⟨d, hsub hmem⟩
  | _ =>
    obtain ⟨d, d', aggSign, hmem, hproduce⟩ := hd
    exact ⟨d, d', aggSign, hsub hmem, hproduce⟩

variable {vc : VoteCollector}

theorem VotesSound.mono (hsub : history ⊆ history')
    (hvotes : VotesSound history vc) : VotesSound history' vc :=
  ⟨hvotes.1, fun v hv => hsub (hvotes.2 v hv)⟩

theorem thresholdCollected_of_recoverSig {vote : VoteMessage}
    {aggSign : Bytes}
    (hvotes : ∀ v ∈ vc.votes, .collected v ∈ history)
    (hsame : vc.SameHead vote.BlockHead)
    (hrecover : vc.dkgBls.RecoverSig (vc.firstHead vote)
      ((vc.votes ++ [vote]).map Signature) = some aggSign) :
    ThresholdCollected (history ++ [.collected vote]) vc.dkgBls (vc.firstHead vote) := by
  have hsome := (vc.dkgBls.recoverSig_isSome_iff _ _).mp (by rw [hrecover]; rfl)
  obtain ⟨hlength, hverify, hnodup⟩ := hsome
  rw [length_map] at hlength
  rw [← map_take] at hverify hnodup
  refine ⟨(vc.votes ++ [vote]).take vc.dkgBls.Threshold, ?_, ?_, ?_⟩
  · rw [length_take]
    exact le_min le_rfl hlength
  · rw [map_map] at hnodup
    exact hnodup
  intro v hv
  have hverified := hverify v.Signature (mem_map_of_mem hv)
  refine ⟨?_, ?_, hverified, vc.dkgBls.index_lt _ _ hverified⟩
  · rcases mem_append.mp (mem_of_mem_take hv) with hold | hnew
    · exact mem_append_left _ (hvotes v hold)
    · simp [mem_singleton.mp hnew]
  · rw [firstHead_eq hsame]
    rcases mem_append.mp (mem_of_mem_take hv) with hold | hnew
    · exact hsame v hold
    · rw [mem_singleton.mp hnew]

open AggSign

theorem tryAggregate_sound (vote : VoteMessage) (hhistory : EveryEntry (EntrySound env) history)
    (hvotes : VotesSound history vc) :
    EveryEntry (EntrySound env)
      (history ++ (vc.tryAggregateSignAndAddVote vote).2.entries vc vote) ∧
    VotesSound (history ++ (vc.tryAggregateSignAndAddVote vote).2.entries vc vote)
      (vc.tryAggregateSignAndAddVote vote).1 ∧
    ∀ aggSign, (vc.tryAggregateSignAndAddVote vote).2 = .signature aggSign →
      ∃ d, .aggregated d vote.BlockHead aggSign ∈
        history ++ (vc.tryAggregateSignAndAddVote vote).2.entries vc vote := by
  obtain ⟨⟨head, hsame⟩, hcollected⟩ := hvotes
  have hadd : EveryEntry (EntrySound env) (history ++ [.collected vote]) :=
    everyEntry_concat hhistory trivial
  rcases vc.tryAggregateSignAndAddVote_cases vote hsame with
    ⟨_, _, heq⟩ | ⟨hsame', heq⟩
  · simpa [heq, entries] using ⟨hhistory, ⟨head, hsame⟩, hcollected⟩
  · rw [heq]
    have hnew : ∀ entries, .collected vote ∈ entries →
        VotesSound (history ++ entries) (vc.addVote vote).1 := by
      intro entries hentry
      refine ⟨⟨vote.BlockHead, ?_⟩, ?_⟩
      · intro v hv
        rcases mem_append.mp hv with hold | hnew
        · exact hsame' v hold
        · rw [mem_singleton.mp hnew]
      · intro v hv
        rcases mem_append.mp hv with hold | hnew
        · exact mem_append_left _ (hcollected v hold)
        · rw [mem_singleton.mp hnew]
          exact mem_append_right _ hentry
    rcases vc.addVote_cases vote with ⟨_, hresult⟩ | ⟨_, _, hresult⟩ | ⟨aggSign, hrecover, hresult⟩
    · rw [hresult]
      exact ⟨hadd, hnew _ (by simp [entries]), by simp⟩
    · rw [hresult]
      exact ⟨hadd, hnew _ (by simp [entries]), by simp⟩
    · rw [hresult]
      refine ⟨?_, hnew _ (by simp [entries]), ?_⟩
      · have hthreshold :
            EntrySound env (history ++ [.collected vote])
              (.aggregated vc.dkgBls (vc.firstHead vote) aggSign) :=
          thresholdCollected_of_recoverSig hcollected hsame' hrecover
        simpa [entries] using everyEntry_concat hadd hthreshold
      · intro aggSign' heq'
        cases heq'
        exact ⟨vc.dkgBls, by simp [entries, firstHead_eq hsame']⟩

@[simp] theorem aggSignDispose_voting (s : VoteHandler LV LC) (delivered : Bool) (d : Dispose) :
    (s.aggSignDispose env delivered d).1.voting = s.voting := by
  unfold aggSignDispose
  repeat' split
  all_goals rfl

@[simp] theorem aggSignDispose_proposing (s : VoteHandler LV LC) (delivered : Bool) (d : Dispose) :
    (s.aggSignDispose env delivered d).1.proposing = s.proposing := by
  unfold aggSignDispose
  repeat' split
  all_goals rfl

theorem aggSignDispose_sound (delivered : Bool)
    (hs : Sound env s) (hd : DisposeSound env s.history d) :
    EveryEntry (EntrySound env) (s.aggSignDispose env delivered d).1.history ∧
    s.history ⊆ (s.aggSignDispose env delivered d).1.history ∧
    (∀ vc, (s.aggSignDispose env delivered d).1.voteCollector = some vc →
      VotesSound (s.aggSignDispose env delivered d).1.history vc) ∧
    ∀ next, (s.aggSignDispose env delivered d).2 = .goOn next →
      DisposeSound env (s.aggSignDispose env delivered d).1.history next := by
  cases d with
  | tryAggregate voteMsg =>
    cases hvc : s.voteCollector with
    | none =>
      simp only [aggSignDispose, hvc]
      exact ⟨hs.history, fun _ he => he, by simp, by simp⟩
    | some vc =>
      obtain ⟨hhistory, hvotes, hsign⟩ :=
        tryAggregate_sound voteMsg hs.history (hs.votes vc hvc)
      simp only [aggSignDispose, hvc]
      refine ⟨hhistory, subset_append_left _ _, ?_, ?_⟩
      · intro vc' heq
        cases heq
        exact hvotes
      intro next heq
      cases hresult : (vc.tryAggregateSignAndAddVote voteMsg).2 with
      | signature aggSign =>
        have hmem := hsign aggSign hresult
        rw [hresult] at heq hmem
        cases heq
        exact hmem
      | _ => simp [hresult, afterAggregate] at heq
  | checkCommit voteMsg aggSign =>
    cases hdkg : s.dkgBls with
    | none =>
      simp only [aggSignDispose, hdkg]
      exact ⟨hs.history, fun _ he => he, hs.votes, by simp⟩
    | some dkgBls =>
      cases hproduce : produceCommitMsg env dkgBls voteMsg aggSign with
      | none =>
        simp only [aggSignDispose, hdkg, hproduce]
        exact ⟨hs.history, fun _ he => he, hs.votes, by simp⟩
      | some commitMsg =>
        simp only [aggSignDispose, hdkg, hproduce]
        split_ifs with hcommitted
        · exact ⟨hs.history, fun _ he => he, hs.votes, by simp⟩
        · refine ⟨hs.history, fun _ he => he, hs.votes, ?_⟩
          intro next heq
          cases heq
          obtain ⟨d, hmem⟩ := hd
          exact ⟨d, dkgBls, aggSign, hmem, hproduce⟩
  | addCommit voteMsg commitMsg =>
    refine ⟨hs.history, fun _ he => he, hs.votes, ?_⟩
    intro next heq
    cases heq
    exact hd
  | deliver voteMsg commitMsg =>
    have hsub : s.history ⊆ s.history ++ [.sent voteMsg commitMsg] :=
      subset_append_left _ _
    refine ⟨everyEntry_concat hs.history hd, hsub, ?_, ?_⟩
    · intro vc hvc
      exact (hs.votes vc hvc).mono hsub
    · intro next heq
      cases delivered <;> simp [aggSignDispose] at heq

theorem goOn_of_afterVote {result : DisposeEnd}
    (hafter : afterVote result = .dispose next) : result = .goOn next := by
  cases result with
  | goOn next' =>
    cases hafter
    rfl
  | ok => cases hafter
  | err => cases hafter

theorem goOn_of_afterOwn {result : DisposeEnd}
    (hafter : afterOwn result = some next) : result = .goOn next := by
  cases result with
  | goOn next' =>
    cases hafter
    rfl
  | ok => cases hafter
  | err => cases hafter

theorem votesSound_of_no_votes (hvotes : vc.votes = []) : VotesSound history vc :=
  ⟨⟨[], by simp [SameHead, hvotes]⟩, by simp [hvotes]⟩

theorem step_sound {e : VoteEvent} (hs : Sound env s) (hstep : step env s e = some s') :
    Sound env s' := by
  obtain ⟨_, hcase⟩ := step_cases hstep
  cases e with
  | voteMsg msg selected =>
    obtain ⟨hidle, rfl⟩ := hcase
    rcases s.receiveVote_cases msg selected with heq | ⟨_, _, _, heq⟩
    · rw [heq]
      exact hs
    · rw [heq]
      exact { hs with voting := by simp }
  | checkVote =>
    obtain ⟨msg, hreceived, rfl⟩ := hcase
    unfold checkVote
    repeat' split
    · exact { hs with }
    · exact { hs with voting := by simp }
    · exact { hs with }
    · refine { hs with voting := ?_ }
      intro d heq
      cases heq
      exact trivial
    · exact { hs with voting := by simp }
  | disposeVote delivered =>
    obtain ⟨d, hdispose, rfl⟩ := hcase
    obtain ⟨hhistory, hsub, hvotes, hnext⟩ :=
      aggSignDispose_sound delivered hs (hs.voting d hdispose)
    refine ⟨hhistory, hvotes, ?_, ?_⟩
    · intro next heq
      exact hnext next (goOn_of_afterVote heq)
    · intro own hown
      simp only [aggSignDispose_proposing] at hown
      exact (hs.proposing own hown).mono hsub
  | resetVotes =>
    obtain ⟨hreset, rfl⟩ := hcase
    refine ⟨hs.history, ?_, by simp, hs.proposing⟩
    intro vc hvc
    obtain ⟨vc', hvc', rfl⟩ := Option.map_eq_some_iff.mp hvc
    exact votesSound_of_no_votes rfl
  | propose latestHeight proposal =>
    obtain ⟨hnone, rfl⟩ := hcase
    unfold proposeBlock
    cases hdkg : s.dkgBls with
    | none => exact { hs with }
    | some dkgBls =>
      refine ⟨hs.history, ?_, hs.voting, ?_⟩
      · intro vc hvc
        cases hvc
        exact votesSound_of_no_votes rfl
      · intro d heq
        obtain ⟨vote, _, rfl⟩ := Option.map_eq_some_iff.mp heq
        exact trivial
  | disposeOwn delivered =>
    obtain ⟨d, hdispose, rfl⟩ := hcase
    obtain ⟨hhistory, hsub, hvotes, hnext⟩ :=
      aggSignDispose_sound delivered hs (hs.proposing d hdispose)
    refine ⟨hhistory, hvotes, ?_, ?_⟩
    · intro other hother
      simp only [aggSignDispose_voting] at hother
      exact (hs.voting other hother).mono hsub
    · intro next heq
      exact hnext next (goOn_of_afterOwn heq)
  | updateDKGBls dkgBls =>
    have heq : s' = { s with dkgBls := some dkgBls } := hcase
    rw [heq]
    exact { hs with }
  | commitMsgReceived stateVersion =>
    have heq : s' = { s with commitMsg := (LC.ContainsOrAdd s.commitMsg stateVersion).2 } := hcase
    rw [heq]
    exact { hs with }

theorem newConsensusProposer_sound : Sound env (newConsensusProposer LV LC) := by
  refine ⟨everyEntry_nil, ?_, ?_, ?_⟩ <;> simp [newConsensusProposer]

/-- **Threshold soundness.** In every run, a recovered signature is preceded by verified shares over
its head of as many participants as the threshold, and a commit message by a recovered signature. -/
theorem thresholdSound (env : CommitEnv) (LV : Lru Bytes) (LC : Lru Nat)
    (events : List VoteEvent) (s : VoteHandler LV LC)
    (hrun : events.foldlM (step env) (newConsensusProposer LV LC) = some s) :
    EveryEntry (EntrySound env) s.history := by
  exact (run_invariant (fun _ _ _ => step_sound) newConsensusProposer_sound hrun).history

def plainEnv : CommitEnv where
  nodeID := [0]
  marshaler := marshalProto
  unmarshalHead := fun _ =>
    some
      { ChainID := [7], Version := BLOCK_VER, Height := 1, Epoch := 0, Round := 0,
        ParentBlockHash := none, Proposer := some [0], Proof := none, VRFProof := some [0],
        VRFProofHeight := 1, MaxPri := [1], VoteAggSignature := none, ChunkCount := 0,
        HeadChunks := [], StateRoot := [], TimeStamp := 0 }
  signInfo := fun pubKey aggSign => pubKey ++ aggSign

def twoParticipants : DKGBls :=
  DKGBls.plain 2 0 (by omega) (by omega)

def headNine : ProposeMessage where
  ChainID := [7]
  Version := CONSENSUS_VER
  Epoch := 0
  Round := 0
  StateVersion := 1
  MaxPri := [1]
  Proposer := [0]
  PropDatas := []
  BlockHead := [9]

def voteNine (voter : Bytes) (sign : Bytes) : VoteMessage :=
  { produceVoteMsg voter headNine with Signature := sign }

def twoVotes : List VoteEvent :=
  [.updateDKGBls twoParticipants, .propose 0 headNine, .disposeOwn true,
    .voteMsg (voteNine [1] [1, 9]) true, .checkVote, .disposeVote true, .disposeVote true,
    .disposeVote true, .disposeVote true]

theorem thresholdSound_twoVotes :
    ∃ s : VoteHandler (listLru Bytes) (listLru Nat),
      twoVotes.foldlM (step plainEnv) (newConsensusProposer _ _) = some s ∧
      s.history.length = 4 ∧ EveryEntry (EntrySound plainEnv) s.history :=
  ⟨_, rfl, rfl, thresholdSound plainEnv _ _ twoVotes _ rfl⟩

end Soundness

end VoteHandler

end Topia.Consensus
