import Topia.Lib.Run
import Topia.Lib.Lru
import Topia.Consensus.Messages

/-!
# The voting part of the consensus validator

`consensus/validator.go` votes on two paths: a collection timer votes for the cached proposal when
it fires; a received best proposal is voted for directly. Both go through `produceVoteAndDeliver`,
which looks the proposal up in the memory of votes (`propMsgVoted`, a cache of five keys) and
records the key after the vote has been delivered.

The check and the delivery are separate steps, as nothing orders the two paths between them. A timer
holds the read lock of `propMsgCached` until its vote is delivered.
-/

namespace Topia.Consensus

open Lib

structure ValidatorEnv where
  nodeID : Bytes
  /-- `marshaler.Unmarshal` into a `ProposeMessage`. -/
  unmarshal : Bytes → Option ProposeMessage

/-- A checked vote; `checkedAt` votes were recorded before. -/
structure PendingVote where
  propMsg : ProposeMessage
  checkedAt : Nat
deriving DecidableEq, Repr

structure SentVote where
  vote : VoteMessage
  (proposer propMsgKey : Bytes)
  checkedAt : Nat
deriving DecidableEq, Repr

def propMsgKey (propMsg : ProposeMessage) : Bytes :=
  propMsg.ChainID ++ ascii "@" ++
    formatUint propMsg.Version ++ ascii "@" ++
    formatUint propMsg.Epoch ++ ascii "@" ++
    formatUint propMsg.Round ++ ascii "@" ++
    formatUint propMsg.StateVersion ++ ascii "@" ++
    propMsg.Proposer

/-- `consensusValidator`: `collecting` is being validated, `timers` are the collection timers,
`timerVotes` and `bestVote` are in progress, `sent` is delivered. -/
structure Validator (LV : Lru Bytes) (LC : Lru Nat) where
  propMsgCached : Option ProposeMessage
  bestPropMsgCached : Option BestProposeMessage
  propMsgVoted : LV.Cache
  commitMsg : LC.Cache
  collecting : Option ProposeMessage
  timers : Nat
  timerVotes : List PendingVote
  bestVote : Option (BestProposeMessage × PendingVote)
  sent : List SentVote

namespace Validator

variable {LV : Lru Bytes} {LC : Lru Nat}

def newConsensusValidator (LV : Lru Bytes) (LC : Lru Nat) : Validator LV LC where
  propMsgCached := none
  bestPropMsgCached := none
  propMsgVoted := LV.new 5
  commitMsg := LC.new 5
  collecting := none
  timers := 0
  timerVotes := []
  bestVote := none
  sent := []

variable (env : ValidatorEnv) (v : Validator LV LC) (best : BestProposeMessage)
  (propMsg : ProposeMessage)

def haveVoted : Bool :=
  LV.Contains v.propMsgVoted (propMsgKey propMsg)

/-- `produceVoteAndDeliver` before the delivery; `none` is an error. -/
def beginVote : Option PendingVote :=
  if v.haveVoted propMsg then none
  else if propMsg.Proposer = env.nodeID then none
  else some { propMsg := propMsg, checkedAt := v.sent.length }

def deliverVote (p : PendingVote) (signature pubKey : Bytes) : Validator LV LC :=
  { v with
    propMsgVoted := LV.Add v.propMsgVoted (propMsgKey p.propMsg)
    sent := v.sent ++
      [{ vote :=
          { produceVoteMsg env.nodeID p.propMsg with
            Signature := signature
            PubKey := pubKey }
         proposer := p.propMsg.Proposer
         propMsgKey := propMsgKey p.propMsg
         checkedAt := p.checkedAt }] }

/-- Usable, with a new timer, and the new cache. -/
def validateAndCollectProposeMsg (valid : Bool) (maxPri propProposer : Bytes)
    (propMsg : ProposeMessage) : Bool × Bool × Validator LV LC :=
  if ¬ valid then (false, false, v)
  else
    match v.propMsgCached with
    | some cached =>
      if propMsg.ChainID = cached.ChainID ∧
          propMsg.Round = cached.Round ∧
          propMsg.StateVersion = cached.StateVersion then
        if cached.Proposer = propProposer then (false, false, v)
        else if setBytes cached.MaxPri < setBytes maxPri then
          -- the source compares the proposer of the cache after replacing it
          (true, propMsg.Proposer = env.nodeID, { v with propMsgCached := some propMsg })
        else (false, false, v)
      else (true, true, { v with propMsgCached := some propMsg })
    | none => (true, true, { v with propMsgCached := some propMsg })

def checkValidBestProposeMsg : Bool :=
  match v.bestPropMsgCached with
  | none => true
  | some cached =>
    if best.ChainID = cached.ChainID ∧
        best.Version = cached.Version ∧
        best.Epoch = cached.Epoch ∧
        best.Round = cached.Round ∧
        best.StateVersion = cached.StateVersion then
      if best.Proposer = cached.Proposer then false
      else ¬ setBytes best.MaxPri < setBytes cached.MaxPri
    else true

/-- What can happen; `signed` is `none` when the vote could not be delivered. -/
inductive Event where
  /-- The propose loop takes a message from its channel. -/
  | propose (propMsg : ProposeMessage) (selfSelected : Bool) (latestHeight : Option Nat)
  /-- The propose loop has the outcome of the result validation. -/
  | collect (valid : Bool)
  /-- The node's own proposer caches its proposal. -/
  | ownPropose (maxPri : Bytes) (propMsg : ProposeMessage) (valid : Bool)
  /-- A collection timer fires. -/
  | timeout
  | timerDeliver (i : Nat) (signed : Option (Bytes × Bytes))
  /-- The best-propose loop takes a message from its channel. -/
  | bestPropose (best : BestProposeMessage) (selfSelected : Bool)
  | bestDeliver (signed : Option (Bytes × Bytes))
  /-- A commit message for a state version is recorded. -/
  | commit (stateVersion : Nat)
deriving DecidableEq, Repr

def receivePropose (selfSelected : Bool) (latestHeight : Option Nat) : Validator LV LC :=
  if ¬ selfSelected then v
  else if LC.Contains v.commitMsg propMsg.StateVersion then v
  else
    match latestHeight with
    | none => v
    | some height =>
      if propMsg.StateVersion ≤ height then v
      else { v with collecting := some propMsg }

def collectPropose (valid : Bool) : Validator LV LC :=
  match v.validateAndCollectProposeMsg env valid propMsg.MaxPri propMsg.Proposer propMsg with
  | (ok, canCollectStart, v') =>
    { v' with
      collecting := none
      timers := if ok ∧ canCollectStart then v'.timers + 1 else v'.timers }

def receiveBestPropose (selfSelected : Bool) : Validator LV LC :=
  if ¬ selfSelected then v
  else if LC.Contains v.commitMsg best.StateVersion then v
  else if ¬ v.checkValidBestProposeMsg best then v
  else
    match env.unmarshal best.PropMsgData with
    | none => v
    | some propMsg =>
      match v.beginVote env propMsg with
      | none => v
      | some p => { v with bestVote := some (best, p) }

def timerFired : Validator LV LC :=
  match v.beginVote env propMsg with
  | none => { v with timers := v.timers - 1 }
  | some p => { v with timers := v.timers - 1, timerVotes := v.timerVotes ++ [p] }

def step : Event → Option (Validator LV LC)
  | .propose propMsg selfSelected latestHeight =>
    -- the loop takes its next message only when it is done with the last one
    if v.collecting.isSome then none
    else some (v.receivePropose propMsg selfSelected latestHeight)
  | .collect valid =>
    match v.collecting with
    | none => none
    | some propMsg =>
      -- the cache is written under the lock that timers hold for reading
      if v.timerVotes = [] then some (v.collectPropose env propMsg valid) else none
  | .ownPropose maxPri propMsg valid =>
    if v.timerVotes = [] then
      some (v.validateAndCollectProposeMsg env valid maxPri env.nodeID propMsg).2.2
    else none
  | .timeout =>
    if v.timers = 0 then none
    else v.propMsgCached.map (v.timerFired env)
  | .timerDeliver i signed =>
    (v.timerVotes[i]?).map fun p =>
      let v' := { v with timerVotes := v.timerVotes.eraseIdx i }
      match signed with
      | none => v'
      | some (signature, pubKey) => v'.deliverVote env p signature pubKey
  | .bestPropose best selfSelected =>
    if v.bestVote.isSome then none
    else some (v.receiveBestPropose env best selfSelected)
  | .bestDeliver signed =>
    v.bestVote.map fun (best, p) =>
      let v' := { v with bestVote := none }
      match signed with
      | none => v'
      | some (signature, pubKey) =>
        { v'.deliverVote env p signature pubKey with bestPropMsgCached := some best }
  | .commit stateVersion =>
    some { v with commitMsg := (LC.ContainsOrAdd v.commitMsg stateVersion).2 }

end Validator

end Topia.Consensus
