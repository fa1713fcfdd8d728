import Topia.Consensus.VoteSafety

/-!
# The best proposal of a state version

A validator keeps one proposal, `propMsgCached`, for all state versions; the collection timer votes
for it, and `broadcastBestProposeMsg` forwards it. A proposal of the cached chain, round and version
replaces it if its priority is larger and its proposer another one; any other proposal replaces it
in any case.

A run records the proposals that were validated, cached, and voted for or forwarded.
-/

namespace Topia.Consensus

open Lib

variable {LV : Lru Bytes} {LC : Lru Nat}

def priority (propMsg : ProposeMessage) : Nat :=
  setBytes propMsg.MaxPri

def SameRound (propMsg cached : ProposeMessage) : Prop :=
  propMsg.ChainID = cached.ChainID ∧ propMsg.Round = cached.Round ∧
    propMsg.StateVersion = cached.StateVersion

structure Choice where
  stateVersion : Nat
  propMsg : ProposeMessage
  validated : List ProposeMessage
deriving DecidableEq, Repr

/-- A validator with its past: `cached` is in the order of the cache. -/
structure BestRun (LV : Lru Bytes) (LC : Lru Nat) where
  validator : Validator LV LC
  (validated cached : List ProposeMessage)
  chosen : List Choice

open Validator

/-- An event of the validator, or `broadcastBestProposeMsg` and its delivery. -/
inductive BestEvent where
  | validator (event : Event)
  | broadcast (delivered : Bool)
deriving DecidableEq, Repr

namespace Validator

/-- `broadcastBestProposeMsg` up to the delivery. A nil cache panics. -/
def broadcastBestProposeMsg (marshal : ProposeMessage → Bytes) (v : Validator LV LC) :
    Option (Option BestProposeMessage) :=
  v.propMsgCached.map fun propMsg =>
    if LC.Contains v.commitMsg propMsg.StateVersion then none
    else
      some
        { ChainID := propMsg.ChainID
          Version := CONSENSUS_VER
          Epoch := propMsg.Epoch
          Round := propMsg.Round
          StateVersion := propMsg.StateVersion
          MaxPri := propMsg.MaxPri
          Proposer := propMsg.Proposer
          PropMsgData := marshal propMsg }

def validatedBy (v : Validator LV LC) : Event → Option ProposeMessage
  | .collect true => v.collecting
  | .ownPropose _ propMsg true => some propMsg
  | _ => none

def votedBy (v : Validator LV LC) : Event → Option ProposeMessage
  | .timerDeliver i (some _) => v.timerVotes[i]?.map PendingVote.propMsg
  | _ => none

end Validator

namespace BestRun

def start (LV : Lru Bytes) (LC : Lru Nat) : BestRun LV LC where
  validator := newConsensusValidator LV LC
  validated := []
  cached := []
  chosen := []

def record (env : ValidatorEnv) (s : BestRun LV LC) (event : Event)
    (v' : Validator LV LC) : BestRun LV LC where
  validator := v'
  validated := s.validated ++ (s.validator.validatedBy event).toList
  cached :=
    if v'.propMsgCached = s.validator.propMsgCached then s.cached
    else s.cached ++ v'.propMsgCached.toList
  chosen := s.chosen ++ ((s.validator.votedBy event).map fun propMsg =>
    { stateVersion := (produceVoteMsg env.nodeID propMsg).StateVersion
      propMsg := propMsg
      validated := s.validated : Choice }).toList

def step (env : ValidatorEnv) (marshal : ProposeMessage → Bytes) (s : BestRun LV LC) :
    BestEvent → Option (BestRun LV LC)
  | .validator event => (s.validator.step env event).map (s.record env event)
  | .broadcast delivered =>
    match s.validator.propMsgCached, s.validator.broadcastBestProposeMsg marshal with
    | some propMsg, some (some best) =>
      if delivered then
        some { s with chosen := s.chosen ++ [⟨best.StateVersion, propMsg, s.validated⟩] }
      else some s
    | some _, some none => some s
    | _, _ => none

end BestRun

section Rule

structure BestOf (validated : List ProposeMessage) (propMsg : ProposeMessage) : Prop where
  mem : propMsg ∈ validated
  largest : ∀ m ∈ validated, m.StateVersion = propMsg.StateVersion → priority m ≤ priority propMsg

structure Choice.Best (c : Choice) : Prop where
  version : c.propMsg.StateVersion = c.stateVersion
  best : BestOf c.validated c.propMsg

/-- Every choice is the best one, and the cached priority of a version does not decrease. -/
structure BestProposals (s : BestRun LV LC) : Prop where
  chosen : ∀ c ∈ s.chosen, c.Best
  cached : s.cached.Pairwise fun a b => a.StateVersion = b.StateVersion → priority a ≤ priority b

/-- A valid proposal has its own priority, not larger than the cached one of its proposer, and the
largest of its version if it does not compete with the cached one. -/
structure Orderly (s : BestRun LV LC) (maxPri propProposer : Bytes)
    (propMsg : ProposeMessage) : Prop where
  maxPri : setBytes maxPri = priority propMsg
  repeated : ∀ cached, s.validator.propMsgCached = some cached → SameRound propMsg cached →
    cached.Proposer = propProposer → priority propMsg ≤ priority cached
  returning : (∀ cached, s.validator.propMsgCached = some cached → ¬ SameRound propMsg cached) →
    ∀ m ∈ s.validated, m.StateVersion = propMsg.StateVersion → priority m ≤ priority propMsg

def OrderlyEvent (env : ValidatorEnv) (s : BestRun LV LC) : BestEvent → Prop
  | .validator (.collect true) => ∀ propMsg, s.validator.collecting = some propMsg →
      Orderly s propMsg.MaxPri propMsg.Proposer propMsg
  | .validator (.ownPropose maxPri propMsg true) => Orderly s maxPri env.nodeID propMsg
  | _ => True

end Rule

open List Option

section Cache

variable {env : ValidatorEnv} {v v' : Validator LV LC} {event : Event}
variable {maxPri propProposer : Bytes} {propMsg : ProposeMessage}

theorem cached_of_collect (env : ValidatorEnv) (v : Validator LV LC)
    (maxPri propProposer : Bytes) (propMsg : ProposeMessage) :
    let cache :=
      (v.validateAndCollectProposeMsg env true maxPri propProposer propMsg).2.2.propMsgCached
    (cache = some propMsg ∧ ∀ cached, v.propMsgCached = some cached → SameRound propMsg cached →
        setBytes cached.MaxPri < setBytes maxPri) ∨
      ∃ cached, v.propMsgCached = some cached ∧ cache = some cached ∧ SameRound propMsg cached ∧
        (cached.Proposer = propProposer ∨ setBytes maxPri ≤ setBytes cached.MaxPri) := by
  simp only [validateAndCollectProposeMsg, not_true_eq_false, if_false]
  cases hcached : v.propMsgCached with
  | none => exact .inl ⟨rfl, by simp⟩
  | some cached =>
    dsimp only
    split_ifs with hsame hproposer hlarger
    · exact .inr ⟨cached, rfl, hcached, hsame, .inl hproposer⟩
    · refine .inl ⟨rfl, ?_⟩
      rintro _ ⟨⟩ _
      exact hlarger
    · exact .inr ⟨cached, rfl, hcached, hsame, .inr (Nat.not_lt.mp hlarger)⟩
    · refine .inl ⟨rfl, ?_⟩
      rintro _ ⟨⟩ hround
      exact absurd hround hsame

/-- An event collects a valid proposal while no vote is in progress, or leaves the cache; a new vote
is for what is cached. -/
inductive CacheEffect (env : ValidatorEnv) (v v' : Validator LV LC) (event : Event) :
    Prop where
  | collected (maxPri propProposer : Bytes) (propMsg : ProposeMessage)
      (hvalidated : v.validatedBy event = some propMsg)
      (hcache : v'.propMsgCached =
        (v.validateAndCollectProposeMsg env true maxPri propProposer propMsg).2.2.propMsgCached)
      (hvotes : v'.timerVotes = [])
      (horderly : ∀ s, s.validator = v →
        OrderlyEvent env s (.validator event) → Orderly s maxPri propProposer propMsg)
  | kept (hvalidated : v.validatedBy event = none)
      (hcache : v'.propMsgCached = v.propMsgCached)
      (hvotes : ∀ p ∈ v'.timerVotes, p ∈ v.timerVotes ∨ v.propMsgCached = some p.propMsg)

theorem receivePropose_cache (propMsg : ProposeMessage) (selfSelected : Bool)
    (latestHeight : Option Nat) :
    (v.receivePropose propMsg selfSelected latestHeight).propMsgCached = v.propMsgCached ∧
      (v.receivePropose propMsg selfSelected latestHeight).timerVotes = v.timerVotes := by
  cases latestHeight <;>
    simp only [receivePropose] <;>
    split_ifs <;>
    exact ⟨rfl, rfl⟩

theorem receiveBestPropose_cache (best : BestProposeMessage) (selfSelected : Bool) :
    (v.receiveBestPropose env best selfSelected).propMsgCached = v.propMsgCached ∧
      (v.receiveBestPropose env best selfSelected).timerVotes = v.timerVotes := by
  cases hmsg : env.unmarshal best.PropMsgData with
  | none =>
    simp only [receiveBestPropose, hmsg]
    split_ifs <;> exact ⟨rfl, rfl⟩
  | some propMsg =>
    cases hbegin : v.beginVote env propMsg with
    | none | some p =>
      simp only [receiveBestPropose, hmsg, hbegin]
      split_ifs <;> exact ⟨rfl, rfl⟩

theorem cacheEffect_of_eq (hvalidated : v.validatedBy event = none)
    (hsame : v'.propMsgCached = v.propMsgCached ∧ v'.timerVotes = v.timerVotes) :
    CacheEffect env v v' event :=
  .kept hvalidated hsame.1 fun _ hp => .inl (hsame.2 ▸ hp)

theorem cacheEffect_of_step (hstep : v.step env event = some v') : CacheEffect env v v' event := by
  cases event with
  | propose propMsg selfSelected latestHeight =>
    simp only [step] at hstep
    split_ifs at hstep
    cases hstep
    exact cacheEffect_of_eq rfl (receivePropose_cache propMsg selfSelected latestHeight)
  | collect valid =>
    simp only [step] at hstep
    cases hcollecting : v.collecting with
    | none => simp [hcollecting] at hstep
    | some propMsg =>
      simp only [hcollecting] at hstep
      split_ifs at hstep with hvotes
      cases hstep
      cases valid with
      | true =>
        obtain ⟨_, _, hkeep, _⟩ := v.validateAndCollectProposeMsg_votes env true
          propMsg.MaxPri propMsg.Proposer propMsg
        refine .collected propMsg.MaxPri propMsg.Proposer propMsg hcollecting rfl
          (hkeep.trans hvotes) ?_
        rintro s rfl horderly
        exact horderly propMsg hcollecting
      | false => exact cacheEffect_of_eq rfl ⟨rfl, rfl⟩
  | ownPropose maxPri propMsg valid =>
    simp only [step] at hstep
    split_ifs at hstep with hvotes
    cases hstep
    cases valid with
    | true =>
      obtain ⟨_, _, hkeep, _⟩ :=
        v.validateAndCollectProposeMsg_votes env true maxPri env.nodeID propMsg
      refine .collected maxPri env.nodeID propMsg rfl rfl (hkeep.trans hvotes) ?_
      rintro s rfl horderly
      exact horderly
    | false => exact cacheEffect_of_eq rfl ⟨rfl, rfl⟩
  | timeout =>
    simp only [step] at hstep
    split_ifs at hstep
    obtain ⟨propMsg, hcached, rfl⟩ := map_eq_some_iff.mp hstep
    unfold timerFired
    cases hbegin : v.beginVote env propMsg with
    | none => exact cacheEffect_of_eq rfl ⟨rfl, rfl⟩
    | some p =>
      have hp : p.propMsg = propMsg := by
        unfold beginVote at hbegin
        split_ifs at hbegin
        cases hbegin
        rfl
      refine .kept rfl rfl ?_
      intro q hq
      rcases mem_append.mp hq with hq | hq
      · exact .inl hq
      · obtain rfl := mem_singleton.mp hq
        exact .inr (hp ▸ hcached)
  | timerDeliver i signed =>
    obtain ⟨p, _, rfl⟩ := map_eq_some_iff.mp hstep
    cases signed with
    | none | some s => exact .kept rfl rfl fun q hq => .inl (mem_of_mem_eraseIdx hq)
  | bestPropose best selfSelected =>
    simp only [step] at hstep
    split_ifs at hstep
    cases hstep
    exact cacheEffect_of_eq rfl (receiveBestPropose_cache best selfSelected)
  | bestDeliver signed =>
    obtain ⟨⟨best, p⟩, _, rfl⟩ := map_eq_some_iff.mp hstep
    cases signed with
    | none | some s => exact cacheEffect_of_eq rfl ⟨rfl, rfl⟩
  | commit stateVersion =>
    cases hstep
    exact cacheEffect_of_eq rfl ⟨rfl, rfl⟩

end Cache

section Run

variable {env : ValidatorEnv} {marshal : ProposeMessage → Bytes} {s s' : BestRun LV LC}

structure BestInv (s : BestRun LV LC) : Prop where
  holds : BestProposals s
  cache : ∀ c, s.validator.propMsgCached = some c → BestOf s.validated c
  votes : ∀ p ∈ s.validator.timerVotes, BestOf s.validated p.propMsg
  past : ∀ c ∈ s.cached, c ∈ s.validated

open BestRun

theorem bestInv_start : BestInv (start LV LC) where
  holds := ⟨by simp [start], Pairwise.nil⟩
  cache := by simp [start, newConsensusValidator]
  votes := by simp [start, newConsensusValidator]
  past := by simp [start]

theorem bestOf_of_collect {maxPri propProposer : Bytes} {propMsg c : ProposeMessage}
    (hcache : ∀ c, s.validator.propMsgCached = some c → BestOf s.validated c)
    (horderly : Orderly s maxPri propProposer propMsg)
    (hc : (s.validator.validateAndCollectProposeMsg env true maxPri propProposer
      propMsg).2.2.propMsgCached = some c) :
    BestOf (s.validated ++ [propMsg]) c := by
  rcases cached_of_collect env s.validator maxPri propProposer propMsg with
    ⟨hnew, hlarger⟩ | ⟨cached, hcached, hstays, hround, hreason⟩
  · -- the proposal is cached: what it replaces is smaller, or of another round
    rw [hnew] at hc
    cases hc
    refine ⟨mem_append_right _ mem_cons_self, ?_⟩
    intro m hm hversion
    rcases mem_append.mp hm with hm | hm
    · by_cases hround : ∃ cached, s.validator.propMsgCached = some cached ∧ SameRound propMsg cached
      · obtain ⟨cached, hcached, hround⟩ := hround
        have hlt := hlarger cached hcached hround
        rw [horderly.maxPri] at hlt
        have hle := (hcache cached hcached).largest m hm (hversion.trans hround.2.2)
        exact Nat.le_of_lt (Nat.lt_of_le_of_lt hle hlt)
      · exact horderly.returning (fun cached hcached hsame => hround ⟨cached, hcached, hsame⟩)
          m hm hversion
    · obtain rfl := mem_singleton.mp hm
      exact Nat.le_refl _
  · -- the cached proposal stays, and the new one is no larger
    rw [hstays] at hc
    cases hc
    have hbest := hcache c hcached
    have hle : priority propMsg ≤ priority c := by
      rcases hreason with hproposer | hle
      · exact horderly.repeated c hcached hround hproposer
      · exact horderly.maxPri ▸ hle
    refine ⟨mem_append_left _ hbest.mem, ?_⟩
    intro m hm hversion
    rcases mem_append.mp hm with hm | hm
    · exact hbest.largest m hm hversion
    · obtain rfl := mem_singleton.mp hm
      exact hle

theorem pairwise_cached {validated : List ProposeMessage} {cached : List ProposeMessage}
    {new : Option ProposeMessage} (hpast : ∀ c ∈ cached, c ∈ validated)
    (hnew : ∀ c, new = some c → BestOf validated c)
    (hcached : cached.Pairwise fun a b =>
      a.StateVersion = b.StateVersion → priority a ≤ priority b) :
    (cached ++ new.toList).Pairwise fun a b =>
      a.StateVersion = b.StateVersion → priority a ≤ priority b := by
  cases new with
  | none => simpa using hcached
  | some c =>
    refine pairwise_append.mpr ⟨hcached, pairwise_singleton _ _, ?_⟩
    intro a ha b hb hversion
    obtain rfl := mem_singleton.mp hb
    exact (hnew b rfl).largest a (hpast a ha) hversion

theorem bestInv_validator {event : Event} {v' : Validator LV LC}
    (hinv : BestInv s) (horderly : OrderlyEvent env s (.validator event))
    (hstep : s.validator.step env event = some v') : BestInv (s.record env event v') := by
  obtain ⟨⟨hchosen, hmonotone⟩, hcache, hvotes, hpast⟩ := hinv
  have hchosen' : ∀ c ∈ (s.record env event v').chosen, c.Best := by
    intro c hc
    rcases mem_append.mp hc with hc | hc
    · exact hchosen c hc
    obtain ⟨propMsg, hvoted, rfl⟩ := map_eq_some_iff.mp (mem_toList.mp hc)
    refine ⟨rfl, ?_⟩
    unfold votedBy at hvoted
    split at hvoted
    · obtain ⟨p, hp, rfl⟩ := map_eq_some_iff.mp hvoted
      exact hvotes p (mem_of_getElem? hp)
    · cases hvoted
  cases cacheEffect_of_step hstep with
  | collected maxPri propProposer propMsg hvalidated hcache' hvotes' hlift =>
    have hbest : ∀ c, v'.propMsgCached = some c → BestOf (s.validated ++ [propMsg]) c := by
      intro c hc
      rw [hcache'] at hc
      exact bestOf_of_collect hcache (hlift s rfl horderly) hc
    have hall : (s.record env event v').validated = s.validated ++ [propMsg] := by
      simp [record, hvalidated]
    have hpast' : ∀ c ∈ s.cached, c ∈ s.validated ++ [propMsg] :=
      fun c hc => mem_append_left _ (hpast c hc)
    refine ⟨⟨hchosen', ?_⟩, ?_, ?_, ?_⟩
    · simp only [record]
      split_ifs
      · exact hmonotone
      · exact pairwise_cached hpast' hbest hmonotone
    · rw [hall]
      exact hbest
    · intro p hp
      have hp' : p ∈ v'.timerVotes := hp
      rw [hvotes'] at hp'
      cases hp'
    rw [hall]
    simp only [record]
    split_ifs
    · exact hpast'
    · intro c hc
      rcases mem_append.mp hc with hc | hc
      · exact hpast' c hc
      · exact (hbest c (mem_toList.mp hc)).mem
  | kept hvalidated hcache' hvotes' =>
    have hall : (s.record env event v').validated = s.validated := by
      simp [record, hvalidated]
    have hcached : (s.record env event v').cached = s.cached := by simp [record, hcache']
    refine ⟨⟨hchosen', hcached ▸ hmonotone⟩, ?_, ?_, ?_⟩
    · intro c hc
      rw [hall]
      exact hcache c (hcache' ▸ hc)
    · intro p hp
      rw [hall]
      rcases hvotes' p hp with hp | hp
      · exact hvotes p hp
      · exact hcache _ hp
    · rw [hall, hcached]
      exact hpast

theorem bestInv_broadcast {delivered : Bool} (hinv : BestInv s)
    (hstep : s.step env marshal (.broadcast delivered) = some s') : BestInv s' := by
  simp only [BestRun.step] at hstep
  split at hstep
  · rename_i propMsg best hcached hbroadcast
    split_ifs at hstep
    · cases hstep
      have hversion : propMsg.StateVersion = best.StateVersion := by
        simp only [broadcastBestProposeMsg, hcached, map_some, some.injEq] at hbroadcast
        split_ifs at hbroadcast
        cases hbroadcast
        rfl
      refine { hinv with holds := ⟨?_, hinv.holds.cached⟩ }
      intro c hc
      rcases mem_append.mp hc with hc | hc
      · exact hinv.holds.chosen c hc
      · obtain rfl := mem_singleton.mp hc
        exact ⟨hversion, hinv.cache propMsg hcached⟩
    · cases hstep
      exact hinv
  · cases hstep
    exact hinv
  · cases hstep

theorem bestInv_step {event : BestEvent} (hinv : BestInv s) (horderly : OrderlyEvent env s event)
    (hstep : s.step env marshal event = some s') : BestInv s' := by
  cases event with
  | validator event =>
    obtain ⟨v', hv', rfl⟩ := map_eq_some_iff.mp hstep
    exact bestInv_validator hinv horderly hv'
  | broadcast delivered => exact bestInv_broadcast hinv hstep

/-- **The best-proposal rule in every run that collects in order**: the largest validated proposal
of a version is voted for and forwarded, and the cached priority never decreases. -/
theorem bestProposals_of_orderly {events : List BestEvent}
    (horderly : Along (step env marshal) (OrderlyEvent env) (start LV LC) events) :
    Throughout (step env marshal) BestProposals (start LV LC) events :=
  throughout_of_along (fun _ _ _ => bestInv_step) (fun _ => BestInv.holds) bestInv_start horderly

variable (stateVersion : Nat) (proposer maxPri : UInt8)

def proposalAt : ProposeMessage where
  ChainID := [99]
  Version := CONSENSUS_VER
  Epoch := 1
  Round := stateVersion - 1
  StateVersion := stateVersion
  MaxPri := [maxPri]
  Proposer := [proposer]
  PropDatas := []
  BlockHead := [proposer]

def received : List BestEvent :=
  [.validator (.propose (proposalAt stateVersion proposer maxPri) true (some 1)),
    .validator (.collect true)]

def timerVote : List BestEvent :=
  [.validator .timeout, .validator (.timerDeliver 0 (some ([7], [8])))]

theorem bestProposals_of_two_versions :
    Throughout (step nodeOne fun _ => []) BestProposals
        (start (listLru Bytes) (listLru Nat))
        (received 2 2 5 ++ received 2 3 9 ++ timerVote ++ [.broadcast true] ++ received 3 2 1) ∧
      ∃ s, foldlM (step nodeOne fun _ => [])
          (start (listLru Bytes) (listLru Nat))
          (received 2 2 5 ++ received 2 3 9 ++ timerVote ++ [.broadcast true] ++
            received 3 2 1) = some s ∧
        s.chosen.map (fun c => (c.stateVersion, c.propMsg.Proposer)) = [(2, [3]), (2, [3])] := by
  refine ⟨bestProposals_of_orderly ?_, _, rfl, by decide⟩
  refine ⟨trivial, ?_⟩
  rintro _ ⟨⟩
  refine ⟨?_, ?_⟩
  · rintro _ ⟨⟩
    exact ⟨rfl, by rintro _ ⟨⟩, fun _ => by decide⟩
  rintro _ ⟨⟩
  refine ⟨trivial, ?_⟩
  rintro _ ⟨⟩
  refine ⟨?_, ?_⟩
  · rintro _ ⟨⟩
    refine ⟨rfl, ?_, fun hother => absurd ⟨rfl, rfl, rfl⟩ (hother _ rfl)⟩
    rintro _ ⟨⟩ _ hproposer
    exact absurd hproposer (by decide)
  rintro _ ⟨⟩
  refine ⟨trivial, ?_⟩
  rintro _ ⟨⟩
  refine ⟨trivial, ?_⟩
  rintro _ ⟨⟩
  refine ⟨trivial, ?_⟩
  rintro _ ⟨⟩
  refine ⟨trivial, ?_⟩
  rintro _ ⟨⟩
  refine ⟨?_, fun _ _ => trivial⟩
  rintro _ ⟨⟩
  refine ⟨rfl, ?_, fun _ => by decide⟩
  rintro _ ⟨⟩ hround _
  exact absurd hround.2.2 (by decide)

/-- A proposal for version 3 displaces the better one for version 2, and a second, better proposal
is discarded. -/
theorem bestProposals_fails :
    ¬ Throughout (step nodeOne fun _ => []) BestProposals
        (start (listLru Bytes) (listLru Nat))
        (received 2 2 9 ++ received 3 2 5 ++ received 2 3 4 ++ timerVote) ∧
      ¬ Throughout (step nodeOne fun _ => []) BestProposals
        (start (listLru Bytes) (listLru Nat))
        (received 2 2 4 ++ received 2 2 9 ++ timerVote) := by
  constructor
  all_goals
    intro hall
    have hchosen := (hall _ _ prefix_rfl rfl).chosen _ mem_cons_self
    have hle := hchosen.best.largest (proposalAt 2 2 9) (by decide) (by decide)
    exact absurd hle (by decide)

end Run

end Topia.Consensus
