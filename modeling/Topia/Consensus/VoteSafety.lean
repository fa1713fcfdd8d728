import Topia.Lib.Quorum
import Topia.Consensus.Dkg
import Topia.Consensus.Validator

/-!
# What the memory of votes guarantees

The memory holds five keys, of chain, version, epoch, round, state version and proposer; it is
consulted before a vote is delivered and written after. So a second vote for a key needs a check
made before the first vote was recorded, or five other keys in between; votes for two proposers of
one state version are not excluded.
-/

namespace Topia.Consensus

open Lib

namespace Validator

variable {LV : Lru Bytes} {LC : Lru Nat}

def pending (v : Validator LV LC) : List PendingVote :=
  v.timerVotes ++ (v.bestVote.map Prod.snd).toList

inductive Effect (env : ValidatorEnv) (v v' : Validator LV LC) : Prop
  | quiet
      (hvoted : v'.propMsgVoted = v.propMsgVoted)
      (hsent : v'.sent = v.sent)
      (hpending : v'.pending ⊆ v.pending)
  | began (p : PendingVote)
      (hnew : v.haveVoted p.propMsg = false)
      (hat : p.checkedAt = v.sent.length)
      (hvoted : v'.propMsgVoted = v.propMsgVoted)
      (hsent : v'.sent = v.sent)
      (hpending : v'.pending ⊆ p :: v.pending)
  | delivered (p : PendingVote) (signature pubKey : Bytes)
      (hp : p ∈ v.pending)
      (hvoted : v'.propMsgVoted = (v.deliverVote env p signature pubKey).propMsgVoted)
      (hsent : v'.sent = (v.deliverVote env p signature pubKey).sent)
      (hpending : v'.pending ⊆ v.pending)

variable {v v' : Validator LV LC} {env : ValidatorEnv}

theorem beginVote_some {propMsg : ProposeMessage} {p : PendingVote}
    (hbegin : v.beginVote env propMsg = some p) :
    v.haveVoted p.propMsg = false ∧ p.checkedAt = v.sent.length := by
  unfold beginVote at hbegin
  split at hbegin
  · cases hbegin
  · rename_i hnew
    split at hbegin
    · cases hbegin
    · cases hbegin
      exact ⟨by simpa using hnew, rfl⟩

theorem validateAndCollectProposeMsg_votes (env : ValidatorEnv) (v : Validator LV LC) (valid : Bool)
    (maxPri propProposer : Bytes) (propMsg : ProposeMessage) :
    let v' := (v.validateAndCollectProposeMsg env valid maxPri propProposer propMsg).2.2
    v'.propMsgVoted = v.propMsgVoted ∧ v'.sent = v.sent ∧
      v'.timerVotes = v.timerVotes ∧ v'.bestVote = v.bestVote := by
  cases valid with
  | false => simp [validateAndCollectProposeMsg]
  | true =>
    cases hcached : v.propMsgCached with
    | none => simp [validateAndCollectProposeMsg, hcached]
    | some cached =>
      simp only [validateAndCollectProposeMsg, hcached]
      split_ifs <;> simp

open List

theorem receivePropose_effect (env : ValidatorEnv) (v : Validator LV LC) (propMsg : ProposeMessage)
    (selfSelected : Bool) (latestHeight : Option Nat) :
    Effect env v (v.receivePropose propMsg selfSelected latestHeight) := by
  cases latestHeight <;>
    simp only [receivePropose] <;>
    split_ifs <;>
    exact .quiet rfl rfl (Subset.refl _)

theorem collectPropose_effect (env : ValidatorEnv) (v : Validator LV LC) (propMsg : ProposeMessage)
    (valid : Bool) : Effect env v (v.collectPropose env propMsg valid) := by
  obtain ⟨hvoted, hsent, htimer, hbest⟩ :=
    v.validateAndCollectProposeMsg_votes env valid propMsg.MaxPri propMsg.Proposer propMsg
  refine .quiet hvoted hsent ?_
  simp [pending, collectPropose, htimer, hbest]

theorem receiveBestPropose_effect (env : ValidatorEnv) (v : Validator LV LC)
    (best : BestProposeMessage) (selfSelected : Bool) :
    Effect env v (v.receiveBestPropose env best selfSelected) := by
  have hsame : Effect env v v := .quiet rfl rfl (Subset.refl _)
  cases hmsg : env.unmarshal best.PropMsgData with
  | none =>
    simp only [receiveBestPropose, hmsg]
    split_ifs <;> exact hsame
  | some propMsg =>
    cases hbegin : v.beginVote env propMsg with
    | none =>
      simp only [receiveBestPropose, hmsg, hbegin]
      split_ifs <;> exact hsame
    | some p =>
      obtain ⟨hnew, hat⟩ := beginVote_some hbegin
      have hbegan : Effect env v { v with bestVote := some (best, p) } := by
        refine .began p hnew hat rfl rfl ?_
        intro q hq
        simp only [pending, Option.map_some, Option.toList_some, mem_append, mem_singleton] at hq
        rcases hq with hq | rfl
        · exact mem_cons_of_mem _ (mem_append_left _ hq)
        · simp
      simp only [receiveBestPropose, hmsg, hbegin]
      split_ifs <;> first | exact hsame | exact hbegan

theorem timerFired_effect (env : ValidatorEnv) (v : Validator LV LC) (propMsg : ProposeMessage) :
    Effect env v (v.timerFired env propMsg) := by
  unfold timerFired
  cases hbegin : v.beginVote env propMsg with
  | none => exact .quiet rfl rfl (Subset.refl _)
  | some p =>
    obtain ⟨hnew, hat⟩ := beginVote_some hbegin
    refine .began p hnew hat rfl rfl ?_
    intro q hq
    simp only [pending, mem_append, mem_singleton] at hq
    simp only [pending, mem_cons, mem_append]
    tauto

theorem step_effect {e : Event} (hstep : v.step env e = some v') : Effect env v v' := by
  cases e with
  | propose propMsg selfSelected latestHeight =>
    simp only [step] at hstep
    split_ifs at hstep
    cases hstep
    exact receivePropose_effect env v propMsg selfSelected latestHeight
  | collect valid =>
    simp only [step] at hstep
    cases hcol : v.collecting with
    | none => simp [hcol] at hstep
    | some propMsg =>
      simp only [hcol] at hstep
      split_ifs at hstep
      cases hstep
      exact collectPropose_effect env v propMsg valid
  | ownPropose maxPri propMsg valid =>
    obtain ⟨-, rfl⟩ := of_guard hstep
    obtain ⟨hvoted, hsent, htimer, hbest⟩ :=
      v.validateAndCollectProposeMsg_votes env valid maxPri env.nodeID propMsg
    refine .quiet hvoted hsent ?_
    simp [pending, htimer, hbest]
  | timeout =>
    simp only [step] at hstep
    split_ifs at hstep
    obtain ⟨propMsg, _, rfl⟩ := Option.map_eq_some_iff.mp hstep
    exact timerFired_effect env v propMsg
  | timerDeliver i signed =>
    obtain ⟨p, hp, rfl⟩ := Option.map_eq_some_iff.mp hstep
    have hsub : v.timerVotes.eraseIdx i ++ (v.bestVote.map Prod.snd).toList ⊆ v.pending :=
      append_subset.mpr
        ⟨fun q hq => mem_append_left _ (mem_of_mem_eraseIdx hq),
          subset_append_right _ _⟩
    cases signed with
    | none => exact .quiet rfl rfl hsub
    | some s =>
      have hmem : p ∈ v.pending := mem_append_left _ (mem_of_getElem? hp)
      exact .delivered p s.1 s.2 hmem rfl rfl hsub
  | bestPropose best selfSelected =>
    simp only [step] at hstep
    split_ifs at hstep
    cases hstep
    exact receiveBestPropose_effect env v best selfSelected
  | bestDeliver signed =>
    obtain ⟨⟨best, p⟩, hp, rfl⟩ := Option.map_eq_some_iff.mp hstep
    have hsub : v.timerVotes ++ [] ⊆ v.pending :=
      append_subset.mpr ⟨subset_append_left _ _, nil_subset _⟩
    cases signed with
    | none => exact .quiet rfl rfl hsub
    | some s =>
      have hmem : p ∈ v.pending := mem_append_right _ (by simp [hp])
      exact .delivered p s.1 s.2 hmem rfl rfl hsub
  | commit stateVersion =>
    cases hstep
    exact .quiet rfl rfl (Subset.refl _)

def votedAfter (LV : Lru Bytes) (sent : List SentVote) (t : Nat) : LV.Cache :=
  LV.adds (LV.new 5) ((sent.take t).map SentVote.propMsgKey)

theorem votedAfter_length (sent : List SentVote) :
    votedAfter LV sent sent.length = LV.adds (LV.new 5) (sent.map SentVote.propMsgKey) := by
  rw [votedAfter, take_length]

def CheckedAbsent (LV : Lru Bytes) (sent : List SentVote) (key : Bytes) (t : Nat) : Prop :=
  t ≤ sent.length ∧ key ∉ LV.recent (votedAfter LV sent t)

variable {key : Bytes}

theorem checkedAbsent_append {sent : List SentVote} {t : Nat}
    (habsent : CheckedAbsent LV sent key t) (more : List SentVote) :
    CheckedAbsent LV (sent ++ more) key t := by
  obtain ⟨hle, hnot⟩ := habsent
  constructor
  · simp
    omega
  · simpa [votedAfter, take_append_of_le_length hle] using hnot

/-- The memory is that of the delivered votes, each absent when checked. -/
structure Recorded (v : Validator LV LC) : Prop where
  voted : v.propMsgVoted = votedAfter LV v.sent v.sent.length
  pending_absent :
    ∀ p ∈ v.pending, CheckedAbsent LV v.sent (propMsgKey p.propMsg) p.checkedAt
  sent_absent :
    ∀ e ∈ v.sent, CheckedAbsent LV v.sent e.propMsgKey e.checkedAt

theorem newConsensusValidator_recorded :
    (newConsensusValidator LV LC).Recorded where
  voted := by simp [newConsensusValidator, votedAfter]
  pending_absent := by simp [newConsensusValidator, pending]
  sent_absent := by simp [newConsensusValidator]

theorem recorded_step {e : Event} (hv : v.Recorded) (hstep : v.step env e = some v') :
    v'.Recorded := by
  cases step_effect hstep with
  | quiet hvoted hsent hpending =>
    refine ⟨?_, ?_, ?_⟩
    · rw [hvoted, hsent, hv.voted]
    · intro p hp
      rw [hsent]
      exact hv.pending_absent p (hpending hp)
    · rw [hsent]
      exact hv.sent_absent
  | began p hnew hat hvoted hsent hpending =>
    refine ⟨?_, ?_, ?_⟩
    · rw [hvoted, hsent, hv.voted]
    · intro q hq
      rw [hsent]
      rcases mem_cons.mp (hpending hq) with rfl | hq
      · have hnot : propMsgKey q.propMsg ∉ LV.recent v.propMsgVoted := by
          rw [← LV.contains_iff]
          simpa [haveVoted] using hnew
        rw [hv.voted] at hnot
        rw [hat]
        exact ⟨Nat.le_refl _, hnot⟩
      · exact hv.pending_absent q hq
    · rw [hsent]
      exact hv.sent_absent
  | delivered p signature pubKey hp hvoted hsent hpending =>
    simp only [deliverVote] at hvoted hsent
    have habsent := hv.pending_absent p hp
    refine ⟨?_, ?_, ?_⟩
    · rw [hvoted, hsent, hv.voted, votedAfter_length, votedAfter_length, map_append,
        map_singleton, Lru.adds_append_singleton]
    · intro q hq
      rw [hsent]
      exact checkedAbsent_append (hv.pending_absent q (hpending hq)) _
    intro e he
    rw [hsent] at he ⊢
    rcases mem_append.mp he with he | he
    · exact checkedAbsent_append (hv.sent_absent e he) _
    · obtain rfl := mem_singleton.mp he
      exact checkedAbsent_append habsent _

theorem recorded_run {events : List Event}
    (hrun : events.foldlM (step env) (newConsensusValidator LV LC) = some v) : v.Recorded :=
  run_invariant (fun _ _ _ => recorded_step)
    newConsensusValidator_recorded hrun

def otherKeysBetween (sent : List SentVote) (key : Bytes) (i t : Nat) : Finset Bytes :=
  Lru.others key (((sent.take t).drop (i + 1)).map SentVote.propMsgKey)

theorem five_others_of_checkedAbsent {sent : List SentVote} {i t : Nat} {e : SentVote}
    (he : sent[i]? = some e) (hkey : e.propMsgKey = key) (habsent : CheckedAbsent LV sent key t)
    (hit : i < t) : 5 ≤ (otherKeysBetween sent key i t).card := by
  by_contra hfew
  have hfew' :
      (Lru.others key (((sent.take t).drop (i + 1)).map SentVote.propMsgKey)).card <
        LV.size (votedAfter LV sent i) := by
    rw [votedAfter, Lru.size_adds, LV.size_new]
    simpa [otherKeysBetween] using hfew
  have hsplit : sent.take t = sent.take i ++ [e] ++ (sent.take t).drop (i + 1) := by
    have hi : (sent.take t)[i]? = some e := by rw [List.getElem?_take_of_lt hit, he]
    obtain ⟨hlt, hget⟩ := List.getElem?_eq_some_iff.mp hi
    have htake : (sent.take t).take i = sent.take i := by
      rw [List.take_take, Nat.min_eq_left hit.le]
    rw [← htake, ← hget, List.take_append_getElem, List.take_append_drop]
  apply habsent.2
  have hmem := LV.mem_recent_adds (votedAfter LV sent i) key _ hfew'
  rw [votedAfter, hsplit]
  simpa [votedAfter, Lru.adds, hkey] using hmem

/-- A second vote for a recorded key comes only after five other keys. -/
def OneVotePerKey (v : Validator LV LC) : Prop :=
  ∀ i (a b : SentVote),
    v.sent[i]? = some a → b ∈ v.sent → a.propMsgKey = b.propMsgKey →
    i < b.checkedAt → 5 ≤ (otherKeysBetween v.sent a.propMsgKey i b.checkedAt).card

/-- The votes for a key are checked in turn, with fewer than five other keys in between. -/
def InWindow (v : Validator LV LC) (key : Bytes) : Prop :=
  ∀ i j (a b : SentVote),
    i < j → v.sent[i]? = some a → v.sent[j]? = some b →
    a.propMsgKey = key → b.propMsgKey = key →
    i < b.checkedAt ∧ (otherKeysBetween v.sent key i b.checkedAt).card < 5

theorem oneVotePerKey_of_recorded (hv : v.Recorded) : v.OneVotePerKey := by
  intro i a b ha hb hkey hlt
  have habsent := hv.sent_absent b hb
  rw [← hkey] at habsent
  exact five_others_of_checkedAbsent ha rfl habsent hlt

theorem eq_of_inWindow {a b : SentVote} (hone : v.OneVotePerKey) (hwin : v.InWindow key)
    (ha : a ∈ v.sent) (hb : b ∈ v.sent) (hakey : a.propMsgKey = key) (hbkey : b.propMsgKey = key) :
    a = b := by
  have hlater :
      ∀ (i j : Nat) (x y : SentVote),
        i < j → v.sent[i]? = some x → v.sent[j]? = some y →
        x.propMsgKey = key → y.propMsgKey = key → False := by
    intro i j x y hij hx hy hxkey hykey
    obtain ⟨hchecked, hfew⟩ := hwin i j x y hij hx hy hxkey hykey
    have hfive := hone i x y hx (mem_of_getElem? hy) (hxkey.trans hykey.symm) hchecked
    rw [hxkey] at hfive
    omega
  obtain ⟨i, hi⟩ := mem_iff_getElem?.mp ha
  obtain ⟨j, hj⟩ := mem_iff_getElem?.mp hb
  rcases Nat.lt_trichotomy i j with hij | rfl | hji
  · exact (hlater i j a b hij hi hj hakey hbkey).elim
  · rw [hi] at hj
    exact Option.some.inj hj
  · exact (hlater j i b a hji hj hi hbkey hakey).elim

/-- Participants whose share over `head` has been collected; one that is not faulty has sent it. -/
def Collected {n : Nat} (v : Fin n → Validator LV LC) (faulty : Finset (Fin n))
    (key head : Bytes) (shares : Finset (Fin n)) : Prop :=
  ∀ p ∈ shares, p ∉ faulty → ∃ e ∈ (v p).sent, e.propMsgKey = key ∧ e.vote.BlockHead = head

/-- **Vote safety per key.** A validator votes again for a key only when the check was made before
the first vote was recorded or after five other keys; so two heads of one key cannot both collect a
threshold inside the window. -/
theorem voteSafety (LV : Lru Bytes) (LC : Lru Nat) :
    (∀ (env : ValidatorEnv) (events : List Event) (v : Validator LV LC),
      events.foldlM (step env) (newConsensusValidator LV LC) = some v → v.OneVotePerKey) ∧
    (∀ (n : Nat) (faulty : Finset (Fin n)) (env : Fin n → ValidatorEnv)
        (events : Fin n → List Event) (v : Fin n → Validator LV LC)
        (key head₁ head₂ : Bytes) (shares₁ shares₂ : Finset (Fin n)), faulty.card ≤ (n - 1) / 3 →
      (∀ p, p ∉ faulty →
        (events p).foldlM (step (env p)) (newConsensusValidator LV LC) = some (v p) ∧
          (v p).InWindow key) → Collected v faulty key head₁ shares₁ →
      Collected v faulty key head₂ shares₂ → dkgThreshold n ≤ shares₁.card →
      dkgThreshold n ≤ shares₂.card → head₁ = head₂) := by
  have hone :
      ∀ (env : ValidatorEnv) (events : List Event) (v : Validator LV LC),
        events.foldlM (step env) (newConsensusValidator LV LC) = some v →
        v.OneVotePerKey := by
    intro env events v hrun
    exact oneVotePerKey_of_recorded (recorded_run hrun)
  refine ⟨hone, ?_⟩
  intro n faulty env events v key head₁ head₂ shares₁ shares₂ hfaulty hhonest
    hcoll₁ hcoll₂ hcard₁ hcard₂
  obtain ⟨p, hp₁, hp₂, hp⟩ :=
    two_thirds_quorums (Fintype.card_fin n) hcard₁ hcard₂ hfaulty
  obtain ⟨hrun, hwin⟩ := hhonest p hp
  obtain ⟨a, ha, hakey, rfl⟩ := hcoll₁ p hp₁ hp
  obtain ⟨b, hb, hbkey, rfl⟩ := hcoll₂ p hp₂ hp
  rw [eq_of_inWindow (hone _ _ _ hrun) hwin ha hb hakey hbkey]

def VotesAgree (v : Validator LV LC) : Prop :=
  ∀ a ∈ v.sent, ∀ b ∈ v.sent,
    a.vote.StateVersion = b.vote.StateVersion → a.vote.BlockHead = b.vote.BlockHead

instance (v : Validator LV LC) : Decidable v.VotesAgree :=
  inferInstanceAs (Decidable (∀ a ∈ v.sent, ∀ b ∈ v.sent,
    a.vote.StateVersion = b.vote.StateVersion → a.vote.BlockHead = b.vote.BlockHead))

def proposalOf (proposer head maxPri : Bytes) : ProposeMessage where
  ChainID := [99]
  Version := CONSENSUS_VER
  Epoch := 1
  Round := 1
  StateVersion := 2
  MaxPri := maxPri
  Proposer := proposer
  PropDatas := []
  BlockHead := head

def nodeOne : ValidatorEnv where
  nodeID := [1]
  unmarshal := fun _ => some (proposalOf [3] [33] [9])

def voteOnTimeout : List Event :=
  [.propose (proposalOf [2] [22] [5]) true (some 1), .collect true, .timeout,
    .timerDeliver 0 (some ([7], [8]))]

theorem voteSafety_four_participants :
    let run := voteOnTimeout.foldlM (step nodeOne)
      (newConsensusValidator (listLru Bytes) (listLru Nat))
    ∃ v, run = some v ∧ v.OneVotePerKey ∧
      ∀ head, Collected (fun _ : Fin 4 => v) {3} (propMsgKey (proposalOf [2] [22] [5]))
        head {0, 1, 3} → head = [22] := by
  have hsafe := voteSafety (listLru Bytes) (listLru Nat)
  refine ⟨_, rfl, hsafe.1 nodeOne voteOnTimeout _ rfl, ?_⟩
  intro head hhead
  refine hsafe.2 4 {3} (fun _ => nodeOne) (fun _ => voteOnTimeout) (fun _ => _)
    (propMsgKey (proposalOf [2] [22] [5])) head [22] {0, 1, 3} {0, 1, 2}
    (by decide) ?_ hhead ?_ (by decide) (by decide)
  · intro p _
    refine ⟨rfl, ?_⟩
    intro i j a b hij _ hb _ _
    have hj : j < 1 := (List.getElem?_eq_some_iff.mp hb).1
    omega
  · intro p _ _
    exact ⟨_, List.mem_singleton.mpr rfl, rfl, rfl⟩

/-- After its vote on time-out, node 1 votes for a second head of version 2. -/
theorem votesAgree_fails_on_best_propose :
    ¬ ∀ (events : List Event) (v : Validator (listLru Bytes) (listLru Nat)),
      events.foldlM (step nodeOne) (newConsensusValidator _ _) = some v →
      v.VotesAgree := by
  intro hagree
  have hfail := hagree
    (voteOnTimeout ++ [.bestPropose
        { ChainID := [99], Version := CONSENSUS_VER, Epoch := 1, Round := 1,
          StateVersion := 2, MaxPri := [9], Proposer := [3], PropMsgData := [] } true,
        .bestDeliver (some ([7], [8]))]) _ rfl
  exact absurd hfail (by decide)

end Validator

end Topia.Consensus
