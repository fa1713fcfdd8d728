import Topia.Consensus.VoteCollector

/-!
# When every valid vote is counted

A voter is recorded before its vote is checked, a replaced collector's voters are not forgotten, and
the collector is used before one exists.

`Orderly` steps do no harm: a vote for the version being collected brings a fresh valid share for
the proposed head, a proposal finds no voter of its version recorded, and neither a proposal nor a
new key interrupts the handling of a vote.
-/

namespace Topia.Consensus

open Lib

theorem voteKey_inj {m n : Nat} {a b : Bytes} (heq : voteKey m a = voteKey n b) :
    m = n ∧ a = b := by
  have hat : ascii "@" = [64] := by decide
  apply formatUint_append_cons_inj
  simpa [voteKey, hat] using heq

def VoteCollector.nextVersion (vc : VoteCollector) : Nat :=
  wrap64 (vc.latestHeight + 1)

def Dispose.pending : Dispose → List VoteMessage
  | .tryAggregate voteMsg => [voteMsg]
  | _ => []

def Voting.inHand : Voting → Option VoteMessage
  | .received voteMsg => some voteMsg
  | .dispose (.tryAggregate voteMsg) => some voteMsg
  | _ => none

open VoteCollector List

structure VoteCollector.Fits (vc : VoteCollector) (vote : VoteMessage) : Prop where
  same : vc.SameHead vote.BlockHead
  verify : ∀ v ∈ vc.votes ++ [vote], vc.dkgBls.Verify vote.BlockHead v.Signature = true
  index : ((vc.votes ++ [vote]).map (fun v => vc.dkgBls.index v.Signature)).Nodup

theorem VoteCollector.tryAggregate_good {vc : VoteCollector} {vote : VoteMessage}
    (h : vc.Fits vote) :
    (vc.tryAggregateSignAndAddVote vote).1 = { vc with votes := vc.votes ++ [vote] } ∧
    ((vc.votes.length + 1 < vc.dkgBls.Threshold ∧
        (vc.tryAggregateSignAndAddVote vote).2 = .notReached) ∨
      ∃ aggSign, (vc.tryAggregateSignAndAddVote vote).2 = .signature aggSign) := by
  rcases vc.tryAggregateSignAndAddVote_cases vote h.same with ⟨_, hne, _⟩ | ⟨_, heq⟩
  · exact absurd rfl hne
  · rw [heq]
    refine ⟨rfl, ?_⟩
    rcases vc.addVote_cases vote with hfew | ⟨hreached, hnone, _⟩ | ⟨aggSign, _, hsign⟩
    · exact .inl hfew
    · exfalso
      have hgood := (vc.dkgBls.recoverSig_isSome_iff (vc.firstHead vote)
        ((vc.votes ++ [vote]).map VoteMessage.Signature)).mpr ?_
      · rw [hnone] at hgood
        cases hgood
      · rw [← map_take, firstHead_eq h.same]
        refine ⟨by simpa [DKGBls.Threshold] using hreached, ?_, ?_⟩
        · intro sig hsig
          obtain ⟨v, hv, rfl⟩ := mem_map.mp hsig
          exact h.verify v (mem_of_mem_take hv)
        · rw [map_map]
          exact h.index.sublist ((take_sublist _ _).map _)
    · exact .inr ⟨aggSign, hsign⟩

namespace VoteHandler

variable {LV : Lru Bytes} {LC : Lru Nat}

open Dispose

variable (s : VoteHandler LV LC) (vc : VoteCollector) (msg : VoteMessage)

def pendingOwn : List VoteMessage :=
  (s.proposing.map pending).getD []

def current : List VoteMessage :=
  vc.votes ++ s.pendingOwn

def Aggregated (head : Bytes) : Prop :=
  ∃ d aggSign, .aggregated d head aggSign ∈ s.history

structure ValidVote : Prop where
  key : s.dkgBls = some vc.dkgBls
  version : msg.StateVersion = vc.nextVersion
  verifies : vc.dkgBls.Verify msg.BlockHead msg.Signature = true
  proposed : s.current vc ≠ []
  head : ∀ v ∈ s.current vc, v.BlockHead = msg.BlockHead

def handleVote : List VoteEvent :=
  [.voteMsg msg true, .checkVote, .disposeVote true]

/-- No panic; a valid vote of a new voter reaches the collector; and valid votes that make up the
threshold lead to a signature. -/
structure VoteLive (env : CommitEnv) (s : VoteHandler LV LC) : Prop where
  noPanic : s.panicked = false
  counts :
    s.voting = .idle → ∀ vc msg, s.voteCollector = some vc → s.ValidVote vc msg →
      ¬ s.Aggregated msg.BlockHead → LC.Contains s.commitMsg msg.StateVersion = false →
      (∀ v ∈ s.current vc, v.Voter ≠ msg.Voter) →
      ∃ s' vc', (handleVote msg).foldlM (step env) s = some s' ∧
        s'.voteCollector = some vc' ∧ msg ∈ vc'.votes
  aggregates :
    s.voting = .idle → ∀ vc head msgs, s.voteCollector = some vc → s.current vc ≠ [] →
      (∀ v ∈ s.current vc, v.BlockHead = head) →
      (∀ m ∈ msgs, s.ValidVote vc m ∧ LC.Contains s.commitMsg m.StateVersion = false ∧
        ∀ v ∈ s.current vc, v.Voter ≠ m.Voter) →
      (msgs.map VoteMessage.Voter).Nodup →
      ((s.current vc ++ msgs).map (fun v => vc.dkgBls.index v.Signature)).Nodup →
      vc.dkgBls.Threshold ≤ vc.votes.length + msgs.length →
      ∃ k s', ((msgs.take k).flatMap handleVote).foldlM (step env) s = some s' ∧ s'.Aggregated head

def FreshIndex : Prop :=
  vc.dkgBls.index msg.Signature ∉ (s.current vc).map (fun v => vc.dkgBls.index v.Signature)

def Orderly : VoteEvent → Prop
  | .voteMsg msg selected =>
    selected = false ∨ LC.Contains s.commitMsg msg.StateVersion = true ∨
    voteKey msg.StateVersion msg.Voter ∈ LV.recent s.votedRecord ∨
    ∃ vc, s.voteCollector = some vc ∧
      (msg.StateVersion = vc.nextVersion → s.ValidVote vc msg ∧ s.FreshIndex vc msg)
  | .propose latestHeight _ =>
    s.voting = .idle ∧ s.dkgBls ≠ none ∧
    ∀ voter, voteKey (wrap64 (latestHeight + 1)) voter ∉ LV.recent s.votedRecord
  | .updateDKGBls _ => s.voting = .idle
  | _ => True

open Option

section Invariant

variable (s : VoteHandler LV LC) (vc : VoteCollector)

structure FreshShare (cur : List VoteMessage) (msg : VoteMessage) : Prop where
  version : msg.StateVersion = vc.nextVersion
  verifies : vc.dkgBls.Verify msg.BlockHead msg.Signature = true
  proposed : cur ≠ []
  head : ∀ v ∈ cur, v.BlockHead = msg.BlockHead
  index : vc.dkgBls.index msg.Signature ∉ cur.map (fun v => vc.dkgBls.index v.Signature)

def HandOk : Voting → Prop
  | .idle => True
  | .received msg =>
    msg.StateVersion = vc.nextVersion → s.dkgBls = some vc.dkgBls ∧ FreshShare vc (s.current vc) msg
  | .dispose d =>
    (∀ msg, d = .tryAggregate msg → FreshShare vc (s.current vc) msg) ∧
    (d.pending = [] → ∀ v ∈ s.current vc, s.Aggregated v.BlockHead)
  | .reset => ∀ v ∈ s.current vc, s.Aggregated v.BlockHead

/-- Valid shares of different participants for one head, no recorded voter that is neither counted
nor in hand, and a signature once there are enough. -/
structure Collection : Prop where
  key : s.dkgBls ≠ none
  verified : ∀ v ∈ s.current vc, vc.dkgBls.Verify v.BlockHead v.Signature = true
  oneHead : ∀ v ∈ s.current vc, ∀ w ∈ s.current vc, v.BlockHead = w.BlockHead
  indices : ((s.current vc).map (fun v => vc.dkgBls.index v.Signature)).Nodup
  recorded :
    ∀ v ∈ s.current vc, ¬ s.Aggregated v.BlockHead →
      ∀ voter, voteKey vc.nextVersion voter ∈ LV.recent s.votedRecord →
      (∃ w ∈ s.current vc, w.Voter = voter) ∨
      ∃ msg, s.voting.inHand = some msg ∧ msg.StateVersion = vc.nextVersion ∧ msg.Voter = voter
  reached :
    vc.dkgBls.Threshold ≤ vc.votes.length → ∀ v ∈ vc.votes, s.Aggregated v.BlockHead
  hand : s.HandOk vc s.voting

structure Collecting : Prop where
  noPanic : s.panicked = false
  noCollector : s.voteCollector = none → s.voting = .idle ∧ s.proposing = none
  collection : ∀ vc, s.voteCollector = some vc → s.Collection vc

variable {env : CommitEnv} {s s' : VoteHandler LV LC} {vc : VoteCollector}

theorem Collecting.of_collection (hpanic : s.panicked = false)
    (hvc : s.voteCollector = some vc) (hc : s.Collection vc) : s.Collecting := by
  refine ⟨hpanic, by simp [hvc], ?_⟩
  intro vc' hvc'
  rw [hvc] at hvc'
  exact some.inj hvc' ▸ hc

theorem Collecting.exists_collector (hs : s.Collecting)
    (hbusy : s.voting ≠ .idle ∨ s.proposing ≠ none) :
    ∃ vc, s.voteCollector = some vc ∧ s.Collection vc := by
  cases hvc : s.voteCollector with
  | none =>
    obtain ⟨hidle, hnone⟩ := hs.noCollector hvc
    simp [hidle, hnone] at hbusy
  | some vc => exact ⟨vc, rfl, hs.collection vc hvc⟩

theorem Collection.handAt {place : Voting} (hc : s.Collection vc) (hplace : s.voting = place) :
    s.HandOk vc place :=
  hplace ▸ hc.hand

theorem Aggregated.mono {head : Bytes} (hsub : s.history ⊆ s'.history)
    (hagg : s.Aggregated head) : s'.Aggregated head := by
  obtain ⟨d, aggSign, hmem⟩ := hagg
  exact ⟨d, aggSign, hsub hmem⟩

variable {msg vote own : VoteMessage}

theorem ValidVote.fresh (hvalid : s.ValidVote vc msg)
    (hindex : s.FreshIndex vc msg) : FreshShare vc (s.current vc) msg :=
  { hvalid with index := hindex }

theorem Collection.frame {votes : List VoteMessage} (hc : s.Collection vc)
    (hcurrent : s'.current { vc with votes := votes } = s.current vc) (hkey : s'.dkgBls = s.dkgBls)
    (hrecord : s'.votedRecord = s.votedRecord) (hvoting : s'.voting = s.voting)
    (hsub : s.history ⊆ s'.history)
    (hreached : vc.dkgBls.Threshold ≤ votes.length → ∀ v ∈ votes, s'.Aggregated v.BlockHead) :
    s'.Collection { vc with votes := votes } where
  key := by
    rw [hkey]
    exact hc.key
  verified := by
    rw [hcurrent]
    exact hc.verified
  oneHead := by
    rw [hcurrent]
    exact hc.oneHead
  indices := by
    rw [hcurrent]
    exact hc.indices
  recorded := by
    rw [hcurrent, hrecord, hvoting]
    intro v hv hopen
    exact hc.recorded v hv (fun hagg => hopen (hagg.mono hsub))
  reached := hreached
  hand := by
    rw [hvoting]
    cases hplace : s.voting with
    | idle => exact trivial
    | received msg =>
      intro hversion
      obtain ⟨hsame, hfresh⟩ := hc.handAt hplace hversion
      rw [hkey, hcurrent]
      exact ⟨hsame, hfresh.version, hfresh.verifies, hfresh.proposed, hfresh.head, hfresh.index⟩
    | dispose d =>
      obtain ⟨htry, hlate⟩ := hc.handAt hplace
      refine ⟨?_, ?_⟩
      · intro msg hmsg
        have hfresh := htry msg hmsg
        rw [hcurrent]
        exact { hfresh with }
      · intro hpending v hv
        rw [hcurrent] at hv
        exact (hlate hpending v hv).mono hsub
    | reset =>
      intro v hv
      rw [hcurrent] at hv
      exact (hc.handAt hplace v hv).mono hsub

def collect (s : VoteHandler LV LC) (vc : VoteCollector) (vote : VoteMessage)
    (entries : List Entry) : VoteHandler LV LC :=
  { s with
    voteCollector := some { vc with votes := vc.votes ++ [vote] }
    history := s.history ++ entries }

theorem aggSignDispose_good (env : CommitEnv) (delivered : Bool) (hvc : s.voteCollector = some vc)
    (h : vc.Fits vote) :
    (vc.votes.length + 1 < vc.dkgBls.Threshold ∧
      s.aggSignDispose env delivered (.tryAggregate vote) =
        (s.collect vc vote [.collected vote], .err)) ∨
    ∃ aggSign,
      s.aggSignDispose env delivered (.tryAggregate vote) =
        (s.collect vc vote [.collected vote, .aggregated vc.dkgBls vote.BlockHead aggSign],
          .goOn (.checkCommit vote aggSign)) := by
  obtain ⟨hfst, hresult⟩ := tryAggregate_good h
  rcases hresult with ⟨hfew, hsnd⟩ | ⟨aggSign, hsnd⟩
  · left
    refine ⟨hfew, ?_⟩
    simp [aggSignDispose, hvc, hfst, hsnd, AggSign.entries, afterAggregate, collect]
  · right
    refine ⟨aggSign, ?_⟩
    simp [aggSignDispose, hvc, hfst, hsnd, AggSign.entries, afterAggregate, collect,
      firstHead_eq h.same]

variable {d : Dispose}

theorem aggSignDispose_late (env : CommitEnv) (delivered : Bool)
    (hlate : d.pending = []) (hkey : s.dkgBls ≠ none) :
    ∃ commitMsg history, s.history ⊆ history ∧
      (s.aggSignDispose env delivered d).1 = { s with commitMsg := commitMsg, history := history } ∧
      ∀ next, (s.aggSignDispose env delivered d).2 = .goOn next → next.pending = [] := by
  cases d with
  | tryAggregate voteMsg => simp [pending] at hlate
  | checkCommit voteMsg aggSign =>
    obtain ⟨dkgBls, hdkg⟩ := ne_none_iff_exists'.mp hkey
    have hsame : (s.aggSignDispose env delivered (.checkCommit voteMsg aggSign)).1 = s ∧
        ∀ next, (s.aggSignDispose env delivered (.checkCommit voteMsg aggSign)).2 =
          .goOn next → next.pending = [] := by
      cases hproduce : produceCommitMsg env dkgBls voteMsg aggSign with
      | none => simp [aggSignDispose, hdkg, hproduce]
      | some commitMsg =>
        cases hcommit : LC.Contains s.commitMsg commitMsg.StateVersion with
        | true => simp [aggSignDispose, hdkg, hproduce, hcommit]
        | false => simp [aggSignDispose, hdkg, hproduce, hcommit, pending]
    exact ⟨s.commitMsg, s.history, fun _ he => he, hsame⟩
  | addCommit voteMsg commitMsg =>
    exact ⟨_, s.history, fun _ he => he, rfl, by simp [aggSignDispose, pending]⟩
  | deliver voteMsg commitMsg =>
    refine ⟨s.commitMsg, _, subset_append_left _ _, rfl, ?_⟩
    intro next heq
    cases delivered <;> simp [aggSignDispose] at heq

theorem verify_of_oneHead {votes : List VoteMessage} {d : DKGBls}
    (hhead : ∀ v ∈ votes, v.BlockHead = vote.BlockHead)
    (hverify : ∀ v ∈ votes, d.Verify v.BlockHead v.Signature = true)
    (hvote : d.Verify vote.BlockHead vote.Signature = true) :
    ∀ v ∈ votes ++ [vote], d.Verify vote.BlockHead v.Signature = true := by
  intro v hv
  rcases mem_append.mp hv with hold | hnew
  · rw [← hhead v hold]
    exact hverify v hold
  · rw [mem_singleton.mp hnew]
    exact hvote

theorem aggregated_collect {aggSign : Bytes} :
    (s.collect vc vote [.collected vote, .aggregated vc.dkgBls vote.BlockHead aggSign]).Aggregated
      vote.BlockHead :=
  ⟨vc.dkgBls, aggSign, by simp [collect]⟩

theorem perm_current (s : VoteHandler LV LC) (vc : VoteCollector) (msg : VoteMessage) :
    Perm ((vc.votes ++ [msg]) ++ s.pendingOwn) (msg :: s.current vc) := by
  rw [append_assoc]
  exact perm_middle

theorem Collection.add {entries : List Entry} {place : Voting}
    (hc : s.Collection vc) (hhand : s.voting.inHand = some msg)
    (hfresh : FreshShare vc (s.current vc) msg)
    (hreached : vc.dkgBls.Threshold ≤ vc.votes.length + 1 →
      (s.collect vc msg entries).Aggregated msg.BlockHead)
    (hplace : place = .idle ∨ ∃ d, place = .dispose d ∧ d.pending = [] ∧
        (s.collect vc msg entries).Aggregated msg.BlockHead) :
    Collection { s.collect vc msg entries with voting := place }
      { vc with votes := vc.votes ++ [msg] } := by
  have hperm := s.perm_current vc msg
  have hmem : ∀ v, v ∈ (vc.votes ++ [msg]) ++ s.pendingOwn → v = msg ∨ v ∈ s.current vc :=
    fun v hv => mem_cons.mp (hperm.mem_iff.mp hv)
  have hhead : ∀ v, v ∈ (vc.votes ++ [msg]) ++ s.pendingOwn → v.BlockHead = msg.BlockHead := by
    intro v hv
    rcases hmem v hv with rfl | hold
    · rfl
    · exact hfresh.head v hold
  have hsub : s.history ⊆ (s.collect vc msg entries).history :=
    subset_append_left _ _
  refine ⟨hc.key, ?_, ?_, ?_, ?_, ?_, ?_⟩
  · intro v hv
    rcases hmem v hv with rfl | hold
    · exact hfresh.verifies
    · exact hc.verified v hold
  · intro v hv w hw
    rw [hhead v hv, hhead w hw]
  · have hnodup : ((msg :: s.current vc).map (fun v => vc.dkgBls.index v.Signature)).Nodup := by
      rw [map_cons, nodup_cons]
      exact ⟨hfresh.index, hc.indices⟩
    exact (hperm.map _).nodup_iff.mpr hnodup
  · intro v hv hopen voter hkey
    left
    -- the proposal had a vote before, and its head is the one that is open
    obtain ⟨first, hfirst⟩ := exists_mem_of_ne_nil _ hfresh.proposed
    have hopen' : ¬ s.Aggregated first.BlockHead := by
      intro hagg
      rw [hfresh.head first hfirst, ← hhead v hv] at hagg
      exact hopen (hagg.mono hsub)
    rcases hc.recorded first hfirst hopen' voter hkey with ⟨w, hw, hvoter⟩ | ⟨m, hm, _, hvoter⟩
    · exact ⟨w, hperm.mem_iff.mpr (mem_cons_of_mem _ hw), hvoter⟩
    · rw [hhand] at hm
      cases hm
      exact ⟨msg, hperm.mem_iff.mpr (mem_cons_self ..), hvoter⟩
  · intro hlength v hv
    have hagg := hreached (by simpa using hlength)
    rw [hhead v (mem_append_left _ hv)]
    exact hagg
  · rcases hplace with rfl | ⟨d, rfl, hpending, hagg⟩
    · exact trivial
    · refine ⟨?_, ?_⟩
      · intro m hm
        rw [hm] at hpending
        simp [pending] at hpending
      · intro _ v hv
        rw [hhead v hv]
        exact hagg

theorem Collection.fits (hc : s.Collection vc) (hfresh : FreshShare vc (s.current vc) msg) :
    vc.Fits msg := by
  have hmem : ∀ v ∈ vc.votes, v ∈ s.current vc := fun v hv => mem_append_left _ hv
  have hsame : vc.SameHead msg.BlockHead := fun v hv => hfresh.head v (hmem v hv)
  refine ⟨hsame, ?_, ?_⟩
  · exact verify_of_oneHead hsame (fun v hv => hc.verified v (hmem v hv)) hfresh.verifies
  · have hvotes : (vc.votes.map (fun v => vc.dkgBls.index v.Signature)).Nodup :=
      hc.indices.sublist ((sublist_append_left _ _).map _)
    rw [map_append, map_singleton]
    refine Nodup.append hvotes (nodup_singleton _) ?_
    rw [disjoint_singleton]
    intro hin
    exact hfresh.index ((sublist_append_left _ _).map _ |>.subset hin)

open Collecting

theorem collecting_disposeVote_tryAggregate (env : CommitEnv) (delivered : Bool)
    (hs : s.Collecting) (hplace : s.voting = .dispose (.tryAggregate msg)) :
    Collecting
      { (s.aggSignDispose env delivered (.tryAggregate msg)).1 with
        voting := afterVote (s.aggSignDispose env delivered (.tryAggregate msg)).2 } := by
  obtain ⟨vc, hvc, hc⟩ := hs.exists_collector (.inl (by simp [hplace]))
  have hfresh : FreshShare vc (s.current vc) msg := (hc.handAt hplace).1 msg rfl
  have hinHand : s.voting.inHand = some msg := by
    rw [hplace]
    rfl
  rcases aggSignDispose_good env delivered hvc (hc.fits hfresh) with
    ⟨hfew, heq⟩ | ⟨aggSign, heq⟩
  · rw [heq]
    refine of_collection hs.noPanic rfl ?_
    exact hc.add hinHand hfresh (fun hreached => absurd hreached (by omega)) (.inl rfl)
  · rw [heq]
    refine of_collection hs.noPanic rfl ?_
    exact hc.add hinHand hfresh (fun _ => aggregated_collect)
      (.inr ⟨_, rfl, rfl, aggregated_collect⟩)

variable {delivered selected : Bool}

section Collecting

variable (hs : s.Collecting)
include hs

theorem collecting_disposeOwn_tryAggregate (hplace : s.proposing = some (.tryAggregate own)) :
    Collecting
      { (s.aggSignDispose env delivered (.tryAggregate own)).1 with
        proposing := afterOwn (s.aggSignDispose env delivered (.tryAggregate own)).2 } := by
  obtain ⟨vc, hvc, hc⟩ := hs.exists_collector (.inr (by simp [hplace]))
  have hcurrent : s.current vc = vc.votes ++ [own] := by
    simp [current, pendingOwn, hplace, pending]
  have hown : own ∈ s.current vc := by simp [hcurrent]
  have hsame : vc.SameHead own.BlockHead :=
    fun v hv => hc.oneHead v (mem_append_left _ hv) own hown
  have hindices := hc.indices
  rw [hcurrent] at hindices
  rcases aggSignDispose_good env delivered hvc
    ⟨hsame, verify_of_oneHead hsame (fun v hv => hc.verified v (mem_append_left _ hv))
      (hc.verified own hown), hindices⟩ with ⟨hfew, heq⟩ | ⟨aggSign, heq⟩
  · rw [heq]
    refine of_collection hs.noPanic rfl ?_
    refine hc.frame ?_ rfl rfl rfl (subset_append_left _ _) ?_
    · simp [current, pendingOwn, afterOwn, hplace, pending]
    · intro hreached
      rw [length_append, length_singleton] at hreached
      omega
  · rw [heq]
    refine of_collection hs.noPanic rfl ?_
    refine hc.frame ?_ rfl rfl rfl (subset_append_left _ _) ?_
    · simp [current, pendingOwn, afterOwn, hplace, pending]
    intro _ v hv
    have hhead : v.BlockHead = own.BlockHead := by
      rcases mem_append.mp hv with hold | hnew
      · exact hsame v hold
      · rw [mem_singleton.mp hnew]
    rw [hhead]
    exact aggregated_collect

theorem collecting_receiveVote (hok : s.Orderly (.voteMsg msg selected))
    (hidle : s.voting = .idle) : (s.receiveVote msg selected).Collecting := by
  rcases s.receiveVote_cases msg selected with heq | ⟨hselected, hcommit, hnew, heq⟩
  · rw [heq]
    exact hs
  rw [heq]
  obtain ⟨vc, hvc, hvalid⟩ :
      ∃ vc, s.voteCollector = some vc ∧
        (msg.StateVersion = vc.nextVersion → s.ValidVote vc msg ∧ s.FreshIndex vc msg) := by
    rcases hok with hno | hcommitted | hvoted | hvalid
    · simp [hselected] at hno
    · simp [hcommit] at hcommitted
    · exact absurd hvoted hnew
    · exact hvalid
  have hc := hs.collection vc hvc
  refine of_collection hs.noPanic hvc ?_
  refine { hc with recorded := ?_, hand := ?_ }
  · intro v hv hopen voter hkey
    rcases LV.mem_recent_add hkey with hthis | hold
    · obtain ⟨hversion, hvoter⟩ := voteKey_inj hthis
      exact .inr ⟨msg, rfl, hversion.symm, hvoter.symm⟩
    · rcases hc.recorded v hv hopen voter hold with hcounted | ⟨m, hm, _⟩
      · exact .inl hcounted
      · simp [hidle, Voting.inHand] at hm
  · intro hversion
    obtain ⟨hvote, hindex⟩ := hvalid hversion
    exact ⟨hvote.key, hvote.fresh hindex⟩

theorem collecting_checkVote (hplace : s.voting = .received msg) :
    (s.checkVote msg).Collecting := by
  obtain ⟨vc, hvc, hc⟩ := hs.exists_collector (.inl (by simp [hplace]))
  have hhand := hc.handAt hplace
  by_cases hversion : msg.StateVersion = vc.nextVersion
  · obtain ⟨hkey, hfresh⟩ := hhand hversion
    have heq : s.checkVote msg = { s with voting := .dispose (.tryAggregate msg) } := by
      have hversion' : msg.StateVersion = wrap64 (vc.latestHeight + 1) := hversion
      simp [checkVote, hvc, hkey, hversion', hfresh.verifies]
    rw [heq]
    refine of_collection hs.noPanic hvc ?_
    refine ⟨hc.key, hc.verified, hc.oneHead, hc.indices, ?_, hc.reached, ?_, ?_⟩
    · have hrecorded := hc.recorded
      rw [hplace] at hrecorded
      exact hrecorded
    · intro m hm
      cases hm
      exact hfresh
    · intro hpending
      simp [pending] at hpending
  · have heq : s.checkVote msg = { s with voting := .idle } := by
      have hversion' : ¬ msg.StateVersion = wrap64 (vc.latestHeight + 1) := hversion
      simp [checkVote, hvc, hversion']
    rw [heq]
    refine of_collection hs.noPanic hvc ?_
    refine { hc with recorded := ?_, hand := trivial }
    -- the vote in hand was for another version, so its voter may be forgotten
    intro v hv hopen voter hkey
    rcases hc.recorded v hv hopen voter hkey with hcounted | ⟨m, hm, hm', _⟩
    · exact .inl hcounted
    · rw [hplace] at hm
      cases hm
      exact absurd hm' hversion

theorem collecting_disposeVote_late (hplace : s.voting = .dispose d) (hlate : d.pending = []) :
    Collecting
      { (s.aggSignDispose env delivered d).1 with
        voting := afterVote (s.aggSignDispose env delivered d).2 } := by
  obtain ⟨vc, hvc, hc⟩ := hs.exists_collector (.inl (by simp [hplace]))
  obtain ⟨commitMsg, history, hsub, heq, hnext⟩ :=
    aggSignDispose_late env delivered hlate hc.key
  have hagg : ∀ v ∈ s.current vc, s.Aggregated v.BlockHead := (hc.handAt hplace).2 hlate
  rw [heq]
  refine of_collection hs.noPanic hvc ?_
  refine { hc with recorded := ?_, reached := ?_, hand := ?_ }
  · intro v hv hopen
    exact absurd ((hagg v hv).mono hsub) hopen
  · intro hreached v hv
    exact (hc.reached hreached v hv).mono hsub
  cases hend : (s.aggSignDispose env delivered d).2 with
  | goOn next =>
    refine ⟨?_, fun _ v hv => (hagg v hv).mono hsub⟩
    intro msg hmsg
    have hpending := hnext next hend
    rw [hmsg] at hpending
    simp [pending] at hpending
  | ok => exact fun v hv => (hagg v hv).mono hsub
  | err => exact trivial

theorem collecting_disposeOwn_late (hplace : s.proposing = some d) (hlate : d.pending = []) :
    Collecting
      { (s.aggSignDispose env delivered d).1 with
        proposing := afterOwn (s.aggSignDispose env delivered d).2 } := by
  obtain ⟨vc, hvc, hc⟩ := hs.exists_collector (.inr (by simp [hplace]))
  obtain ⟨commitMsg, history, hsub, heq, hnext⟩ :=
    aggSignDispose_late env delivered hlate hc.key
  have hpending : ((afterOwn (s.aggSignDispose env delivered d).2).map pending).getD [] =
      [] := by
    cases hend : (s.aggSignDispose env delivered d).2 with
    | goOn next => simpa [afterOwn] using hnext next hend
    | ok => rfl
    | err => rfl
  rw [heq]
  refine of_collection hs.noPanic hvc ?_
  refine hc.frame ?_ rfl rfl rfl hsub ?_
  · simp [current, pendingOwn, hpending, hplace, hlate]
  · intro hreached v hv
    exact (hc.reached hreached v hv).mono hsub

theorem collecting_resetVotes (hplace : s.voting = .reset) :
    Collecting
      { s with voteCollector := s.voteCollector.map reset, voting := .idle } := by
  obtain ⟨vc, hvc, hc⟩ := hs.exists_collector (.inl (by simp [hplace]))
  have hagg : ∀ v ∈ s.current vc, s.Aggregated v.BlockHead := hc.handAt hplace
  have hmem : ∀ v ∈ s.pendingOwn, v ∈ s.current vc := fun v hv => mem_append_right _ hv
  have hreset : s.voteCollector.map reset = some vc.reset := by simp [hvc]
  refine of_collection hs.noPanic hreset ?_
  refine ⟨hc.key, ?_, ?_, ?_, ?_, ?_, trivial⟩
  · intro v hv
    exact hc.verified v (hmem v hv)
  · intro v hv w hw
    exact hc.oneHead v (hmem v hv) w (hmem w hw)
  · exact hc.indices.sublist ((sublist_append_right _ _).map _)
  · intro v hv hopen
    exact absurd (hagg v (hmem v hv)) hopen
  · intro _ v hv
    simp [reset] at hv

end Collecting

theorem collecting_proposeBlock {latestHeight : Nat} {proposal : ProposeMessage}
    (hs : s.Collecting) (hok : s.Orderly (.propose latestHeight proposal)) :
    (s.proposeBlock env latestHeight proposal).Collecting := by
  obtain ⟨hidle, hkey, hrecord⟩ := hok
  obtain ⟨dkgBls, hdkg⟩ := ne_none_iff_exists'.mp hkey
  have heq : s.proposeBlock env latestHeight proposal =
      { s with
        voteCollector := some (newConsensusVoteCollector latestHeight dkgBls)
        proposing := (ownVote env dkgBls proposal).map tryAggregate } := by
    simp [proposeBlock, hdkg]
  have hcurrent : ∀ t : VoteHandler LV LC,
      t.proposing = (ownVote env dkgBls proposal).map tryAggregate →
      t.current (newConsensusVoteCollector latestHeight dkgBls) =
        (ownVote env dkgBls proposal).toList := by
    intro t hown
    simp only [current, pendingOwn, hown, newConsensusVoteCollector]
    cases ownVote env dkgBls proposal <;> rfl
  have hsigned : ∀ vote, ownVote env dkgBls proposal = some vote →
      dkgBls.Verify vote.BlockHead vote.Signature = true := by
    intro vote hown
    obtain ⟨signed, hsign, rfl⟩ := map_eq_some_iff.mp hown
    exact dkgBls.verify_sign _ signed.1 signed.2 hsign
  rw [heq]
  refine of_collection hs.noPanic rfl ?_
  refine ⟨hkey, ?_, ?_, ?_, ?_, ?_, ?_⟩
  · rw [hcurrent _ rfl]
    intro v hv
    exact hsigned v (mem_toList.mp hv)
  · rw [hcurrent _ rfl]
    intro v hv w hw
    rw [mem_toList] at hv hw
    rw [mem_unique hv hw]
  · rw [hcurrent _ rfl]
    cases ownVote env dkgBls proposal <;> simp
  · intro v hv hopen voter hvoter
    exact absurd hvoter (hrecord voter)
  · intro _ v hv
    simp [newConsensusVoteCollector] at hv
  · simp [hidle, HandOk]

theorem step_collecting {e : VoteEvent} (hs : s.Collecting) (hok : s.Orderly e)
    (hstep : step env s e = some s') : s'.Collecting := by
  obtain ⟨_, hcase⟩ := step_cases hstep
  cases e with
  | voteMsg msg selected =>
    obtain ⟨hidle, rfl⟩ := hcase
    exact collecting_receiveVote hs hok hidle
  | checkVote =>
    obtain ⟨msg, hplace, rfl⟩ := hcase
    exact collecting_checkVote hs hplace
  | disposeVote delivered =>
    obtain ⟨d, hplace, rfl⟩ := hcase
    cases d with
    | tryAggregate msg => exact collecting_disposeVote_tryAggregate env delivered hs hplace
    | _ => exact collecting_disposeVote_late hs hplace rfl
  | resetVotes =>
    obtain ⟨hplace, rfl⟩ := hcase
    exact collecting_resetVotes hs hplace
  | propose latestHeight proposal =>
    obtain ⟨_, rfl⟩ := hcase
    exact collecting_proposeBlock hs hok
  | disposeOwn delivered =>
    obtain ⟨d, hplace, rfl⟩ := hcase
    cases d with
    | tryAggregate own => exact collecting_disposeOwn_tryAggregate hs hplace
    | _ => exact collecting_disposeOwn_late hs hplace rfl
  | updateDKGBls dkgBls =>
    have heq : s' = { s with dkgBls := some dkgBls } := hcase
    have hidle : s.voting = .idle := hok
    rw [heq]
    refine ⟨hs.noPanic, hs.noCollector, ?_⟩
    intro vc hvc
    have hc := hs.collection vc hvc
    exact ⟨by simp, hc.verified, hc.oneHead, hc.indices, hc.recorded, hc.reached,
      by simp [hidle, HandOk]⟩
  | commitMsgReceived stateVersion =>
    have heq : s' = { s with commitMsg := (LC.ContainsOrAdd s.commitMsg stateVersion).2 } := hcase
    rw [heq]
    refine ⟨hs.noPanic, hs.noCollector, ?_⟩
    intro vc hvc
    exact (hs.collection vc hvc).frame rfl rfl rfl rfl (fun _ he => he)
      (hs.collection vc hvc).reached

theorem newConsensusProposer_collecting : (newConsensusProposer LV LC).Collecting := by
  refine ⟨rfl, fun _ => ⟨rfl, rfl⟩, ?_⟩
  intro vc hvc
  simp [newConsensusProposer] at hvc

end Invariant

section Liveness

variable {env : CommitEnv} {s : VoteHandler LV LC} {vc : VoteCollector} {msg : VoteMessage}

def recordedVote (s : VoteHandler LV LC) (msg : VoteMessage) : VoteHandler LV LC :=
  { s with
    votedRecord := LV.Add s.votedRecord (voteKey msg.StateVersion msg.Voter)
    voting := .dispose (.tryAggregate msg) }

theorem not_recorded (hc : s.Collection vc) (hidle : s.voting = .idle) (hvalid : s.ValidVote vc msg)
    (hopen : ¬ s.Aggregated msg.BlockHead) (hvoter : ∀ v ∈ s.current vc, v.Voter ≠ msg.Voter) :
    voteKey msg.StateVersion msg.Voter ∉ LV.recent s.votedRecord := by
  intro hkey
  obtain ⟨first, hfirst⟩ := exists_mem_of_ne_nil _ hvalid.proposed
  rw [hvalid.version] at hkey
  have hopen' : ¬ s.Aggregated first.BlockHead := by
    rw [hvalid.head first hfirst]
    exact hopen
  rcases hc.recorded first hfirst hopen' msg.Voter hkey with ⟨v, hv, hsame⟩ | ⟨m, hm, _⟩
  · exact hvoter v hv hsame
  · simp [hidle, Voting.inHand] at hm

theorem receiveVote_panicked (s : VoteHandler LV LC) (msg : VoteMessage) (selected : Bool) :
    (s.receiveVote msg selected).panicked = s.panicked := by
  rcases s.receiveVote_cases msg selected with heq | ⟨_, _, _, heq⟩ <;> rw [heq]

section Fresh

variable (hvc : s.voteCollector = some vc) (hvalid : s.ValidVote vc msg)
  (hcommit : LC.Contains s.commitMsg msg.StateVersion = false)
  (hkey : voteKey msg.StateVersion msg.Voter ∉ LV.recent s.votedRecord)
include hvc hvalid hcommit hkey

theorem checkVote_receiveVote :
    (s.receiveVote msg true).voting = .received msg ∧
    (s.receiveVote msg true).checkVote msg = s.recordedVote msg := by
  have hnew : LV.Contains s.votedRecord (voteKey msg.StateVersion msg.Voter) = false := by
    rw [← LV.contains_iff] at hkey
    simpa using hkey
  have hversion : msg.StateVersion = wrap64 (vc.latestHeight + 1) := hvalid.version
  have hreceive : s.receiveVote msg true =
      { s with
        votedRecord := LV.Add s.votedRecord (voteKey msg.StateVersion msg.Voter)
        voting := .received msg } := by
    simp [receiveVote, hcommit, LV.containsOrAdd_eq, hnew]
  rw [hreceive]
  refine ⟨rfl, ?_⟩
  simp [checkVote, hvc, hvalid.key, hvalid.verifies, ← hversion, recordedVote]

theorem handleVote_run (env : CommitEnv) (hpanic : s.panicked = false) (hidle : s.voting = .idle) :
    (handleVote msg).foldlM (step env) s =
      some { ((s.recordedVote msg).aggSignDispose env true (.tryAggregate msg)).1 with
        voting :=
          afterVote ((s.recordedVote msg).aggSignDispose env true (.tryAggregate msg)).2 } := by
  obtain ⟨hplace, hchecked⟩ := checkVote_receiveVote hvc hvalid hcommit hkey
  have hreceive : step env s (.voteMsg msg true) = some (s.receiveVote msg true) := by
    simp [step, hpanic, hidle]
  have hcheck : step env (s.receiveVote msg true) .checkVote = some (s.recordedVote msg) := by
    simp [step, receiveVote_panicked, hpanic, hplace, hchecked]
  have hdispose : step env (s.recordedVote msg) (.disposeVote true) =
      some { ((s.recordedVote msg).aggSignDispose env true (.tryAggregate msg)).1 with
        voting :=
          afterVote ((s.recordedVote msg).aggSignDispose env true (.tryAggregate msg)).2 } := by
    simp [step, recordedVote, hpanic]
  simp only [handleVote, run_cons, run_nil, hreceive, hcheck, hdispose, bind_some]

theorem recordedVote_collecting (hs : s.Collecting) (hidle : s.voting = .idle)
    (hindex : s.FreshIndex vc msg) : (s.recordedVote msg).Collecting := by
  obtain ⟨hplace, hchecked⟩ := checkVote_receiveVote hvc hvalid hcommit hkey
  have horderly : s.Orderly (.voteMsg msg true) :=
    .inr (.inr (.inr ⟨vc, hvc, fun _ => ⟨hvalid, hindex⟩⟩))
  rw [← hchecked]
  exact collecting_checkVote (collecting_receiveVote hs horderly hidle) hplace

end Fresh

theorem collecting_counts (hs : s.Collecting) (hidle : s.voting = .idle)
    (hvc : s.voteCollector = some vc) (hvalid : s.ValidVote vc msg)
    (hopen : ¬ s.Aggregated msg.BlockHead)
    (hcommit : LC.Contains s.commitMsg msg.StateVersion = false)
    (hvoter : ∀ v ∈ s.current vc, v.Voter ≠ msg.Voter) :
    ∃ s' vc', (handleVote msg).foldlM (step env) s = some s' ∧
      s'.voteCollector = some vc' ∧ msg ∈ vc'.votes := by
  have hkey := not_recorded (hs.collection vc hvc) hidle hvalid hopen hvoter
  have hsame : vc.SameHead msg.BlockHead :=
    fun v hv => hvalid.head v (mem_append_left _ hv)
  refine ⟨_, (vc.tryAggregateSignAndAddVote msg).1,
    handleVote_run hvc hvalid hcommit hkey env hs.noPanic hidle, ?_, ?_⟩
  · simp [aggSignDispose, recordedVote, hvc]
  · rcases vc.tryAggregateSignAndAddVote_cases msg hsame with ⟨_, hne, _⟩ | ⟨_, heq⟩
    · exact absurd rfl hne
    · simp [heq, addVote]

theorem ValidVote.collect {m m' : VoteMessage} {entries : List Entry}
    (hm : s.ValidVote vc m) (hm' : s.ValidVote vc m') :
    ValidVote { (s.recordedVote m).collect vc m entries with voting := .idle }
      { vc with votes := vc.votes ++ [m] } m' := by
  have hperm := s.perm_current vc m
  refine { hm' with proposed := ?_, head := ?_ }
  · exact ne_nil_of_mem (hperm.mem_iff.mpr (mem_cons_self ..))
  · intro v hv
    rcases mem_cons.mp (hperm.mem_iff.mp hv) with rfl | hold
    · obtain ⟨first, hfirst⟩ := exists_mem_of_ne_nil _ hm.proposed
      rw [← hm.head first hfirst, hm'.head first hfirst]
    · exact hm'.head v hold

/-- Valid votes that make up the threshold are still to come. -/
structure Awaiting (s : VoteHandler LV LC) (vc : VoteCollector) (head : Bytes)
    (msgs : List VoteMessage) : Prop where
  collecting : s.Collecting
  idle : s.voting = .idle
  collector : s.voteCollector = some vc
  proposed : s.current vc ≠ []
  oneHead : ∀ v ∈ s.current vc, v.BlockHead = head
  valid : ∀ m ∈ msgs, s.ValidVote vc m ∧ LC.Contains s.commitMsg m.StateVersion = false ∧
    ∀ v ∈ s.current vc, v.Voter ≠ m.Voter
  voters : (msgs.map VoteMessage.Voter).Nodup
  indices : ((s.current vc ++ msgs).map (fun v => vc.dkgBls.index v.Signature)).Nodup
  enough : vc.dkgBls.Threshold ≤ vc.votes.length + msgs.length

section Awaiting

variable {head : Bytes} {m : VoteMessage} {rest : List VoteMessage}

theorem Awaiting.aggregated (h : s.Awaiting vc head []) : s.Aggregated head := by
  have hreached := (h.collecting.collection vc h.collector).reached h.enough
  obtain ⟨first, hfirst⟩ : ∃ v, v ∈ vc.votes := by
    apply exists_mem_of_length_pos
    exact lt_of_lt_of_le (dkgThreshold_pos _) h.enough
  rw [← h.oneHead first (mem_append_left _ hfirst)]
  exact hreached first hfirst

section Awaiting

variable (h : s.Awaiting vc head (m :: rest))
include h

theorem Awaiting.head_eq : m.BlockHead = head := by
  have hm := (h.valid m (mem_cons_self ..)).1
  obtain ⟨first, hfirst⟩ := exists_mem_of_ne_nil _ h.proposed
  rw [← hm.head first hfirst, h.oneHead first hfirst]

theorem Awaiting.indices_cons :
    (((m :: s.current vc) ++ rest).map (fun v => vc.dkgBls.index v.Signature)).Nodup := by
  have hperm : Perm (s.current vc ++ m :: rest) ((m :: s.current vc) ++ rest) :=
    perm_middle
  exact (hperm.map (fun v => vc.dkgBls.index v.Signature)).nodup_iff.mp h.indices

theorem Awaiting.freshIndex : s.FreshIndex vc m := by
  have hindices := h.indices_cons
  rw [cons_append, map_cons, nodup_cons] at hindices
  intro hin
  refine hindices.1 ?_
  rw [map_append]
  exact mem_append_left _ hin

theorem Awaiting.collect {entries : List Entry}
    (hcollecting : Collecting { (s.recordedVote m).collect vc m entries with voting := .idle }) :
    Awaiting { (s.recordedVote m).collect vc m entries with voting := .idle }
      { vc with votes := vc.votes ++ [m] } head rest := by
  obtain ⟨⟨hm, -, -⟩, hrest⟩ := forall_mem_cons.mp h.valid
  have hvoters := h.voters
  rw [map_cons, nodup_cons] at hvoters
  have hperm := s.perm_current vc m
  refine ⟨hcollecting, rfl, rfl, ?_, ?_, ?_, hvoters.2, ?_, ?_⟩
  · exact ne_nil_of_mem (hperm.mem_iff.mpr (mem_cons_self ..))
  · intro v hv
    rcases mem_cons.mp (hperm.mem_iff.mp hv) with rfl | hold
    · exact h.head_eq
    · exact h.oneHead v hold
  · intro m' hm'
    obtain ⟨hvalid', hcommit', hvoter'⟩ := hrest m' hm'
    refine ⟨hm.collect hvalid', hcommit', ?_⟩
    intro v hv hsame
    rcases mem_cons.mp (hperm.mem_iff.mp hv) with rfl | hold
    · exact hvoters.1 (hsame ▸ mem_map_of_mem hm')
    · exact hvoter' v hold hsame
  · exact ((hperm.append_right rest).map _).nodup_iff.mpr h.indices_cons
  · have henough := h.enough
    rw [length_cons] at henough
    show vc.dkgBls.Threshold ≤ (vc.votes ++ [m]).length + rest.length
    rw [length_append, length_singleton]
    omega

end Awaiting

theorem Awaiting.vote (env : CommitEnv) (h : s.Awaiting vc head (m :: rest))
    (hopen : ¬ s.Aggregated head) :
    ∃ s', (handleVote m).foldlM (step env) s = some s' ∧
      (s'.Aggregated head ∨ ∃ vc', s'.Awaiting vc' head rest) := by
  obtain ⟨⟨hm, hcommit, hvoter⟩, -⟩ := forall_mem_cons.mp h.valid
  have hc := h.collecting.collection vc h.collector
  have hkey := not_recorded hc h.idle hm (by rw [h.head_eq]; exact hopen) hvoter
  have hrun := handleVote_run h.collector hm hcommit hkey env h.collecting.noPanic h.idle
  have hrecorded :=
    recordedVote_collecting h.collector hm hcommit hkey h.collecting h.idle h.freshIndex
  have hdisposed := collecting_disposeVote_tryAggregate env true hrecorded rfl
  have hcollector : (s.recordedVote m).voteCollector = some vc := h.collector
  rcases aggSignDispose_good env true hcollector (hc.fits (hm.fresh h.freshIndex)) with
    ⟨_, heq⟩ | ⟨aggSign, heq⟩
  · rw [heq] at hrun hdisposed
    exact ⟨_, hrun, .inr ⟨_, h.collect hdisposed⟩⟩
  · rw [heq] at hrun
    refine ⟨_, hrun, .inl ?_⟩
    rw [← h.head_eq]
    exact aggregated_collect

theorem Awaiting.aggregates {msgs : List VoteMessage} (h : s.Awaiting vc head msgs) :
    ∃ k s', ((msgs.take k).flatMap handleVote).foldlM (step env) s = some s' ∧
      s'.Aggregated head := by
  induction msgs generalizing s vc with
  | nil => exact ⟨0, s, rfl, h.aggregated⟩
  | cons m rest ih =>
    by_cases hdone : s.Aggregated head
    · exact ⟨0, s, rfl, hdone⟩
    · obtain ⟨s₁, hrun, hagg | ⟨vc', h'⟩⟩ := h.vote env hdone
      · exact ⟨1, s₁, by simpa using hrun, hagg⟩
      · obtain ⟨k, s', hk, hagg⟩ := ih h'
        refine ⟨k + 1, s', ?_, hagg⟩
        exact run_append_iff.mpr ⟨s₁, hrun, hk⟩

end Awaiting

/-- **When every valid vote is counted.** After an orderly run the process has not stopped, a valid
vote of a new voter reaches the collector, and enough of them lead to a signature. -/
theorem voteLive_of_orderly (env : CommitEnv) (LV : Lru Bytes) (LC : Lru Nat)
    (events : List VoteEvent) (s : VoteHandler LV LC)
    (horderly : Along (step env) Orderly (newConsensusProposer LV LC) events)
    (hrun : events.foldlM (step env) (newConsensusProposer LV LC) = some s) :
    VoteLive env s := by
  have hs : s.Collecting := run_invariant_along (fun _ _ _ => step_collecting)
    newConsensusProposer_collecting horderly hrun
  refine ⟨hs.noPanic, ?_, ?_⟩
  · intro hidle vc msg hvc hvalid hopen hcommit hvoter
    exact collecting_counts hs hidle hvc hvalid hopen hcommit hvoter
  · intro hidle vc head msgs hvc hproposed hhead hvalid hvoters hindices henough
    have h : s.Awaiting vc head msgs :=
      ⟨hs, hidle, hvc, hproposed, hhead, hvalid, hvoters, hindices, henough⟩
    exact h.aggregates

def proposeNine : List VoteEvent :=
  [.updateDKGBls twoParticipants, .propose 0 headNine, .disposeOwn true]

theorem voteLive_after_valid_vote :
    ∃ s : VoteHandler (listLru Bytes) (listLru Nat),
      (proposeNine ++ handleVote (voteNine [1] [1, 9])).foldlM (step plainEnv)
        (newConsensusProposer _ _) = some s ∧ VoteLive plainEnv s := by
  refine ⟨_, rfl, voteLive_of_orderly plainEnv _ _
    (proposeNine ++ handleVote (voteNine [1] [1, 9])) _ ?_ rfl⟩
  refine ⟨rfl, ?_⟩
  rintro s1 ⟨⟩
  refine ⟨⟨rfl, by simp, by simp [newConsensusProposer, listLru]⟩, ?_⟩
  rintro s2 ⟨⟩
  refine ⟨trivial, ?_⟩
  rintro s3 ⟨⟩
  refine ⟨.inr (.inr (.inr ⟨_, rfl, fun _ => ⟨?_, ?_⟩⟩)), ?_⟩
  · exact ⟨rfl, rfl, by decide, by decide, by decide⟩
  · unfold FreshIndex
    decide
  rintro s4 ⟨⟩
  refine ⟨trivial, ?_⟩
  rintro s5 ⟨⟩
  exact ⟨trivial, fun _ _ => trivial⟩

def forgedVote : List VoteEvent :=
  proposeNine ++ [.voteMsg (voteNine [1] [1]) true, .checkVote]

/-- An early vote stops the process; a forged vote keeps the valid one of participant 1 from being
counted. -/
theorem voteLive_fails_on_noise :
    (∃ s : VoteHandler (listLru Bytes) (listLru Nat),
      [.voteMsg (voteNine [1] [1, 9]) true, .checkVote].foldlM (step plainEnv)
        (newConsensusProposer _ _) = some s ∧ ¬ VoteLive plainEnv s) ∧
    ∃ s : VoteHandler (listLru Bytes) (listLru Nat),
      forgedVote.foldlM (step plainEnv) (newConsensusProposer _ _) = some s ∧
        s.panicked = false ∧ ¬ VoteLive plainEnv s := by
  constructor
  · refine ⟨_, rfl, ?_⟩
    intro hlive
    exact absurd hlive.noPanic (by decide)
  refine ⟨_, rfl, rfl, ?_⟩
  intro hlive
  have hcounts := hlive.counts rfl _ (voteNine [1] [1, 9]) rfl
    ⟨rfl, rfl, by decide, by decide, by decide⟩
  have hopen : ∀ (d : DKGBls) (aggSign : Bytes),
      .aggregated d [9] aggSign ∉ [Entry.collected (voteNine [0] [0, 9])] := by
    simp
  obtain ⟨s', _, hrun, _⟩ := hcounts (fun hagg => by
    obtain ⟨d, aggSign, hmem⟩ := hagg
    exact hopen d aggSign hmem) rfl (by decide)
  cases hrun

end Liveness

end VoteHandler

end Topia.Consensus
