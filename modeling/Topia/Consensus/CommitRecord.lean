import Topia.Consensus.VoteCollector

/-!
# The record of committed versions

`aggSignDisposeWhenRecvVoteMsg` of `consensus/proposer.go` adds a version to the committed ones
before it delivers the commit message, and leaves it there when the delivery fails;
`receiveVoteMessageStart` drops every vote for a committed version. The look at the record and the
addition are two calls, so both goroutines can deliver one version.
-/

namespace Topia.Consensus

open Lib Chain

def Dispose.delivery : Dispose → Option Nat
  | .deliver _ commitMsg => some commitMsg.StateVersion
  | _ => none

def Dispose.commits : Dispose → Option Nat
  | .addCommit _ commitMsg => some commitMsg.StateVersion
  | .deliver _ commitMsg => some commitMsg.StateVersion
  | _ => none

def DisposeEnd.next : DisposeEnd → Option Dispose
  | .goOn d => some d
  | _ => none

def Voting.disposing : Voting → Option Dispose
  | .dispose d => some d
  | _ => none

/-- A vote handler, with the delivered and the received versions, oldest first. -/
structure CommitRecord (LV : Lru Bytes) (LC : Lru Nat) where
  handler : VoteHandler LV LC
  (delivered received : List Nat)

namespace CommitRecord

variable {LV : Lru Bytes} {LC : Lru Nat}

open VoteHandler

def new (LV : Lru Bytes) (LC : Lru Nat) : CommitRecord LV LC where
  handler := newConsensusProposer LV LC
  delivered := []
  received := []

open Dispose

section Places

variable (s : VoteHandler LV LC)

def place : VoteEvent → Option Dispose
  | .disposeVote _ => s.voting.disposing
  | .disposeOwn _ => s.proposing
  | _ => none

def otherPlace : VoteEvent → Option Dispose
  | .disposeVote _ => s.proposing
  | .disposeOwn _ => s.voting.disposing
  | _ => none

def outcome : VoteEvent → Bool
  | .disposeVote delivered => delivered
  | .disposeOwn delivered => delivered
  | _ => false

def receives : VoteEvent → List Nat
  | .commitMsgReceived stateVersion => [stateVersion]
  | _ => []

/-- One of the two goroutines is at `v`: `delivery`, or `commits`. -/
def At (f : Dispose → Option Nat) (v : Nat) : Prop :=
  s.voting.disposing.bind f = some v ∨ s.proposing.bind f = some v

def delivers (e : VoteEvent) : Option Nat :=
  if s.panicked then none else (place s e).bind delivery

end Places

def step (env : CommitEnv) (r : CommitRecord LV LC) (e : VoteEvent) : Option (CommitRecord LV LC) :=
  (VoteHandler.step env r.handler e).map fun handler =>
    { handler := handler
      delivered := r.delivered ++ if outcome e then (delivers r.handler e).toList else []
      received := r.received ++ receives e }

variable (s s' : VoteHandler LV LC) (r : CommitRecord LV LC) (e : VoteEvent)

/-- Every recorded version was delivered or received, or is being delivered; none was delivered
twice. -/
structure Recorded : Prop where
  known : ∀ v, LC.Contains r.handler.commitMsg v = true →
    v ∈ r.delivered ∨ v ∈ r.received ∨ At r.handler delivery v
  once : r.delivered.Nodup

/-- No delivery fails; no goroutine looks at the record while the other one is about to deliver that
version, or when a delivered version has left it. -/
def inOrder : Bool :=
  match place r.handler e with
  | some (.deliver _ _) => outcome e
  | some (.checkCommit voteMsg _) =>
    (otherPlace r.handler e).bind commits ≠ some voteMsg.StateVersion ∧
      (voteMsg.StateVersion ∈ r.delivered →
        LC.Contains r.handler.commitMsg voteMsg.StateVersion = true)
  | _ => true

/-- What is about to be delivered was not delivered, and is so at one place. -/
structure Kept : Prop extends Recorded r where
  fresh : ∀ v, At r.handler commits v → v ∉ r.delivered
  apart : ∀ v, r.handler.voting.disposing.bind commits = some v →
    r.handler.proposing.bind commits ≠ some v

def CommitMove (next : Option Dispose) : Dispose → Prop
  | .tryAggregate _ => s'.commitMsg = s.commitMsg ∧ next.bind commits = none
  | .checkCommit voteMsg _ =>
    s'.commitMsg = s.commitMsg ∧
      (next = none ∨ ∃ commitMsg, next = some (.addCommit voteMsg commitMsg) ∧
        commitMsg.StateVersion = voteMsg.StateVersion ∧
        LC.Contains s.commitMsg commitMsg.StateVersion = false)
  | .addCommit voteMsg commitMsg =>
    s'.commitMsg = LC.Add s.commitMsg commitMsg.StateVersion ∧
      next = some (.deliver voteMsg commitMsg)
  | .deliver _ _ => s'.commitMsg = s.commitMsg ∧ next = none

inductive CommitEffect : Prop
  | outside
      (hplace : place s e = none)
      (hcommit : match e with
        | .commitMsgReceived v => s'.commitMsg = (LC.ContainsOrAdd s.commitMsg v).2
        | _ => s'.commitMsg = s.commitMsg)
      (hvoting : s'.voting.disposing.bind commits = s.voting.disposing.bind commits ∧
        s'.voting.disposing.bind delivery = s.voting.disposing.bind delivery)
      (hproposing : s'.proposing.bind commits = s.proposing.bind commits ∧
        s'.proposing.bind delivery = s.proposing.bind delivery)
  | inside (d : Dispose) (next : Option Dispose)
      (hplace : place s e = some d)
      (hnext : place s' e = next)
      (hother : otherPlace s' e = otherPlace s e)
      (hmove : CommitMove s s' next d)

section Step

variable {env : CommitEnv} {s s' : VoteHandler LV LC} {e : VoteEvent}

theorem StateVersion_produceCommitMsg {dkgBls : DKGBls} {voteMsg : VoteMessage} {aggSign : Bytes}
    {commitMsg : CommitMessage}
    (hproduce : produceCommitMsg env dkgBls voteMsg aggSign = some commitMsg) :
    commitMsg.StateVersion = voteMsg.StateVersion := by
  simp only [produceCommitMsg] at hproduce
  repeat' split at hproduce
  all_goals cases hproduce
  rfl

theorem commitMove_aggSignDispose (s : VoteHandler LV LC) (delivered : Bool) (d : Dispose) :
    CommitMove s (s.aggSignDispose env delivered d).1
      (s.aggSignDispose env delivered d).2.next d := by
  cases d with
  | tryAggregate voteMsg =>
    cases hvc : s.voteCollector with
    | none => simp [CommitMove, aggSignDispose, hvc, DisposeEnd.next]
    | some vc =>
      simp only [CommitMove, aggSignDispose, hvc]
      refine ⟨trivial, ?_⟩
      cases (vc.tryAggregateSignAndAddVote voteMsg).2 <;> rfl
  | checkCommit voteMsg aggSign =>
    cases hdkg : s.dkgBls with
    | none => simp [CommitMove, aggSignDispose, hdkg, DisposeEnd.next]
    | some dkgBls =>
      cases hproduce : produceCommitMsg env dkgBls voteMsg aggSign with
      | none => simp [CommitMove, aggSignDispose, hdkg, hproduce, DisposeEnd.next]
      | some commitMsg =>
        simp only [CommitMove, aggSignDispose, hdkg, hproduce]
        split_ifs with hcontains
        · exact ⟨rfl, .inl rfl⟩
        · exact ⟨rfl, .inr ⟨commitMsg, rfl, StateVersion_produceCommitMsg hproduce,
            by simpa using hcontains⟩⟩
  | addCommit voteMsg commitMsg => exact ⟨rfl, rfl⟩
  | deliver voteMsg commitMsg =>
    refine ⟨rfl, ?_⟩
    cases delivered <;> rfl

theorem commitEffect_of_step (hstep : VoteHandler.step env s e = some s') :
    CommitEffect s s' e := by
  obtain ⟨_, hcase⟩ := VoteHandler.step_cases hstep
  cases e with
  | voteMsg msg selected =>
    obtain ⟨hidle, rfl⟩ := hcase
    rcases s.receiveVote_cases msg selected with heq | ⟨_, _, _, heq⟩
    · rw [heq]
      exact .outside rfl rfl ⟨rfl, rfl⟩ ⟨rfl, rfl⟩
    · rw [heq]
      refine .outside rfl rfl ?_ ⟨rfl, rfl⟩
      simp [hidle, Voting.disposing]
  | checkVote =>
    obtain ⟨msg, hreceived, rfl⟩ := hcase
    unfold VoteHandler.checkVote
    repeat' split
    all_goals
      refine .outside rfl rfl ?_ ⟨rfl, rfl⟩
      simp [hreceived, Voting.disposing, commits, delivery]
  | disposeVote delivered =>
    obtain ⟨d, hdispose, rfl⟩ := hcase
    refine .inside d _ (by simp [place, hdispose, Voting.disposing]) ?_ ?_
      (commitMove_aggSignDispose s delivered d)
    · cases (s.aggSignDispose env delivered d).2 <;> rfl
    · simp [otherPlace]
  | resetVotes =>
    obtain ⟨hreset, rfl⟩ := hcase
    refine .outside rfl rfl ?_ ⟨rfl, rfl⟩
    simp [hreset, Voting.disposing]
  | propose latestHeight proposal =>
    obtain ⟨hnone, rfl⟩ := hcase
    unfold VoteHandler.proposeBlock
    cases s.dkgBls with
    | none => exact .outside rfl rfl ⟨rfl, rfl⟩ ⟨rfl, rfl⟩
    | some dkgBls =>
      refine .outside rfl rfl ⟨rfl, rfl⟩ ?_
      cases VoteHandler.ownVote env dkgBls proposal <;>
        simp [hnone, commits, delivery]
  | disposeOwn delivered =>
    obtain ⟨d, hdispose, rfl⟩ := hcase
    refine .inside d _ (by simp [place, hdispose]) ?_ ?_ (commitMove_aggSignDispose s delivered d)
    · cases (s.aggSignDispose env delivered d).2 <;> rfl
    · simp [otherPlace]
  | _ =>
    cases hcase
    exact .outside rfl rfl ⟨rfl, rfl⟩ ⟨rfl, rfl⟩

theorem at_iff {d : Dispose} (hplace : place s e = some d) (t : VoteHandler LV LC)
    (f : Dispose → Option Nat) (x : Nat) :
    At t f x ↔ (place t e).bind f = some x ∨ (otherPlace t e).bind f = some x := by
  cases e with
  | disposeVote delivered => exact Iff.rfl
  | disposeOwn delivered => exact Or.comm
  | _ => cases hplace

theorem apart_iff {d : Dispose} (hplace : place s e = some d) (t : VoteHandler LV LC) :
    (∀ v, t.voting.disposing.bind commits = some v → t.proposing.bind commits ≠ some v) ↔
      ∀ v, (place t e).bind commits = some v → (otherPlace t e).bind commits ≠ some v := by
  cases e with
  | disposeVote delivered => exact Iff.rfl
  | disposeOwn delivered => exact forall_congr' fun v => imp_not_comm
  | _ => cases hplace

theorem contains_containsOrAdd {c : LC.Cache} {v x : Nat}
    (hx : LC.Contains (LC.ContainsOrAdd c v).2 x = true) : x = v ∨ LC.Contains c x = true := by
  rw [LC.containsOrAdd_eq] at hx
  split_ifs at hx with hv
  · exact .inr hx
  · rw [LC.contains_iff] at hx ⊢
    exact LC.mem_recent_add hx

variable {r r' : CommitRecord LV LC}

theorem kept_outside (h : Kept r)
    (hcommit : ∀ v, LC.Contains s'.commitMsg v = true →
      v ∈ receives e ∨ LC.Contains r.handler.commitMsg v = true)
    (hvoting : s'.voting.disposing.bind commits = r.handler.voting.disposing.bind commits ∧
      s'.voting.disposing.bind delivery = r.handler.voting.disposing.bind delivery)
    (hproposing : s'.proposing.bind commits = r.handler.proposing.bind commits ∧
      s'.proposing.bind delivery = r.handler.proposing.bind delivery) :
    Kept { r with handler := s', received := r.received ++ receives e } := by
  refine ⟨⟨fun v hv => ?_, h.once⟩, ?_, ?_⟩
  · rw [List.mem_append, At, hvoting.2, hproposing.2]
    rcases hcommit v hv with hnew | hold
    · exact .inr (.inl (.inr hnew))
    · exact (h.known v hold).imp_right (Or.imp_left .inl)
  · simpa only [At, hvoting.1, hproposing.1] using h.fresh
  · simpa only [hvoting.1, hproposing.1] using h.apart

theorem kept_move {d : Dispose} (h : Kept r) (hplace : place r.handler e = some d)
    (hother : otherPlace s' e = otherPlace r.handler e) (hnone : d.delivery = none)
    (hnew : ∀ v, (place s' e).bind commits = some v →
      v ∉ r.delivered ∧ (otherPlace r.handler e).bind commits ≠ some v)
    (hcommit : ∀ v, LC.Contains s'.commitMsg v = true →
      LC.Contains r.handler.commitMsg v = true ∨ (place s' e).bind delivery = some v) :
    Kept { r with handler := s' } := by
  refine ⟨⟨fun v hv => ?_, h.once⟩, fun v hv => ?_, (apart_iff hplace s').mpr fun v hv => ?_⟩
  · rw [at_iff hplace s', hother]
    rcases hcommit v hv with hold | hnext
    · refine (h.known v hold).imp_right (Or.imp_right fun hat => .inr ?_)
      rw [at_iff hplace, hplace, Option.bind_some, hnone] at hat
      exact hat.resolve_left (by simp)
    · exact .inr (.inr (.inl hnext))
  · rcases (at_iff hplace s' _ _).mp hv with hv | hv
    · exact (hnew v hv).1
    · exact h.fresh v ((at_iff hplace _ _ _).mpr (.inr (hother ▸ hv)))
  · rw [hother]
    exact (hnew v hv).2

theorem kept_deliver {voteMsg : VoteMessage} {commitMsg : CommitMessage} (h : Kept r)
    (hplace : place r.handler e = some (.deliver voteMsg commitMsg))
    (hother : otherPlace s' e = otherPlace r.handler e) (hnext : place s' e = none)
    (hcommit : s'.commitMsg = r.handler.commitMsg) :
    Kept { r with handler := s', delivered := r.delivered ++ [commitMsg.StateVersion] } := by
  have hapart := (apart_iff hplace r.handler).mp h.apart _ (congrArg (Option.bind · commits) hplace)
  have hfresh := h.fresh _ ((at_iff hplace _ commits _).mpr
    (.inl (congrArg (Option.bind · commits) hplace)))
  refine ⟨⟨fun v hv => ?_, List.nodup_append'.mpr ⟨h.once, List.nodup_singleton _,
    by simpa using hfresh⟩⟩, fun v hv => ?_, (apart_iff hplace s').mpr fun v hv => ?_⟩
  · rw [at_iff hplace s', hother, List.mem_append, List.mem_singleton]
    rcases h.known v (hcommit ▸ hv) with hdelivered | hreceived | hat
    · exact .inl (.inl hdelivered)
    · exact .inr (.inl hreceived)
    · rcases (at_iff hplace _ _ _).mp hat with hat | hat
      · rw [hplace] at hat
        exact .inl (.inr (Option.some.inj hat).symm)
      · exact .inr (.inr (.inr hat))
  · rw [at_iff hplace s', hnext, hother] at hv
    have hv := hv.resolve_left (by simp)
    rw [List.mem_append, List.mem_singleton, not_or]
    exact ⟨h.fresh v ((at_iff hplace _ _ _).mpr (.inr hv)), fun heq => hapart (heq ▸ hv)⟩
  · rw [hnext] at hv
    cases hv

theorem kept_step (h : Kept r) (hok : inOrder r e = true) (hstep : step env r e = some r') :
    Kept r' := by
  obtain ⟨s', hs', rfl⟩ := Option.map_eq_some_iff.mp hstep
  have hrunning : r.handler.panicked = false := (VoteHandler.step_cases hs').1
  cases commitEffect_of_step hs' with
  | outside hplace hcommit hvoting hproposing =>
    have hdelivers : delivers r.handler e = none := by simp [delivers, hplace]
    have hold : ∀ v, LC.Contains s'.commitMsg v = true →
        v ∈ receives e ∨ LC.Contains r.handler.commitMsg v = true := by
      intro v hv
      cases e with
      | commitMsgReceived received =>
        have hv' : LC.Contains (LC.ContainsOrAdd r.handler.commitMsg received).2 v = true :=
          hcommit ▸ hv
        simpa [receives] using contains_containsOrAdd hv'
      | _ => exact .inr (hcommit ▸ hv)
    simpa [hdelivers] using kept_outside h hold hvoting hproposing
  | inside d next hplace hnext hother hmove =>
    have hreceives : receives e = [] := by
      cases e with
      | commitMsgReceived received => cases hplace
      | _ => rfl
    have hdelivers : delivers r.handler e = d.delivery := by simp [delivers, hplace, hrunning]
    rw [hreceives, hdelivers, List.append_nil]
    rw [inOrder, hplace] at hok
    subst hnext
    have hkept : d.delivery = none → Kept { r with handler := s' } →
        Kept ⟨s', r.delivered ++ if outcome e then d.delivery.toList else [], r.received⟩ := by
      intro hnone hkept
      simpa [hnone] using hkept
    cases d with
    | deliver voteMsg commitMsg =>
      rw [if_pos hok]
      exact kept_deliver h hplace hother hmove.2 hmove.1
    | addCommit voteMsg commitMsg =>
      refine hkept rfl (kept_move h hplace hother rfl (fun v hv => ?_) fun v hv => ?_)
      · rw [hmove.2] at hv
        have hv := (congrArg (Option.bind · commits) hplace).trans hv
        exact ⟨h.fresh v ((at_iff hplace _ _ _).mpr (.inl hv)),
          (apart_iff hplace _).mp h.apart v hv⟩
      · rw [hmove.1, LC.contains_iff] at hv
        rw [LC.contains_iff, hmove.2]
        exact (LC.mem_recent_add hv).symm.imp_right (congrArg some ·.symm)
    | checkCommit voteMsg aggSign =>
      obtain ⟨hapart, hstays⟩ := of_decide_eq_true hok
      refine hkept rfl (kept_move h hplace hother rfl (fun v hv => ?_) fun v hv => ?_)
      · rcases hmove.2 with hnil | ⟨commitMsg, hnext, hversion, hmissing⟩
        · rw [hnil] at hv
          cases hv
        · rw [hnext] at hv
          cases hv
          rw [hversion] at hmissing ⊢
          exact ⟨fun hmem => by simp [hstays hmem] at hmissing, hapart⟩
      · exact .inl (hmove.1 ▸ hv)
    | tryAggregate voteMsg =>
      refine hkept rfl (kept_move h hplace hother rfl (fun v hv => ?_) fun v hv => ?_)
      · rw [hmove.2] at hv
        cases hv
      · exact .inl (hmove.1 ▸ hv)

end Step

section Run

variable {env : CommitEnv}

theorem kept_new : Kept (new LV LC) := by
  refine ⟨⟨fun v hv => ?_, List.nodup_nil⟩, fun _ _ => List.not_mem_nil, fun v hv => by cases hv⟩
  rw [LC.contains_iff, new, newConsensusProposer, LC.recent_new] at hv
  cases hv

/-- **When the record is right**: when no delivery fails, the two goroutines do not look at the
record for one version at once, and no delivered version leaves it. -/
theorem commitRecord_of_inOrder (env : CommitEnv) (LV : Lru Bytes) (LC : Lru Nat)
    (events : List VoteEvent)
    (hok : Along (step env) (fun r e => inOrder r e = true) (new LV LC) events) :
    Throughout (step env) Recorded (new LV LC) events :=
  throughout_of_along (fun _ _ _ => kept_step) (fun _ h => h.toRecorded)
    kept_new hok

def oneDelivery (delivered : Bool) : List VoteEvent :=
  [.updateDKGBls twoParticipants, .propose 0 headNine, .disposeOwn true,
    .voteMsg (voteNine [1] [1, 9]) true, .checkVote, .disposeVote true,
    .disposeVote true, .disposeVote true, .disposeVote delivered]

theorem commitRecord_of_oneDelivery :
    Throughout (step VoteHandler.plainEnv) Recorded (new (listLru Bytes) (listLru Nat))
      (oneDelivery true) :=
  commitRecord_of_inOrder _ _ _ _ (along_of_check (fun _ _ => id) (by decide))

/-- The own vote is the second one, and a third comes in before the record is looked at. -/
def twoDeliveries : List VoteEvent :=
  [.updateDKGBls twoParticipants, .propose 0 headNine,
    .voteMsg (voteNine [1] [1, 9]) true, .checkVote, .disposeVote true,
    .disposeOwn true, .voteMsg (voteNine [2] [1, 9]) true, .checkVote,
    .disposeVote true, .disposeOwn true, .disposeVote true, .disposeOwn true, .disposeVote true,
    .disposeOwn true, .disposeVote true]

/-- After a failed delivery the next vote is dropped; and two commit messages of one version are
delivered. -/
theorem commitRecord_fails_on_delivery :
    (∃ r, (oneDelivery false).foldlM (step VoteHandler.plainEnv)
        (new (listLru Bytes) (listLru Nat)) = some r ∧
      (listLru Nat).Contains r.handler.commitMsg 1 = true ∧ r.delivered = [] ∧ r.received = [] ∧
      r.handler.voting = .idle ∧ r.handler.proposing = none ∧
      r.handler.receiveVote (VoteHandler.voteNine [2] [1, 9]) true = r.handler) ∧
    ∃ r, twoDeliveries.foldlM (step VoteHandler.plainEnv) (new (listLru Bytes) (listLru Nat)) =
        some r ∧
      r.delivered = [1, 1] :=
  ⟨⟨_, rfl, rfl, rfl, rfl, rfl, rfl, rfl⟩, _, rfl, rfl⟩

end Run

end CommitRecord

end Topia.Consensus
