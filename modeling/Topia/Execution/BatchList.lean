import Topia.Lib.Consecutive
import Topia.Lib.Loop
import Topia.Execution.Commit

/-!
# The list of the executed batches

`ExecutePackedTx` of `execution/scheduler.go` appends an executed batch to `exePackedTxsList` and
shortens a full list at its front; `PackedTxProofForValidity` and `CommitPackedTx` search it. The
first search dereferences what it walks to, so every version between the first and the last one has
to be there.

`CompositionStateAtVersion` searches it for a state that is not committed. A commit leaves its batch
in the list, and the loop of this search does not go past it. `executeMutex` makes every call one
step.
-/

namespace Topia.Execution

open Lib State

/-- Errors of `PackedTxProofForValidity`; `indexOutOfRange` is a panic. -/
inductive ProofError where
  | cantFind (expected : Nat) (existed : List Nat)
  | noPackedTxs (stateVersion : Nat)
  | txProof (txHash : Bytes)
  | txRSProof (txResultHash : Bytes)
  | indexOutOfRange
deriving DecidableEq, Repr

inductive CommitPackedError where
  | cantFind (expected : Nat) (existed : List Nat)
  | empty (stateVersion : Nat)
  | notCommitted
deriving DecidableEq, Repr

/-- `Prove` of the two trees of a batch, as JSON; `none` is an error. -/
structure BatchTrees where
  (proveTx proveTxRS : ExecutionPackedTxs → Bytes → Option Bytes)

/-- The calls that hold `executeMutex`. `executes`: the batch can be executed; `committed`: a commit
gets to its end. -/
inductive SchedulerCall where
  | executePackedTx (stateVersion : UInt64) (executes : Bool)
  | packedTxProofForValidity (stateVersion : UInt64) (txHashs txResultHashes : List Bytes)
  | commitPackedTx (stateVersion : UInt64) (committed : Bool)
deriving DecidableEq, Repr

namespace ExecutionScheduler

variable (s : ExecutionScheduler) (trees : BatchTrees) (commited : List CompState)
  (stateVersion : Nat)

def versions : List Nat :=
  s.exePackedTxsList.map ExecutionPackedTxs.StateVersion

def proofLoop (trees : BatchTrees) (exeTxsF : ExecutionPackedTxs) :
    List Bytes → List Bytes → Except ProofError (List (Bytes × Bytes))
  | [], _ => .ok []
  | txHash :: txHashs, txResultHashes =>
    match trees.proveTx exeTxsF txHash, txResultHashes with
    | none, _ => .error (.txProof txHash)
    | some _, [] => .error .indexOutOfRange
    | some txProof, txResultHash :: txResultHashes =>
      match trees.proveTxRS exeTxsF txResultHash with
      | none => .error (.txRSProof txResultHash)
      | some txRSProof =>
        (proofLoop trees exeTxsF txHashs txResultHashes).map ((txProof, txRSProof) :: ·)

/-- `PackedTxProofForValidity`; different numbers of hashes are only logged. -/
def PackedTxProofForValidity (txHashs txResultHashes : List Bytes) : Except ProofError
    (List (Bytes × Bytes)) :=
  if s.exePackedTxsList = [] then .error (.noPackedTxs stateVersion)
  else
    match s.find stateVersion with
    | none => .error (.cantFind stateVersion s.versions)
    | some exeTxsF => proofLoop trees exeTxsF txHashs txResultHashes

/-- The batch stays in the list, the counter is lowered. -/
def CommitPackedTx (committed : Bool) :
    Except CommitPackedError ExecutionPackedTxs × ExecutionScheduler :=
  if s.exePackedTxsList = [] then (.error (.empty stateVersion), s)
  else
    match s.find stateVersion with
    | none => (.error (.cantFind stateVersion s.versions), s)
    | some exeTxsF => if committed then (.ok exeTxsF, s.subCount) else (.error .notCommitted, s)

/-- One round of `CompositionStateAtVersion`; at a committed state nothing changes. -/
def lookupRound : List ExecutionPackedTxs → List ExecutionPackedTxs ⊕ Option CompState
  | [] => .inr none
  | exeTxsF :: rest =>
    if exeTxsF.StateVersion ≠ stateVersion then .inl rest
    else if exeTxsF.compState ∉ commited then .inr (some exeTxsF.compState)
    else .inl (exeTxsF :: rest)

def CompositionStateAtVersion (n : Nat) : Option (Option CompState) :=
  rounds (lookupRound commited stateVersion) n s.exePackedTxsList

/-- A state of the version that is not committed, or `nil` without one. -/
def Answers : Option CompState → Prop
  | some c => ∃ e ∈ s.exePackedTxsList, e.StateVersion = stateVersion ∧ e.compState = c ∧
      c ∉ commited
  | none => ∀ e ∈ s.exePackedTxsList, e.StateVersion = stateVersion → e.compState ∈ commited

def call (s : ExecutionScheduler) : SchedulerCall → Option ExecutionScheduler
  | .executePackedTx stateVersion executes =>
    if s.checkVersion stateVersion.toNat = .error .nilItem then none
    else some (s.ExecutePackedTx stateVersion.toNat executes).2
  | .packedTxProofForValidity stateVersion txHashs txResultHashes =>
    if s.PackedTxProofForValidity trees stateVersion.toNat txHashs txResultHashes =
        .error .indexOutOfRange then none
    else some s
  | .commitPackedTx stateVersion committed => some (s.CommitPackedTx stateVersion.toNat committed).2

/-- The versions are consecutive up to the last state version, and no search walks past the end. -/
structure BatchList : Prop where
  consecutive : Consecutive s.versions
  last : ∀ version, s.versions.getLast? = some version → s.lastStateVersion = version
  search : ∀ version, s.checkVersion version ≠ .error .nilItem

def BelowLargest (c : SchedulerCall) : Prop :=
  ∀ stateVersion executes, c = .executePackedTx stateVersion executes →
    s.Executes stateVersion.toNat executes →
      ∀ version, s.versions.getLast? = some version → version + 1 < 2 ^ 64

open List

section Versions

variable {s s' : ExecutionScheduler} {stateVersion : Nat} {executes : Bool}

theorem head?_versions : s.versions.head? = s.exePackedTxsList.head?.map (·.StateVersion) :=
  head?_map

theorem getLast?_versions :
    s.versions.getLast? = s.exePackedTxsList.getLast?.map (·.StateVersion) :=
  getLast?_map

theorem find_isSome_iff : (s.find stateVersion).isSome ↔ stateVersion ∈ s.versions := by
  simp [find, versions]

theorem search_of_consecutive (hconsecutive : Consecutive s.versions) (stateVersion : Nat) :
    s.checkVersion stateVersion ≠ .error .nilItem := by
  unfold checkVersion
  split
  · rename_i exeTxsF exeTxsL hfirst hlast
    split_ifs with hbetween hnext
    · have hmem : stateVersion ∈ s.versions := by
        refine hconsecutive.mem_of_between ?_ ?_ hbetween.1 hbetween.2
        · rw [head?_versions, hfirst]
          rfl
        · rw [getLast?_versions, hlast]
          rfl
      obtain ⟨e, he⟩ := Option.isSome_iff_exists.mp (find_isSome_iff.mpr hmem)
      simp [he]
    · simp
    · simp
  · split_ifs <;> simp

theorem next_of_Executes (hexecutes : s.Executes stateVersion executes) {last : Nat}
    (hlast : s.versions.getLast? = some last) : stateVersion = wrap64 (last + 1) := by
  obtain ⟨hcheck, -⟩ := hexecutes
  rw [getLast?_versions] at hlast
  obtain ⟨exeTxsL, hexeTxsL, rfl⟩ := Option.map_eq_some_iff.mp hlast
  obtain ⟨exeTxsF, hexeTxsF⟩ : ∃ e, s.exePackedTxsList.head? = some e := by
    cases hlist : s.exePackedTxsList with
    | nil => simp [hlist] at hexeTxsL
    | cons e rest => exact ⟨e, rfl⟩
  simp only [checkVersion, hexeTxsF, hexeTxsL] at hcheck
  split_ifs at hcheck with hbetween hnext
  · cases hfind : s.find stateVersion <;> simp [hfind] at hcheck
  · exact not_not.mp hnext

theorem versions_push (s : ExecutionScheduler) (stateVersion : Nat) :
    ∃ k, (s.push stateVersion).versions = s.versions.drop k ++ [stateVersion] ∧
      (s.versions.drop k).getLast? = s.versions.getLast? := by
  have hlength : s.versions.length = s.exePackedTxsList.length := length_map _
  have hdrop : ∀ k, k < s.versions.length ∨ k = 0 →
      (s.versions.drop k).getLast? = s.versions.getLast? := by
    rintro k (hk | rfl)
    · rw [getLast?_drop, if_neg (by omega)]
    · rfl
  simp only [push, shorten, versions]
  split_ifs with hfull
  · -- a fifth of the list is less than all of it
    have hk : s.MaxPrepareMsgCache / 5 < s.versions.length ∨ s.MaxPrepareMsgCache / 5 = 0 := by
      simp only [length_append, length_cons, length_nil] at hfull
      omega
    refine ⟨s.MaxPrepareMsgCache / 5, ?_, hdrop _ hk⟩
    rw [drop_append_of_le_length (by omega), map_append, map_drop]
    rfl
  · exact ⟨0, by simp [nextBatch], hdrop 0 (.inr rfl)⟩

theorem lastStateVersion_push : (s.push stateVersion).lastStateVersion = stateVersion := rfl

theorem batchList_push_iff (h : s.BatchList) (hexecutes : s.Executes stateVersion executes) :
    (s.push stateVersion).BatchList ↔
      ∀ version, s.versions.getLast? = some version → version + 1 < 2 ^ 64 := by
  obtain ⟨k, hversions, hlast⟩ := versions_push s stateVersion
  have hiff : Consecutive (s.push stateVersion).versions ↔
      ∀ version, s.versions.getLast? = some version → stateVersion = version + 1 := by
    rw [hversions, consecutive_concat, hlast]
    exact and_iff_right (h.consecutive.suffix (drop_suffix k s.versions))
  constructor
  · intro hpush version hversion
    have hnext := next_of_Executes hexecutes hversion
    have hstep := hiff.mp hpush.consecutive version hversion
    have hlt : wrap64 (version + 1) < 2 ^ 64 := Nat.mod_lt _ (by decide)
    omega
  · intro hbelow
    have hconsecutive : Consecutive (s.push stateVersion).versions := by
      refine hiff.mpr ?_
      intro version hversion
      rw [next_of_Executes hexecutes hversion]
      exact Nat.mod_eq_of_lt (hbelow version hversion)
    refine ⟨hconsecutive, ?_, search_of_consecutive hconsecutive⟩
    intro version hversion
    rw [hversions] at hversion
    rw [lastStateVersion_push]
    simpa using hversion

theorem batchList_subCount (h : s.BatchList) : s.subCount.BatchList :=
  { h with search := search_of_consecutive h.consecutive }

theorem CommitPackedTx_cases (s : ExecutionScheduler) (stateVersion : Nat) (committed : Bool) :
    (s.CommitPackedTx stateVersion committed).2 = s ∨
      (s.CommitPackedTx stateVersion committed).2 = s.subCount := by
  unfold CommitPackedTx
  by_cases hempty : s.exePackedTxsList = []
  · exact .inl (by rw [if_pos hempty])
  rw [if_neg hempty]
  cases s.find stateVersion with
  | none => exact .inl rfl
  | some exeTxsF =>
    cases committed with
    | true => exact .inr rfl
    | false => exact .inl rfl

end Versions

section Run

variable {trees : BatchTrees} {s s' : ExecutionScheduler} {c : SchedulerCall}

theorem call_cases (hcall : call trees s c = some s') :
    (∃ stateVersion executes, c = .executePackedTx stateVersion executes ∧
        s.Executes stateVersion.toNat executes ∧ s' = s.push stateVersion.toNat) ∨
      ((∀ stateVersion executes, c = .executePackedTx stateVersion executes →
          ¬ s.Executes stateVersion.toNat executes) ∧ (s' = s ∨ s' = s.subCount)) := by
  cases c with
  | executePackedTx stateVersion executes =>
    simp only [call] at hcall
    split_ifs at hcall
    cases hcall
    rcases s.ExecutePackedTx_cases stateVersion.toNat executes with ⟨hexecutes, heq⟩ | ⟨hnot, heq⟩
    · exact .inl ⟨stateVersion, executes, rfl, hexecutes, heq⟩
    · refine .inr ⟨?_, .inl heq⟩
      rintro _ _ ⟨⟩
      exact hnot
  | packedTxProofForValidity stateVersion txHashs txResultHashes =>
    simp only [call] at hcall
    split_ifs at hcall
    cases hcall
    exact .inr ⟨by simp, .inl rfl⟩
  | commitPackedTx stateVersion committed =>
    cases hcall
    exact .inr ⟨by simp, s.CommitPackedTx_cases stateVersion.toNat committed⟩

theorem batchList_call_iff (h : s.BatchList) (hcall : call trees s c = some s') :
    s'.BatchList ↔ BelowLargest s c := by
  rcases call_cases hcall with ⟨stateVersion, executes, rfl, hexecutes, rfl⟩ | ⟨hnot, hsame⟩
  · rw [batchList_push_iff h hexecutes]
    constructor
    · rintro hbelow _ _ ⟨⟩ _
      exact hbelow
    · intro hbelow
      exact hbelow stateVersion executes rfl hexecutes
  · have hkept : s'.BatchList := by
      rcases hsame with rfl | rfl
      · exact h
      · exact batchList_subCount h
    refine iff_of_true hkept ?_
    intro stateVersion executes hc hexecutes
    exact absurd hexecutes (hnot stateVersion executes hc)

theorem belowLargest_of_panic (hcall : call trees s c = none) : BelowLargest s c := by
  rintro stateVersion executes rfl hexecutes
  simp only [call, hexecutes.1] at hcall
  simp at hcall

theorem batchList_new (MaxPrepareMsgCache : Nat) :
    (NewExecutionScheduler MaxPrepareMsgCache).BatchList where
  consecutive := consecutive_nil
  last := by simp [versions, NewExecutionScheduler]
  search := search_of_consecutive consecutive_nil

/-- **When the list is consecutive**, with `lastStateVersion` last and no search past its end:
exactly when no batch follows the largest version. -/
theorem batchList_iff (trees : BatchTrees) (MaxPrepareMsgCache : Nat)
    (calls : List SchedulerCall) :
    Throughout (call trees) BatchList (NewExecutionScheduler MaxPrepareMsgCache) calls ↔
      Along (call trees) BelowLargest (NewExecutionScheduler MaxPrepareMsgCache) calls := by
  have hkept : ∀ (s : ExecutionScheduler) (c : SchedulerCall) (s' : ExecutionScheduler),
      True → call trees s c = some s' → True := fun _ _ _ _ _ => trivial
  refine throughout_iff_along hkept ?_ ?_ trivial (batchList_new MaxPrepareMsgCache)
  · intro s c s' _ h hcall
    exact batchList_call_iff h hcall
  · intro s c _ _ hcall
    exact belowLargest_of_panic hcall

/-- Version `0` is taken for the one after `2 ^ 64 - 1`. -/
theorem batchList_fails_after_largest :
    ¬ Throughout (call ⟨fun _ _ => none, fun _ _ => none⟩) BatchList (NewExecutionScheduler 50)
      [.executePackedTx 18446744073709551615 true, .executePackedTx 0 true] := by
  intro hall
  have hlist := hall _ _ prefix_rfl rfl
  have hversions : Consecutive ([18446744073709551615] ++ [0]) := hlist.consecutive
  simpa using (consecutive_concat.mp hversions).2 18446744073709551615 rfl

end Run

section Lookup

variable {commited : List CompState} {stateVersion : Nat} {list : List ExecutionPackedTxs}
  {e : ExecutionPackedTxs} {out : Option CompState}

theorem ends_lookup_iff :
    Ends (lookupRound commited stateVersion) list out ↔
      match list.find? (fun e => e.StateVersion = stateVersion) with
      | none => out = none
      | some e => e.compState ∉ commited ∧ out = some e.compState := by
  induction list with
  | nil => exact ends_of_result rfl
  | cons exeTxsF rest ih =>
    by_cases hversion : exeTxsF.StateVersion = stateVersion
    · rw [find?_cons_of_pos (by simpa using hversion)]
      by_cases hcommited : exeTxsF.compState ∈ commited
      · have hround : lookupRound commited stateVersion (exeTxsF :: rest) =
            .inl (exeTxsF :: rest) := by
          simp [lookupRound, hversion, hcommited]
        simp [not_ends_of_fixed hround, hcommited]
      · have hround : lookupRound commited stateVersion (exeTxsF :: rest) =
            .inr (some exeTxsF.compState) := by
          simp [lookupRound, hversion, hcommited]
        simp [ends_of_result hround, hcommited]
    · have hround : lookupRound commited stateVersion (exeTxsF :: rest) = .inl rest := by
        simp [lookupRound, hversion]
      rw [find?_cons_of_neg (by simpa using hversion), ends_of_next hround, ih]

/-- **When the search for a state returns**: exactly when the first batch of the version is not
committed, or there is none. -/
theorem lookup_iff (s : ExecutionScheduler) (commited : List CompState) (stateVersion : UInt64) :
    (∃ n out, s.CompositionStateAtVersion commited stateVersion.toNat n = some out ∧
        s.Answers commited stateVersion.toNat out) ↔
      ∀ e ∈ s.find stateVersion.toNat, e.compState ∉ commited := by
  have hends : ∀ out, (∃ n, s.CompositionStateAtVersion commited stateVersion.toNat n = some out) ↔
      match s.find stateVersion.toNat with
      | none => out = none
      | some e => e.compState ∉ commited ∧ out = some e.compState :=
    fun out => ends_lookup_iff
  cases hfind : s.find stateVersion.toNat with
  | none =>
    have hnone := (hends none).mpr (by rw [hfind])
    have habsent : ∀ e ∈ s.exePackedTxsList, e.StateVersion ≠ stateVersion.toNat := by
      simpa using find?_eq_none.mp hfind
    obtain ⟨n, hn⟩ := hnone
    simp only [Option.not_mem_none, false_imp_iff, implies_true, iff_true]
    exact ⟨n, none, hn, fun e he hversion => absurd hversion (habsent e he)⟩
  | some e =>
    simp only [Option.mem_some, forall_eq']
    constructor
    · rintro ⟨n, out, hn, -⟩
      have hlive := (hends out).mp ⟨n, hn⟩
      rw [hfind] at hlive
      exact hlive.1
    · intro hlive
      obtain ⟨n, hn⟩ := (hends (some e.compState)).mpr (by rw [hfind]; exact ⟨hlive, rfl⟩)
      have hversion : e.StateVersion = stateVersion.toNat := by simpa using find?_some hfind
      exact ⟨n, some e.compState, hn, e, mem_of_find?_eq_some hfind, hversion, rfl, hlive⟩

end Lookup

end ExecutionScheduler

namespace CommitNode

variable {LC : Lru Nat} {n n' : CommitNode LC} {e : CommitEvent}

theorem scheduler_step (hstep : n.step e = some n') :
    (∃ stateVersion executes, e = .executePackedTxs stateVersion executes ∧
        n.scheduler.Executes stateVersion executes ∧ n'.scheduler = n.scheduler.push stateVersion) ∨
      n'.scheduler = n.scheduler ∨ n'.scheduler = n.scheduler.subCount := by
  have hcases := step_cases hstep
  cases e with
  | executePackedTxs stateVersion executes =>
    obtain ⟨-, rfl⟩ := hcases
    rcases n.scheduler.ExecutePackedTx_cases stateVersion executes with
      ⟨hexecutes, heq⟩ | ⟨_, heq⟩
    · exact .inl ⟨stateVersion, executes, rfl, hexecutes, heq⟩
    · exact .inr (.inl heq)
  | commit path published =>
    obtain ⟨r, c, _, rfl⟩ := hcases
    refine .inr ?_
    simp only [commit, moveTo]
    split_ifs
    · exact .inr rfl
    · exact .inl rfl
  | createState path =>
    obtain ⟨r, _, hcreate⟩ := hcases
    obtain ⟨simpleStates, found, rfl, _⟩ := createState_cases hcreate
    cases found <;> exact .inr (.inl rfl)
  | setLatestBlock path stored =>
    obtain ⟨r, c, _, _, _, rfl⟩ := hcases
    exact .inr (.inl rfl)
  | maintain =>
    cases hcases
    exact .inr (.inl rfl)
  | _ =>
    cases hcases
    exact .inr (.inl (n.enter_frame _).1)

def ExecutesBelow (n : CommitNode LC) (e : CommitEvent) : Prop :=
  ∀ stateVersion executes, e = .executePackedTxs stateVersion executes →
    n.scheduler.Executes stateVersion executes →
      ∀ version, n.scheduler.versions.getLast? = some version → version + 1 < 2 ^ 64

open ExecutionScheduler

/-- **The list in the runs of a node**, with commits between the calls. -/
theorem batchList_of_node (MaxPrepareMsgCache : Nat) (cType : CompStateBuilderType)
    (latestBlock : Chain.Block) {events : List CommitEvent}
    (hbelow : Along step ExecutesBelow (new LC MaxPrepareMsgCache cType latestBlock) events) :
    Throughout step (fun n => n.scheduler.BatchList)
      (new LC MaxPrepareMsgCache cType latestBlock) events := by
  refine throughout_of_along ?_ (fun _ h => h)
    (batchList_new MaxPrepareMsgCache) hbelow
  intro n e n' hlist hok hstep
  rcases scheduler_step hstep with ⟨stateVersion, executes, rfl, hexecutes, heq⟩ | heq | heq
  · rw [heq]
    exact (batchList_push_iff hlist hexecutes).mpr
      (hok stateVersion executes rfl hexecutes)
  · rw [heq]
    exact hlist
  · rw [heq]
    exact batchList_subCount hlist

theorem batchList_commitThenInfo :
    Throughout step (fun n => n.scheduler.BatchList) executorOne commitThenInfo := by
  have hbelow : Along step ExecutesBelow executorOne commitThenInfo :=
    along_of_check (fun n _ (hok : n.scheduler.versions.all (· + 1 < 2 ^ 64) = true) _ _ _ _ _ hlast
      => by simpa using List.all_eq_true.mp hok _ (List.mem_of_getLast? hlast)) (by decide)
  exact batchList_of_node 50 .full _ hbelow

theorem lookup_never_returns :
    ∃ n, commitThenInfo.foldlM step executorOne = some n ∧
      ∀ k, n.scheduler.CompositionStateAtVersion n.commited 2 k = none := by
  refine ⟨_, rfl, fun k => ?_⟩
  have hround : lookupRound [.full 0] 2 [⟨2, .full 0⟩] =
      .inl [⟨2, .full 0⟩] := rfl
  exact rounds_of_fixed hround k

end CommitNode

end Topia.Execution
