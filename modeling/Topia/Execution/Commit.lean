import Mathlib.Data.List.Chain
import Topia.Lib.Lru
import Topia.Chain.Types
import Topia.Execution.Scheduler

/-!
# Committing blocks

A block reaches the ledger of a node on four paths: `CommitPackedTx` and `CommitBlock` of
`execution/scheduler.go`, the latter also from `Process` of `chain/blockinfo_sub.go`, and
`commitMsgDispose` of `consensus/validator.go`, for a received and for an own commit message.

A path compares the height with the latest block's, gets a composition state, sets the latest block
there, and commits; others can run between these. Each path runs once at a time. From setting the
latest block to the commit a path holds the lock of its composition state, and the two paths through
`CommitBlock` hold `syncCommitBlock`. A committed state cannot be written.
-/

namespace Topia.Execution

open Lib Chain State

inductive CommitPath where
  | commitPackedTx
  | blockInfo
  | validator
  | proposer
deriving DecidableEq, Repr

def CommitPath.throughCommitBlock : CommitPath → Bool
  | .commitPackedTx => true
  | .blockInfo => true
  | .validator => false
  | .proposer => false

inductive CompStateBuilderType where
  | full
  | simple
deriving DecidableEq, Repr

structure Request where
  stateVersion : Nat
  block : Block
deriving DecidableEq, Repr

inductive Place where
  | idle
  | checked (r : Request)
  | created (r : Request) (c : CompState)
  | latestSet (r : Request) (c : CompState)
deriving DecidableEq, Repr

/-- One node: `ledger` has the committed blocks, oldest first, `commited` the composition states. -/
structure CommitNode (LC : Lru Nat) where
  cType : CompStateBuilderType
  latestBlock : Block
  ledger : List Block
  commitMsg : LC.Cache
  scheduler : ExecutionScheduler
  simpleStates : CompositionStateOfNodeSimple
  commited : List CompState
  place : CommitPath → Place

/-- `data` of the executed transactions, `collected`: the collector gave a block back, `bh`: the
head in a commit message, `stored`: the latest block was written, `published`: the messages could be
marshaled, `executes`: a batch was executed. -/
inductive CommitEvent where
  | commitPackedTx (stateVersion : Nat) (blockHead : BlockHead) (data : Bytes)
  | blockInfo (block : Block) (collected : Bool)
  | commitMsg (stateVersion : Nat) (bh : Option BlockHead)
  | proposed (stateVersion : Nat) (bh : BlockHead)
  | createState (path : CommitPath)
  | setLatestBlock (path : CommitPath) (stored : Bool)
  | commit (path : CommitPath) (published : Bool)
  | executePackedTxs (stateVersion : Nat) (executes : Bool)
  | maintain
deriving DecidableEq, Repr

def constructBlockWithOnlyHead (bh : BlockHead) : Block where
  Head := bh
  Data := ProtoWire.encode [⟨1, .number bh.Version⟩]

namespace CommitNode

variable {LC : Lru Nat}

open ExecutionScheduler

def new (LC : Lru Nat) (MaxPrepareMsgCache : Nat) (cType : CompStateBuilderType)
    (latestBlock : Block) : CommitNode LC where
  cType := cType
  latestBlock := latestBlock
  ledger := [latestBlock]
  commitMsg := LC.new 5
  scheduler := NewExecutionScheduler MaxPrepareMsgCache
  simpleStates := CompositionStateOfNodeSimple.new
  commited := []
  place := fun _ => .idle

variable (hash : Block → Bytes) (n : CommitNode LC) (path : CommitPath) (r : Request)

/-- The request of an event that passes its check. The validator compares signed heights, the
proposer none. -/
def request : CommitEvent → Option (CommitPath × Request)
  | .commitPackedTx stateVersion blockHead data =>
    if (n.scheduler.find stateVersion).isSome ∧ ¬ n.latestBlock.Head.Height ≥ blockHead.Height then
      some (.commitPackedTx, ⟨stateVersion, ⟨blockHead, data⟩⟩)
    else none
  | .blockInfo block collected =>
    if collected ∧ ¬ n.latestBlock.Head.Height ≥ block.Head.Height then
      some (.blockInfo, ⟨block.Head.Height, block⟩)
    else none
  | .commitMsg stateVersion bh =>
    if LC.Contains n.commitMsg stateVersion then none
    else
      match bh with
      | none => none
      | some bh =>
        if Int.bmod ((bh.Height : Int) - n.latestBlock.Head.Height) (2 ^ 64) ≤ 0 then none
        else some (.validator, ⟨stateVersion, constructBlockWithOnlyHead bh⟩)
  | .proposed stateVersion bh =>
    some (.proposer, ⟨stateVersion, constructBlockWithOnlyHead bh⟩)
  | _ => none

def entryPath : CommitEvent → Option CommitPath
  | .commitPackedTx _ _ _ => some .commitPackedTx
  | .blockInfo _ _ => some .blockInfo
  | .commitMsg _ _ => some .validator
  | .proposed _ _ => some .proposer
  | _ => none

def recordCommitMsg : CommitEvent → LC.Cache
  | .commitMsg stateVersion _ => (LC.ContainsOrAdd n.commitMsg stateVersion).2
  | _ => n.commitMsg

def moveTo (x : Place) : CommitNode LC :=
  { n with place := Function.update n.place path x }

@[simp] theorem moveTo_place_self (x : Place) : (n.moveTo path x).place path = x := by
  simp [moveTo]

theorem moveTo_place_of_ne {path q : CommitPath} (x : Place) (hq : q ≠ path) :
    (n.moveTo path x).place q = n.place q := by
  simp [moveTo, Function.update_of_ne hq]

def enter (e : CommitEvent) : CommitNode LC :=
  match n.request e with
  | none => { n with commitMsg := n.recordCommitMsg e }
  | some (path, r) => { n with commitMsg := n.recordCommitMsg e }.moveTo path (.checked r)

def takeState : Option CompState → CommitNode LC
  | some c => n.moveTo path (.created r c)
  | none => n.moveTo path .idle

def createSimple : CommitNode LC :=
  { n with
    simpleStates :=
      (n.simpleStates.createCompositionStateOfNode n.commited r.stateVersion).2 }.takeState
    path r (n.simpleStates.createCompositionStateOfNode n.commited r.stateVersion).1

/-- A path gets its composition state; the lookup waits for `CommitPackedTx`. -/
def createState : Option (CommitNode LC) :=
  match path, n.cType with
  | .commitPackedTx, _ =>
    some (n.takeState path r (n.scheduler.CompositionStateOfExePackedTxs r.stateVersion))
  | .blockInfo, .full =>
    if n.place .commitPackedTx ≠ .idle then none
    else some (n.takeState path r (n.scheduler.CompositionStateOfExePackedTxs r.stateVersion))
  | _, _ => some (n.createSimple path r)

def locked (c : CompState) : Bool :=
  [CommitPath.commitPackedTx, .blockInfo, .validator, .proposer].any (fun q =>
    match n.place q with
    | .latestSet _ c' => c' = c || (path.throughCommitBlock && q.throughCommitBlock)
    | _ => false)

/-- `SetLatestBlock`: `GetLatestBlock` changes even when the write fails. -/
def setLatestBlock (c : CompState) (stored : Bool) : CommitNode LC :=
  { n with latestBlock := r.block }.moveTo path (if stored then .latestSet r c else .idle)

/-- The state is committed. `CommitPackedTx` then publishes the block and lowers the counter. -/
def commit (published : Bool) (r : Request) (c : CompState) : CommitNode LC :=
  { n with
    ledger := n.ledger ++ [r.block]
    commited := c :: n.commited
    scheduler :=
      if path = CommitPath.commitPackedTx ∧ published = true then n.scheduler.subCount
      else n.scheduler }.moveTo path .idle

/-- One step; `none` when it waits, or a committed state would be written. -/
def step (e : CommitEvent) : Option (CommitNode LC) :=
  match e with
  | .createState path =>
    match n.place path with
    | .checked r => n.createState path r
    | _ => none
  | .setLatestBlock path stored =>
    match n.place path with
    | .created r c =>
      if n.locked path c ∨ (stored ∧ c ∈ n.commited) then none
      else some (n.setLatestBlock path r c stored)
    | _ => none
  | .commit path published =>
    match n.place path with
    | .latestSet r c => some (n.commit path published r c)
    | _ => none
  | .executePackedTxs stateVersion executes =>
    if n.place .commitPackedTx = .idle then
      some { n with scheduler := (n.scheduler.ExecutePackedTx stateVersion executes).2 }
    else none
  | .maintain => some { n with simpleStates := n.simpleStates.maintain n.commited }
  | e =>
    match entryPath e with
    | none => none
    | some path => if n.place path = .idle then some (n.enter e) else none

open Option

theorem step_cases {n n' : CommitNode LC} {e : CommitEvent} (hstep : n.step e = some n') :
    match e with
    | .createState path => ∃ r, n.place path = .checked r ∧ n.createState path r = some n'
    | .setLatestBlock path stored =>
      ∃ r c, n.place path = .created r c ∧ n.locked path c = false ∧
        (stored = true → c ∉ n.commited) ∧ n' = n.setLatestBlock path r c stored
    | .commit path published =>
      ∃ r c, n.place path = .latestSet r c ∧ n' = n.commit path published r c
    | .executePackedTxs stateVersion executes =>
      n.place .commitPackedTx = .idle ∧
        n' = { n with scheduler := (n.scheduler.ExecutePackedTx stateVersion executes).2 }
    | .maintain => n' = { n with simpleStates := n.simpleStates.maintain n.commited }
    | e => n' = n.enter e := by
  have henter : ∀ path e, (if n.place path = .idle then some (n.enter e) else none) = some n' →
      n' = n.enter e := by
    intro path e hentered
    split_ifs at hentered
    exact (some.inj hentered).symm
  cases e with
  | createState path =>
    cases hplace : n.place path with
    | checked r =>
      simp only [step, hplace] at hstep
      exact ⟨r, hplace, hstep⟩
    | _ => simp [step, hplace] at hstep
  | setLatestBlock path stored =>
    cases hplace : n.place path with
    | created r c =>
      simp only [step, hplace] at hstep
      split_ifs at hstep with hrefused
      rw [not_or, not_and] at hrefused
      exact ⟨r, c, hplace, by simpa using hrefused.1, hrefused.2, (some.inj hstep).symm⟩
    | _ => simp [step, hplace] at hstep
  | commit path published =>
    cases hplace : n.place path with
    | latestSet r c =>
      simp only [step, hplace] at hstep
      exact ⟨r, c, hplace, (some.inj hstep).symm⟩
    | _ => simp [step, hplace] at hstep
  | executePackedTxs stateVersion executes =>
    simp only [step] at hstep
    split_ifs at hstep with hidle
    exact ⟨hidle, (some.inj hstep).symm⟩
  | maintain => exact (some.inj hstep).symm
  | _ => exact henter _ _ hstep

theorem createState_cases {n n' : CommitNode LC} {path : CommitPath} {r : Request}
    (hstep : n.createState path r = some n') :
    ∃ simpleStates found,
      n' = { n with simpleStates := simpleStates }.takeState path r found ∧
      ∀ c, found = some c →
        (∃ e ∈ n.scheduler.exePackedTxsList, e.compState = c) ∨
        (path ≠ .commitPackedTx ∧ ∃ number, c = .simple r.stateVersion number) := by
  unfold createState at hstep
  split at hstep
  · refine ⟨n.simpleStates, _, (some.inj hstep).symm, fun c hc => .inl ?_⟩
    exact mem_of_CompositionStateOfExePackedTxs hc
  · split_ifs at hstep
    refine ⟨n.simpleStates, _, (some.inj hstep).symm, fun c hc => .inl ?_⟩
    exact mem_of_CompositionStateOfExePackedTxs hc
  · rename_i hpath _
    refine ⟨_, _, (some.inj hstep).symm, fun c hc => .inr ⟨?_, ?_⟩⟩
    · exact hpath
    · exact CompositionStateOfNodeSimple.createCompositionStateOfNode_simple hc

def Follows (prev b : Block) : Prop :=
  b.Head.Height = prev.Head.Height + 1 ∧ b.Head.ParentBlockHash.getD [] = hash prev

/-- Every height is committed once, in order, and every block names its predecessor. -/
def UniqueConsecutive (ledger : List Block) : Prop :=
  (ledger.map (fun b => b.Head.Height)).Nodup ∧ ledger.IsChain (Follows hash)

/-- A request passes its check alone, with the block after the latest one, which can be written. -/
def Orderly (e : CommitEvent) : Prop :=
  (∀ path r, n.request e = some (path, r) →
    (∀ q, n.place q = .idle) ∧ Follows hash n.latestBlock r.block) ∧
  ∀ path, e ≠ .setLatestBlock path false

def PlaceOk : Place → Prop
  | .idle => True
  | .checked r
  | .created r _ => Follows hash n.latestBlock r.block ∧ n.ledger.getLast? = some n.latestBlock
  | .latestSet r _ =>
    n.latestBlock = r.block ∧ ∃ prev, n.ledger.getLast? = some prev ∧ Follows hash prev r.block

structure Consecutive : Prop where
  chain : n.ledger.IsChain (Follows hash)
  alone : ∀ p q, n.place p ≠ .idle → n.place q ≠ .idle → p = q
  atRest : (∀ q, n.place q = .idle) → n.ledger.getLast? = some n.latestBlock
  places : ∀ q, n.PlaceOk hash (n.place q)

section Invariant

variable {hash : Block → Bytes} {n n' : CommitNode LC} {path : CommitPath} {r : Request}
  {c : CompState} {x : Place}

theorem Consecutive.others (hn : n.Consecutive hash) (path : CommitPath)
    (hbusy : n.place path ≠ .idle) : ∀ q, q ≠ path → n.place q = .idle := by
  intro q hq
  by_contra hqbusy
  exact hq (hn.alone q path hqbusy hbusy)

theorem Consecutive.placeOk (hn : n.Consecutive hash) (hplace : n.place path = x) :
    n.PlaceOk hash x :=
  hplace ▸ hn.places path

theorem Consecutive.moveTo (hchain : n.ledger.IsChain (Follows hash))
    (hothers : ∀ q, q ≠ path → n.place q = .idle) (hplace : n.PlaceOk hash x)
    (hrest : x = .idle → n.ledger.getLast? = some n.latestBlock) :
    (n.moveTo path x).Consecutive hash := by
  have hidle : ∀ q, q ≠ path → (n.moveTo path x).place q = .idle := by
    intro q hq
    rw [moveTo_place_of_ne n x hq]
    exact hothers q hq
  have hself : (n.moveTo path x).place path = x := moveTo_place_self n path x
  refine ⟨hchain, ?_, ?_, ?_⟩
  · intro p q hp hq
    have hp' : p = path := by
      by_contra hne
      exact hp (hidle p hne)
    have hq' : q = path := by
      by_contra hne
      exact hq (hidle q hne)
    rw [hp', hq']
  · intro hall
    exact hrest (hself ▸ hall path)
  · intro q
    by_cases hq : q = path
    · rw [hq, hself]
      cases x <;> exact hplace
    · rw [hidle q hq]
      exact trivial

theorem Consecutive.frame (hn : n.Consecutive hash) (hledger : n'.ledger = n.ledger)
    (hlatest : n'.latestBlock = n.latestBlock) (hplace : n'.place = n.place) :
    n'.Consecutive hash := by
  refine ⟨?_, ?_, ?_, ?_⟩
  · rw [hledger]
    exact hn.chain
  · rw [hplace]
    exact hn.alone
  · rw [hplace, hledger, hlatest]
    exact hn.atRest
  intro q
  have hok := hn.places q
  rw [hplace]
  cases hq : n.place q with
  | idle => exact trivial
  | _ => simpa [PlaceOk, hq, hledger, hlatest] using hok

theorem enter_frame (n : CommitNode LC) (e : CommitEvent) :
    (n.enter e).scheduler = n.scheduler ∧ (n.enter e).commited = n.commited := by
  unfold enter
  split
  · exact ⟨rfl, rfl⟩
  · exact ⟨rfl, rfl⟩

section Consecutive

variable (hn : n.Consecutive hash)
include hn

theorem enter_consecutive {e : CommitEvent}
    (hok : n.Orderly hash e) : (n.enter e).Consecutive hash := by
  unfold enter
  cases hreq : n.request e with
  | none => exact hn.frame rfl rfl rfl
  | some entry =>
    obtain ⟨path, r⟩ := entry
    obtain ⟨hidle, hfollows⟩ := hok.1 path r hreq
    refine Consecutive.moveTo hn.chain (fun q _ => hidle q) ?_ (by simp)
    exact ⟨hfollows, hn.atRest hidle⟩

theorem createState_consecutive (hplace : n.place path = .checked r)
    (hstep : n.createState path r = some n') : n'.Consecutive hash := by
  have hothers := hn.others path (by simp [hplace])
  obtain ⟨hfollows, hlast⟩ := hn.placeOk hplace
  obtain ⟨simpleStates, found, rfl, _⟩ := createState_cases hstep
  cases found with
  | none => exact Consecutive.moveTo hn.chain hothers trivial (fun _ => hlast)
  | some c => exact Consecutive.moveTo hn.chain hothers ⟨hfollows, hlast⟩ (by simp)

theorem setLatestBlock_consecutive (hplace : n.place path = .created r c) :
    (n.setLatestBlock path r c true).Consecutive hash := by
  have hothers := hn.others path (by simp [hplace])
  obtain ⟨hfollows, hlast⟩ := hn.placeOk hplace
  refine Consecutive.moveTo hn.chain hothers ?_ (by simp)
  exact ⟨rfl, n.latestBlock, hlast, hfollows⟩

theorem commit_consecutive (hplace : n.place path = .latestSet r c)
    (published : Bool) : (n.commit path published r c).Consecutive hash := by
  have hothers := hn.others path (by simp [hplace])
  obtain ⟨hlatest, prev, hlast, hfollows⟩ := hn.placeOk hplace
  refine Consecutive.moveTo ?_ hothers trivial ?_
  · refine hn.chain.append (List.isChain_singleton _) ?_
    intro x hx y hy
    have hxprev : x = prev := by
      rw [hlast] at hx
      exact (some.inj hx).symm
    have hyblock : y = r.block := by simpa using hy.symm
    rw [hxprev, hyblock]
    exact hfollows
  · intro _
    simp [hlatest]

theorem step_consecutive {e : CommitEvent} (hok : n.Orderly hash e)
    (hstep : n.step e = some n') : n'.Consecutive hash := by
  have hcase := step_cases hstep
  cases e with
  | createState path =>
    obtain ⟨r, hplace, hcreate⟩ := hcase
    exact createState_consecutive hn hplace hcreate
  | setLatestBlock path stored =>
    obtain ⟨r, c, hplace, _, _, rfl⟩ := hcase
    cases stored with
    | false => exact absurd rfl (hok.2 path)
    | true => exact setLatestBlock_consecutive hn hplace
  | commit path published =>
    obtain ⟨r, c, hplace, rfl⟩ := hcase
    exact commit_consecutive hn hplace published
  | executePackedTxs stateVersion executes =>
    obtain ⟨_, rfl⟩ := hcase
    exact hn.frame rfl rfl rfl
  | maintain => exact hcase ▸ hn.frame rfl rfl rfl
  | _ => exact hcase ▸ enter_consecutive hn hok

end Consecutive

theorem new_consecutive (LC : Lru Nat) (MaxPrepareMsgCache : Nat) (cType : CompStateBuilderType)
    (latestBlock : Block) : (new LC MaxPrepareMsgCache cType latestBlock).Consecutive hash := by
  refine ⟨List.isChain_singleton _, ?_, fun _ => rfl, fun _ => trivial⟩
  intro p q hp
  exact absurd rfl hp

theorem nodup_heights {ledger : List Block} (hchain : ledger.IsChain (Follows hash)) :
    (ledger.map (fun b => b.Head.Height)).Nodup := by
  have hlt : (ledger.map (fun b => b.Head.Height)).IsChain (fun a b => a < b) := by
    rw [List.isChain_map]
    refine hchain.imp ?_
    intro a b hab
    rw [hab.1]
    omega
  exact (List.isChain_iff_pairwise.mp hlt).imp Nat.ne_of_lt

/-- **When commits are unique and consecutive.** When each request passes its check alone and with
the block after the latest one, every committed block names its predecessor and no height is
committed twice. -/
theorem uniqueConsecutive_of_orderly (hash : Block → Bytes) (LC : Lru Nat)
    (MaxPrepareMsgCache : Nat) (cType : CompStateBuilderType) (latestBlock : Block)
    (events : List CommitEvent) (n : CommitNode LC)
    (horderly : Along step (Orderly hash) (new LC MaxPrepareMsgCache cType latestBlock) events)
    (hrun : events.foldlM step (new LC MaxPrepareMsgCache cType latestBlock) = some n) :
    UniqueConsecutive hash n.ledger := by
  have hn : n.Consecutive hash := run_invariant_along (fun _ _ _ hm => step_consecutive hm)
    (new_consecutive LC MaxPrepareMsgCache cType latestBlock) horderly hrun
  exact ⟨nodup_heights hn.chain, hn.chain⟩

end Invariant

section Runs

def heightHash (b : Block) : Bytes :=
  [UInt8.ofNat b.Head.Height]

def headAt (height : Nat) : BlockHead :=
  { emptyHead height with
    ChainID := [7], ParentBlockHash := some [UInt8.ofNat (height - 1)], Proposer := some [1],
    VRFProofHeight := height }

def executorOne : CommitNode (listLru Nat) :=
  new _ 50 .full ⟨headAt 1, []⟩

def validatorOne : CommitNode (listLru Nat) :=
  new _ 50 .simple ⟨headAt 1, []⟩

def commitThenInfo : List CommitEvent :=
  [.executePackedTxs 2 true, .commitPackedTx 2 (headAt 2) [], .createState .commitPackedTx,
    .setLatestBlock .commitPackedTx true, .commit .commitPackedTx true,
    .blockInfo ⟨headAt 2, []⟩ true]

theorem uniqueConsecutive_commitThenInfo :
    ∃ n, commitThenInfo.foldlM step executorOne = some n ∧ n.ledger.length = 2 ∧
      UniqueConsecutive heightHash n.ledger := by
  refine ⟨_, rfl, rfl, uniqueConsecutive_of_orderly heightHash _ 50 .full ⟨headAt 1, []⟩
    commitThenInfo _ ?_ rfl⟩
  refine ⟨⟨by simp [request], by simp⟩, ?_⟩
  rintro n1 ⟨⟩
  refine ⟨⟨?_, by simp⟩, ?_⟩
  · rintro path r ⟨⟩
    exact ⟨fun q => rfl, rfl, rfl⟩
  rintro n2 ⟨⟩
  refine ⟨⟨by simp [request], by simp⟩, ?_⟩
  rintro n3 ⟨⟩
  refine ⟨⟨by simp [request], by simp⟩, ?_⟩
  rintro n4 ⟨⟩
  refine ⟨⟨by simp [request], by simp⟩, ?_⟩
  rintro n5 ⟨⟩
  refine ⟨⟨?_, by simp⟩, fun _ _ => trivial⟩
  rintro path r ⟨⟩

def infoDuringCommit : List CommitEvent :=
  [.blockInfo ⟨headAt 2, []⟩ true, .commitMsg 2 (some (headAt 2)), .createState .validator,
    .setLatestBlock .validator true, .commit .validator true, .maintain, .createState .blockInfo,
    .setLatestBlock .blockInfo true, .commit .blockInfo true]

def commitAhead : List CommitEvent :=
  [.commitMsg 5 (some (headAt 5)), .createState .validator, .setLatestBlock .validator true,
    .commit .validator true]

/-- Two paths commit height 2; and a head that does not extend the latest block is committed. -/
theorem uniqueConsecutive_fails_on_race :
    (∃ n, infoDuringCommit.foldlM step validatorOne = some n ∧
      ¬ (n.ledger.map (fun b => b.Head.Height)).Nodup) ∧
    ∃ n, commitAhead.foldlM step validatorOne = some n ∧
      (n.ledger.map (fun b => b.Head.Height)).Nodup ∧
      ¬ UniqueConsecutive heightHash n.ledger := by
  constructor
  · exact ⟨_, rfl, by decide⟩
  · refine ⟨_, rfl, by decide, ?_⟩
    rintro ⟨_, hchain⟩
    have hfollows := (List.isChain_cons_cons.mp hchain).1
    exact absurd hfollows.1 (by decide)

end Runs

end CommitNode

end Topia.Execution
