import Mathlib.Data.List.AList
import Topia.Lib.Run

/-!
# The cache of the latest block

`state/chain/chain.go` stores the latest block of a ledger under one key of the composition state;
`state/chain/chain_lb.go` keeps a copy for the whole process, from which `GetLatestBlock` answers.
`SetLatestBlock` writes the copy at once, even if the block could not be written; a state that reads
the key fills an empty copy with what it sees at its version.
-/

namespace Topia.State

open Lib

inductive LedgerState where
  | uninitialized
  | genesis
  | autoInc
deriving DecidableEq, Repr

structure ChainState (β : Type) where
  (base written : Option β)
  (readOnly closed : Bool)
deriving DecidableEq, Repr

/-- `SetLatestBlock` ends without an error, with one after the data were written, or with nothing
written. -/
inductive WriteOutcome where
  | done
  | dataOnly
  | failed
deriving DecidableEq, Repr

/-- A ledger in a process: `latestBlockMap` at its id, the latest block of each committed version,
last first, and the states in use. -/
structure LatestBlock (β : Type) where
  cache : Option β
  versions : List (Option β)
  ledgerState : LedgerState
  states : AList (fun _ : Nat => ChainState β)

inductive LatestBlockEvent (β : Type) where
  | createCompositionState (id : Nat)
  | createCompositionStateReadonly (id : Nat)
  | createCompositionStateReadonlyAt (id version : Nat)
  | setLatestBlock (id : Nat) (block : Option β) (outcome : WriteOutcome)
  | getLatestBlock (id : Nat)
  | commit (id : Nat) (committed : Bool)
  | rollback (id : Nat)
  | stop (id : Nat)
  | askLatestBlock
deriving DecidableEq, Repr

namespace ChainState

variable {β : Type}

variable (c : ChainState β) (b : β)

def latest : Option β :=
  match c.written with
  | some b => some b
  | none => c.base

def write (outcome : WriteOutcome) : ChainState β × Bool :=
  if c.readOnly ∨ c.closed ∨ outcome = .failed then (c, false)
  else ({ c with written := some b }, decide (outcome = .done))

def Uncommitted : Prop :=
  c.closed = false ∧ c.written = some b

end ChainState

namespace LatestBlock

variable {β : Type} [Inhabited β] (height : β → Nat)

def start (versions : List (Option β)) (ledgerState : LedgerState) : LatestBlock β :=
  ⟨none, versions, ledgerState, ∅⟩

variable (s : LatestBlock β)

def committed : Option β := s.versions.headD none

def stored : β := s.committed.getD default

def fill (b : β) : LatestBlock β :=
  match s.cache with
  | some _ => s
  | none => { s with cache := some b }

def GetLatestBlock : β × LatestBlock β :=
  match s.cache with
  | some b => (b, s)
  | none => (s.stored, s.fill s.stored)

def openState (id : Nat) (base : Option β) (readOnly : Bool) : Option (LatestBlock β) :=
  if id ∈ s.states then none
  else some { s with states := s.states.insert id ⟨base, none, readOnly, false⟩ }

def step : LatestBlockEvent β → Option (LatestBlock β)
  | .createCompositionState id => s.openState id s.committed false
  | .createCompositionStateReadonly id => s.openState id s.committed true
  | .createCompositionStateReadonlyAt id version =>
    match s.versions.reverse[version - 1]? with
    | none => none
    | some base => if version = 0 then none else s.openState id base true
  | .setLatestBlock id block outcome =>
    match s.states.lookup id, block with
    | none, _ => none
    | some _, none => some s
    | some c, some b =>
      some { s with
        states := s.states.insert id (c.write b outcome).1
        ledgerState := if (c.write b outcome).2 ∧ 2 ≤ height b then .autoInc else s.ledgerState
        cache := some b }
  | .getLatestBlock id =>
    match s.states.lookup id with
    | none => none
    | some c => some (if c.closed then s else s.fill (c.latest.getD default))
  | .commit id committed =>
    match s.states.lookup id with
    | none => none
    | some c =>
      if c.readOnly then some s
      else some { s with
        versions := (match c.closed, committed, c.written with
          | false, true, some b => some b
          | _, _, _ => s.committed) :: s.versions
        states := s.states.insert id { c with closed := true } }
  | .rollback _ => none
  | .stop id => if id ∈ s.states then some { s with states := s.states.erase id } else none
  | .askLatestBlock => some s.GetLatestBlock.2

def Coherent : Prop := s.GetLatestBlock.1 = s.stored

def Undisturbed : LatestBlockEvent β → Prop
  | .setLatestBlock id (some b) _ => id ∈ s.states → b = s.stored
  | .getLatestBlock id => ∀ c, s.states.lookup id = some c → c.closed = false →
      s.cache = none → c.latest.getD default = s.stored
  | .commit id true => ∀ c b, s.states.lookup id = some c → c.readOnly = false →
      c.Uncommitted b → s.cache = none ∨ b = s.stored
  | _ => True

section Exact

variable {s s' : LatestBlock β} {e : LatestBlockEvent β} {id : Nat}

theorem coherent_iff : s.Coherent ↔ s.cache = none ∨ s.cache = some s.stored := by
  unfold Coherent GetLatestBlock
  cases s.cache with
  | none => simp
  | some b => simp

theorem stored_fill (s : LatestBlock β) (b : β) : (s.fill b).stored = s.stored := by
  unfold fill
  split <;> rfl

theorem coherent_fill_iff (hs : s.Coherent) (b : β) :
    (s.fill b).Coherent ↔ (s.cache = none → b = s.stored) := by
  rw [coherent_iff, stored_fill]
  rw [coherent_iff] at hs
  unfold fill
  cases hcache : s.cache with
  | none => simp
  | some b' =>
    simpa [hcache] using hs

theorem coherent_frame (hcache : s'.cache = s.cache) (hversions : s'.versions = s.versions) :
    s'.Coherent ↔ s.Coherent := by
  rw [coherent_iff, coherent_iff, stored, stored, committed, committed, hcache, hversions]

omit [Inhabited β] in
theorem openState_frame {base : Option β} {readOnly : Bool}
    (hopen : s.openState id base readOnly = some s') :
    s'.cache = s.cache ∧ s'.versions = s.versions := by
  unfold openState at hopen
  split_ifs at hopen
  cases hopen
  exact ⟨rfl, rfl⟩

theorem step_cases : s.step height e = some s' →
    match e with
    | .setLatestBlock id (some b) _ =>
      id ∈ s.states ∧ s'.cache = some b ∧ s'.versions = s.versions
    | .getLatestBlock id => ∃ c, s.states.lookup id = some c ∧
        s' = if c.closed then s else s.fill (c.latest.getD default)
    | .commit id committed => ∃ c, s.states.lookup id = some c ∧ s'.cache = s.cache ∧
        ((∃ b, committed = true ∧ c.readOnly = false ∧ c.Uncommitted b ∧ s'.committed = some b) ∨
          ((∀ b, committed = true → c.readOnly = false → ¬ c.Uncommitted b) ∧
            s'.committed = s.committed))
    | .askLatestBlock => s' = s.GetLatestBlock.2
    | _ => s'.cache = s.cache ∧ s'.versions = s.versions := by
  intro hstep
  cases e with
  | createCompositionStateReadonlyAt id version =>
    simp only [step] at hstep
    split at hstep
    · cases hstep
    · split_ifs at hstep
      exact openState_frame hstep
  | setLatestBlock id block outcome =>
    simp only [step] at hstep
    split at hstep
    · cases hstep
    · cases hstep
      exact ⟨rfl, rfl⟩
    · next c b hlookup =>
        cases hstep
        refine ⟨?_, rfl, rfl⟩
        rw [← AList.lookup_isSome, hlookup]
        rfl
  | getLatestBlock id =>
    simp only [step] at hstep
    split at hstep
    · cases hstep
    · next c hlookup =>
        exact ⟨c, hlookup, (Option.some.inj hstep).symm⟩
  | commit id committed =>
    simp only [step] at hstep
    split at hstep
    · cases hstep
    · next c hlookup =>
        refine ⟨c, hlookup, ?_⟩
        split_ifs at hstep with hreadOnly
        · cases hstep
          refine ⟨rfl, .inr ⟨?_, rfl⟩⟩
          simp [hreadOnly]
        · cases hstep
          refine ⟨rfl, ?_⟩
          split
          · next b hclosed hwritten =>
              exact .inl ⟨b, rfl, by simpa using hreadOnly, ⟨hclosed, hwritten⟩, rfl⟩
          · next hnone =>
              refine .inr ⟨?_, rfl⟩
              intro b hcommitted _ huncommitted
              exact hnone b huncommitted.1 hcommitted huncommitted.2
  | rollback id => cases hstep
  | stop id =>
    obtain ⟨-, rfl⟩ := of_guard hstep
    exact ⟨rfl, rfl⟩
  | askLatestBlock => exact (Option.some.inj hstep).symm
  | _ => exact openState_frame hstep

theorem getLatestBlock_coherent_iff {c : ChainState β} (hs : s.Coherent)
    (hlookup : s.states.lookup id = some c) :
    (if c.closed then s else s.fill (c.latest.getD default)).Coherent ↔
      s.Undisturbed (.getLatestBlock id) := by
  cases hclosed : c.closed with
  | true =>
    refine iff_of_true (by simpa using hs) ?_
    intro c' hlookup' hopen
    rw [hlookup] at hlookup'
    cases hlookup'
    rw [hclosed] at hopen
    cases hopen
  | false =>
    simp only [Bool.false_eq_true, if_false]
    rw [coherent_fill_iff hs]
    constructor
    · intro hfill c' hlookup' _
      rw [hlookup] at hlookup'
      cases hlookup'
      exact hfill
    · intro hok
      exact hok c hlookup hclosed

theorem commit_coherent_iff {c : ChainState β} {ok : Bool} (hs : s.Coherent)
    (hlookup : s.states.lookup id = some c) (hcache : s'.cache = s.cache)
    (hcase : (∃ b, ok = true ∧ c.readOnly = false ∧ c.Uncommitted b ∧ s'.committed = some b) ∨
      ((∀ b, ok = true → c.readOnly = false → ¬ c.Uncommitted b) ∧ s'.committed = s.committed)) :
    s'.Coherent ↔ s.Undisturbed (.commit id ok) := by
  rw [coherent_iff, hcache]
  rw [coherent_iff] at hs
  rcases hcase with ⟨b, rfl, hreadOnly, huncommitted, hcommitted⟩ | ⟨hnone, hcommitted⟩
  · have hstored : s'.stored = b := by
      rw [stored, hcommitted]
      rfl
    rw [hstored]
    constructor
    · intro hnew c' b' hlookup' _ huncommitted'
      rw [hlookup] at hlookup'
      cases hlookup'
      have hsame : b' = b := Option.some.inj (huncommitted'.2.symm.trans huncommitted.2)
      rw [hsame]
      rcases hs with hnil | hold
      · exact .inl hnil
      · refine hnew.imp_right (fun hcached => ?_)
        exact Option.some.inj (hcached.symm.trans hold)
    · intro hok
      rcases hok c b hlookup hreadOnly huncommitted with hnil | hsame
      · exact .inl hnil
      · rw [hsame]
        exact hs
  · have hstored : s'.stored = s.stored := by rw [stored, stored, hcommitted]
    rw [hstored]
    refine iff_of_true hs ?_
    cases ok with
    | false => exact trivial
    | true =>
      intro c' b' hlookup' hreadOnly huncommitted
      rw [hlookup] at hlookup'
      cases hlookup'
      exact absurd huncommitted (hnone b' rfl hreadOnly)

theorem step_coherent_iff (hs : s.Coherent) (hstep : s.step height e = some s') :
    s'.Coherent ↔ s.Undisturbed e := by
  have hcase := step_cases height hstep
  cases e with
  | setLatestBlock id block outcome =>
    cases block with
    | none => exact iff_of_true ((coherent_frame hcase.1 hcase.2).mpr hs) trivial
    | some b =>
      obtain ⟨hlive, hcache, hversions⟩ := hcase
      have hstored : s'.stored = s.stored := by rw [stored, stored, committed, committed, hversions]
      rw [coherent_iff, hcache, hstored]
      simp [Undisturbed, hlive]
  | getLatestBlock id =>
    obtain ⟨c, hlookup, rfl⟩ := hcase
    exact getLatestBlock_coherent_iff hs hlookup
  | commit id ok =>
    obtain ⟨c, hlookup, hcache, hcase⟩ := hcase
    exact commit_coherent_iff hs hlookup hcache hcase
  | rollback id => cases hstep
  | askLatestBlock =>
    refine iff_of_true ?_ trivial
    rw [show s' = s.GetLatestBlock.2 from hcase]
    unfold GetLatestBlock
    split
    · exact hs
    · exact (coherent_fill_iff hs _).mpr (fun _ => rfl)
  | stop id => exact iff_of_true ((coherent_frame hcase.1 hcase.2).mpr hs) trivial
  | _ =>
    exact iff_of_true ((coherent_frame hcase.1 hcase.2).mpr hs) trivial

theorem undisturbed_of_disabled (hstep : s.step height e = none) : s.Undisturbed e := by
  cases e with
  | setLatestBlock id block outcome =>
    cases block with
    | none => exact trivial
    | some b =>
      intro hlive
      obtain ⟨c, hlookup⟩ := Option.isSome_iff_exists.mp (AList.lookup_isSome.mpr hlive)
      simp [step, hlookup] at hstep
  | getLatestBlock id =>
    intro c hlookup
    simp [step, hlookup] at hstep
  | commit id ok =>
    cases ok with
    | false => exact trivial
    | true =>
      intro c b hlookup hreadOnly
      simp [step, hlookup, hreadOnly] at hstep
  | _ => exact trivial

/-- **When the cache answers with the committed block**: all along exactly when every block set is
that block already, a commit of a block finds the cache empty or the block unchanged, and only
states that see that block fill the cache. -/
theorem latestBlock_iff (versions : List (Option β)) (ledgerState : LedgerState)
    (events : List (LatestBlockEvent β)) :
    Throughout (step height) Coherent (start versions ledgerState) events ↔
      Along (step height) Undisturbed (start versions ledgerState) events := by
  have hinv : ∀ (s : LatestBlock β) (e : LatestBlockEvent β) (s' : LatestBlock β),
      True → s.step height e = some s' → True := fun _ _ _ _ _ => trivial
  exact throughout_iff_along hinv
    (fun _ _ _ _ => step_coherent_iff height)
    (fun _ _ _ _ => undisturbed_of_disabled height) trivial rfl

end Exact

/-- A stopped writer, a failed write and a reader of an old version leave wrong answers. -/
theorem latestBlock_fails_on_stopped_writer :
    (∃ s : LatestBlock Nat, [.createCompositionState 0, .setLatestBlock 0 (some 5) .done,
        .stop 0].foldlM (step id) (start [some 4] .autoInc) = some s ∧
      s.stored = 4 ∧ s.GetLatestBlock.1 = 5) ∧
    (∃ s : LatestBlock Nat, [.createCompositionState 0, .setLatestBlock 0 (some 5) .failed].foldlM
        (step id) (start [some 4] .autoInc) = some s ∧ s.stored = 4 ∧ s.GetLatestBlock.1 = 5) ∧
    ∃ s : LatestBlock Nat, [.createCompositionStateReadonlyAt 0 1, .getLatestBlock 0].foldlM
        (step id) (start [some 4, some 3] .autoInc) = some s ∧
      s.stored = 4 ∧ s.GetLatestBlock.1 = 3 :=
  ⟨⟨_, rfl, rfl, rfl⟩, ⟨_, rfl, rfl, rfl⟩, ⟨_, rfl, rfl, rfl⟩⟩

end LatestBlock
end Topia.State
