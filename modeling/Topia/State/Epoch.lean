import Mathlib.Logic.Embedding.Basic
import Topia.Common
import Topia.Lib.Run

/-!
# The stored epoch

`state/epoch`: the latest epoch under one key of a state store, and the package's cache of
it by ledger.  `NewEpochState` does not keep the ledger id it is given, so that the epochs of all
ledgers are cached under the empty id, which is that of a ledger in memory.
-/

namespace Topia.State

open Lib

structure EpochInfo where
  (Epoch StartTimeStamp StartHeight : UInt64)
deriving DecidableEq, Repr

abbrev LatestEpochMap := Bytes → Option EpochInfo

def updateLatestEpoch (latestEpochMap : LatestEpochMap) (ledgerID : Bytes) (eInfo : EpochInfo) :
    LatestEpochMap :=
  fun id => if id = ledgerID then some eInfo else latestEpochMap id

structure EpochState where
  ledgerID : Bytes
  /-- The value under `latestepoch`; JSON keeps an epoch as it is. -/
  latestepoch : Option EpochInfo
deriving DecidableEq, Repr

namespace EpochState

def NewEpochState (_ledgerID : Bytes) (latestepoch : Option EpochInfo) : EpochState where
  ledgerID := []
  latestepoch := latestepoch

def GetLatestEpoch (es : EpochState) : Option EpochInfo :=
  es.latestepoch

/-- `SetLatestEpoch`, by whether the write succeeds: the cache takes the epoch anyway. -/
def SetLatestEpoch (es : EpochState) (latestEpochMap : LatestEpochMap) (epoch : EpochInfo)
    (written : Bool) : Bool × EpochState × LatestEpochMap :=
  (written, if written then { es with latestepoch := some epoch } else es,
    updateLatestEpoch latestEpochMap es.ledgerID epoch)

end EpochState

/-- The ledgers `L`: the cache, each open state and each committed epoch. -/
structure LedgerEpochs (L : Type) where
  latestEpochMap : LatestEpochMap
  states : L → EpochState
  committed : L → Option EpochInfo

inductive EpochEvent (L : Type) where
  | setLatestEpoch (l : L) (epoch : EpochInfo) (written : Bool)
  | commit (l : L)

namespace LedgerEpochs

variable {L : Type} [DecidableEq L] (ID : L ↪ Bytes) (s : LedgerEpochs L)

def start (committed : L → Option EpochInfo) : LedgerEpochs L :=
  ⟨fun _ => none, fun l => .NewEpochState (ID l) (committed l), committed⟩

open EpochState

/-- `GetLatestEpoch` of `state/composition.go`: the cache, else a read-only store. -/
def GetLatestEpoch (l : L) : Option EpochInfo :=
  match s.latestEpochMap (ID l) with
  | some eInfo => some eInfo
  | none => (NewEpochState (ID l) (s.committed l)).GetLatestEpoch

def setLatestEpoch (l : L) (epoch : EpochInfo) (written : Bool) : LedgerEpochs L :=
  let (_, es, latestEpochMap) := (s.states l).SetLatestEpoch s.latestEpochMap epoch written
  { s with states := Function.update s.states l es, latestEpochMap := latestEpochMap }

def commit (l : L) : LedgerEpochs L :=
  { s with committed := Function.update s.committed l (s.states l).latestepoch }

def step : EpochEvent L → Option (LedgerEpochs L)
  | .setLatestEpoch l epoch written => some (s.setLatestEpoch l epoch written)
  | .commit l => some (s.commit l)

def Isolated : Prop := ∀ l, s.GetLatestEpoch ID l = (s.states l).GetLatestEpoch

/-- The epoch is that of the ledger with the empty id, if any, and unchanged for the others. -/
def Unseen : EpochEvent L → Prop
  | .setLatestEpoch l epoch written =>
    (∀ m, ID m = [] → m = l ∧ written = true ∨ (s.states m).latestepoch = some epoch) ∧
      (ID l ≠ [] → written = true → (s.states l).latestepoch = some epoch)
  | .commit _ => True

def Cached : Prop :=
  (∀ l, (s.states l).ledgerID = []) ∧ ∀ id, id ≠ [] → s.latestEpochMap id = none

variable {ID s}

theorem states_setLatestEpoch (l m : L) (epoch : EpochInfo) (written : Bool) :
    (s.setLatestEpoch l epoch written).states m =
      if m = l ∧ written = true then { s.states m with latestepoch := some epoch }
      else s.states m := by
  by_cases hm : m = l
  · subst hm
    cases written <;> simp [setLatestEpoch, SetLatestEpoch]
  · simp [setLatestEpoch, hm]

theorem cached_step {e : EpochEvent L} {t : LedgerEpochs L} (hs : s.Cached)
    (hstep : s.step e = some t) : t.Cached := by
  cases e with
  | commit l =>
    cases hstep
    exact hs
  | setLatestEpoch l epoch written =>
    cases hstep
    refine ⟨fun m => ?_, fun id hid => ?_⟩
    · rw [states_setLatestEpoch]
      split_ifs <;> exact hs.1 m
    · simp [setLatestEpoch, SetLatestEpoch, updateLatestEpoch, hs.1, hid, hs.2]

theorem isolated_commit (hisolated : s.Isolated ID) (l : L) : (s.commit l).Isolated ID := by
  intro m
  have hm := hisolated m
  unfold GetLatestEpoch at hm ⊢
  cases hcache : s.latestEpochMap (ID m) with
  | some eInfo => simpa [commit, hcache] using hm
  | none =>
    by_cases hml : m = l
    · subst hml
      simp [commit, hcache, EpochState.NewEpochState, EpochState.GetLatestEpoch]
    · simpa [commit, hcache, hml] using hm

theorem GetLatestEpoch_setLatestEpoch (hs : s.Cached) (l m : L) (epoch : EpochInfo)
    (written : Bool) : (s.setLatestEpoch l epoch written).GetLatestEpoch ID m =
      if ID m = [] then some epoch else s.GetLatestEpoch ID m := by
  by_cases hid : ID m = []
  · simp [GetLatestEpoch, setLatestEpoch, SetLatestEpoch, updateLatestEpoch, hs.1, hid]
  · simp [GetLatestEpoch, setLatestEpoch, SetLatestEpoch, updateLatestEpoch, hs.1, hid]

theorem isolated_setLatestEpoch_iff (hs : s.Cached) (hisolated : s.Isolated ID) (l : L)
    (epoch : EpochInfo) (written : Bool) :
    (s.setLatestEpoch l epoch written).Isolated ID ↔
      s.Unseen ID (.setLatestEpoch l epoch written) := by
  have hone : ∀ m, (s.setLatestEpoch l epoch written).GetLatestEpoch ID m =
      ((s.setLatestEpoch l epoch written).states m).GetLatestEpoch ↔
        (if ID m = [] then some epoch else (s.states m).latestepoch) =
          if m = l ∧ written = true then some epoch else (s.states m).latestepoch := by
    intro m
    rw [GetLatestEpoch_setLatestEpoch hs, states_setLatestEpoch, hisolated m,
      EpochState.GetLatestEpoch, EpochState.GetLatestEpoch]
    split_ifs <;> rfl
  unfold Isolated Unseen
  simp only [hone]
  constructor
  · intro hall
    refine ⟨fun m hid => ?_, fun hid hwritten => ?_⟩
    · have hm := hall m
      split_ifs at hm with hml
      · exact .inl hml
      · exact .inr hm.symm
    · have hl := hall l
      rwa [if_neg hid, if_pos ⟨rfl, hwritten⟩] at hl
  · rintro ⟨hempty, hother⟩ m
    split_ifs with hid hml hml
    · rfl
    · exact ((hempty m hid).resolve_left hml).symm
    · rw [hml.1] at hid ⊢
      exact hother hid hml.2
    · rfl

/-- **When the epochs are isolated**: all along exactly when no epoch that is set can be seen,
neither at the ledger with the empty id nor at its own. -/
theorem epochsIsolated_iff (ID : L ↪ Bytes) (committed : L → Option EpochInfo)
    (events : List (EpochEvent L)) :
    Throughout step (Isolated ID) (start ID committed) events ↔
      Along step (Unseen ID) (start ID committed) events := by
  refine throughout_iff_along (fun _ _ _ => cached_step) ?_ ?_ ⟨fun _ => rfl, fun _ _ => rfl⟩
    fun _ => rfl
  · intro s e t hs hisolated hstep
    cases e with
    | commit l =>
      cases hstep
      exact iff_of_true (isolated_commit hisolated l) trivial
    | setLatestEpoch l epoch written =>
      cases hstep
      exact isolated_setLatestEpoch_iff hs hisolated l epoch written
  · intro s e _ _ hstep
    cases e <;> cases hstep

def memoryID : Bool ↪ Bytes where
  toFun mem := if mem then [] else ascii "a"
  inj' := by
    rintro (_ | _) (_ | _) h
    all_goals first | rfl | cases h

/-- The ledger in memory is answered with the epoch set at `"a"`, which gets none. -/
theorem epoch_of_another_ledger :
    let s := (start memoryID fun _ => none).setLatestEpoch false ⟨7, 0, 0⟩ true
    s.GetLatestEpoch memoryID true = some ⟨7, 0, 0⟩ ∧ (s.states true).GetLatestEpoch = none ∧
      s.GetLatestEpoch memoryID false = none := by
  decide

end LedgerEpochs

end Topia.State
