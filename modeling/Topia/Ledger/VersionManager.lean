import Mathlib.Data.Finset.Max

/-!
# The version manager of the ledger backends

`ledger/backend/common/version_manager.go`: the set of saved versions of a database with its first
and last version. A version is a `uint64`, so the successor of the last version wraps around.
-/

namespace Topia.Ledger

inductive BackendError where
  | keyEmpty
  | versionDoesNotExist
  | invalidVersion
  | targetBelowNext (target next : Nat)
  | versionExists (target : Nat)
deriving DecidableEq, Repr

structure VersionManager where
  versions : Finset Nat
  (initial last : Nat)
deriving DecidableEq

namespace VersionManager

def NewVersionManager (versions : List Nat) : VersionManager where
  versions := versions.toFinset
  initial := versions.foldl (fun init ver => if init = 0 ∨ ver < init then ver else init) 0
  last := versions.foldl (fun last ver => if last < ver then ver else last) 0

variable (vm : VersionManager) (target : Nat)

def Exists (version : Nat) : Bool :=
  decide (version ∈ vm.versions)

def next : Nat :=
  (vm.last + 1) % 2 ^ 64

def add : VersionManager :=
  let versions := insert target vm.versions
  { versions := versions
    initial := if versions.card = 1 then target else vm.initial
    last := target }

def saveTarget : Except BackendError (Nat × VersionManager) :=
  if target ∈ vm.versions then .error (.versionExists target)
  else .ok (target, vm.add target)

/-- `Save`: `0` is the next version; a target below it is refused. -/
def Save : Except BackendError (Nat × VersionManager) :=
  if target = 0 then vm.saveTarget vm.next
  else if target < vm.next then .error (.targetBelowNext target vm.next)
  else vm.saveTarget target

/-- `Delete`; the order of `findLimit` does not matter. -/
def Delete : VersionManager :=
  let versions := vm.versions.erase target
  let last := if target = vm.last then versions.fold max 0 id else vm.last
  { versions := versions
    initial := if target = vm.initial then versions.fold min last id else vm.initial
    last := last }

theorem saveTarget_ok {vm vm' : VersionManager} {target id : Nat}
    (hsave : vm.saveTarget target = .ok (id, vm')) :
    id = target ∧ target ∉ vm.versions ∧ vm' = vm.add target := by
  unfold saveTarget at hsave
  split at hsave
  · cases hsave
  · rename_i hfresh
    cases hsave
    exact ⟨rfl, hfresh, rfl⟩

theorem Save_ok {vm vm' : VersionManager} {target id : Nat} (hsave : vm.Save target = .ok (id, vm'))
    :
    id ∉ vm.versions ∧ vm' = vm.add id ∧ (target ≠ 0 → id = target) := by
  unfold Save at hsave
  split at hsave
  · obtain ⟨rfl, hfresh, hvm⟩ := saveTarget_ok hsave
    exact ⟨hfresh, hvm, fun hne => absurd ‹target = 0› hne⟩
  · split at hsave
    · cases hsave
    · obtain ⟨rfl, hfresh, hvm⟩ := saveTarget_ok hsave
      exact ⟨hfresh, hvm, fun _ => rfl⟩

end VersionManager

end Topia.Ledger
