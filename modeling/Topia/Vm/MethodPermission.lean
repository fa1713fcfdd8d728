import Topia.Lib.Search
import Topia.Transaction.FromAddress
import Topia.Vm.AccountContract

/-!
# Permissions for methods of contracts

`PermissionContractMethod` of `account/permission_contract.go` with the helpers of `common/util.go`,
and the JSON form of a token of `account/token.go`.

`AddMethod` appends the method to a copy of the slice in the map; nothing is written back, and a
contract without an entry gets none. `RemoveMethod` drops the slice that `RemoveIfExistString`
returns. So a new permission allows nothing for ever.
-/

namespace Topia.Vm

open Lib
open Crypt (HexString)

open List

section Strings

variable {strs : List Bytes} {target : Bytes}

def SearchStrings (strs : List Bytes) (x : Bytes) : Nat :=
  search strs.length fun i => (compare x (strs.getD i [])).isLE

def IsContainString (target : Bytes) (strs : List Bytes) : Bool × List Bytes :=
  let sorted := sortStrings strs
  let index := SearchStrings sorted target
  (decide (sorted[index]? = some target), sorted)

theorem mem_sortStrings : target ∈ sortStrings strs ↔ target ∈ strs :=
  (sortBy_perm compare strs).mem_iff

theorem getD_sorted_le {k l : Nat} (hkl : k ≤ l) (hl : l < (sortStrings strs).length) :
    (compare ((sortStrings strs).getD k []) ((sortStrings strs).getD l [])).isLE = true := by
  rcases Nat.lt_or_eq_of_le hkl with hlt | rfl
  · rw [getD_eq_getElem _ _ hl, getD_eq_getElem _ _ (hlt.trans hl)]
    exact pairwise_iff_getElem.mp (@pairwise_sortBy _ compare _ strs) k l (hlt.trans hl) hl hlt
  · exact Std.ReflCmp.isLE_rfl

theorem SearchStrings_spec (target : Bytes) (strs : List Bytes) :
    (∀ k < SearchStrings (sortStrings strs) target,
      (compare target ((sortStrings strs).getD k [])).isLE = false) ∧
    ∀ k, SearchStrings (sortStrings strs) target ≤ k → k < (sortStrings strs).length →
      (compare target ((sortStrings strs).getD k [])).isLE = true :=
  search_spec fun _ _ hkl hl hhas => Std.TransCmp.isLE_trans hhas (getD_sorted_le hkl hl)

theorem IsContainString_iff : (IsContainString target strs).1 = true ↔ target ∈ strs := by
  rw [← mem_sortStrings]
  simp only [IsContainString, decide_eq_true_eq]
  obtain ⟨hbelow, habove⟩ := SearchStrings_spec target strs
  generalize SearchStrings (sortStrings strs) target = index at hbelow habove ⊢
  constructor
  · intro hfound
    exact mem_of_getElem? hfound
  intro hmem
  obtain ⟨k, hk, hkeq⟩ := getElem_of_mem hmem
  have htarget : (sortStrings strs).getD k [] = target := by
    rw [getD_eq_getElem _ _ hk, hkeq]
  have hle : index ≤ k := by
    by_contra hgt
    have hfalse := hbelow k (Nat.not_le.mp hgt)
    rw [htarget, Std.ReflCmp.isLE_rfl] at hfalse
    cases hfalse
  have hlt : index < (sortStrings strs).length := Nat.lt_of_le_of_lt hle hk
  -- what is found is between the target and the place where the target stands
  have hlower := habove index (Nat.le_refl index) hlt
  have hupper := getD_sorted_le hle hk
  rw [htarget] at hupper
  have hsame : target = (sortStrings strs).getD index [] :=
    Std.LawfulEqCmp.eq_of_compare (Std.OrientedCmp.isLE_antisymm hlower hupper)
  rw [getElem?_eq_getElem hlt, hsame, getD_eq_getElem _ _ hlt]

end Strings

open Option

section Permission

variable {perm perm' : Permission} {contractAddr method addrStr : Bytes}

/-- `HasMethodPerm`, which sorts the slice of the contract; `none` is a panic. -/
def HasMethodPerm (perm : Permission) (contractAddr method : Bytes) : Option (Bool × Permission) :=
  match perm with
  | .root => some (true, .root)
  | .contractMethod gasLimit methodsMap =>
    (HexString contractAddr).map fun addrStr =>
      match methodsMap.lookup addrStr with
      | none => (false, .contractMethod gasLimit methodsMap)
      | some methods =>
        ((IsContainString method methods).1, .contractMethod gasLimit
            (methodsMap.map fun entry =>
              if entry.1 = addrStr then (entry.1, sortStrings entry.2) else entry))

def Allows (perm : Permission) (contractAddr method : Bytes) : Prop :=
  match perm with
  | .root => True
  | .contractMethod _ methodsMap =>
    ∃ addrStr methods, HexString contractAddr = some addrStr ∧
      methodsMap.lookup addrStr = some methods ∧ method ∈ methods

theorem HasMethodPerm_spec (perm : Permission) (method : Bytes)
    (haddr : HexString contractAddr = some addrStr) :
    ∃ answer perm', HasMethodPerm perm contractAddr method = some (answer, perm') ∧
      (answer = true ↔ Allows perm contractAddr method) := by
  cases perm with
  | root => exact ⟨true, .root, rfl, iff_of_true rfl trivial⟩
  | contractMethod gasLimit methodsMap =>
    simp only [HasMethodPerm, Allows, haddr, map_some, some.injEq]
    cases hlookup : methodsMap.lookup addrStr with
    | none =>
      refine ⟨false, _, rfl, iff_of_false Bool.false_ne_true ?_⟩
      rintro ⟨_, methods, rfl, hmethods, _⟩
      rw [hlookup] at hmethods
      cases hmethods
    | some methods =>
      refine ⟨_, _, rfl, ?_⟩
      rw [IsContainString_iff]
      constructor
      · intro hmem
        exact ⟨addrStr, methods, rfl, hlookup, hmem⟩
      · rintro ⟨_, found, rfl, hfound, hmem⟩
        rw [hlookup] at hfound
        cases hfound
        exact hmem

theorem lookup_sortEntry (methodsMap : List (Bytes × List Bytes)) (key addrStr : Bytes) :
    (methodsMap.map fun entry =>
        if entry.1 = addrStr then (entry.1, sortStrings entry.2) else entry).lookup key =
      (methodsMap.lookup key).map fun methods =>
        if key = addrStr then sortStrings methods else methods := by
  induction methodsMap with
  | nil => rfl
  | cons entry rest ih =>
    obtain ⟨first, methods⟩ := entry
    have hentry : (if first = addrStr then (first, sortStrings methods) else (first, methods)) =
        (first, if first = addrStr then sortStrings methods else methods) := by
      split_ifs <;> rfl
    simp only [map_cons, hentry, lookup_cons]
    cases hkey : key == first with
    | true =>
      obtain rfl : key = first := by simpa using hkey
      rfl
    | false => exact ih

variable {a m : Bytes}

theorem allows_AddMethod (hadd : AddMethod perm contractAddr method = some perm') :
    Allows perm' a m ↔ Allows perm a m := by
  cases perm with
  | root =>
    cases hadd
    exact Iff.rfl
  | contractMethod gasLimit methodsMap =>
    unfold AddMethod at hadd
    split_ifs at hadd
    · cases hadd
      exact Iff.rfl
    obtain ⟨sortedAddr, _, rfl⟩ := map_eq_some_iff.mp hadd
    simp only [Allows, lookup_sortEntry, map_eq_some_iff]
    constructor
    · rintro ⟨addrStr, methods, haddr, ⟨found, hfound, rfl⟩, hmem⟩
      refine ⟨addrStr, found, haddr, hfound, ?_⟩
      split_ifs at hmem
      · exact mem_sortStrings.mp hmem
      · exact hmem
    · rintro ⟨addrStr, methods, haddr, hfound, hmem⟩
      refine ⟨addrStr, _, haddr, ⟨methods, hfound, rfl⟩, ?_⟩
      split_ifs
      · exact mem_sortStrings.mpr hmem
      · exact hmem

theorem RemoveMethod_eq (hremove : RemoveMethod perm contractAddr = some perm') : perm' = perm := by
  cases perm with
  | root =>
    cases hremove
    rfl
  | contractMethod gasLimit methodsMap =>
    obtain ⟨_, _, rfl⟩ := map_eq_some_iff.mp hremove
    rfl

inductive MethodOp where
  | addMethod (contractAddr method : Bytes)
  | removeMethod (contractAddr method : Bytes)
deriving DecidableEq, Repr

namespace MethodOp

def step (perm : Permission) : MethodOp → Option Permission
  | .addMethod contractAddr method => AddMethod perm contractAddr method
  | .removeMethod contractAddr _ => RemoveMethod perm contractAddr

/-- What the last operation on a contract and a method says, else `false`. -/
def lastAdded (a m : Bytes) (ops : List MethodOp) : Bool :=
  ops.foldl
    (fun added op =>
      match op with
      | .addMethod contractAddr method =>
        if contractAddr = a ∧ method = m then true else added
      | .removeMethod contractAddr method =>
        if contractAddr = a ∧ method = m then false else added)
    false

end MethodOp

theorem allows_step {op : MethodOp} (hstep : MethodOp.step perm op = some perm') :
    Allows perm' a m ↔ Allows perm a m := by
  cases op with
  | addMethod => exact allows_AddMethod hstep
  | removeMethod => rw [RemoveMethod_eq hstep]

variable {ops : List MethodOp}

theorem allows_run (hrun : ops.foldlM MethodOp.step perm = some perm') :
    Allows perm' a m ↔ Allows perm a m := by
  have hstep : ∀ current op next, (Allows current a m ↔ Allows perm a m) →
      MethodOp.step current op = some next → (Allows next a m ↔ Allows perm a m) :=
    fun _ _ _ hcurrent hnext => (allows_step hnext).trans hcurrent
  exact run_invariant hstep Iff.rfl hrun

def NewPermissionContractMethod (gasLimit : Nat) : Permission := .contractMethod gasLimit []

theorem not_allows_new (gasLimit : Nat) (a m : Bytes) :
    ¬ Allows (NewPermissionContractMethod gasLimit) a m := by
  rintro ⟨_, _, _, hlookup, _⟩
  cases hlookup

theorem HasMethodPerm_of_run {gasLimit : Nat}
    (hrun : ops.foldlM MethodOp.step (NewPermissionContractMethod gasLimit) = some perm)
    (haddr : HexString a = some addrStr) :
    ∃ perm', HasMethodPerm perm a m = some (false, perm') := by
  obtain ⟨answer, perm', hanswer, hiff⟩ := HasMethodPerm_spec perm m haddr
  cases answer with
  | false => exact ⟨perm', hanswer⟩
  | true =>
    exact absurd ((allows_run hrun).mp (hiff.mp rfl)) (not_allows_new gasLimit a m)

theorem run_new {gasLimit : Nat}
    (hrun : ops.foldlM MethodOp.step (NewPermissionContractMethod gasLimit) = some perm) :
    perm = NewPermissionContractMethod gasLimit := by
  refine run_invariant (fun current op next (hcurrent : current = _) hstep => ?_) rfl hrun
  subst hcurrent
  cases op with
  | removeMethod => exact RemoveMethod_eq hstep
  | addMethod contractAddr method =>
    unfold MethodOp.step AddMethod NewPermissionContractMethod at hstep
    dsimp only at hstep
    split_ifs at hstep
    · cases hstep
      rfl
    · obtain ⟨_, _, rfl⟩ := map_eq_some_iff.mp hstep
      rfl

def Permission.HasText (IsText : Bytes → Prop) : Permission → Prop
  | .root => True
  | .contractMethod _ methodsMap =>
    ∀ entry ∈ methodsMap, IsText entry.1 ∧ ∀ method ∈ entry.2, IsText method

theorem hasText_AddMethod {IsText : Bytes → Prop} (htext : perm.HasText IsText)
    (hadd : AddMethod perm contractAddr method = some perm') : perm'.HasText IsText := by
  cases perm with
  | root =>
    cases hadd
    trivial
  | contractMethod gasLimit methodsMap =>
    unfold AddMethod at hadd
    split_ifs at hadd
    · cases hadd
      exact htext
    obtain ⟨addrStr, _, rfl⟩ := map_eq_some_iff.mp hadd
    intro entry hentry
    obtain ⟨old, hold, rfl⟩ := mem_map.mp hentry
    obtain ⟨hkey, hmethods⟩ := htext old hold
    split_ifs
    · exact ⟨hkey, fun method hmethod => hmethods method (mem_sortStrings.mp hmethod)⟩
    · exact ⟨hkey, hmethods⟩

end Permission

section Json

open Permission

/-- JSON texts of the parts of tokens. Text is read back as written, the map up to order. -/
structure JsonCodec (Doc : Type) where
  IsText : Bytes → Prop
  marshalMethods : UInt64 → List (Bytes × List Bytes) → Doc
  unmarshalMethods : Doc → Option (UInt64 × List (Bytes × List Bytes))
  marshalEmpty : Doc
  unmarshalEmpty : Doc → Bool
  marshalFields : UInt64 → Nat → Doc → Doc
  unmarshalFields : Doc → Option (UInt64 × Nat × Doc)
  methods_read : ∀ gasLimit methodsMap,
    (contractMethod gasLimit.toNat methodsMap).HasText IsText →
      ∃ read, unmarshalMethods (marshalMethods gasLimit methodsMap) = some (gasLimit, read) ∧
        ∀ key, read.lookup key = methodsMap.lookup key
  read_text : ∀ doc gasLimit methodsMap, unmarshalMethods doc = some (gasLimit, methodsMap) →
    (contractMethod gasLimit.toNat methodsMap).HasText IsText
  empty_read : unmarshalEmpty marshalEmpty = true
  fields_read : ∀ nonce permMode data,
    unmarshalFields (marshalFields nonce permMode data) = some (nonce, permMode, data)

def PermissionModel_ROOT : Nat := 1
def PermissionModel_ContractMethod : Nat := 2

def Permission.permMode : Permission → Nat
  | .root => PermissionModel_ROOT
  | .contractMethod _ _ => PermissionModel_ContractMethod

inductive TokenError where
  | invalidJSON
  | invalidPermissionMode (permMode : Nat)
deriving DecidableEq, Repr

variable {Doc : Type} (J : JsonCodec Doc)

def Permission.MarshalJSON : Permission → Doc
  | .root => J.marshalEmpty
  | .contractMethod gasLimit methodsMap => J.marshalMethods (UInt64.ofNat gasLimit) methodsMap

def AccountToken.MarshalJSON (token : AccountToken) : Doc :=
  J.marshalFields (UInt64.ofNat token.Nonce) token.Permission.permMode
    (token.Permission.MarshalJSON J)

def AccountToken.UnmarshalJSON (data : Doc) : Except TokenError AccountToken :=
  match J.unmarshalFields data with
  | none => .error .invalidJSON
  | some (nonce, permMode, permissionData) =>
    if permMode = PermissionModel_ROOT then
      if J.unmarshalEmpty permissionData then .ok ⟨nonce.toNat, .root⟩ else .error .invalidJSON
    else if permMode = PermissionModel_ContractMethod then
      match J.unmarshalMethods permissionData with
      | none => .error .invalidJSON
      | some (gasLimit, methodsMap) =>
        .ok ⟨nonce.toNat, .contractMethod gasLimit.toNat methodsMap⟩
    else .error (.invalidPermissionMode permMode)

variable {J}

theorem unmarshal_marshal (J : JsonCodec Doc) (token : AccountToken)
    (htext : token.Permission.HasText J.IsText) :
    ∃ read, AccountToken.UnmarshalJSON J (token.MarshalJSON J) = .ok read ∧
      ∀ a m, Allows read.Permission a m ↔ Allows token.Permission a m := by
  obtain ⟨nonce, perm⟩ := token
  unfold AccountToken.UnmarshalJSON AccountToken.MarshalJSON
  rw [J.fields_read]
  cases perm with
  | root =>
    refine ⟨⟨(UInt64.ofNat nonce).toNat, .root⟩, ?_, fun _ _ => Iff.rfl⟩
    simp only [permMode, MarshalJSON, J.empty_read, if_true]
  | contractMethod gasLimit methodsMap =>
    obtain ⟨read, hread, hlookup⟩ := J.methods_read (UInt64.ofNat gasLimit) methodsMap htext
    refine ⟨⟨(UInt64.ofNat nonce).toNat, .contractMethod (UInt64.ofNat gasLimit).toNat read⟩, ?_,
      fun a m => ?_⟩
    · have hmode : PermissionModel_ContractMethod ≠ PermissionModel_ROOT := by decide
      simp only [permMode, MarshalJSON, if_neg hmode, if_true, hread]
    · simp [Allows, hlookup]

end Json

section Main

variable {a m : Bytes}

open Crypt

theorem HexString_of_valid {H : Checksum} {network : NetworkType}
    (hnetwork : network ≠ .unknown) (hvalid : IsValid H a network = some true) :
    ∃ addrStr, HexString a = some addrStr := by
  obtain ⟨cryptType, payload, hok⟩ := IsValid_eq_true_iff.mp hvalid
  rcases decode_ok_iff.mp hok with ⟨_, hunknown, _⟩ | ⟨letter, raw, _, _, rfl, _⟩
  · exact absurd hunknown hnetwork
  · refine ne_none_iff_exists'.mp fun hnone => ?_
    have hshort := HexString_panics_iff.mp hnone
    simp only [length_cons] at hshort
    omega

/-- **Permissions for methods.** On a new permission the answer is the last operation's exactly when
that is not an `AddMethod`; marshaling a token keeps the answers. -/
theorem methodPermission_iff {Doc : Type} (J : JsonCodec Doc) (H : Checksum)
    (network : NetworkType) (gasLimit : Nat) (ops : List MethodOp) (perm : Permission)
    (a m : Bytes)
    (hnetwork : network ≠ .unknown) (hvalid : IsValid H a network = some true)
    (hrun : ops.foldlM MethodOp.step (NewPermissionContractMethod gasLimit) = some perm) :
    ((HasMethodPerm perm a m).map Prod.fst = some (MethodOp.lastAdded a m ops) ↔
      MethodOp.lastAdded a m ops = false) ∧
    ∃ read, AccountToken.UnmarshalJSON J ((NewAccountToken perm).MarshalJSON J) = .ok read ∧
      (HasMethodPerm read.Permission a m).map Prod.fst = (HasMethodPerm perm a m).map Prod.fst := by
  obtain ⟨addrStr, haddr⟩ := HexString_of_valid hnetwork hvalid
  obtain ⟨perm', hanswer⟩ := HasMethodPerm_of_run (m := m) hrun haddr
  constructor
  · rw [hanswer, map_some, some.injEq]
    exact eq_comm
  obtain rfl := run_new hrun
  obtain ⟨read, hread, hsame⟩ := unmarshal_marshal J
    (NewAccountToken (NewPermissionContractMethod gasLimit))
    (fun entry hentry => absurd hentry not_mem_nil)
  refine ⟨read, hread, ?_⟩
  obtain ⟨answer, _, hreadAnswer, hiff⟩ :=
    HasMethodPerm_spec read.Permission m haddr
  rw [hreadAnswer, hanswer]
  have hno : ¬ Allows read.Permission a m := fun hallows =>
    not_allows_new gasLimit a m ((hsame a m).mp hallows)
  have hfalse : answer = false := by
    cases answer with
    | false => rfl
    | true => exact absurd (hiff.mp rfl) hno
  rw [hfalse]
  rfl

inductive PlainDoc where
  | methods (gasLimit : UInt64) (methodsMap : List (Bytes × List Bytes))
  | empty
  | fields (nonce : UInt64) (permMode : Nat) (data : PlainDoc)

def plainJson : JsonCodec PlainDoc where
  IsText _ := True
  marshalMethods := .methods
  unmarshalMethods
    | .methods gasLimit methodsMap => some (gasLimit, methodsMap)
    | _ => none
  marshalEmpty := .empty
  unmarshalEmpty
    | .empty => true
    | _ => false
  marshalFields := .fields
  unmarshalFields
    | .fields nonce permMode data => some (nonce, permMode, data)
    | _ => none
  methods_read _ methodsMap _ := ⟨methodsMap, rfl, fun _ => rfl⟩
  read_text _ _ _ _ _ _ := ⟨trivial, fun _ _ => trivial⟩
  empty_read := rfl
  fields_read _ _ _ := rfl

def someAddr : Bytes := ascii "t2ttttttttttttttttttttttttttttttttttttttt"

theorem methodPermission_of_removed :
    (HasMethodPerm (NewPermissionContractMethod 10) someAddr (ascii "BindName")).map Prod.fst =
      some false :=
  (methodPermission_iff plainJson zeroChecksum .testnet 10
    [.addMethod someAddr (ascii "BindName"), .removeMethod someAddr (ascii "BindName")]
    (NewPermissionContractMethod 10) someAddr (ascii "BindName") (by decide) (by decide +kernel)
    (by decide +kernel)).1.mpr (by decide +kernel)

theorem added_method_not_allowed :
    IsValid zeroChecksum someAddr .testnet = some true ∧
      ([.addMethod someAddr (ascii "BindName")].foldlM MethodOp.step
          (NewPermissionContractMethod 10)).bind
        (fun perm => HasMethodPerm perm someAddr (ascii "BindName")) =
        some (false, NewPermissionContractMethod 10) := by
  decide +kernel

end Main

end Topia.Vm
