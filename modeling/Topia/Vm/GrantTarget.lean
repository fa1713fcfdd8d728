import Topia.Vm.MethodPermission

/-!
# Whose token a grant changes

The four operations of `vm/native/contract/account.go` that grant and revoke access take the address
of a parent and that of a child. `grantAccessOperation` reads both accounts with the address of the
parent: the name it compares with the parent's name is the parent's own, and the account it changes
is the parent's.
-/

namespace Topia.Vm

open Lib
open Crypt (HexString)

section Codec

/-- A codec of tokens that reads text and what it allows back. -/
structure TextCodec extends TokenCodec where
  IsText : Bytes → Prop
  read_text : ∀ text, (unmarshalJSON text).Permission.HasText IsText
  allows_read : ∀ token : AccountToken, token.Permission.HasText IsText →
    ∀ a m, Allows (unmarshalJSON (marshalJSON token)).Permission a m ↔ Allows token.Permission a m

/-- The codec of tokens over JSON; a text that is no token is a new one. -/
def JsonCodec.textCodec (J : JsonCodec Bytes) : TextCodec where
  marshalJSON token := token.MarshalJSON J
  unmarshalJSON text :=
    match AccountToken.UnmarshalJSON J text with
    | .ok token => token
    | .error _ => NewAccountToken (NewPermissionContractMethod 0)
  IsText := J.IsText
  read_text := by
    intro text
    cases hread : AccountToken.UnmarshalJSON J text with
    | error err => exact fun entry hentry => absurd hentry List.not_mem_nil
    | ok token =>
      unfold AccountToken.UnmarshalJSON at hread
      split at hread
      · cases hread
      split_ifs at hread
      · cases hread
        trivial
      · split at hread
        · cases hread
        · next hmethods =>
            cases hread
            exact J.read_text _ _ _ hmethods
  allows_read := by
    intro token htext a m
    obtain ⟨read, hread, hsame⟩ := unmarshal_marshal _ _ htext
    simp only [hread]
    exact hsame a m

def TokenAllows (codec : TextCodec) (token : Option Bytes) (a m : Bytes) : Prop :=
  match token with
  | none => False
  | some text => Allows (codec.unmarshalJSON text).Permission a m

end Codec

section Calls

inductive GrantKind where
  | accessMethods (contractAddr : Bytes) (methods : List Bytes) (gasLimit : Nat)
  | accessRoot
  | revoke
  | revokeMethods (contractAddr : Bytes) (methods : List Bytes)

structure GrantCall where
  (parentAddr addr : Bytes)
  kind : GrantKind

def GrantCall.toOp (call : GrantCall) : ContractOp :=
  match call.kind with
  | .accessMethods contractAddr methods gasLimit =>
    .grantAccessMethods call.parentAddr call.addr contractAddr methods gasLimit
  | .accessRoot => .grantAccessRoot call.parentAddr call.addr
  | .revoke => .revokeGrantAccess call.parentAddr call.addr
  | .revokeMethods contractAddr methods =>
    .revokeGrantAccessMethods call.parentAddr call.addr contractAddr methods

variable {codec : TextCodec} {vs : VMServant} {call : GrantCall}

def GrantCall.result (codec : TextCodec) (vs : VMServant) (call : GrantCall) :
    Except OpError Unit :=
  (exec codec.toTokenCodec vs call.toOp).result

def GrantCall.accounts (codec : TextCodec) (vs : VMServant) (call : GrantCall) : AccountState :=
  (exec codec.toTokenCodec vs call.toOp).servant.accountState

def GrantKind.tokenAfter (codec : TextCodec) (kind : GrantKind) (token : Option Bytes) :
    Except OpError (Option Bytes) :=
  match kind with
  | .accessMethods contractAddr methods gasLimit =>
    let accToken := match token with
      | none => NewAccountToken (.contractMethod gasLimit [])
      | some text => codec.unmarshalJSON text
    (orException (methods.foldlM (fun perm method => AddMethod perm contractAddr method)
      accToken.Permission)).map fun perm =>
        some (codec.marshalJSON { accToken with Permission := perm })
  | .accessRoot =>
    match token with
    | none => .ok (some (codec.marshalJSON (NewAccountToken .root)))
    | some text => .ok (some text)
  | .revoke => .ok none
  | .revokeMethods contractAddr methods =>
    match token with
    | none => .ok none
    | some text =>
      let accToken := codec.unmarshalJSON text
      (orException (methods.foldlM (fun perm _ => RemoveMethod perm contractAddr)
        accToken.Permission)).map fun perm =>
          some (codec.marshalJSON { accToken with Permission := perm })

theorem isChild_self (name : Bytes) : IsChild name name = true := by
  simp [IsChild]

theorem charge_ok {gasUsed : Nat} {update : AccountState → Except OpError AccountState}
    (hok : (vs.charge gasUsed update).result = .ok ()) :
    update vs.accountState = .ok (vs.charge gasUsed update).servant.accountState := by
  have hservant := servant_accumulate vs gasUsed
  unfold VMServant.charge at hok ⊢
  cases hanswer : vs.GasUsedAccumulate gasUsed with
  | mk answer vs' =>
    obtain rfl : vs' = vs := by rw [← hservant, hanswer]
    simp only [hanswer] at hok ⊢
    cases answer with
    | error err => cases hok
    | ok done =>
      cases hupdate : update vs'.accountState with
      | error err =>
        simp only [hupdate] at hok
        cases hok
      | ok accountState => simp [hupdate]

theorem grantAccessOperation_ok {parentAddr addr : Bytes} {operaGas : Nat}
    {operation : Account → Except OpError (Nat × Account)}
    (hok : (grantAccessOperation vs parentAddr addr operaGas operation).result = .ok ()) :
    ∃ acc usedSize acc', vs.accountState.GetAccount parentAddr = some acc ∧
      operation acc = .ok (usedSize, acc') ∧
      (grantAccessOperation vs parentAddr addr operaGas operation).servant.accountState =
        vs.accountState.UpdateAccount acc' := by
  unfold grantAccessOperation at hok ⊢
  cases hget : vs.accountState.GetAccount parentAddr with
  | none =>
    simp only [hget] at hok
    cases hok
  | some acc =>
    simp only [hget, isChild_self, if_true] at hok ⊢
    cases hoperation : operation acc with
    | error err =>
      simp only [hoperation] at hok
      cases hok
    | ok done =>
      obtain ⟨usedSize, acc'⟩ := done
      simp only [hoperation] at hok ⊢
      have hstored := charge_ok hok
      exact ⟨acc, usedSize, acc', rfl, hoperation, (Except.ok.inj hstored).symm⟩

theorem orException_bind_ok {α β : Type} {perm : Option α} {f : α → Except OpError β} {b : β}
    (hok : (orException perm >>= f) = .ok b) : ∃ a, perm = some a ∧ f a = .ok b := by
  cases perm with
  | none => cases hok
  | some a => exact ⟨a, rfl, hok⟩

theorem grant_ok (hok : call.result codec vs = .ok ()) :
    ∃ parentAcc token, vs.accountState.GetAccount call.parentAddr = some parentAcc ∧
      call.kind.tokenAfter codec parentAcc.Token = .ok token ∧
      call.accounts codec vs = vs.accountState.UpdateAccount { parentAcc with Token := token } := by
  obtain ⟨parentAddr, addr, kind⟩ := call
  -- each operation is `tokenAfter` on the token of the account it gets
  cases kind with
  | accessMethods contractAddr methods gasLimit =>
    obtain ⟨acc, usedSize, acc', hget, hoperation, hafter⟩ := grantAccessOperation_ok hok
    refine ⟨acc, ?_⟩
    simp only [GrantKind.tokenAfter]
    cases htoken : acc.Token <;>
      · simp only [htoken] at hoperation
        obtain ⟨perm, hperm, hstored⟩ := orException_bind_ok hoperation
        cases hstored
        rw [hperm]
        exact ⟨_, hget, rfl, hafter⟩
  | accessRoot =>
    obtain ⟨acc, usedSize, acc', hget, hoperation, hafter⟩ := grantAccessOperation_ok hok
    refine ⟨acc, ?_⟩
    cases htoken : acc.Token with
    | none =>
      simp only [htoken] at hoperation
      cases hoperation
      exact ⟨_, hget, rfl, hafter⟩
    | some text =>
      simp only [htoken] at hoperation
      cases hoperation
      exact ⟨_, hget, rfl, htoken ▸ hafter⟩
  | revoke =>
    obtain ⟨acc, usedSize, acc', hget, hoperation, hafter⟩ := grantAccessOperation_ok hok
    cases hoperation
    exact ⟨acc, _, hget, rfl, hafter⟩
  | revokeMethods contractAddr methods =>
    obtain ⟨acc, usedSize, acc', hget, hoperation, hafter⟩ := grantAccessOperation_ok hok
    refine ⟨acc, ?_⟩
    simp only [GrantKind.tokenAfter]
    cases htoken : acc.Token with
    | none =>
      simp only [htoken] at hoperation
      cases hoperation
      exact ⟨_, hget, rfl, htoken ▸ hafter⟩
    | some text =>
      simp only [htoken] at hoperation
      obtain ⟨perm, hperm, hstored⟩ := orException_bind_ok hoperation
      cases hstored
      refine ⟨_, hget, ?_, hafter⟩
      simp only [hperm]
      rfl

end Calls

section Target

variable {codec : TextCodec} {vs : VMServant} {call : GrantCall}

def GrantKind.Granted (kind : GrantKind) (a m : Bytes) : Prop :=
  match kind with
  | .accessMethods contractAddr methods _ => HexString a = HexString contractAddr ∧ m ∈ methods
  | _ => False

/-- That account exists, is a child and gets another token; a grant of methods allows just these in
addition; and every other account is as before. -/
structure OnTarget (codec : TextCodec) (vs : VMServant) (call : GrantCall) (acc : Account)
    (token : Option Bytes) : Prop where
  acc_found : vs.accountState.GetAccount call.addr = some acc
  child : ∃ parentAcc, vs.accountState.GetAccount call.parentAddr = some parentAcc ∧
    IsChild acc.Name parentAcc.Name = true
  stored : (call.accounts codec vs).GetAccount call.addr = some { acc with Token := token }
  allowed : ∀ contractAddr methods gasLimit,
    call.kind = .accessMethods contractAddr methods gasLimit → ∀ a m,
      TokenAllows codec token a m ↔ TokenAllows codec acc.Token a m ∨ call.kind.Granted a m
  others : ∀ other, other ≠ call.addr →
    (call.accounts codec vs).GetAccount other = vs.accountState.GetAccount other

theorem addMethods_run (IsText : Bytes → Prop) {perm perm' : Permission} {contractAddr : Bytes}
    {methods : List Bytes}
    (hrun : methods.foldlM (fun perm method => AddMethod perm contractAddr method) perm =
      some perm')
    (htext : perm.HasText IsText) :
    perm'.HasText IsText ∧ ∀ a m, Allows perm' a m ↔ Allows perm a m := by
  have hstep : ∀ current method next,
      (current.HasText IsText ∧ ∀ a m, Allows current a m ↔ Allows perm a m) →
        AddMethod current contractAddr method = some next →
        next.HasText IsText ∧ ∀ a m, Allows next a m ↔ Allows perm a m := by
    rintro current method next ⟨hcurrent, hsame⟩ hnext
    exact ⟨hasText_AddMethod hcurrent hnext, fun a m => (allows_AddMethod hnext).trans (hsame a m)⟩
  exact run_invariant hstep ⟨htext, fun _ _ => Iff.rfl⟩ hrun

variable {token token' : Option Bytes}

theorem orException_map_ok {α β : Type} {perm : Option α} {f : α → β} {b : β}
    (hok : (orException perm).map f = .ok b) : ∃ a, perm = some a ∧ f a = b := by
  cases perm with
  | none => cases hok
  | some a => exact ⟨a, rfl, Except.ok.inj hok⟩

theorem tokenAllows_grant {contractAddr : Bytes} {methods : List Bytes} {gasLimit : Nat}
    (hafter : GrantKind.tokenAfter codec (.accessMethods contractAddr methods gasLimit) token =
      .ok token') (a m : Bytes) :
    TokenAllows codec token' a m ↔ TokenAllows codec token a m := by
  cases token with
  | none =>
    obtain ⟨perm, hperm, rfl⟩ := orException_map_ok hafter
    obtain ⟨htext, hsame⟩ := addMethods_run codec.IsText hperm
      (fun entry hentry => absurd hentry List.not_mem_nil)
    refine (codec.allows_read ⟨_, perm⟩ htext a m).trans ((hsame a m).trans ?_)
    exact iff_of_false (not_allows_new gasLimit a m) not_false
  | some text =>
    obtain ⟨perm, hperm, rfl⟩ := orException_map_ok hafter
    obtain ⟨htext, hsame⟩ := addMethods_run codec.IsText hperm (codec.read_text text)
    exact (codec.allows_read ⟨_, perm⟩ htext a m).trans (hsame a m)

/-- The account is a child; it is the parent, or the parent's token stays; and the methods to allow
are allowed. -/
structure Harmless (codec : TextCodec) (vs : VMServant) (call : GrantCall)
    (acc parentAcc : Account) : Prop where
  acc_found : vs.accountState.GetAccount call.addr = some acc
  parent_found : vs.accountState.GetAccount call.parentAddr = some parentAcc
  child : IsChild acc.Name parentAcc.Name = true
  same : call.parentAddr = call.addr ∨
    call.kind.tokenAfter codec parentAcc.Token = .ok parentAcc.Token
  allowed : ∀ a m, call.kind.Granted a m → TokenAllows codec acc.Token a m

variable {parentAcc acc : Account}

theorem GetAccount_of_grant
    (hget : vs.accountState.GetAccount call.parentAddr = some parentAcc)
    (hafter : call.accounts codec vs =
      vs.accountState.UpdateAccount { parentAcc with Token := token }) (addr : Bytes) :
    (call.accounts codec vs).GetAccount addr =
      if call.parentAddr = addr then some { parentAcc with Token := token }
      else vs.accountState.GetAccount addr := by
  rw [hafter, AccountState.GetAccount_UpdateAccount]
  simp [AccountState.addr_of_GetAccount hget]

theorem harmless_of_onTarget
    (hok : call.result codec vs = .ok ()) (htarget : OnTarget codec vs call acc token) :
    ∃ parentAcc, Harmless codec vs call acc parentAcc := by
  obtain ⟨parentAcc, tokenNew, hget, htoken, hafter⟩ := grant_ok hok
  have haccounts := GetAccount_of_grant hget hafter
  obtain ⟨_, hparent, hchild⟩ := htarget.child
  obtain rfl : parentAcc = _ := Option.some.inj (hget.symm.trans hparent)
  refine ⟨parentAcc, htarget.acc_found, hget, hchild, ?_, ?_⟩
  · by_cases hsame : call.parentAddr = call.addr
    · exact .inl hsame
    · have hkept := htarget.others call.parentAddr hsame
      rw [haccounts, if_pos rfl, hget] at hkept
      have hunchanged : tokenNew = parentAcc.Token :=
        congrArg Account.Token (Option.some.inj hkept)
      exact .inr (hunchanged ▸ htoken)
  · intro a m hgranted
    obtain ⟨parentAddr, addr, kind⟩ := call
    cases kind with
    | accessMethods contractAddr methods gasLimit =>
      have hallowed := ((htarget.allowed _ _ _ rfl a m).mpr (.inr hgranted))
      have hstored := htarget.stored
      rw [haccounts] at hstored
      split_ifs at hstored with hsame
      · -- the parent itself: its new token allows what the old one did
        have hacc : parentAcc = acc := by
          have hfound := htarget.acc_found
          rw [← hsame, hget] at hfound
          exact Option.some.inj hfound
        have hnew : tokenNew = token := congrArg Account.Token (Option.some.inj hstored)
        rw [← hnew] at hallowed
        rw [← hacc]
        exact (tokenAllows_grant htoken a m).mp hallowed
      · -- another account, which is as it was
        rw [htarget.acc_found] at hstored
        have hkept : acc.Token = token := congrArg Account.Token (Option.some.inj hstored)
        rw [hkept]
        exact hallowed
    | _ => exact hgranted.elim

theorem onTarget_of_harmless
    (hok : call.result codec vs = .ok ()) (hharmless : Harmless codec vs call acc parentAcc) :
    ∃ token, OnTarget codec vs call acc token := by
  obtain ⟨found, token, hget, htoken, hafter⟩ := grant_ok hok
  have haccounts := GetAccount_of_grant hget hafter
  obtain rfl : parentAcc = found := Option.some.inj (hharmless.parent_found.symm.trans hget)
  have hchild : ∃ parentAcc, vs.accountState.GetAccount call.parentAddr = some parentAcc ∧
      IsChild acc.Name parentAcc.Name = true := ⟨parentAcc, hget, hharmless.child⟩
  by_cases hsame : call.parentAddr = call.addr
  · have hacc : parentAcc = acc := by
      have hfound := hharmless.acc_found
      rw [← hsame, hget] at hfound
      exact Option.some.inj hfound
    refine ⟨token, hharmless.acc_found, hchild, ?_, ?_, ?_⟩
    · rw [haccounts, if_pos hsame, hacc]
    · intro contractAddr methods gasLimit hkind a m
      rw [hkind] at htoken
      rw [tokenAllows_grant htoken a m, hacc]
      constructor
      · exact .inl
      · exact fun hor => hor.elim id (hharmless.allowed a m)
    · intro other hother
      rw [haccounts, if_neg (fun heq => hother (heq.symm.trans hsame))]
  · have hkept : token = parentAcc.Token := by
      have hunchanged := hharmless.same.resolve_left hsame
      rw [htoken] at hunchanged
      exact Except.ok.inj hunchanged
    refine ⟨acc.Token, hharmless.acc_found, hchild, ?_, ?_, ?_⟩
    · rw [haccounts, if_neg hsame]
      exact hharmless.acc_found
    · intro contractAddr methods gasLimit hkind a m
      constructor
      · exact .inl
      · exact fun hor => hor.elim id (hharmless.allowed a m)
    · intro other hother
      rw [haccounts]
      split_ifs with hparent
      · rw [← hparent, hget, hkept]
      · rfl

/-- **The target of a grant.** A successful call is one on its target exactly when that exists and
is a child, it is the parent itself or the parent's token stays, and the methods to allow are
allowed already. -/
theorem grantTarget_iff (codec : TextCodec) (vs : VMServant) (call : GrantCall) :
    (call.result codec vs = .ok () → ∃ acc token, OnTarget codec vs call acc token) ↔
      (call.result codec vs = .ok () → ∃ acc parentAcc, Harmless codec vs call acc parentAcc) := by
  constructor
  · intro htarget hok
    obtain ⟨acc, token, honTarget⟩ := htarget hok
    obtain ⟨parentAcc, hharmless⟩ := harmless_of_onTarget hok honTarget
    exact ⟨acc, parentAcc, hharmless⟩
  · intro hharmless hok
    obtain ⟨acc, parentAcc, hacc⟩ := hharmless hok
    obtain ⟨token, honTarget⟩ := onTarget_of_harmless hok hacc
    exact ⟨acc, token, honTarget⟩

def oneByteCodec : TextCodec where
  marshalJSON token := match token.Permission with
    | .root => [1]
    | .contractMethod _ _ => [0]
  unmarshalJSON text := NewAccountToken (if text = [1] then .root else .contractMethod 0 [])
  IsText _ := False
  read_text := by
    intro text
    split_ifs
    · trivial
    · exact fun entry hentry => absurd hentry List.not_mem_nil
  allows_read := by
    rintro ⟨nonce, perm⟩ htext a m
    cases perm with
    | root => exact Iff.rfl
    | contractMethod gasLimit methodsMap =>
      cases methodsMap with
      | nil => exact Iff.rfl
      | cons entry rest => exact (htext entry List.mem_cons_self).1.elim

def parentOnly : VMServant :=
  NewVMServant ⟨[⟨ascii "parent", 0, ascii "com", none, fun _ => none⟩], by simp⟩ 1 1000

/-- A grant for a missing account succeeds and gives the parent all permissions. -/
theorem grantRoot_changes_parent :
    GrantCall.result oneByteCodec parentOnly ⟨ascii "parent", ascii "child", .accessRoot⟩ = .ok () ∧
      parentOnly.accountState.GetAccount (ascii "child") = none ∧
      (GrantCall.accounts oneByteCodec parentOnly
        ⟨ascii "parent", ascii "child", .accessRoot⟩).GetAccount (ascii "parent") =
        some ⟨ascii "parent", 0, ascii "com", some [1], fun _ => none⟩ :=
  ⟨rfl, rfl, rfl⟩

end Target

end Topia.Vm
