import Topia.Transaction.Verify

/-!
# Replaying a transfer over a sequence of blocks

The transactions of a block that reach the account state are transfers and calls of the native
account contract (`vm/native/contract/account.go`). The contract binds names and changes tokens, a
transfer writes nothing, and nothing in a block touches a nonce or the chain identifier. So the
transfer is accepted any number of times without an effect, and its head cannot be changed and
accepted again, unless the sender is the address of the empty key, for which a signature that gives
no key verifies with every message.
-/

namespace Topia.Transaction

open Vm

section Nonces

variable {s s' : AccountState} {vs : VMServant} {addr parentAddr : Bytes}

def SameNonces (s s' : AccountState) : Prop :=
  ∀ addr, s'.GetNonce addr = s.GetNonce addr

theorem sameNonces_UpdateAccount {acc acc' : Account} (hget : s.GetAccount addr = some acc)
    (haddr : acc'.Addr = acc.Addr) (hnonce : acc'.Nonce = acc.Nonce) :
    SameNonces s (s.UpdateAccount acc') := by
  intro other
  have hself := AccountState.addr_of_GetAccount hget
  unfold AccountState.GetNonce
  rw [AccountState.GetAccount_UpdateAccount]
  by_cases hother : acc'.Addr = other
  · have : other = addr := by rw [← hother, haddr, hself]
    subst this
    simp [hother, hget, hnonce]
  · simp [hother]

theorem sameNonces_charge {gas : Nat} {update : AccountState → Except OpError AccountState}
    (hupdate : ∀ s', update vs.accountState = .ok s' → SameNonces vs.accountState s') :
    SameNonces vs.accountState (vs.charge gas update).servant.accountState := by
  have hservant := servant_accumulate vs gas
  unfold VMServant.charge
  generalize vs.GasUsedAccumulate gas = answer at hservant ⊢
  obtain ⟨answer, vs'⟩ := answer
  obtain rfl : vs' = vs := hservant
  cases answer with
  | error err => exact fun _ => rfl
  | ok _ =>
    dsimp only
    split
    · exact fun _ => rfl
    · next s' hs' => exact hupdate s' hs'

theorem sameNonces_BindName (vs : VMServant) (parentAddr addr accountName : Bytes) :
    SameNonces vs.accountState (BindName vs parentAddr addr accountName).servant.accountState := by
  unfold BindName
  split
  · exact fun _ => rfl
  split_ifs
  · refine sameNonces_charge fun s' hs' => ?_
    split at hs'
    · cases hs'
    · next hupdate =>
        cases hs'
        obtain ⟨acc, hget, rfl⟩ := Option.map_eq_some_iff.mp hupdate
        exact sameNonces_UpdateAccount hget rfl rfl
  · exact fun _ => rfl

theorem sameNonces_grantAccess {operaGas : Nat}
    {operation : Account → Except OpError (Nat × Account)}
    (hoperation : ∀ acc usedSize acc', operation acc = .ok (usedSize, acc') →
      ∃ token, acc' = { acc with Token := token }) :
    SameNonces vs.accountState
      (grantAccessOperation vs parentAddr addr operaGas operation).servant.accountState := by
  unfold grantAccessOperation
  cases hget : vs.accountState.GetAccount parentAddr with
  | none => exact fun _ => rfl
  | some acc =>
    dsimp only
    split_ifs
    · split
      · exact fun _ => rfl
      · next usedSize acc' hok =>
          refine sameNonces_charge fun s' hs' => ?_
          cases hs'
          obtain ⟨token, rfl⟩ := hoperation acc usedSize acc' hok
          exact sameNonces_UpdateAccount hget rfl rfl
    · exact fun _ => rfl

theorem sameNonces_exec (codec : TokenCodec) (vs : VMServant) (op : ContractOp) :
    SameNonces vs.accountState (exec codec vs op).servant.accountState := by
  cases op with
  | bindName => exact sameNonces_BindName vs _ _ _
  | grantAccessMethods =>
    refine sameNonces_grantAccess fun acc usedSize acc' hok => ?_
    simp only [bind, Except.bind] at hok
    split at hok <;> cases hok
    exact ⟨_, rfl⟩
  | grantAccessRoot =>
    refine sameNonces_grantAccess fun acc usedSize acc' hok => ?_
    split at hok <;> cases hok <;> exact ⟨_, rfl⟩
  | revokeGrantAccess =>
    refine sameNonces_grantAccess fun acc usedSize acc' hok => ?_
    cases hok
    exact ⟨_, rfl⟩
  | revokeGrantAccessMethods =>
    refine sameNonces_grantAccess fun acc usedSize acc' hok => ?_
    split at hok
    · cases hok
      exact ⟨_, rfl⟩
    · simp only [bind, Except.bind] at hok
      split at hok <;> cases hok
      exact ⟨_, rfl⟩

end Nonces

inductive BlockTx where
  | transfer (txfer : TransactionUniversalTransfer)
  | contract (op : ContractOp)

variable (env : VerifyEnv) (view : ChainView) (blocks : List (List BlockTx)) (txs : List BlockTx)

def executeTx : BlockTx → ChainView
  | .transfer txfer =>
    { view with accounts := (txfer.Execute env.uni.transferEnv view.accounts).2 }
  | .contract op =>
    { view with
      accounts := (exec env.codec (env.uni.call.vmServant view.accounts) op).servant.accountState }

def executeTxs : ChainView :=
  txs.foldl (executeTx env) view

theorem GetNonce_executeTx (tx : BlockTx) :
    SameNonces view.accounts (executeTx env view tx).accounts := by
  cases tx with
  | transfer txfer => exact fun _ => rfl
  | contract op => exact sameNonces_exec env.codec (env.uni.call.vmServant view.accounts) op

theorem GetNonce_executeTxs : SameNonces view.accounts (executeTxs env view txs).accounts := by
  induction txs generalizing view with
  | nil => exact fun _ => rfl
  | cons tx txs ih =>
    exact fun addr => (ih (executeTx env view tx) addr).trans (GetNonce_executeTx env view tx addr)

theorem ChainID_executeTxs : (executeTxs env view txs).ChainID = view.ChainID := by
  induction txs generalizing view with
  | nil => rfl
  | cons tx txs ih =>
    refine (ih (executeTx env view tx)).trans ?_
    cases tx <;> rfl

def stateBefore (i : Nat) : ChainView :=
  executeTxs env view (blocks.flatten.take i)

def ChangesAccounts (i : Nat) (txfer : TransactionUniversalTransfer) : Prop :=
  blocks.flatten[i]? = some (.transfer txfer) ∧
    (executeTx env (stateBefore env view blocks i) (.transfer txfer)).accounts ≠
      (stateBefore env view blocks i).accounts

namespace TransactionUniversalTransfer

open Crypt (CryptLib)

def SamePayload (a b : TransactionUniversalTransfer) : Prop :=
  a.Head.FromAddr = b.Head.FromAddr ∧ a.Head.Signature = b.Head.Signature ∧
    a.UniHead.FeePayerSignature = b.UniHead.FeePayerSignature ∧
    a.TargetAddr = b.TargetAddr ∧ a.Targets = b.Targets

def withHeadFields (txfer : TransactionUniversalTransfer) (nonce : Nat) (chainID feePayer : Bytes)
    (gasPrice gasLimit : Nat) : TransactionUniversalTransfer :=
  { txfer with
    Head := { txfer.Head with Nonce := nonce, ChainID := chainID }
    UniHead :=
      { txfer.UniHead with FeePayer := feePayer, GasPrice := gasPrice, GasLimit := gasLimit } }

/-- **Replay protection.** A signed transfer changes the account state at most once, and no head
field of an accepted one can change under the same signatures, when the sender is not the address of
the empty key and the libraries have no signature for both texts. -/
theorem replayProtection {F : Type} [Preorder F]
    (env : VerifyEnv) (view : ChainView) (blocks : List (List BlockTx)) :
    (∀ i j (a b : TransactionUniversalTransfer),
      ChangesAccounts env view blocks i a → ChangesAccounts env view blocks j b →
      SamePayload a b → i = j) ∧
    (∀ i j (gc gc' : GasPriceComputer F) (size size' : Nat) (txfer : TransactionUniversalTransfer)
        (nonce : Nat) (chainID feePayer : Bytes) (gasPrice gasLimit : Nat),
      let changed := txfer.withHeadFields nonce chainID feePayer gasPrice gasLimit
      env.lib.CreateAddress env.network [] ≠ .ok txfer.Head.FromAddr →
      env.lib.Separates (changed.withHead env).txUniBytes (txfer.withHead env).txUniBytes →
      txfer.Verify env gc size (stateBefore env view blocks i) = some .accept →
      changed.Verify env gc' size' (stateBefore env view blocks j) = some .accept →
      changed = txfer) := by
  constructor
  · intro i j a b ha _ _
    -- a transfer writes nothing, so there is no position that changes anything
    exact absurd rfl ha.2
  intro i j gc gc' size size' txfer nonce chainID feePayer gasPrice gasLimit changed hkey hseparates
    haccept haccept'
  have hold := Verify_accept haccept
  have hnew := Verify_accept haccept'
  have hnonce : nonce = txfer.Head.Nonce := by
    obtain ⟨n, hn, hnonce⟩ := hold.nonce
    obtain ⟨m, hm, hnonce'⟩ := hnew.nonce
    have hfrom : changed.Head.FromAddr = txfer.Head.FromAddr := rfl
    rw [stateBefore, GetNonce_executeTxs] at hn hm
    rw [hfrom, hn] at hm
    cases hm
    exact hnonce'.trans hnonce.symm
  have hchain : chainID = txfer.Head.ChainID := by
    have hc := hold.chainID
    have hc' := hnew.chainID
    rw [stateBefore, ChainID_executeTxs] at hc hc'
    exact hc'.trans hc.symm
  have hbytes := signatureVerifier_one_message hseparates hkey hnew.signature hold.signature
  have hhead : changed.UniHead = txfer.UniHead := marshalUniversal_inj hbytes
  subst hnonce hchain
  simp only [changed, withHeadFields] at hhead ⊢
  simp [hhead]

section Signed

open List

/-- The addresses of a key of zeros, and of a hash of zeros. -/
def zeroKey : Bytes := ascii "t3" ++ replicate 58 116
def noKey : Bytes := ascii "t2" ++ replicate 39 116

def transferOf (addr signature payerSignature : Bytes) : TransactionUniversalTransfer where
  Head := ⟨TransactionCategory_Topia_Universal, [7], 1, 0, 0, addr, 1, signature⟩
  UniHead := ⟨1, addr, 1, 1, TransactionUniversalType_Transfer, payerSignature, 0⟩
  TargetAddr := noKey
  Targets := []

/-- Every hash has zeros only; two signatures were made with the key of zeros, that of the transfer
and the payer's. -/
def madeLib : CryptLib where
  blake2b size _ := replicate size 0
  length_blake2b _ _ _ _ := length_replicate
  ecdsaRecover _ _ := none
  verifyDetached _ msg sig :=
    decide (sig = replicate 64 1 ∧
        msg = marshalUniversal (transferOf zeroKey (replicate 64 1) (replicate 64 2)).UniHead [1] ∨
      sig = replicate 64 2 ∧ msg = [1])

theorem madeLib_separates (msg msg' : Bytes) : madeLib.Separates msg msg' where
  recovered := by
    intro _ _ _ hrecover
    cases hrecover
  detached := by
    intro sig _ hverify hverify'
    simp only [madeLib, decide_eq_true_eq] at hverify hverify'
    rcases hverify with ⟨rfl, rfl⟩ | ⟨rfl, rfl⟩ <;>
      rcases hverify' with ⟨hsig, rfl⟩ | ⟨hsig, rfl⟩
    · rfl
    · exact absurd hsig (by decide)
    · exact absurd hsig (by decide)
    · rfl

def madeEnv : VerifyEnv where
  uni := { transferOnly with marshalTransfer := fun _ _ => [1] }
  lib := madeLib
  signData := fun text => some (some text)
  codec := GasRun.plainCodec
  maxTargetItem := 50

def bothSenders : ChainView where
  ChainID := [7]
  accounts :=
    { accounts := [zeroKey, noKey].map fun addr =>
        ⟨addr, 0, [], none, fun symbol => if symbol = TokenSymbol_Native then some 0 else none⟩
      nodup := by decide +kernel }

theorem replayProtection_of_zeroKey :
    let txfer := transferOf zeroKey (replicate 64 1) (replicate 64 2)
    let state := stateBefore madeEnv bothSenders [[.transfer txfer]]
    txfer.Verify madeEnv GasPriceComputer.smallBlocks 0 (state 0) = some .accept ∧
      ∀ nonce gasLimit,
        (txfer.withHeadFields nonce [7] zeroKey 1 gasLimit).Verify madeEnv
          GasPriceComputer.smallBlocks 0 (state 1) = some .accept →
        txfer.withHeadFields nonce [7] zeroKey 1 gasLimit = txfer := by
  have haccept : (transferOf zeroKey (replicate 64 1) (replicate 64 2)).Verify madeEnv
      GasPriceComputer.smallBlocks 0 bothSenders = some .accept := by
    decide +kernel
  refine ⟨haccept, fun nonce gasLimit hagain => ?_⟩
  exact (replayProtection madeEnv bothSenders
    [[.transfer (transferOf zeroKey (replicate 64 1) (replicate 64 2))]]).2 0 1 _ _ 0 0 _ nonce [7]
    zeroKey 1 gasLimit (by decide +kernel) (madeLib_separates _ _) haccept hagain

/-- With any libraries every message verifies for the address of the empty key. A transfer of this
address is accepted with an empty signature, and so is the one with another gas limit. -/
theorem replayProtection_fails_of_noKey :
    let txfer := transferOf noKey [] []
    (∀ (L : CryptLib) network addr msg, L.CreateAddress network [] = .ok addr →
        L.Verify network .secp256 addr msg (some []) = some true) ∧
      madeEnv.lib.CreateAddress madeEnv.network [] = .ok noKey ∧
      (∀ msg msg', madeEnv.lib.Separates msg msg') ∧
      txfer.Verify madeEnv GasPriceComputer.smallBlocks 0 bothSenders = some .accept ∧
      (txfer.withHeadFields 1 [7] noKey 1 2).Verify madeEnv GasPriceComputer.smallBlocks 0
        bothSenders = some .accept ∧
      txfer.withHeadFields 1 [7] noKey 1 2 ≠ txfer := by
  refine ⟨fun _ _ _ _ => CryptLib.Verify_of_empty_key (by decide),
    by decide +kernel, madeLib_separates, by decide +kernel, by decide +kernel, by decide⟩

end Signed

end TransactionUniversalTransfer

end Topia.Transaction
