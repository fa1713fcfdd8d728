import Topia.Common
import Mathlib.Algebra.BigOperators.Group.List.Basic
import Mathlib.Data.List.Nodup

/-!
# Accounts and the account state

`account/account.go` and `state/account/account.go`. The store maps an address to the JSON text of
its account; `GetAccount` decodes a fresh copy, so changes reach the store only through
`UpdateAccount`.

A token is kept as its JSON text; a balance that is present is not nil.
-/

namespace Topia

abbrev TokenSymbol := Bytes

def TokenSymbol_Native : TokenSymbol := ascii "TPA"

structure Account where
  Addr : Bytes
  Nonce : Nat
  Name : Bytes
  Token : Option Bytes
  Balances : TokenSymbol → Option Int

namespace Account

variable (a : Account) (symbol : TokenSymbol) (value : Int)

def balance : Int :=
  (a.Balances symbol).getD 0

def BalanceIncrease : Account :=
  { a with Balances := Function.update a.Balances symbol (some (a.balance symbol + value)) }

def BalanceDecrease : Option Account :=
  match a.Balances symbol with
  | none => none
  | some symbolValue =>
    if symbolValue < value then none
    else
      some { a with Balances := Function.update a.Balances symbol (some (symbolValue - value)) }

end Account

structure AccountState where
  accounts : List Account
  nodup : (accounts.map Account.Addr).Nodup

namespace AccountState

variable (s : AccountState) (account : Account) (addr : Bytes) (symbol : TokenSymbol)

def GetAccount : Option Account :=
  s.accounts.find? (fun a => decide (a.Addr = addr))

def GetNonce : Option Nat :=
  (s.GetAccount addr).map Account.Nonce

def GetBalance : Option Int :=
  (s.GetAccount addr).bind (fun a => a.Balances symbol)

def UpdateAccount : AccountState where
  accounts := account :: s.accounts.filter (fun a => decide (a.Addr ≠ account.Addr))
  nodup := by
    rw [List.map_cons, List.nodup_cons]
    constructor
    · simp
    · exact s.nodup.sublist (List.filter_sublist.map _)

def UpdateName (name : Bytes) : Option AccountState :=
  (s.GetAccount addr).map (fun acc => s.UpdateAccount { acc with Name := name })

theorem addr_of_GetAccount {s : AccountState} {addr : Bytes} {a : Account}
    (hget : s.GetAccount addr = some a) : a.Addr = addr := by
  simpa using List.find?_some hget

theorem GetAccount_UpdateAccount :
    (s.UpdateAccount account).GetAccount addr =
      if account.Addr = addr then some account else s.GetAccount addr := by
  by_cases haddr : account.Addr = addr
  · simp [GetAccount, UpdateAccount, haddr]
  have hpred :
      (fun a : Account => !decide (a.Addr = account.Addr) && decide (a.Addr = addr)) =
        fun a => decide (a.Addr = addr) := by
    funext a
    by_cases ha : a.Addr = addr
    · simp [ha, Ne.symm haddr]
    · simp [ha]
  simp [GetAccount, UpdateAccount, haddr, hpred]

def storedBalance : Int :=
  (s.GetBalance addr symbol).getD 0

def totalBalance : Int :=
  (s.accounts.map (fun a => a.balance symbol)).sum

def NonNegative : Prop :=
  ∀ a ∈ s.accounts, ∀ symbol, 0 ≤ a.balance symbol

end AccountState

end Topia
