import Topia.Account
import Topia.Ledger.AllState
import Mathlib.Data.Finmap
import Mathlib.Data.Countable.Basic
import Mathlib.Logic.Equiv.List

/-!
# The account state as a map

`state/account/account.go` keeps the JSON text of each account in a named store, under its address.
Every change reads the account, changes a copy and writes it back.  The accounts of the constructors
have a map of balances that is not nil, and so has every account that is read back.
-/

namespace Topia.State.Accounts

open Ledger Lib Function List Option

structure Account where
  Addr : Bytes
  Nonce : Nat
  Name : Bytes
  Token : Option Bytes
  Balances : Finmap fun _ : TokenSymbol => Int
  CodeHash : Bytes
  Version : Nat

structure Codec where
  marshal : Account → Bytes
  unmarshal : Bytes → Option Account
  unmarshal_marshal : ∀ acc, unmarshal (marshal acc) = some acc

variable (M : AuthMap 32) (codec : Codec) (as : StateStoreComposition)

section Reads

variable (addr : Bytes)

def IsAccountExist : Bool := (as.GetStateData addr).isSome

/-- `GetAccount`; the JSON text of an account that is missing is nil, which is not read. -/
def GetAccount : Option Account := (as.GetStateData addr).bind codec.unmarshal

def GetNonce : Option Nat := (GetAccount codec as addr).map Account.Nonce

def GetBalance (symbol : TokenSymbol) : Option Int :=
  (GetAccount codec as addr).bind fun acc => acc.Balances.lookup symbol

def GetAllAccounts (data : DataItems as) : Option (List Account) :=
  data.items.mapM fun item => codec.unmarshal item.2

end Reads

section Changes

def put (key value : Bytes) : StateStoreComposition × Bool :=
  (as.apply M (.put key (some value)),
    decide (key = []) || (M.update as.content.tree as.root key value).isNone)

def UpdateAccount (account : Account) : StateStoreComposition × Bool :=
  put M as account.Addr (codec.marshal account)

def AddAccount (acc : Account) : StateStoreComposition × Bool :=
  if IsAccountExist as acc.Addr then (as, true) else put M as acc.Addr (codec.marshal acc)

variable (addr : Bytes)

/-- `UpdateNonce`, `UpdateBalance` and `UpdateName`, with what they do to the account. -/
def updateField (change : Account → Account) : StateStoreComposition × Bool :=
  match GetAccount codec as addr with
  | none => (as, true)
  | some acc => UpdateAccount M codec as (change acc)

inductive Field where
  | nonce (nonce : Nat)
  | balance (symbol : TokenSymbol) (value : Int)
  | name (name : Bytes)

def Field.set : Field → Account → Account
  | .nonce n, acc => { acc with Nonce := n }
  | .balance symbol value, acc => { acc with Balances := acc.Balances.insert symbol value }
  | .name n, acc => { acc with Name := n }

def UpdateNonce (nonce : Nat) : StateStoreComposition × Bool :=
  updateField M codec as addr (Field.nonce nonce).set

def UpdateBalance (symbol : TokenSymbol) (value : Int) : StateStoreComposition × Bool :=
  updateField M codec as addr (Field.balance symbol value).set

def UpdateName (name : Bytes) : StateStoreComposition × Bool :=
  updateField M codec as addr (Field.name name).set

inductive Call where
  | addAccount (acc : Account) (hne : acc.Addr ≠ [])
  | updateAccount (acc : Account) (hne : acc.Addr ≠ [])
  | updateNonce (addr : Bytes) (hne : addr ≠ []) (nonce : Nat)
  | updateBalance (addr : Bytes) (hne : addr ≠ []) (symbol : TokenSymbol) (value : Int)
  | updateName (addr : Bytes) (hne : addr ≠ []) (name : Bytes)

def call : Call → StateStoreComposition × Bool
  | .addAccount acc _ => AddAccount M codec as acc
  | .updateAccount acc _ => UpdateAccount M codec as acc
  | .updateNonce addr _ nonce => UpdateNonce M codec as addr nonce
  | .updateBalance addr _ symbol value => UpdateBalance M codec as addr symbol value
  | .updateName addr _ name => UpdateName M codec as addr name

def calls : StateStoreComposition → List Call → StateStoreComposition × List Bool
  | as, [] => (as, [])
  | as, c :: cs =>
    let (as', err) := call M codec as c
    ((calls as' cs).1, err :: (calls as' cs).2)

end Changes

section Map

variable (m : Bytes → Option Account)

def mapField (addr : Bytes) (field : Field) : (Bytes → Option Account) × Bool :=
  match m addr with
  | none => (m, true)
  | some acc => (update m addr (some (field.set acc)), false)

def mapCall : Call → (Bytes → Option Account) × Bool
  | .addAccount acc _ =>
    if (m acc.Addr).isSome then (m, true) else (update m acc.Addr (some acc), false)
  | .updateAccount acc _ => (update m acc.Addr (some acc), false)
  | .updateNonce addr _ nonce => mapField m addr (.nonce nonce)
  | .updateBalance addr _ symbol value => mapField m addr (.balance symbol value)
  | .updateName addr _ name => mapField m addr (.name name)

def mapCalls : (Bytes → Option Account) → List Call → (Bytes → Option Account) × List Bool
  | m, [] => (m, [])
  | m, c :: cs =>
    let (m', err) := mapCall m c
    ((mapCalls m' cs).1, err :: (mapCalls m' cs).2)

def ReadsOf : Prop :=
  (∀ addr, GetAccount codec as addr = m addr ∧
      GetNonce codec as addr = (m addr).map Account.Nonce ∧
      ∀ symbol, GetBalance codec as addr symbol =
        (m addr).bind fun acc => acc.Balances.lookup symbol) ∧
    ∀ data : DataItems as, ∃ accs, GetAllAccounts codec as data = some accs ∧
      (accs.map Account.Addr).Nodup ∧ ∀ acc, acc ∈ accs ↔ m acc.Addr = some acc

/-- The store holds the texts of the accounts of the map, each under its own address. -/
structure Stores : Prop where
  holds : ∃ tree data, Holds M as tree data
  data_eq : ∀ addr, as.GetStateData addr = (m addr).map codec.marshal
  addr_eq : ∀ addr acc, m addr = some acc → acc.Addr = addr

end Map

section Refinement

variable {M codec as} {m : Bytes → Option Account} {addr : Bytes}

theorem Stores.getAccount (hs : Stores M codec as m) (addr : Bytes) :
    GetAccount codec as addr = m addr := by
  rw [GetAccount, hs.data_eq]
  cases m addr with
  | none => rfl
  | some acc => exact codec.unmarshal_marshal acc

theorem Stores.put (hs : Stores M codec as m) (acc : Account) (hne : acc.Addr ≠ []) :
    Stores M codec (put M as acc.Addr (codec.marshal acc)).1
        (update m acc.Addr (some acc)) ∧
      (Accounts.put M as acc.Addr (codec.marshal acc)).2 = false := by
  obtain ⟨tree, data, hholds⟩ := hs.holds
  obtain ⟨_, _, hupdate, -⟩ := M.update_rep _ _ _ acc.Addr (codec.marshal acc) hholds.rep
  have hafter := apply_holds hholds (.put acc.Addr (some (codec.marshal acc)))
  refine ⟨⟨⟨_, _, hafter⟩, fun addr => ?_, fun addr acc' hacc => ?_⟩, ?_⟩
  · have hbefore := hs.data_eq addr
    rw [StateStoreComposition.GetStateData, hholds.data_eq] at hbefore
    rw [StateStoreComposition.GetStateData, Accounts.put, hafter.data_eq]
    simp only [Op.setData, if_neg hne]
    by_cases haddr : addr = acc.Addr
    · subst haddr
      rw [if_neg hne, update_self, update_self, map_some]
    · rw [update_of_ne haddr, update_of_ne haddr, hbefore]
  · by_cases haddr : addr = acc.Addr
    · subst haddr
      rw [update_self] at hacc
      cases hacc
      rfl
    · rw [update_of_ne haddr] at hacc
      exact hs.addr_eq addr acc' hacc
  · simp [Accounts.put, hne, hupdate]

theorem Field.set_addr (field : Field) (acc : Account) : (field.set acc).Addr = acc.Addr := by
  cases field <;> rfl

section Stores

variable (hs : Stores M codec as m)
include hs

theorem Stores.field (hne : addr ≠ []) (field : Field) :
    Stores M codec (updateField M codec as addr field.set).1 (mapField m addr field).1 ∧
      (updateField M codec as addr field.set).2 = (mapField m addr field).2 := by
  unfold updateField mapField
  rw [hs.getAccount]
  cases hacc : m addr with
  | none => exact ⟨hs, rfl⟩
  | some acc =>
    have haddr : (field.set acc).Addr = addr :=
      (field.set_addr acc).trans (hs.addr_eq addr acc hacc)
    have hput := hs.put (field.set acc) (haddr ▸ hne)
    rw [haddr] at hput
    simp only [UpdateAccount, haddr]
    exact hput

theorem Stores.call (c : Call) :
    Stores M codec (call M codec as c).1 (mapCall m c).1 ∧
      (call M codec as c).2 = (mapCall m c).2 := by
  cases c with
  | addAccount acc hne =>
    have hexist : IsAccountExist as acc.Addr = (m acc.Addr).isSome := by
      rw [IsAccountExist, hs.data_eq, isSome_map]
    simp only [Accounts.call, AddAccount, mapCall, hexist]
    split_ifs
    · exact ⟨hs, rfl⟩
    · exact hs.put acc hne
  | updateAccount acc hne => exact hs.put acc hne
  | updateNonce addr hne nonce | updateBalance addr hne symbol value
  | updateName addr hne name => exact hs.field hne _

theorem Stores.calls (cs : List Call) :
    Stores M codec (calls M codec as cs).1 (mapCalls m cs).1 ∧
      (calls M codec as cs).2 = (mapCalls m cs).2 := by
  induction cs generalizing as m with
  | nil => exact ⟨hs, rfl⟩
  | cons c cs ih =>
    obtain ⟨hs', herr⟩ := hs.call c
    obtain ⟨hrest, herrs⟩ := ih hs'
    exact ⟨hrest, congrArg₂ List.cons herr herrs⟩

theorem Stores.mapM_items {items : List (Bytes × Bytes)}
    (hitems : ∀ item ∈ items, as.GetStateData item.1 = some item.2) :
    ∃ accs, items.mapM (fun item => codec.unmarshal item.2) = some accs ∧
      accs.map Account.Addr = items.map Prod.fst ∧ ∀ acc ∈ accs, m acc.Addr = some acc := by
  induction items with
  | nil => exact ⟨[], rfl, rfl, fun _ h => by cases h⟩
  | cons item items ih =>
    obtain ⟨hitem, hitems⟩ := forall_mem_cons.mp hitems
    obtain ⟨accs, hmapM, haddrs, hmem⟩ := ih hitems
    rw [hs.data_eq] at hitem
    obtain ⟨acc, hacc, htext⟩ := map_eq_some_iff.mp hitem
    have haddr := hs.addr_eq _ _ hacc
    refine ⟨acc :: accs, ?_, by simp [haddr, haddrs], forall_mem_cons.mpr ⟨?_, hmem⟩⟩
    · simp [mapM_cons, ← htext, codec.unmarshal_marshal, hmapM]
    · rw [haddr, hacc]

theorem Stores.readsOf : ReadsOf codec as m := by
  refine ⟨fun addr => ⟨hs.getAccount addr, ?_, fun symbol => ?_⟩, fun data => ?_⟩
  · rw [GetNonce, hs.getAccount]
  · rw [GetBalance, hs.getAccount]
  obtain ⟨accs, hmapM, haddrs, hmem⟩ :=
    hs.mapM_items fun item hitem => (data.mem_iff item.1 item.2).mp hitem
  refine ⟨accs, hmapM, haddrs ▸ data.nodup, fun acc => ⟨hmem acc, fun hacc => ?_⟩⟩
  have hitem : (acc.Addr, codec.marshal acc) ∈ data.items :=
    (data.mem_iff _ _).mpr (by rw [hs.data_eq, hacc, map_some])
  have hkey : acc.Addr ∈ accs.map Account.Addr :=
    haddrs ▸ mem_map_of_mem (f := Prod.fst) hitem
  obtain ⟨acc', hacc', haddr⟩ := mem_map.mp hkey
  have hsame := hmem acc' hacc'
  rw [haddr, hacc] at hsame
  exact Option.some.inj hsame ▸ hacc'

end Stores

/-- **The account state is a map.**  After any changes of a new state, their errors and all reads
are those of the map, and an error leaves it as it was. -/
theorem accountState_refines (M : AuthMap 32) (codec : Codec) (cs : List Call) :
    ∃ as, newStateStoreComposition M NamedContent.empty = some as ∧
      (Accounts.calls M codec as cs).2 = (mapCalls (fun _ => none) cs).2 ∧
      ReadsOf codec (Accounts.calls M codec as cs).1 (mapCalls (fun _ => none) cs).1 ∧
      ∀ m c, (mapCall m c).2 = true → (mapCall m c).1 = m := by
  have hempty : EmptyRootStored M NamedContent.empty := .inr rfl
  obtain ⟨as, hopen, -, hholds⟩ := openStore_emptyRoot hempty
  have hnew : Stores M codec as (fun _ => none) :=
    ⟨⟨_, _, hholds⟩, fun addr => by
      simp [StateStoreComposition.GetStateData, hholds.data_eq, NamedContent.empty],
      fun _ _ h => by cases h⟩
  obtain ⟨hs, herrs⟩ := hnew.calls cs
  refine ⟨as, hopen, herrs, hs.readsOf, fun m c herr => ?_⟩
  cases c <;> simp only [mapCall, mapField] at herr ⊢ <;> grind

theorem exists_codec : Nonempty Codec := by
  have hfields : Injective fun a : Account =>
      (a.Addr, a.Nonce, a.Name, a.Token, a.Balances.entries, a.CodeHash, a.Version) := by
    rintro ⟨⟩ ⟨⟩ h
    simpa [Finmap.ext_iff'] using h
  have haccounts := hfields.countable
  obtain ⟨f, hf⟩ := Countable.exists_injective_nat Account
  refine ⟨⟨fun acc => replicate (f acc) 0, fun text => f.partialInv text.length, ?_⟩⟩
  intro acc
  rw [length_replicate, partialInv_left hf]

end Refinement

end Topia.State.Accounts
