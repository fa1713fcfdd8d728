import Mathlib.Logic.Function.Basic
import Mathlib.Tactic.SplitIfs

/-!
# A store of answers in front of a function

Requests `R` are answered by a function `f`; some of the answers are put into a store under a
key of the request, and a request whose key is in the store is answered from it.  The store
may refuse an answer, and may drop one at any time.
-/

namespace Topia.Lib.Memo

universe u v w

section Memo

variable {R : Type u} {K : Type v} {V : Type w} [DecidableEq K]
variable (key : R → K) (f : R → V) (stores : R → Bool)

open Function

def ask (store : K → Option V) (r : R) (kept : Bool) : V × (K → Option V) :=
  match store (key r) with
  | some v => (v, store)
  | none => (f r, if stores r && kept then update store (key r) (some (f r)) else store)

/-- What is stored is the answer to a request with the key. -/
def Sound (store : K → Option V) : Prop :=
  ∀ k v, store k = some v → ∃ r, stores r = true ∧ key r = k ∧ f r = v

/-- A stored answer is that to every request with its key. -/
def Separates : Prop :=
  ∀ r r', stores r = true → key r = key r' → f r' = f r

variable {key f stores} {store : K → Option V} {r r' : R} {kept : Bool}

omit [DecidableEq K] in
theorem sound_empty : Sound key f stores (fun _ => none) := by
  intro k v hv
  cases hv

theorem sound_drop (hsound : Sound key f stores store) (k : K) :
    Sound key f stores (update store k none) := by
  intro k' v hv
  by_cases hk : k' = k
  · rw [hk, update_self] at hv
    cases hv
  · rw [update_of_ne hk] at hv
    exact hsound k' v hv

theorem sound_ask (hsound : Sound key f stores store) :
    Sound key f stores (ask key f stores store r kept).2 := by
  unfold ask
  cases hr : store (key r) with
  | some v => exact hsound
  | none =>
    dsimp only
    split_ifs with hput
    · intro k v hv
      by_cases hk : k = key r
      · rw [hk, update_self] at hv
        rw [Bool.and_eq_true] at hput
        exact ⟨r, hput.1, hk.symm, Option.some.inj hv⟩
      · rw [update_of_ne hk] at hv
        exact hsound k v hv
    · exact hsound

theorem ask_eq_of_separates (hseparates : Separates key f stores)
    (hsound : Sound key f stores store) : (ask key f stores store r kept).1 = f r := by
  unfold ask
  cases hr : store (key r) with
  | none => rfl
  | some v =>
    obtain ⟨r', hstores, hkey, rfl⟩ := hsound (key r) v hr
    exact (hseparates r' r hstores hkey).symm

theorem ask_after_ask (hstores : stores r = true) (hkey : key r = key r') :
    (ask key f stores (ask key f stores (fun _ => none) r true).2 r' kept).1 = f r := by
  simp [ask, hstores, ← hkey]

end Memo

end Topia.Lib.Memo
