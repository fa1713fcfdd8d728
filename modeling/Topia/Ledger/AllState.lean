import Topia.Ledger.StateStore

/-!
# Reading all states

`GetState`, `GetAllState` and `IterateAllStateCB` of `ledger/state/store.go`, and `VerifyProof`.
`GetState` returns the value first and the proof second; the bulk reads take its first result for
the proof.
-/

namespace Topia.Ledger

open Lib

structure ProofCodec (M : AuthMap 32) where
  encodeProof : M.Proof → Option Bytes
  decodeProof : Bytes → Option M.Proof

structure DataItems (store : StateStoreComposition) where
  items : List (Bytes × Bytes)
  nodup : (items.map Prod.fst).Nodup
  mem_iff : ∀ key value, (key, value) ∈ items ↔ store.GetStateData key = some value

structure StateAndProof where
  (value proof : Option Bytes)
  err : Bool

variable {M : AuthMap 32} (codec : ProofCodec M) (store : StateStoreComposition)

def ProofCodec.VerifyProof (proofData : Option Bytes) (root key value : Bytes) : Bool :=
  match codec.decodeProof (proofData.getD []) with
  | none => false
  | some proof => M.verifyProof proof root key value

namespace StateStoreComposition

variable (key : Bytes) (data : DataItems store)

def GetState : StateAndProof :=
  let proof := (store.Proof M key).bind codec.encodeProof
  ⟨store.GetStateData key, proof, decide (key = []) || proof.isNone⟩

def allStateLoop : List (Bytes × Bytes) → List Bytes × List Bytes × List (Option Bytes) →
    Option (List Bytes × List Bytes × List (Option Bytes))
  | [], slices => some slices
  | (key, value) :: rest, (keys, values, proofs) =>
    -- `proof, _, err := store.GetState(..)`
    let result := store.GetState codec key
    if result.err then none
    else allStateLoop rest (keys ++ [key], values ++ [value], proofs ++ [result.value])

def GetAllState : Option (List Bytes × List Bytes × List (Option Bytes)) :=
  store.allStateLoop codec data.items ([], [], [])

def iterateLoop : List (Bytes × Bytes) → List (Bytes × Bytes × Option Bytes) × Bool
  | [] => ([], true)
  | (key, value) :: rest =>
    let result := store.GetState codec key
    if result.err then ([], false)
    else ((key, value, result.value) :: (iterateLoop rest).1, (iterateLoop rest).2)

def IterateAllStateCB : List (Bytes × Bytes × Option Bytes) × Bool :=
  store.iterateLoop codec data.items

/-- The bulk reads return the values with verifying proofs, in one order. -/
def AllStateRight : Prop :=
  ∃ triples : List (Bytes × Bytes × Option Bytes),
    store.GetAllState codec data =
      some (triples.map (·.1), triples.map (·.2.1), triples.map (·.2.2)) ∧
    store.IterateAllStateCB codec data = (triples, true) ∧
    (triples.map (·.1)).Nodup ∧
    (∀ key value, (∃ proof, (key, value, proof) ∈ triples) ↔ store.GetStateData key = some value) ∧
    ∀ key value proof, (key, value, proof) ∈ triples →
      proof = (store.GetState codec key).proof ∧
      codec.VerifyProof proof store.Root key value = true

variable {codec store}

@[simp] theorem GetState_value : (store.GetState codec key).value = store.GetStateData key := rfl

theorem allStateLoop_eq {items : List (Bytes × Bytes)}
    (hok : ∀ a ∈ items, (store.GetState codec a.1).err = false)
    (slices : List Bytes × List Bytes × List (Option Bytes)) :
    store.allStateLoop codec items slices =
      some (slices.1 ++ items.map (·.1), slices.2.1 ++ items.map (·.2),
        slices.2.2 ++ items.map fun a => store.GetStateData a.1) := by
  induction items generalizing slices with
  | nil => simp [allStateLoop]
  | cons a items ih =>
    obtain ⟨ha, hrest⟩ := List.forall_mem_cons.mp hok
    simp [allStateLoop, ha, ih hrest]

theorem iterateLoop_eq {items : List (Bytes × Bytes)}
    (hok : ∀ a ∈ items, (store.GetState codec a.1).err = false) :
    store.iterateLoop codec items =
      (items.map fun a => (a.1, a.2, store.GetStateData a.1), true) := by
  induction items with
  | nil => rfl
  | cons a items ih =>
    obtain ⟨ha, hrest⟩ := List.forall_mem_cons.mp hok
    simp [iterateLoop, ha, ih hrest]

theorem ok_of_iterateLoop {items : List (Bytes × Bytes)}
    (hok : (store.iterateLoop codec items).2 = true) :
    ∀ a ∈ items, (store.GetState codec a.1).err = false := by
  induction items with
  | nil => exact fun a ha => absurd ha List.not_mem_nil
  | cons a items ih =>
    rw [iterateLoop] at hok
    split_ifs at hok with ha
    exact List.forall_mem_cons.mpr ⟨by simpa using ha, ih hok⟩

end StateStoreComposition

open StateStoreComposition

/-- **When the bulk reads carry proofs**: exactly when each stored value is the encoded proof of its
own key, and verifies as such. -/
theorem allState_right_iff {M : AuthMap 32} (codec : ProofCodec M) (store : StateStoreComposition)
    (data : DataItems store) :
    store.AllStateRight codec data ↔
      ∀ key value, store.GetStateData key = some value →
        (store.Proof M key).bind codec.encodeProof = some value ∧
        codec.VerifyProof (some value) store.Root key value = true := by
  have hkey : ∀ key value, store.GetStateData key = some value → key ≠ [] := by
    rintro key value hget rfl
    simp [GetStateData] at hget
  constructor
  · rintro ⟨triples, -, hiter, -, -, hright⟩ key value hget
    have hok := ok_of_iterateLoop (congrArg Prod.snd hiter)
    have htriples : triples = data.items.map fun a => (a.1, a.2, store.GetStateData a.1) :=
      congrArg Prod.fst (hiter.symm.trans (iterateLoop_eq hok))
    have hin : (key, value, store.GetStateData key) ∈ triples := by
      rw [htriples]
      exact List.mem_map_of_mem ((data.mem_iff key value).mpr hget)
    obtain ⟨hproof, hverify⟩ := hright key value _ hin
    rw [hget] at hproof hverify
    exact ⟨hproof.symm, hverify⟩
  · intro hcond
    have hok : ∀ a ∈ data.items, (store.GetState codec a.1).err = false := by
      intro a ha
      have hget := (data.mem_iff a.1 a.2).mp ha
      simp [GetState, hkey _ _ hget, (hcond _ _ hget).1]
    refine ⟨_, ?_, iterateLoop_eq hok, ?_, ?_, ?_⟩
    · rw [GetAllState, allStateLoop_eq hok]
      simp
    · simpa [Function.comp_def] using data.nodup
    · intro key value
      simp [← data.mem_iff]
    intro key value proof hin
    obtain ⟨a, ha, heq⟩ := List.mem_map.mp hin
    have hget := (data.mem_iff a.1 a.2).mp ha
    obtain ⟨rfl, rfl, rfl⟩ := heq
    rw [hget]
    exact ⟨(hcond _ _ hget).1.symm, (hcond _ _ hget).2⟩

/-- One entry with the proof `07`: the bulk read returns the value. -/
theorem allState_takes_values :
    ∃ (store : StateStoreComposition) (data : DataItems store)
      (codec : ProofCodec (finsuppAuthMap 32)),
      (store.GetState codec [1]).proof = some [7] ∧
        store.GetAllState codec data = some ([[1]], [[2]], [some [2]]) := by
  refine ⟨⟨⟨fun key => if key = [1] then some [2] else none, ⟨[], []⟩⟩, []⟩,
    ⟨[([1], [2])], by simp, ?_⟩, ⟨fun _ => some [7], fun _ => some ()⟩, rfl, rfl⟩
  intro key value
  by_cases hkey : key = [1]
  · simp [GetStateData, hkey, eq_comm]
  · simp [GetStateData, hkey]

end Topia.Ledger
