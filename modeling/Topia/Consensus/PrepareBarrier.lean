import Mathlib.Data.List.Perm.Subperm
import Mathlib.Data.List.Nodup
import Topia.Lib.Run

/-!
# The barrier of a prepare

`Prepare` of `consensus/executor.go` sends a packed batch to the executors of its domain and waits
for their indications before it forwards the batch to the proposers. One goroutine counts what comes
out of a channel that all versions share, from one for the node itself, and compares after counting;
another one delivers the batch and, when that fails, makes the first one return.
-/

namespace Topia.Consensus

open Lib

variable {ν : Type}

def PreparePackedExeIndicChannel_Size : Nat := 10

structure Indication (ν : Type) where
  sender : ν
  StateVersion : Nat
deriving DecidableEq, Repr

/-- A `Prepare` that waits: `forceExit` is a value on its channel, `returned` and `delivered` that
the goroutines have ended, `counted` what was taken from the channel. -/
structure Barrier (ν : Type) where
  stateVersion : Nat
  activeExecutors : List ν
  recvCount : Nat
  counted : List (Indication ν)
  (forceExit returned delivered : Bool)
deriving DecidableEq, Repr

structure Forward (ν : Type) where
  stateVersion : Nat
  activeExecutors : List ν
  counted : List (Indication ν)
deriving DecidableEq, Repr

structure Preparing (ν : Type) where
  preparePackedMsgExeIndicChan : List (Indication ν)
  barrier : Option (Barrier ν)
  forwarded : List (Forward ν)
deriving DecidableEq, Repr

/-- A prepare that gets to its barrier or not, an indication received or not, and the moves of the
goroutines. -/
inductive PrepareEvent (ν : Type) where
  | prepare (stateVersion : Nat) (activeExecutors : List ν) (packed : Bool)
  | indicate (indication : Indication ν) (active : Bool)
  | count
  | deliver (ok : Bool)
  | exit
  | forward
deriving DecidableEq, Repr

namespace Preparing

def start : Preparing ν where
  preparePackedMsgExeIndicChan := []
  barrier := none
  forwarded := []

def newBarrier (stateVersion : Nat) (activeExecutors : List ν) : Barrier ν where
  stateVersion := stateVersion
  activeExecutors := activeExecutors
  recvCount := 1
  counted := []
  forceExit := false
  returned := false
  delivered := false

def countOne (b : Barrier ν) (indication : Indication ν) : Barrier ν :=
  { b with
    recvCount := b.recvCount + 1
    counted := b.counted ++ [indication]
    returned := b.recvCount + 1 == b.activeExecutors.length }

def step (s : Preparing ν) : PrepareEvent ν → Option (Preparing ν)
  | .prepare stateVersion activeExecutors packed =>
    match s.barrier with
    | some _ => none
    | none =>
      if packed then some { s with barrier := some (newBarrier stateVersion activeExecutors) }
      else some s
  | .indicate indication active =>
    if ¬ active then some s
    else if s.preparePackedMsgExeIndicChan.length < PreparePackedExeIndicChannel_Size then
      some { s with
        preparePackedMsgExeIndicChan := s.preparePackedMsgExeIndicChan ++ [indication] }
    else none
  | .count =>
    match s.barrier, s.preparePackedMsgExeIndicChan with
    | some b, indication :: rest =>
      if b.returned then none
      else
        some { s with
          preparePackedMsgExeIndicChan := rest
          barrier := some (countOne b indication) }
    | _, _ => none
  | .deliver ok =>
    match s.barrier with
    | none => none
    | some b =>
      if b.delivered then none
      else some { s with barrier := some { b with delivered := true, forceExit := !ok } }
  | .exit =>
    match s.barrier with
    | none => none
    | some b =>
      if b.forceExit ∧ ¬ b.returned then
        some { s with barrier := some { b with forceExit := false, returned := true } }
      else none
  | .forward =>
    match s.barrier with
    | none => none
    | some b =>
      -- the wait group: the error of the delivery is overwritten and the batch sent
      if b.returned ∧ b.delivered then
        some { s with
          barrier := none
          forwarded := s.forwarded ++ [⟨b.stateVersion, b.activeExecutors, b.counted⟩] }
      else none

end Preparing

open Preparing List

section Barrier

variable [DecidableEq ν]

variable (nodeID : ν) (b : Barrier ν) (activeExecutors : List ν) (s : Preparing ν)

def others : List ν :=
  activeExecutors.filter (· ≠ nodeID)

def Forward.Complete (f : Forward ν) : Prop :=
  f.counted.Perm ((others nodeID f.activeExecutors).map (Indication.mk · f.stateVersion))

/-- What is forwarded is complete, and a waiting barrier has another executor. -/
structure BarrierHolds : Prop where
  complete : ∀ f ∈ s.forwarded, f.Complete nodeID
  others : ∀ b, s.barrier = some b → b.returned = false → others nodeID b.activeExecutors ≠ []

structure Shared : Prop where
  nodup : activeExecutors.Nodup
  self_mem : nodeID ∈ activeExecutors
  two_le : 2 ≤ activeExecutors.length

/-- An indication of the version, from another active executor not counted yet. -/
structure Fits (indication : Indication ν) : Prop where
  version : indication.StateVersion = b.stateVersion
  sender : indication.sender ∈ others nodeID b.activeExecutors
  fresh : indication.sender ∉ b.counted.map Indication.sender

def Sound : PrepareEvent ν → Prop
  | .prepare _ activeExecutors packed => packed = true → Shared nodeID activeExecutors
  | .count => ∀ b indication rest, s.barrier = some b →
      s.preparePackedMsgExeIndicChan = indication :: rest → Fits nodeID b indication
  | .deliver ok => ok = true
  | .indicate _ _ | .exit | .forward => True

structure Counting : Prop where
  shared : Shared nodeID b.activeExecutors
  recvCount : b.recvCount = b.counted.length + 1
  version : ∀ i ∈ b.counted, i.StateVersion = b.stateVersion
  senders : ∀ i ∈ b.counted, i.sender ∈ others nodeID b.activeExecutors
  nodup : (b.counted.map Indication.sender).Nodup
  forceExit : b.forceExit = false
  returned : b.returned = true → b.recvCount = b.activeExecutors.length

structure PrepareInv : Prop where
  complete : ∀ f ∈ s.forwarded, f.Complete nodeID
  counting : ∀ b, s.barrier = some b → Counting nodeID b

section Counting

variable {nodeID : ν} {b : Barrier ν} {activeExecutors : List ν}

theorem length_others (h : Shared nodeID activeExecutors) :
    (others nodeID activeExecutors).length + 1 = activeExecutors.length := by
  have herase : others nodeID activeExecutors = activeExecutors.erase nodeID := by
    rw [h.nodup.erase_eq_filter]
    refine filter_congr ?_
    intro x _
    by_cases hx : x = nodeID <;> simp [hx]
  rw [herase, length_erase_of_mem h.self_mem]
  have := h.two_le
  omega

theorem others_ne_nil (h : Shared nodeID activeExecutors) : others nodeID activeExecutors ≠ [] := by
  intro hnil
  have hlength := length_others h
  have := h.two_le
  rw [hnil, length_nil] at hlength
  omega

theorem counting_newBarrier (stateVersion : Nat) (h : Shared nodeID activeExecutors) :
    Counting nodeID (newBarrier stateVersion activeExecutors) where
  shared := h
  recvCount := rfl
  version := by simp [newBarrier]
  senders := by simp [newBarrier]
  nodup := nodup_nil
  forceExit := rfl
  returned := by simp [newBarrier]

theorem counting_countOne {indication : Indication ν}
    (h : Counting nodeID b) (hfits : Fits nodeID b indication) :
    Counting nodeID (countOne b indication) where
  shared := h.shared
  recvCount := by simp [countOne, h.recvCount]
  version := by
    intro i hi
    rcases mem_append.mp hi with hi | hi
    · exact h.version i hi
    · obtain rfl := mem_singleton.mp hi
      exact hfits.version
  senders := by
    intro i hi
    rcases mem_append.mp hi with hi | hi
    · exact h.senders i hi
    · obtain rfl := mem_singleton.mp hi
      exact hfits.sender
  nodup := by
    simp only [countOne, map_append, map_cons, map_nil]
    rw [← concat_eq_append]
    exact h.nodup.concat hfits.fresh
  forceExit := h.forceExit
  returned := by simp [countOne]

theorem complete_of_counting (h : Counting nodeID b) (hreturned : b.returned = true) :
    Forward.Complete nodeID { b with } := by
  have hcounted : b.counted.map (fun i => Indication.mk i.sender b.stateVersion) = b.counted := by
    refine (map_congr_left ?_).trans (map_id b.counted)
    intro i hi
    rw [← h.version i hi]
    rfl
  have hsubset : b.counted.map Indication.sender ⊆ others nodeID b.activeExecutors := by
    intro sender hsender
    obtain ⟨i, hi, rfl⟩ := mem_map.mp hsender
    exact h.senders i hi
  -- as many distinct senders as there are others: all of them
  have hlength : (others nodeID b.activeExecutors).length ≤
      (b.counted.map Indication.sender).length := by
    have hothers := length_others h.shared
    have hrequired := h.returned hreturned
    have hcount := h.recvCount
    rw [length_map]
    omega
  have hperm : (b.counted.map Indication.sender).Perm (others nodeID b.activeExecutors) :=
    (subperm_of_subset h.nodup hsubset).perm_of_length_le hlength
  have hmapped := hperm.map (Indication.mk · b.stateVersion)
  rw [map_map] at hmapped
  exact hcounted ▸ hmapped

end Counting

section Run

variable {nodeID : ν} {s s' : Preparing ν} {event : PrepareEvent ν}

theorem prepareInv_start : PrepareInv nodeID (start : Preparing ν) where
  complete := by simp [start]
  counting := by simp [start]

theorem prepareInv_step (hinv : PrepareInv nodeID s) (hsound : Sound nodeID s event)
    (hstep : s.step event = some s') : PrepareInv nodeID s' := by
  obtain ⟨hcomplete, hcounting⟩ := hinv
  cases event with
  | prepare stateVersion activeExecutors packed =>
    simp only [step] at hstep
    split at hstep
    · cases hstep
    split_ifs at hstep with hpacked
    · cases hstep
      refine ⟨hcomplete, ?_⟩
      rintro _ ⟨⟩
      exact counting_newBarrier stateVersion (hsound hpacked)
    · cases hstep
      exact ⟨hcomplete, hcounting⟩
  | indicate indication active =>
    simp only [step] at hstep
    split_ifs at hstep
    · cases hstep
      exact ⟨hcomplete, hcounting⟩
    · cases hstep
      exact ⟨hcomplete, hcounting⟩
  | count =>
    simp only [step] at hstep
    split at hstep
    · rename_i b indication rest hbarrier hchan
      split_ifs at hstep
      cases hstep
      refine ⟨hcomplete, ?_⟩
      rintro _ ⟨⟩
      exact counting_countOne (hcounting b hbarrier) (hsound b indication rest hbarrier hchan)
    · cases hstep
  | deliver ok =>
    have hok : ok = true := hsound
    simp only [step] at hstep
    split at hstep
    · cases hstep
    rename_i b hbarrier
    split_ifs at hstep
    cases hstep
    refine ⟨hcomplete, ?_⟩
    rintro _ ⟨⟩
    have h := hcounting b hbarrier
    exact { h with forceExit := by simp [hok] }
  | exit =>
    simp only [step] at hstep
    split at hstep
    · cases hstep
    · rename_i b hbarrier
      split_ifs at hstep with hexit
      have hforce := (hcounting b hbarrier).forceExit
      rw [hforce] at hexit
      exact absurd hexit.1 Bool.false_ne_true
  | forward =>
    simp only [step] at hstep
    split at hstep
    · cases hstep
    rename_i b hbarrier
    split_ifs at hstep with hdone
    cases hstep
    refine ⟨?_, by rintro _ ⟨⟩⟩
    intro f hf
    rcases mem_append.mp hf with hf | hf
    · exact hcomplete f hf
    · obtain rfl := mem_singleton.mp hf
      exact complete_of_counting (hcounting b hbarrier) hdone.1

theorem holds_of_prepareInv (hinv : PrepareInv nodeID s) : BarrierHolds nodeID s where
  complete := hinv.complete
  others b hbarrier _ := others_ne_nil (hinv.counting b hbarrier).shared

/-- **The barrier holds in every run of sound events**: every batch is forwarded after all other
executors were counted, and no barrier waits without another. -/
theorem barrier_of_sound {events : List (PrepareEvent ν)}
    (hsound : Along step (Sound nodeID) start events) :
    Throughout step (BarrierHolds nodeID) start events :=
  throughout_of_along (fun _ _ _ => prepareInv_step) (fun _ => holds_of_prepareInv)
    prepareInv_start hsound

def threeExecutors : List (PrepareEvent Nat) :=
  [.prepare 5 [0, 1, 2] true, .deliver true, .indicate ⟨2, 5⟩ true, .count,
    .indicate ⟨1, 5⟩ true, .count, .forward]

theorem barrier_of_three_executors :
    Throughout step (BarrierHolds 0) start threeExecutors ∧
      ∃ s, foldlM step start threeExecutors = some s ∧
        s.forwarded = [⟨5, [0, 1, 2], [⟨2, 5⟩, ⟨1, 5⟩]⟩] := by
  refine ⟨barrier_of_sound ?_, _, rfl, rfl⟩
  refine ⟨fun _ => ⟨by decide, by decide, by decide⟩, ?_⟩
  rintro _ ⟨⟩
  refine ⟨rfl, ?_⟩
  rintro _ ⟨⟩
  refine ⟨trivial, ?_⟩
  rintro _ ⟨⟩
  refine ⟨?_, ?_⟩
  · rintro _ _ _ ⟨⟩ ⟨⟩
    exact ⟨rfl, by decide, by decide⟩
  rintro _ ⟨⟩
  refine ⟨trivial, ?_⟩
  rintro _ ⟨⟩
  refine ⟨?_, ?_⟩
  · rintro _ _ _ ⟨⟩ ⟨⟩
    exact ⟨rfl, by decide, by decide⟩
  rintro _ ⟨⟩
  exact ⟨trivial, fun _ _ => trivial⟩

end Run

end Barrier

/-- Version 5 is forwarded without executor `2`, and after a failed delivery with nobody counted;
and a lone executor waits. -/
theorem barrier_fails :
    ¬ Throughout step (BarrierHolds 0) start
        [.prepare 5 [0, 1, 2] true, .deliver true, .indicate ⟨1, 4⟩ true, .count,
          .indicate ⟨1, 5⟩ true, .count, .forward] ∧
      ¬ Throughout step (BarrierHolds 0) start
        [.prepare 5 [0, 1, 2] true, .deliver false, .exit, .forward] ∧
      ¬ Throughout step (BarrierHolds 0) start [.prepare 5 [0] true] := by
  refine ⟨?_, ?_, ?_⟩
  · intro hall
    have hcomplete := (hall _ _ prefix_rfl rfl).complete _ mem_cons_self
    exact absurd hcomplete (by unfold Forward.Complete; decide)
  · intro hall
    have hcomplete := (hall _ _ prefix_rfl rfl).complete _ mem_cons_self
    exact absurd hcomplete (by unfold Forward.Complete; decide)
  · intro hall
    exact (hall _ _ prefix_rfl rfl).others _ rfl rfl rfl

end Topia.Consensus
