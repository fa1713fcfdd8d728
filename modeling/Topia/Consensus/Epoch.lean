import Topia.Consensus.Dkg
import Topia.Consensus.Messages
import Topia.State.Epoch

/-!
# The epoch service

`consensus/epoch.go`: `UpdateEpoch` compares the height with the start of the epoch that the service
was created with. A block that is `epochInterval` later stores the next epoch, selects the consensus
domain and triggers the new-epoch event; the service's own epoch is not assigned.
-/

namespace Topia.Consensus

open State

structure NodeDomainMember where
  NodeID : Bytes
  (NodeRole Weight : UInt64)
deriving DecidableEq, Repr

structure ConsensusDomainSelectedMessage where
  ChainID : Bytes
  Version : Nat
  DomainID : Bytes
  MemberNumber : UInt32
  NodeIDOfMember : Bytes
  (NodeRoleOfMember NodeWeightOfMember : UInt64)
deriving DecidableEq, Repr

structure DomainSelection where
  domainID : Bytes
  dkgCPT : Option DKGBls
  members : List NodeDomainMember
  selfSelected : Option NodeDomainMember

inductive EpochEffect where
  | updateData (csDomainMember : List NodeDomainMember)
  | notifyUpdater (dkgBls : DKGBls)
  | deliverSelected (msg : ConsensusDomainSelectedMessage)
  | trig (newEpoch : EpochInfo)

structure EpochService where
  epochInterval : UInt64
  currentEpoch : EpochInfo
  selfSelected : Bool

def EpochService.GetLatestEpoch (es : EpochService) : EpochInfo :=
  es.currentEpoch

structure EpochCall where
  now : UInt64
  chainID : Bytes
  written : Bool
  selection : Option DomainSelection

structure EpochSystem where
  service : EpochService
  state : EpochState
  latestEpochMap : LatestEpochMap
  height : UInt64
  effects : List EpochEffect

namespace EpochSystem

variable (s : EpochSystem) (newHeight : UInt64) (call : EpochCall)

def useDomain (chainID : Bytes) (selection : DomainSelection) (dkgCPT : DKGBls) : EpochSystem :=
  match selection.selfSelected with
  | some member =>
    { s with
      service := { s.service with selfSelected := true }
      effects := s.effects ++
        [.updateData selection.members, .notifyUpdater dkgCPT,
          .deliverSelected
            { ChainID := chainID
              Version := CONSENSUS_VER
              DomainID := selection.domainID
              MemberNumber := UInt32.ofNat selection.members.length
              NodeIDOfMember := member.NodeID
              NodeRoleOfMember := member.NodeRole
              NodeWeightOfMember := member.Weight }] }
  | none =>
    { s with
      service := { s.service with selfSelected := false }
      effects := s.effects ++ [.updateData selection.members, .notifyUpdater dkgCPT] }

/-- `UpdateEpoch` at the height of a new epoch; the flag is false for an error. -/
def startEpoch (newEpoch : EpochInfo) (call : EpochCall) : Bool × EpochSystem :=
  let (written, state, latestEpochMap) :=
    s.state.SetLatestEpoch s.latestEpochMap newEpoch call.written
  let s := { s with state := state, latestEpochMap := latestEpochMap }
  match written, call.selection with
  | false, _ => (false, s)
  | true, none => (false, s)
  | true, some selection =>
    let s :=
      match selection.dkgCPT with
      | some dkgCPT => s.useDomain call.chainID selection dkgCPT
      | none => s
    (true, { s with effects := s.effects ++ [.trig newEpoch] })

def UpdateEpoch : Bool × EpochSystem :=
  let deltaH := newHeight.toInt64 - s.service.currentEpoch.StartHeight.toInt64
  if deltaH = s.service.epochInterval.toInt64 then
    s.startEpoch
      { Epoch := s.service.currentEpoch.Epoch + 1
        StartTimeStamp := call.now
        StartHeight := newHeight } call
  else (true, s)

def step : EpochSystem :=
  { (s.UpdateEpoch (s.height + 1) call).2 with height := s.height + 1 }

def start (service : EpochService) (ledgerID : Bytes) (latestEpochMap : LatestEpochMap) :
    EpochSystem where
  service := service
  state := EpochState.NewEpochState ledgerID (some service.currentEpoch)
  latestEpochMap := latestEpochMap
  height := service.currentEpoch.StartHeight
  effects := []

def newEpochs : List UInt64 :=
  s.effects.filterMap (fun e =>
    match e with
    | .trig newEpoch => some newEpoch.Epoch
    | _ => none)

/-- All along a run the `k`th next epoch is stored after `k` intervals, the service has it, and its
event was triggered once. -/
structure EpochProgress (calls : List EpochCall) : Prop where
  stored : ∀ k, k * s.service.epochInterval.toNat ≤ calls.length →
    ∃ epoch, ((calls.take (k * s.service.epochInterval.toNat)).foldl step s).state.GetLatestEpoch =
        some epoch ∧
      epoch.Epoch = s.service.currentEpoch.Epoch + UInt64.ofNat k ∧
      epoch.StartHeight =
        s.service.currentEpoch.StartHeight + UInt64.ofNat (k * s.service.epochInterval.toNat)
  current : ∀ n, n ≤ calls.length →
    ((calls.take n).foldl step s).state.GetLatestEpoch =
      some ((calls.take n).foldl step s).service.GetLatestEpoch
  triggered : ∀ n, n ≤ calls.length →
    ((calls.take n).foldl step s).newEpochs =
      (List.range (n / s.service.epochInterval.toNat)).map
        (fun k => s.service.currentEpoch.Epoch + UInt64.ofNat (k + 1))

variable {s : EpochSystem} {call : EpochCall} {calls : List EpochCall}

theorem deltaH_eq_iff (startHeight interval : UInt64) :
    newHeight.toInt64 - startHeight.toInt64 = interval.toInt64 ↔
      newHeight = startHeight + interval := by
  rw [← UInt64.toInt64_sub]
  constructor
  · intro heq
    have hsub : newHeight - startHeight = interval := congrArg Int64.toUInt64 heq
    grind
  · rintro rfl
    congr 1
    grind

theorem step_of_ne
    (hne : s.height + 1 ≠ s.service.currentEpoch.StartHeight + s.service.epochInterval) :
    s.step call = { s with height := s.height + 1 } := by
  unfold step UpdateEpoch
  rw [if_neg (fun heq => hne ((deltaH_eq_iff _ _ _).mp heq))]

theorem startEpoch_fixed (s : EpochSystem) (newEpoch : EpochInfo) (call : EpochCall) :
    (s.startEpoch newEpoch call).2.service.currentEpoch = s.service.currentEpoch ∧
    (s.startEpoch newEpoch call).2.service.epochInterval = s.service.epochInterval := by
  unfold startEpoch useDomain
  dsimp only
  split
  · exact ⟨rfl, rfl⟩
  · exact ⟨rfl, rfl⟩
  · split
    · split <;> exact ⟨rfl, rfl⟩
    · exact ⟨rfl, rfl⟩

theorem step_fixed (s : EpochSystem) (call : EpochCall) :
    (s.step call).service.currentEpoch = s.service.currentEpoch ∧
    (s.step call).service.epochInterval = s.service.epochInterval ∧
    (s.step call).height = s.height + 1 := by
  unfold step UpdateEpoch
  dsimp only
  split_ifs with hnew
  · exact ⟨(startEpoch_fixed _ _ _).1, (startEpoch_fixed _ _ _).2, rfl⟩
  · exact ⟨rfl, rfl, rfl⟩

theorem foldl_step_fixed (s : EpochSystem) (calls : List EpochCall) :
    (calls.foldl step s).service.currentEpoch = s.service.currentEpoch ∧
    (calls.foldl step s).service.epochInterval = s.service.epochInterval := by
  induction calls generalizing s with
  | nil => exact ⟨rfl, rfl⟩
  | cons call calls ih =>
    obtain ⟨hepoch, hinterval, _⟩ := step_fixed s call
    rw [List.foldl_cons, ← hepoch, ← hinterval]
    exact ih (s.step call)

theorem foldl_step_quiet (s : EpochSystem) (calls : List EpochCall)
    (hquiet : ∀ i < calls.length, s.height + UInt64.ofNat (i + 1) ≠
      s.service.currentEpoch.StartHeight + s.service.epochInterval) :
    calls.foldl step s = { s with height := s.height + UInt64.ofNat calls.length } := by
  induction calls generalizing s with
  | nil => simp
  | cons call calls ih =>
    have hfirst : s.step call = { s with height := s.height + 1 } :=
      step_of_ne (by simpa using hquiet 0 (Nat.succ_pos _))
    rw [List.foldl_cons, hfirst, ih]
    · have hcount : s.height + 1 + UInt64.ofNat calls.length =
          s.height + UInt64.ofNat (calls.length + 1) := by
        rw [UInt64.ofNat_add]
        grind
      simp [hcount]
    · intro i hi
      have hlater := hquiet (i + 1) (Nat.succ_lt_succ hi)
      rw [UInt64.ofNat_add] at hlater
      intro heq
      apply hlater
      grind

theorem ofNat_ne_zero {n : Nat} (hpos : 0 < n) (hlt : n < 2 ^ 64) : UInt64.ofNat n ≠ 0 := by
  intro heq
  have hzero := congrArg UInt64.toNat heq
  simp at hzero
  omega

section Run

variable (service : EpochService) (ledgerID : Bytes) (latestEpochMap : LatestEpochMap)

theorem foldl_step_before {calls : List EpochCall}
    (hlt : calls.length < service.epochInterval.toNat) :
    calls.foldl step (start service ledgerID latestEpochMap) =
      { start service ledgerID latestEpochMap with
        height := service.currentEpoch.StartHeight + UInt64.ofNat calls.length } := by
  refine foldl_step_quiet _ _ (fun i hi heq => ?_)
  have hinterval : UInt64.ofNat (i + 1) = service.epochInterval := by
    simp only [start] at heq
    grind
  have hsize := service.epochInterval.toNat_lt
  have hcount := congrArg UInt64.toNat hinterval
  rw [UInt64.toNat_ofNat_of_lt' (show i + 1 < 2 ^ 64 by omega)] at hcount
  omega

/-- **When the epochs are right**: exactly when the run ends before the first new epoch, which the
service never gets. -/
theorem epochProgress_iff (calls : List EpochCall) :
    EpochProgress (start service ledgerID latestEpochMap) calls ↔
      calls.length < service.epochInterval.toNat := by
  constructor
  · intro hprogress
    by_contra hlong
    have hreached : 1 * service.epochInterval.toNat ≤ calls.length := by omega
    obtain ⟨epoch, hstored, hnumber, _⟩ := hprogress.stored 1 hreached
    have hcurrent := hprogress.current _ hreached
    have hsame : epoch = service.currentEpoch :=
      (Option.some.inj (hstored.symm.trans hcurrent)).trans
        (foldl_step_fixed (start service ledgerID latestEpochMap) _).1
    refine ofNat_ne_zero (n := 1) (by omega) (by omega) ?_
    simp only [start] at hnumber
    grind
  · intro hlt
    have hbefore : ∀ n ≤ calls.length,
        (calls.take n).foldl step (start service ledgerID latestEpochMap) =
          { start service ledgerID latestEpochMap with
            height := service.currentEpoch.StartHeight + UInt64.ofNat (calls.take n).length } := by
      intro n hn
      refine foldl_step_before service ledgerID latestEpochMap ?_
      rw [List.length_take]
      omega
    refine ⟨fun k hk => ?_, fun n hn => ?_, fun n hn => ?_⟩
    · have hzero : k = 0 := by
        by_contra hne
        have hle := Nat.le_mul_of_pos_left service.epochInterval.toNat (Nat.pos_of_ne_zero hne)
        have hk' : k * service.epochInterval.toNat ≤ calls.length := hk
        omega
      subst hzero
      exact ⟨service.currentEpoch, by simp [start, EpochState.GetLatestEpoch,
        EpochState.NewEpochState], by simp [start], by simp [start]⟩
    · rw [hbefore n hn]
      rfl
    · have hnone : n / service.epochInterval.toNat = 0 := Nat.div_eq_of_lt (by omega)
      rw [hbefore n hn]
      simp only [start, hnone]
      rfl

end Run

/-- Four blocks, an interval of two: the second epoch is stored, the service has the one before it,
and one event was triggered. -/
theorem epochProgress_fails_on_second_epoch :
    let service : EpochService := ⟨2, ⟨7, 100, 10⟩, false⟩
    let call (now : UInt64) : EpochCall := ⟨now, [1], true, some ⟨[], none, [], none⟩⟩
    let s := [call 101, call 102, call 103, call 104].foldl step (start service [] (fun _ => none))
    s.height = 14 ∧ s.state.GetLatestEpoch = some ⟨8, 102, 12⟩ ∧
    s.service.GetLatestEpoch = ⟨7, 100, 10⟩ ∧ s.newEpochs = [8] :=
  ⟨by decide, by decide, by decide, by decide⟩

end EpochSystem

end Topia.Consensus
