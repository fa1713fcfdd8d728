import Topia.Consensus.DkgExchange

/-!
# The phases of an exchange

An orderly exchange has one callback, and one loop takes the reports. `Phases` counts the loops by
their part in the completion, `Updates` says which of them still has to call the updaters; each move
of a loop keeps both.
-/

namespace Topia.Consensus

section Loops

variable {D R : Type}

namespace DkgLoop

def idle : DkgLoop D R → Bool
  | .sendIdle | .dealIdle | .respIdle | .finIdle => true
  | _ => false

def inCallBack : DkgLoop D R → Bool
  | .callState _ | .callSend _ | .callReport _ | .callSection _ => true
  | _ => false

def report : DkgLoop D R → Option DKGFinishedMessage
  | .finEarly msg | .finKey msg | .finAppend msg => some msg
  | _ => none

end DkgLoop

inductive LoopKind where
  | other
  | checking
  | before
  | after
  | finIdle
  | early
  | key
  | append
  | count
deriving DecidableEq, Repr

/-- A handler that will look at the key, a callback before and after its send, the loops of the
reports. -/
def DkgLoop.kind : DkgLoop D R → LoopKind
  | .dealAdvance _ _ | .dealCheck _ _ | .respAdvance _ | .respCheck => .checking
  | .callState _ | .callSend _ => .before
  | .callReport _ | .callSection _ => .after
  | .finIdle => .finIdle
  | .finEarly _ => .early
  | .finKey _ => .key
  | .finAppend _ => .append
  | .finCount => .count
  | _ => .other

namespace DkgLoop

variable {loop : DkgLoop D R}

theorem report_eq_none (hearly : loop.kind ≠ .early) (hkey : loop.kind ≠ .key)
    (happend : loop.kind ≠ .append) : loop.report = none := by
  cases loop with
  | finEarly msg => exact absurd rfl hearly
  | finKey msg => exact absurd rfl hkey
  | finAppend msg => exact absurd rfl happend
  | _ => rfl

theorem report_ne_none (hearly : loop.kind = .early) : loop.report ≠ none := by
  cases loop with
  | finEarly msg => exact Option.some_ne_none msg
  | _ => cases hearly

theorem inCallBack_of_kind (hkind : loop.kind = .before ∨ loop.kind = .after) :
    loop.inCallBack = true := by
  cases loop with
  | callState _ => rfl
  | callSend _ => rfl
  | callReport _ => rfl
  | callSection _ => rfl
  | _ => rcases hkind with hkind | hkind <;> cases hkind

theorem kind_of_idle (hidle : loop.idle = true) : loop.kind = .other ∨ loop.kind = .finIdle := by
  cases loop with
  | sendIdle | dealIdle | respIdle => exact .inl rfl
  | finIdle => exact .inr rfl
  | _ => cases hidle

theorem count_kind_eq_zero {loops : List (DkgLoop D R)} {k : LoopKind}
    (hne : ∀ loop ∈ loops, loop.kind ≠ k) : (loops.map DkgLoop.kind).count k = 0 := by
  refine List.count_eq_zero.mpr (fun hmem => ?_)
  obtain ⟨loop, hloop, hkind⟩ := List.mem_map.mp hmem
  exact hne loop hloop hkind

end DkgLoop

end Loops

section Invariant

/-- The phases of an orderly exchange. Its one callback is before its send, after it, or over; later
reports are compared and counted. `keyed`: the own key is the reported one. -/
structure Phases (certified : Bool) (keyed : Prop) (starting : Bool) (finishedCh : Nat)
    (kinds : List LoopKind) : Prop where
  calls : kinds.count .before + finishedCh ≤ 1
  sends : kinds.count .after ≤ finishedCh
  called : 0 < kinds.count .before + finishedCh → certified = true
  checks : certified = true → 0 < kinds.count .before + finishedCh + kinds.count .checking
  loops : kinds.count .finIdle + kinds.count .early + kinds.count .key + kinds.count .append +
    kinds.count .count + (if starting then 1 else 0) ≤ 1
  late : 0 < kinds.count .key + kinds.count .append + kinds.count .count →
    finishedCh = 1 ∧ kinds.count .after = 0
  early : 0 < kinds.count .early → finishedCh = 0 ∨ 0 < kinds.count .after
  compares : 0 < kinds.count .append + kinds.count .count → keyed

namespace Phases

variable {certified certified' starting : Bool} {keyed keyed' : Prop} {finishedCh : Nat}
  {kinds kinds' : List LoopKind}

theorem perm (h : Phases certified keyed starting finishedCh kinds) (hperm : kinds.Perm kinds') :
    Phases certified keyed starting finishedCh kinds' := by
  have hcount : ∀ k, kinds'.count k = kinds.count k := fun k => (hperm.count_eq k).symm
  obtain ⟨hcalls, hsends, hcalled, hchecks, hloops, hlate, hearly, hcompares⟩ := h
  refine ⟨?_, ?_, ?_, ?_, ?_, ?_, ?_, ?_⟩ <;> simpa only [hcount]

theorem quiet {k k' : LoopKind} (h : Phases certified keyed starting finishedCh (k :: kinds))
    (hk : k = .other ∨ k = .checking) (hk' : k' = .other ∨ k' = .checking)
    (hcertified : certified = true → certified' = true) (hkeyed : certified = true → keyed → keyed')
    (hlooks : certified' = true → k' = .checking ∨ k = .other ∧ certified = true) :
    Phases certified' keyed' starting finishedCh (k' :: kinds) := by
  obtain ⟨hcalls, hsends, hcalled, hchecks, hloops, hlate, hearly, hcompares⟩ := h
  rcases hk with rfl | rfl <;> rcases hk' with rfl | rfl <;>
    simp only [List.count_cons, beq_iff_eq, reduceCtorEq, ↓reduceIte,
      Nat.add_zero] at hcalls hsends hcalled hchecks hloops hlate hearly hcompares <;>
    constructor <;>
    simp only [List.count_cons, beq_iff_eq, reduceCtorEq, ↓reduceIte, Nat.add_zero] <;>
    first | omega | grind

inductive LoopMove (certified : Bool) (keyed : Prop) (kinds : List LoopKind) :
    Nat → LoopKind → Nat → LoopKind → Prop where
  | call : certified = true → kinds.count .before = 0 →
      LoopMove certified keyed kinds 0 .checking 0 .before
  | send : LoopMove certified keyed kinds 0 .before 1 .after
  | stay (f : Nat) (k : LoopKind) : LoopMove certified keyed kinds f k f k
  | over (f : Nat) : kinds.count .early = 0 → LoopMove certified keyed kinds f .after f .other
  | takeEarly (f : Nat) : certified = false → LoopMove certified keyed kinds f .finIdle f .early
  | takeLate : kinds.count .after = 0 → LoopMove certified keyed kinds 1 .finIdle 1 .key
  | addEarly (f : Nat) : LoopMove certified keyed kinds f .early f .finIdle
  | drop (f : Nat) : LoopMove certified keyed kinds f .key f .finIdle
  | compare (f : Nat) : keyed → LoopMove certified keyed kinds f .key f .append
  | add (f : Nat) : LoopMove certified keyed kinds f .append f .count
  | counted (f : Nat) : LoopMove certified keyed kinds f .count f .finIdle

theorem move {k k' : LoopKind} {finishedCh' : Nat}
    (h : Phases certified keyed starting finishedCh (k :: kinds))
    (hmove : LoopMove certified keyed kinds finishedCh k finishedCh' k') :
    Phases certified keyed starting finishedCh' (k' :: kinds) := by
  obtain ⟨hcalls, hsends, hcalled, hchecks, hloops, hlate, hearly, hcompares⟩ := h
  -- the counts of the other loops stay; what is left is arithmetic in them
  cases hmove <;>
    simp only [List.count_cons, beq_iff_eq, reduceCtorEq, ↓reduceIte,
      Nat.add_zero] at hcalls hsends hcalled hchecks hloops hlate hearly hcompares <;>
    constructor <;>
    simp only [List.count_cons, beq_iff_eq, reduceCtorEq, ↓reduceIte, Nat.add_zero] <;>
    first | omega | grind

theorem started (h : Phases certified keyed true finishedCh kinds) :
    Phases certified keyed false finishedCh (kinds ++ [.other, .other, .finIdle]) := by
  obtain ⟨hcalls, hsends, hcalled, hchecks, hloops, hlate, hearly, hcompares⟩ := h
  constructor <;> grind

end Phases

def DkgUpdate.Complete (nodeID : Bytes) (u : DkgUpdate) : Prop :=
  ∀ other ∈ u.participants, other ≠ nodeID → ∃ msg ∈ u.reports, msg.NodeID = other ∧
    msg.TriggerNumber = u.triggerNumber ∧ u.pubKey = some msg.PubPolyCommit

def busy (kinds : List LoopKind) : Nat :=
  kinds.count .after + kinds.count .count

variable {k : LoopKind}

theorem busy_cons_last (hk : k = .after ∨ k = .count) (kinds : List LoopKind) :
    busy (k :: kinds) = 1 + busy kinds := by
  unfold busy
  rcases hk with rfl | rfl <;> grind

theorem busy_cons_idle (hk : k = .other ∨ k = .finIdle) (kinds : List LoopKind) :
    busy (k :: kinds) = busy kinds := by
  unfold busy
  rcases hk with rfl | rfl <;> grind

theorem Phases.busy_last {certified starting : Bool} {keyed : Prop} {finishedCh : Nat}
    {kinds : List LoopKind} (h : Phases certified keyed starting finishedCh (k :: kinds))
    (hk : k = .after ∨ k = .count) : finishedCh = 1 ∧ busy kinds = 0 := by
  obtain ⟨hcalls, hsends, hcalled, hchecks, hloops, hlate, hearly, hcompares⟩ := h
  unfold busy
  rcases hk with rfl | rfl <;> grind

structure Updates (nodeID : Bytes) (triggerNumber : UInt64)
    (nParticipant length finishedCh busy : Nat) (updates : List DkgUpdate) : Prop where
  pending : finishedCh = 0 ∨ 0 < busy ∨ length + 1 < nParticipant → updates = []
  updated : finishedCh = 1 → busy = 0 → nParticipant ≤ length + 1 →
    ∃ u, updates = [u] ∧ u.triggerNumber = triggerNumber ∧ u.Complete nodeID

namespace Updates

variable {nodeID : Bytes} {triggerNumber : UInt64} {nParticipant length finishedCh busy : Nat}
  {updates : List DkgUpdate}

theorem cases (h : Updates nodeID triggerNumber nParticipant length finishedCh busy updates)
    (hone : finishedCh ≤ 1) :
    updates = [] ∨ ∃ u, updates = [u] ∧ u.triggerNumber = triggerNumber ∧ u.Complete nodeID := by
  by_cases hpending : finishedCh = 0 ∨ 0 < busy ∨ length + 1 < nParticipant
  · exact .inl (h.pending hpending)
  · exact .inr (h.updated (by omega) (by omega) (by omega))

theorem send (h : Updates nodeID triggerNumber nParticipant length 0 busy updates) :
    Updates nodeID triggerNumber nParticipant length 1 (1 + busy) updates :=
  ⟨fun _ => h.pending (.inl rfl), fun _ hbusy _ => by omega⟩

theorem addEarly (h : Updates nodeID triggerNumber nParticipant length finishedCh busy updates)
    (hopen : finishedCh = 0 ∨ 0 < busy) :
    Updates nodeID triggerNumber nParticipant (length + 1) finishedCh busy updates := by
  have hnone := h.pending (by omega)
  exact ⟨fun _ => hnone, fun hsent hbusy _ => by omega⟩

theorem add (h : Updates nodeID triggerNumber nParticipant length finishedCh busy updates)
    (hlength : length + 1 < nParticipant) :
    Updates nodeID triggerNumber nParticipant (length + 1) finishedCh (1 + busy) updates :=
  ⟨fun _ => h.pending (.inr (.inr hlength)), fun _ hbusy _ => by omega⟩

theorem finish (h : Updates nodeID triggerNumber nParticipant length 1 1 updates)
    {updates' : List DkgUpdate}
    (hshort : length + 1 < nParticipant → updates' = updates)
    (hfull : nParticipant ≤ length + 1 →
      ∃ u, updates' = updates ++ [u] ∧ u.triggerNumber = triggerNumber ∧ u.Complete nodeID) :
    Updates nodeID triggerNumber nParticipant length 1 0 updates' := by
  have hnone := h.pending (by omega)
  refine ⟨fun hcases => ?_, fun _ _ hlength => ?_⟩
  · rw [hshort (by omega), hnone]
  · obtain ⟨u, heq, hu⟩ := hfull hlength
    exact ⟨u, by rw [heq, hnone]; rfl, hu⟩

end Updates

end Invariant

end Topia.Consensus
