import Topia.Lib.Run
import Mathlib.Data.Finset.Basic

/-!
# The event hub

`eventhub`: `Trig` puts a message into the mailbox of an actor, which takes one after the other and
starts the handlers of its event, if the data, which are not nil, have its type. The hub is started;
events are registered by `NewEventHub` only.
-/

namespace Topia.Events

open List Lib Function

inductive EventName where
  | TxPoolChanged | TxPrepared | TxRollbacked | TxCommited | BlockCreated | BlockCommited
  | BlockVerified | BlockConfirmed | BlockAdded | BlockRevert | EpochNew | ContractInvoked
  deriving DecidableEq

inductive DataType where
  | TxPoolEvent | Transaction | Block | EpochInfo | VMResult | other
  deriving DecidableEq

/-- What `NewEventHub` registers; `BlockRevert` is missing. -/
def registered : EventName → Option DataType
  | .TxPoolChanged => some .TxPoolEvent
  | .TxPrepared | .TxRollbacked | .TxCommited => some .Transaction
  | .BlockCreated | .BlockCommited | .BlockVerified | .BlockConfirmed | .BlockAdded => some .Block
  | .BlockRevert => none
  | .EpochNew => some .EpochInfo
  | .ContractInvoked => some .VMResult

structure EventMsg (D : Type) where
  Name : EventName
  Data : D

/-- The observers of each event, the mailbox, and the handlers that were started. -/
structure EventHub (D : Type) where
  handlerList : EventName → Finset Nat
  mailbox : List (EventMsg D)
  started : List (Nat × EventMsg D)

/-- `order` is that of the map in the loop of `process`. -/
inductive HubEvent (D : Type) where
  | trig (evMsg : EventMsg D)
  | receive (order : List Nat)
  | observe (obsID : Nat) (evName : EventName)
  | unObserve (obsID : Nat) (evName : EventName)

namespace EventHub

variable {D : Type} (typeOf : D → DataType) (hub : EventHub D) (obsID : Nat) (evName : EventName)

def addEvObserver : EventHub D :=
  if registered evName = none ∨ obsID ∈ hub.handlerList evName then hub
  else
    { hub with
      handlerList := update hub.handlerList evName (insert obsID (hub.handlerList evName)) }

def removeEvObserver : EventHub D :=
  { hub with handlerList := update hub.handlerList evName ((hub.handlerList evName).erase obsID) }

/-- The handlers that are started, if these are the observers. -/
def disptach (evMsg : EventMsg D) (order : List Nat) : Option (List (Nat × EventMsg D)) :=
  if registered evMsg.Name ≠ some (typeOf evMsg.Data) then some []
  else if order.Nodup ∧ order.toFinset = hub.handlerList evMsg.Name then
    some (order.map (·, evMsg))
  else none

def step : HubEvent D → Option (EventHub D)
  | .trig evMsg => some { hub with mailbox := hub.mailbox ++ [evMsg] }
  | .receive order =>
    match hub.mailbox with
    | [] => none
    | evMsg :: rest => (hub.disptach typeOf evMsg order).map fun starts =>
        { hub with mailbox := rest, started := hub.started ++ starts }
  | .observe obsID evName => some (hub.addEvObserver obsID evName)
  | .unObserve obsID evName => some (hub.removeEvObserver obsID evName)

/-- The messages of an event whose data have its type. -/
def proper (evMsgs : List (EventMsg D)) : List (EventMsg D) :=
  evMsgs.filter fun evMsg => evMsg.Name = evName ∧ registered evName = some (typeOf evMsg.Data)

/-- What was handed to an observer, and what is to be. -/
def handed : List (EventMsg D) :=
  (hub.started.filter fun x => x.1 = obsID ∧ x.2.Name = evName).map (·.2) ++
    proper typeOf evName hub.mailbox

def trigged : HubEvent D → Option (EventMsg D)
  | .trig evMsg => some evMsg
  | _ => none

section Delivery

variable {typeOf hub obsID evName} {hub' : EventHub D} {e : HubEvent D}

theorem disptach_once {evMsg : EventMsg D} {order : List Nat} {starts : List (Nat × EventMsg D)}
    (hobs : obsID ∈ hub.handlerList evName)
    (hstarts : hub.disptach typeOf evMsg order = some starts) :
    (starts.filter fun x => x.1 = obsID ∧ x.2.Name = evName).map (·.2) =
      proper typeOf evName [evMsg] := by
  unfold disptach at hstarts
  split_ifs at hstarts with htype horder <;> cases hstarts <;> by_cases hname : evMsg.Name = evName
  · simpa [proper, hname] using hname ▸ htype
  · simp [proper, hname]
  · subst hname
    have hmem : obsID ∈ order := mem_toFinset.mp (horder.2 ▸ hobs)
    have hone : order.filter (· = obsID) = [obsID] := by
      rw [filter_eq, count_eq_one_of_mem horder.1 hmem, replicate_one]
    simp [proper, filter_map, comp_def, hone, not_not.mp htype]
  · simp [proper, filter_map, comp_def, hname]

theorem step_handed (hobs : obsID ∈ hub.handlerList evName) (hkeep : e ≠ .unObserve obsID evName)
    (hstep : hub.step typeOf e = some hub') :
    obsID ∈ hub'.handlerList evName ∧ hub'.handed typeOf obsID evName =
      hub.handed typeOf obsID evName ++ proper typeOf evName (trigged e).toList := by
  cases e with
  | trig evMsg =>
    cases hstep
    exact ⟨hobs, by simp [handed, proper, trigged]⟩
  | receive order =>
    cases hmailbox : hub.mailbox with
    | nil => simp [step, hmailbox] at hstep
    | cons evMsg rest =>
      simp only [step, hmailbox] at hstep
      obtain ⟨starts, hstarts, rfl⟩ := Option.map_eq_some_iff.mp hstep
      refine ⟨hobs, ?_⟩
      rw [handed, handed, filter_append, map_append, disptach_once hobs hstarts, hmailbox]
      simp [proper, trigged, ← filter_append]
  | observe id name =>
    cases hstep
    unfold addEvObserver
    split_ifs
    · exact ⟨hobs, by simp [proper, trigged]⟩
    · refine ⟨?_, by simp [handed, proper, trigged]⟩
      simp only [update_apply]
      split_ifs with hname
      · exact Finset.mem_insert_of_mem (hname ▸ hobs)
      · exact hobs
  | unObserve id name =>
    cases hstep
    refine ⟨?_, by simp [handed, proper, trigged, removeEvObserver]⟩
    simp only [removeEvObserver, update_apply]
    split_ifs with hname
    · subst hname
      exact Finset.mem_erase.mpr ⟨fun hid => hkeep (hid ▸ rfl), hobs⟩
    · exact hobs

/-- **An observer gets each event once, and in order**: as long as it observes, its handler is
started with just the messages that are triggered with data of the right type. -/
theorem observed_in_order {events : List (HubEvent D)} (hobs : obsID ∈ hub.handlerList evName)
    (hkeep : .unObserve obsID evName ∉ events)
    (hrun : events.foldlM (step typeOf) hub = some hub') :
    hub'.handed typeOf obsID evName =
      hub.handed typeOf obsID evName ++ proper typeOf evName (events.filterMap trigged) := by
  induction events generalizing hub with
  | nil =>
    cases hrun
    simp [proper]
  | cons e events ih =>
    obtain ⟨mid, hstep, hrest⟩ := run_cons_success hrun
    obtain ⟨hne, htail⟩ := not_or.mp (mem_cons.not.mp hkeep)
    obtain ⟨hmid, hfirst⟩ := step_handed hobs (Ne.symm hne) hstep
    rw [ih hmid htail hrest, hfirst, append_assoc, proper, proper, ← filter_append]
    cases e <;> rfl

/-- Of three messages one has other data; the second block is still in the mailbox. -/
theorem observed_in_order_blocks :
    let events : List (HubEvent DataType) := [.trig ⟨.BlockAdded, .Block⟩,
      .trig ⟨.BlockAdded, .other⟩, .receive [2, 1], .trig ⟨.BlockAdded, .Block⟩]
    ∃ hub, events.foldlM (step id) ⟨fun _ => {1, 2}, [], []⟩ = some hub ∧
      hub.handed id 1 .BlockAdded = [⟨.BlockAdded, .Block⟩, ⟨.BlockAdded, .Block⟩] := by
  intro events
  obtain ⟨hub, hrun⟩ : ∃ hub, events.foldlM (step id) ⟨fun _ => {1, 2}, [], []⟩ = some hub :=
    ⟨_, rfl⟩
  exact ⟨hub, hrun, observed_in_order (by decide) (by simp [events]) hrun⟩

end Delivery

end EventHub

end Topia.Events
