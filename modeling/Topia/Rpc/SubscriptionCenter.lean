import Mathlib.Data.Finset.Basic
import Mathlib.Data.List.AList
import Topia.Rpc.SubscriptionQueue

/-!
# The registry of the subscriptions

`api/rpc/subscription.go`: for each event a set of subscribers, which gives the numbers of the
subscriptions of a client, and a map of the live subscriptions with their queues. `Subscribe` and
`UnSubscribeAll` change both, `UnSubscribe` only the map. The calls hold `sc.mu`. At most one entry
meets the condition of `UnSubscribe` (`Valid.unique`).
-/

namespace Topia.Rpc

open Lib

universe u

def ClientMaxSubsToOneEvent : Nat := 5

def eventNames : List String :=
  ["TxPoolChanged", "TxPrepared", "TxRollbacked", "TxCommited", "BlockCreated", "BlockCommited",
    "BlockVerified", "BlockConfirmed", "BlockAdded", "BlockRevert", "EpochNew", "ContractInvoked"]

structure EventMsg (α : Type u) where
  Name : String
  Data : α
deriving DecidableEq, Repr

structure Subscriber where
  host : String
  subID : Int
deriving DecidableEq, Repr

structure Subscription where
  (remoteHost eventName : String)
  subID : Int
  filterString : String
deriving DecidableEq, Repr

def Subscription.subscriber (sub : Subscription) : Subscriber :=
  ⟨sub.remoteHost, sub.subID⟩

inductive SubscriptionError where
  /-- `no such event` -/
  | noSuchEvent
  /-- `your client's subscription to the event exceed maximum limit` -/
  | exceedSubsLimit
  /-- `invalid subID` -/
  | invalidSubID
  /-- `no such subscription` -/
  | noSuchSubscription
  /-- a call of `clear` on the nil queue of a missing entry panics -/
  | nilQueue
  /-- closing a closed channel panics -/
  | closeOfClosed
  /-- a call of `Remove` on the nil set of a missing event panics -/
  | nilSet
deriving DecidableEq, Repr

def SubscriptionError.Returned : SubscriptionError → Prop
  | .noSuchEvent => True
  | .exceedSubsLimit => True
  | .invalidSubID => True
  | .noSuchSubscription => True
  | .nilQueue => False
  | .closeOfClosed => False
  | .nilSet => False

structure SubscriptionCenter (α : Type u) where
  eventSubscribers : String → Option (Finset Subscriber)
  subscriptions : AList (fun _ : Subscription => Queue (EventMsg α))

open List Function

namespace SubscriptionCenter

variable {α : Type u}

def newSubCenter : SubscriptionCenter α where
  eventSubscribers := fun eventName => if eventName ∈ eventNames then some ∅ else none
  subscriptions := ∅

variable (sc : SubscriptionCenter α) (sub : Subscription) (remoteHost eventName : String)

def firstFree (subscribers : Finset Subscriber) : Option Nat :=
  (range' 1 ClientMaxSubsToOneEvent).find? fun i => ⟨remoteHost, i⟩ ∉ subscribers

/-- `Subscribe` takes the first free number of the client. -/
def Subscribe (filterString : String) : Except SubscriptionError (Nat × SubscriptionCenter α) :=
  match sc.eventSubscribers eventName with
  | none => .error .noSuchEvent
  | some subscribers =>
    match firstFree remoteHost subscribers with
    | none => .error .exceedSubsLimit
    | some subID => .ok (subID, {
        eventSubscribers := update sc.eventSubscribers eventName
          (some (insert ⟨remoteHost, subID⟩ subscribers))
        subscriptions :=
          sc.subscriptions.insert ⟨remoteHost, eventName, subID, filterString⟩ Queue.newQueue })

def drop : Except SubscriptionError (SubscriptionCenter α) :=
  match sc.subscriptions.lookup sub with
  | none => .error .nilQueue
  | some queue =>
    match queue.clear with
    | none => .error .closeOfClosed
    | some _ => .ok { sc with subscriptions := sc.subscriptions.erase sub }

/-- `UnSubscribe`; `subToRemove` stays zero when no entry is found. -/
def UnSubscribe (subID : Int) : Except SubscriptionError (SubscriptionCenter α) :=
  match sc.eventSubscribers eventName with
  | none => .error .noSuchEvent
  | some subscribers =>
    if subID ≤ 0 ∨ subID > ClientMaxSubsToOneEvent then .error .invalidSubID
    else if ⟨remoteHost, subID⟩ ∉ subscribers then .error .noSuchSubscription
    else
      sc.drop ((sc.subscriptions.keys.find? fun sub =>
        sub.remoteHost = remoteHost ∧ sub.eventName = eventName ∧ sub.subID = subID).getD
          ⟨"", "", 0, ""⟩)

def removeOne : Except SubscriptionError (SubscriptionCenter α) :=
  match sc.eventSubscribers sub.eventName with
  | none => .error .nilSet
  | some subscribers =>
    drop { sc with
      eventSubscribers := update sc.eventSubscribers sub.eventName
        (some (subscribers.erase sub.subscriber)) } sub

/-- `UnSubscribeAll`; both the set and the map lose the entries. -/
def UnSubscribeAll : Except SubscriptionError (SubscriptionCenter α) :=
  (sc.subscriptions.keys.filter fun sub => sub.remoteHost = remoteHost).foldlM removeOne sc

def offer (msg : EventMsg α) (subscriptions : AList (fun _ : Subscription => Queue (EventMsg α)))
    (sub : Subscription) : Option (AList (fun _ : Subscription => Queue (EventMsg α))) :=
  if sub.eventName = msg.Name then
    match subscriptions.lookup sub with
    | none => none
    | some queue =>
      match queue.enqueue msg with
      | .error .queueFull => some subscriptions
      | .error .sendOnClosed => none
      | .ok queue => some (subscriptions.insert sub queue)
  else some subscriptions

/-- `receiveSubMsg`; a full queue loses the message. -/
def receiveSubMsg (msg : EventMsg α) : Option (SubscriptionCenter α) :=
  (sc.subscriptions.keys.foldlM (offer msg) sc.subscriptions).map fun subscriptions =>
    { sc with subscriptions }

end SubscriptionCenter

inductive SubscriptionCall (α : Type u) where
  | subscribe (remoteHost eventName filterString : String)
  | unSubscribe (remoteHost eventName : String) (subID : Int)
  | unSubscribeAll (remoteHost : String)
  | receiveSubMsg (msg : EventMsg α)
deriving DecidableEq, Repr

namespace SubscriptionCenter

variable {α : Type u} {sc sc' : SubscriptionCenter α} {sub sub' : Subscription}
variable {remoteHost eventName filterString : String} {subID : Int}

/-- One call. A panic of `UnSubscribe` is recovered; `none` is one in a loop. -/
def step (sc : SubscriptionCenter α) : SubscriptionCall α → Option (SubscriptionCenter α)
  | .subscribe remoteHost eventName filterString =>
    match sc.Subscribe remoteHost eventName filterString with
    | .error _ => some sc
    | .ok (_, sc') => some sc'
  | .unSubscribe remoteHost eventName subID =>
    match sc.UnSubscribe remoteHost eventName subID with
    | .error _ => some sc
    | .ok sc' => some sc'
  | .unSubscribeAll remoteHost =>
    match sc.UnSubscribeAll remoteHost with
    | .error _ => none
    | .ok sc' => some sc'
  | .receiveSubMsg msg => sc.receiveSubMsg msg

def Holds (sc : SubscriptionCenter α) (eventName : String) (suber : Subscriber) : Prop :=
  ∃ subscribers, sc.eventSubscribers eventName = some subscribers ∧ suber ∈ subscribers

def Live (sc : SubscriptionCenter α) (eventName : String) (suber : Subscriber)
    (sub : Subscription) : Prop :=
  sub ∈ sc.subscriptions ∧ sub.eventName = eventName ∧ sub.subscriber = suber

def liveSubs (sc : SubscriptionCenter α) (remoteHost eventName : String) : List Subscription :=
  sc.subscriptions.keys.filter fun sub => sub.remoteHost = remoteHost ∧ sub.eventName = eventName

structure Registry (sc : SubscriptionCenter α) : Prop where
  /-- a subscriber is in the set of an event exactly when it has one live entry -/
  paired : ∀ eventName suber, sc.Holds eventName suber ↔ ∃! sub, sc.Live eventName suber sub
  /-- below the limit a client can subscribe -/
  again : ∀ remoteHost eventName filterString, (sc.eventSubscribers eventName).isSome →
    (sc.liveSubs remoteHost eventName).length < ClientMaxSubsToOneEvent →
      ∃ subID sc', sc.Subscribe remoteHost eventName filterString = .ok (subID, sc')
  /-- to unsubscribe what is not there is an error -/
  removed : ∀ remoteHost eventName subID, (∀ sub, ¬ sc.Live eventName ⟨remoteHost, subID⟩ sub) →
    ∃ error, sc.UnSubscribe remoteHost eventName subID = .error error ∧ error.Returned

/-- `UnSubscribe` is not called for a live entry. -/
def NoRemoval (sc : SubscriptionCenter α) (c : SubscriptionCall α) : Prop :=
  ∀ remoteHost eventName subID, c = .unSubscribe remoteHost eventName subID →
    ∀ sub, ¬ sc.Live eventName ⟨remoteHost, subID⟩ sub

structure Valid (sc : SubscriptionCenter α) : Prop where
  numbered : ∀ sub ∈ sc.subscriptions, 1 ≤ sub.subID ∧ sub.subID ≤ ClientMaxSubsToOneEvent
  held : ∀ sub ∈ sc.subscriptions, sc.Holds sub.eventName sub.subscriber
  unique : ∀ sub ∈ sc.subscriptions, ∀ sub' ∈ sc.subscriptions,
    sub.eventName = sub'.eventName → sub.subscriber = sub'.subscriber → sub = sub'
  opened : ∀ sub queue, sc.subscriptions.lookup sub = some queue → queue.closed = false

def Covered (sc : SubscriptionCenter α) : Prop :=
  ∀ eventName suber, sc.Holds eventName suber → ∃ sub, sc.Live eventName suber sub

def Lost (sc : SubscriptionCenter α) (eventName : String) (suber : Subscriber) : Prop :=
  sc.Holds eventName suber ∧ ∀ sub, ¬ sc.Live eventName suber sub

section Sets

variable {eventName' : String} {subscribers : Finset Subscriber} {suber : Subscriber}

theorem holds_update (subscriptions : AList (fun _ : Subscription => Queue (EventMsg α))) :
    Holds ⟨update sc.eventSubscribers eventName (some subscribers), subscriptions⟩
        eventName' suber ↔
      if eventName' = eventName then suber ∈ subscribers else sc.Holds eventName' suber := by
  by_cases heq : eventName' = eventName
  · subst heq
    simp [Holds]
  · simp [Holds, heq]

section Known

variable (hset : sc.eventSubscribers eventName = some subscribers)
  (subscriptions : AList (fun _ : Subscription => Queue (EventMsg α)))
include hset subscriptions

theorem holds_insert (new : Subscriber) :
    Holds ⟨update sc.eventSubscribers eventName (some (insert new subscribers)),
        subscriptions⟩ eventName' suber ↔
      (eventName' = eventName ∧ suber = new) ∨ sc.Holds eventName' suber := by
  rw [holds_update]
  split_ifs with heq
  · subst heq
    simp [Holds, hset]
  · simp [heq]

theorem holds_erase (old : Subscriber) :
    Holds ⟨update sc.eventSubscribers eventName (some (subscribers.erase old)),
        subscriptions⟩ eventName' suber ↔
      sc.Holds eventName' suber ∧ ¬ (eventName' = eventName ∧ suber = old) := by
  rw [holds_update]
  split_ifs with heq
  · subst heq
    simp [Holds, hset, and_comm]
  · simp [heq]

end Known

end Sets

open AList

section Calls

theorem Subscribe_ok {number : Nat}
    (hsubscribe : sc.Subscribe remoteHost eventName filterString = .ok (number, sc')) :
    ∃ subscribers, sc.eventSubscribers eventName = some subscribers ∧
      (1 ≤ number ∧ number ≤ ClientMaxSubsToOneEvent) ∧ ⟨remoteHost, number⟩ ∉ subscribers ∧
      sc' = ⟨update sc.eventSubscribers eventName (some (insert ⟨remoteHost, number⟩ subscribers)),
        sc.subscriptions.insert ⟨remoteHost, eventName, number, filterString⟩ Queue.newQueue⟩ := by
  unfold Subscribe at hsubscribe
  cases hset : sc.eventSubscribers eventName with
  | none => simp [hset] at hsubscribe
  | some subscribers =>
    simp only [hset] at hsubscribe
    cases hfree : firstFree remoteHost subscribers with
    | none => simp [hfree] at hsubscribe
    | some i =>
      simp only [hfree] at hsubscribe
      cases hsubscribe
      have hmem := mem_of_find?_eq_some hfree
      have hnot := find?_some hfree
      rw [mem_range'_1] at hmem
      exact ⟨subscribers, rfl, ⟨hmem.1, by omega⟩, by simpa using hnot, rfl⟩

theorem drop_ok (hdrop : sc.drop sub = .ok sc') :
    sub ∈ sc.subscriptions ∧ sc' = { sc with subscriptions := sc.subscriptions.erase sub } := by
  unfold drop at hdrop
  cases hlookup : sc.subscriptions.lookup sub with
  | none => simp [hlookup] at hdrop
  | some queue =>
    simp only [hlookup] at hdrop
    cases hclear : queue.clear with
    | none => simp [hclear] at hdrop
    | some cleared =>
      simp only [hclear] at hdrop
      cases hdrop
      exact ⟨lookup_isSome.mp (by simp [hlookup]), rfl⟩

theorem drop_of_opened
    (hopened : ∀ sub queue, sc.subscriptions.lookup sub = some queue → queue.closed = false)
    (hsub : sub ∈ sc.subscriptions) :
    sc.drop sub = .ok { sc with subscriptions := sc.subscriptions.erase sub } := by
  obtain ⟨queue, hlookup⟩ := Option.isSome_iff_exists.mp (lookup_isSome.mpr hsub)
  have hopen := hopened sub queue hlookup
  simp [drop, hlookup, Queue.clear, hopen]

theorem UnSubscribe_ok (hvalid : sc.Valid)
    (hunsubscribe : sc.UnSubscribe remoteHost eventName subID = .ok sc') :
    ∃ sub, sc.Live eventName ⟨remoteHost, subID⟩ sub ∧ sc.Holds eventName ⟨remoteHost, subID⟩ ∧
      sc' = { sc with subscriptions := sc.subscriptions.erase sub } := by
  unfold UnSubscribe at hunsubscribe
  cases hset : sc.eventSubscribers eventName with
  | none => simp [hset] at hunsubscribe
  | some subscribers =>
    simp only [hset] at hunsubscribe
    split_ifs at hunsubscribe with hrange hmem
    have hholds : sc.Holds eventName ⟨remoteHost, subID⟩ := ⟨subscribers, hset, hmem⟩
    obtain ⟨hsub, rfl⟩ := drop_ok hunsubscribe
    generalize hfind : find? _ _ = found at hsub ⊢
    cases found with
    | none =>
      -- the zero value is not live: its number is `0`
      have hpos := (hvalid.numbered _ hsub).1
      simp at hpos
    | some sub =>
      have hmatch := find?_some hfind
      simp only [decide_eq_true_eq] at hmatch
      obtain ⟨hhost, hevent, hid⟩ := hmatch
      refine ⟨sub, ⟨hsub, hevent, ?_⟩, hholds, rfl⟩
      rw [Subscription.subscriber, hhost, hid]

theorem UnSubscribe_of_live (hvalid : sc.Valid)
    (hlive : sc.Live eventName ⟨remoteHost, subID⟩ sub) :
    ∃ sc', sc.UnSubscribe remoteHost eventName subID = .ok sc' := by
  obtain ⟨hsub, rfl, ⟨⟩⟩ := hlive
  obtain ⟨subscribers, hset, hmem⟩ := hvalid.held sub hsub
  have hnumbered := hvalid.numbered sub hsub
  unfold UnSubscribe
  simp only [hset]
  rw [if_neg (by omega), if_neg (fun hno => hno hmem)]
  refine ⟨_, drop_of_opened hvalid.opened ?_⟩
  generalize hfind : find? _ _ = found
  cases found with
  | none => simpa using find?_eq_none.mp hfind sub (mem_keys.mp hsub)
  | some found => exact mem_keys.mpr (mem_of_find?_eq_some hfind)

theorem removeOne_of_valid (hvalid : sc.Valid) (hsub : sub ∈ sc.subscriptions) :
    ∃ subscribers, sc.eventSubscribers sub.eventName = some subscribers ∧
      sc.removeOne sub = .ok ⟨update sc.eventSubscribers sub.eventName
        (some (subscribers.erase sub.subscriber)), sc.subscriptions.erase sub⟩ := by
  obtain ⟨subscribers, hset, _⟩ := hvalid.held sub hsub
  refine ⟨subscribers, hset, ?_⟩
  simp only [removeOne, hset]
  exact drop_of_opened hvalid.opened hsub

end Calls

section Valid

theorem valid_newSubCenter : (newSubCenter : SubscriptionCenter α).Valid where
  numbered := by simp [newSubCenter]
  held := by simp [newSubCenter]
  unique := by simp [newSubCenter]
  opened := by simp [newSubCenter]

theorem covered_newSubCenter : (newSubCenter : SubscriptionCenter α).Covered := by
  rintro eventName suber ⟨subscribers, hset, hmem⟩
  obtain ⟨-, rfl⟩ := of_guard hset
  simp at hmem

theorem valid_Subscribe {number : Nat} (hvalid : sc.Valid)
    (hsubscribe : sc.Subscribe remoteHost eventName filterString = .ok (number, sc')) :
    sc'.Valid := by
  obtain ⟨subscribers, hset, hrange, hnot, rfl⟩ := Subscribe_ok hsubscribe
  -- no live entry has the new number, since its subscriber would be in the set
  have hnew : ∀ sub ∈ sc.subscriptions, sub.eventName = eventName →
      sub.subscriber ≠ ⟨remoteHost, number⟩ := by
    intro sub hsub hevent hsuber
    obtain ⟨subscribers', hset', hmem⟩ := hvalid.held sub hsub
    rw [hevent, hset] at hset'
    cases hset'
    exact hnot (hsuber ▸ hmem)
  constructor
  · intro sub hsub
    rcases (mem_insert _).mp hsub with rfl | hsub
    · exact ⟨Int.ofNat_le.mpr hrange.1, Int.ofNat_le.mpr hrange.2⟩
    · exact hvalid.numbered sub hsub
  · intro sub hsub
    rw [holds_insert hset]
    rcases (mem_insert _).mp hsub with rfl | hsub
    · exact .inl ⟨rfl, rfl⟩
    · exact .inr (hvalid.held sub hsub)
  · intro sub hsub sub' hsub' hevent hsuber
    rcases (mem_insert _).mp hsub with rfl | hsub
    · rcases (mem_insert _).mp hsub' with rfl | hsub'
      · rfl
      · exact absurd hsuber.symm (hnew sub' hsub' hevent.symm)
    · rcases (mem_insert _).mp hsub' with rfl | hsub'
      · exact absurd hsuber (hnew sub hsub hevent)
      · exact hvalid.unique sub hsub sub' hsub' hevent hsuber
  · intro sub queue hlookup
    by_cases heq : sub = ⟨remoteHost, eventName, number, filterString⟩
    · rw [heq, lookup_insert] at hlookup
      cases hlookup
      rfl
    · rw [lookup_insert_ne heq] at hlookup
      exact hvalid.opened sub queue hlookup

theorem valid_erase (hvalid : sc.Valid) (eventSubscribers : String → Option (Finset Subscriber))
    (hheld : ∀ sub' ∈ sc.subscriptions, sub' ≠ sub →
      Holds ⟨eventSubscribers, sc.subscriptions⟩ sub'.eventName sub'.subscriber) :
    Valid ⟨eventSubscribers, sc.subscriptions.erase sub⟩ where
  numbered := fun sub' hsub' => hvalid.numbered sub' (mem_erase.mp hsub').2
  held := fun sub' hsub' =>
    hheld sub' (mem_erase.mp hsub').2 (mem_erase.mp hsub').1
  unique := fun sub₁ hsub₁ sub₂ hsub₂ =>
    hvalid.unique sub₁ (mem_erase.mp hsub₁).2 sub₂ (mem_erase.mp hsub₂).2
  opened := by
    intro sub' queue hlookup
    have hmem : sub' ∈ sc.subscriptions.erase sub :=
      lookup_isSome.mp (by simp [hlookup])
    rw [lookup_erase_ne (mem_erase.mp hmem).1] at hlookup
    exact hvalid.opened sub' queue hlookup

theorem valid_UnSubscribe (hvalid : sc.Valid)
    (hunsubscribe : sc.UnSubscribe remoteHost eventName subID = .ok sc') : sc'.Valid := by
  obtain ⟨sub, _, _, rfl⟩ := UnSubscribe_ok hvalid hunsubscribe
  exact valid_erase hvalid _ (fun sub' hsub' _ => hvalid.held sub' hsub')

theorem valid_removeOne (hvalid : sc.Valid) (hsub : sub ∈ sc.subscriptions)
    (hremove : sc.removeOne sub = .ok sc') : sc'.Valid := by
  obtain ⟨subscribers, hset, heq⟩ := removeOne_of_valid hvalid hsub
  obtain rfl := Except.ok.inj (heq.symm.trans hremove)
  refine valid_erase hvalid _ ?_
  intro sub' hsub' hne
  rw [holds_erase hset]
  refine ⟨hvalid.held sub' hsub', ?_⟩
  rintro ⟨hevent, hsuber⟩
  exact hne (hvalid.unique sub' hsub' sub hsub hevent hsuber)

theorem covered_removeOne (hvalid : sc.Valid) (hcovered : sc.Covered)
    (hsub : sub ∈ sc.subscriptions) (hremove : sc.removeOne sub = .ok sc') : sc'.Covered := by
  obtain ⟨subscribers, hset, heq⟩ := removeOne_of_valid hvalid hsub
  obtain rfl := Except.ok.inj (heq.symm.trans hremove)
  intro eventName suber hholds
  rw [holds_erase hset] at hholds
  obtain ⟨hholds, hother⟩ := hholds
  obtain ⟨sub', hsub', hevent, hsuber⟩ := hcovered eventName suber hholds
  refine ⟨sub', mem_erase.mpr ⟨?_, hsub'⟩, hevent, hsuber⟩
  rintro rfl
  exact hother ⟨hevent.symm, hsuber.symm⟩

section Loop

variable {P : SubscriptionCenter α → Prop} (hround : ∀ sc sub sc', sc.Valid → P sc →
  sub ∈ sc.subscriptions → sc.removeOne sub = .ok sc' → P sc')
include hround

theorem removeLoop {subs : List Subscription} (hnodup : subs.Nodup) (hvalid : sc.Valid) (hP : P sc)
    (hlive : ∀ sub ∈ subs, sub ∈ sc.subscriptions) :
    ∃ sc', subs.foldlM removeOne sc = .ok sc' ∧ sc'.Valid ∧ P sc' := by
  induction subs generalizing sc with
  | nil => exact ⟨sc, rfl, hvalid, hP⟩
  | cons sub subs ih =>
    obtain ⟨hnotin, hnodup⟩ := nodup_cons.mp hnodup
    have hsub := hlive sub mem_cons_self
    obtain ⟨subscribers, _, hremove⟩ := removeOne_of_valid hvalid hsub
    obtain ⟨sc', hrun, hvalid', hP'⟩ := ih hnodup (valid_removeOne hvalid hsub hremove)
      (hround _ _ _ hvalid hP hsub hremove) (fun sub' hsub' => mem_erase.mpr
        ⟨fun heq => hnotin (heq ▸ hsub'), hlive sub' (mem_cons_of_mem _ hsub')⟩)
    refine ⟨sc', ?_, hvalid', hP'⟩
    rw [foldlM_cons, hremove]
    exact hrun

theorem UnSubscribeAll_of_valid (hvalid : sc.Valid) (hP : P sc) (remoteHost : String) :
    ∃ sc', sc.UnSubscribeAll remoteHost = .ok sc' ∧ sc'.Valid ∧ P sc' :=
  removeLoop hround (sc.subscriptions.keys_nodup.filter _) hvalid hP
    (fun _ hsub => mem_keys.mpr (mem_of_mem_filter hsub))

end Loop

theorem offer_of_opened (msg : EventMsg α)
    {subscriptions : AList (fun _ : Subscription => Queue (EventMsg α))}
    (hsub : sub ∈ subscriptions)
    (hopened : ∀ sub queue, subscriptions.lookup sub = some queue → queue.closed = false) :
    ∃ next, offer msg subscriptions sub = some next ∧
      (∀ sub', sub' ∈ next ↔ sub' ∈ subscriptions) ∧
      ∀ sub' queue, next.lookup sub' = some queue → queue.closed = false := by
  obtain ⟨queue, hlookup⟩ := Option.isSome_iff_exists.mp (lookup_isSome.mpr hsub)
  have hqueue := hopened sub queue hlookup
  by_cases hevent : sub.eventName = msg.Name
  · cases henqueue : queue.enqueue msg with
    | error error =>
      cases error with
      | queueFull =>
        refine ⟨subscriptions, ?_, fun _ => Iff.rfl, hopened⟩
        simp [offer, hevent, hlookup, henqueue]
      | sendOnClosed =>
        rw [Queue.closed_of_sendOnClosed henqueue] at hqueue
        cases hqueue
    | ok queue' =>
      refine ⟨subscriptions.insert sub queue', ?_, ?_, ?_⟩
      · simp [offer, hevent, hlookup, henqueue]
      · intro sub'
        rw [mem_insert]
        exact or_iff_right_of_imp (fun heq => heq ▸ hsub)
      intro sub' queue'' hlookup'
      by_cases heq : sub' = sub
      · rw [heq, lookup_insert] at hlookup'
        cases hlookup'
        exact Queue.closed_enqueue henqueue
      · rw [lookup_insert_ne heq] at hlookup'
        exact hopened sub' queue'' hlookup'
  · exact ⟨subscriptions, by simp [offer, hevent], fun _ => Iff.rfl, hopened⟩

theorem offerLoop (msg : EventMsg α)
    {subscriptions : AList (fun _ : Subscription => Queue (EventMsg α))}
    {subs : List Subscription} (hlive : ∀ sub ∈ subs, sub ∈ subscriptions)
    (hopened : ∀ sub queue, subscriptions.lookup sub = some queue → queue.closed = false) :
    ∃ result, subs.foldlM (offer msg) subscriptions = some result ∧
      (∀ sub, sub ∈ result ↔ sub ∈ subscriptions) ∧
      ∀ sub queue, result.lookup sub = some queue → queue.closed = false := by
  induction subs generalizing subscriptions with
  | nil => exact ⟨subscriptions, rfl, fun _ => Iff.rfl, hopened⟩
  | cons sub subs ih =>
    obtain ⟨next, hnext, hkeys, hopen⟩ :=
      offer_of_opened msg (hlive sub mem_cons_self) hopened
    obtain ⟨result, hrun, hkeys', hopen'⟩ := ih
      (fun sub' hsub' => (hkeys sub').mpr (hlive sub' (mem_cons_of_mem _ hsub'))) hopen
    refine ⟨result, ?_, fun sub' => (hkeys' sub').trans (hkeys sub'), hopen'⟩
    rw [run_cons, hnext]
    exact hrun

theorem receiveSubMsg_of_valid (hvalid : sc.Valid) (msg : EventMsg α) :
    ∃ sc', sc.receiveSubMsg msg = some sc' ∧ sc'.eventSubscribers = sc.eventSubscribers ∧
      (∀ sub, sub ∈ sc'.subscriptions ↔ sub ∈ sc.subscriptions) ∧ sc'.Valid := by
  obtain ⟨result, hrun, hkeys, hopen⟩ :=
    offerLoop msg (fun _ => mem_keys.mpr) hvalid.opened
  refine ⟨{ sc with subscriptions := result }, ?_, rfl, hkeys, ?_⟩
  · rw [receiveSubMsg, hrun]
    rfl
  constructor
  · intro sub hsub
    exact hvalid.numbered sub ((hkeys sub).mp hsub)
  · intro sub hsub
    exact hvalid.held sub ((hkeys sub).mp hsub)
  · intro sub hsub sub' hsub'
    exact hvalid.unique sub ((hkeys sub).mp hsub) sub' ((hkeys sub').mp hsub')
  · exact hopen

end Valid

section Step

variable {c : SubscriptionCall α} {suber : Subscriber}

theorem step_cases {P : SubscriptionCenter α → Prop}
    (hround : ∀ sc sub sc', sc.Valid → P sc → sub ∈ sc.subscriptions →
      sc.removeOne sub = .ok sc' → P sc')
    (hvalid : sc.Valid) (hP : P sc) :
    ∃ sc', sc.step c = some sc' ∧ sc'.Valid ∧
      (sc' = sc ∨ (∃ remoteHost eventName filterString number,
          c = .subscribe remoteHost eventName filterString ∧
            sc.Subscribe remoteHost eventName filterString = .ok (number, sc')) ∨
        (∃ remoteHost eventName subID, c = .unSubscribe remoteHost eventName subID ∧
          sc.UnSubscribe remoteHost eventName subID = .ok sc') ∨
        (∃ remoteHost, c = .unSubscribeAll remoteHost ∧ P sc') ∨
        (∃ msg, c = .receiveSubMsg msg ∧ sc'.eventSubscribers = sc.eventSubscribers ∧
          ∀ sub, sub ∈ sc'.subscriptions ↔ sub ∈ sc.subscriptions)) := by
  cases c with
  | subscribe remoteHost eventName filterString =>
    cases hsubscribe : sc.Subscribe remoteHost eventName filterString with
    | error error => exact ⟨sc, by simp [step, hsubscribe], hvalid, .inl rfl⟩
    | ok result =>
      obtain ⟨number, sc'⟩ := result
      exact ⟨sc', by simp [step, hsubscribe], valid_Subscribe hvalid hsubscribe,
        .inr (.inl ⟨_, _, _, number, rfl, hsubscribe⟩)⟩
  | unSubscribe remoteHost eventName subID =>
    cases hunsubscribe : sc.UnSubscribe remoteHost eventName subID with
    | error error => exact ⟨sc, by simp [step, hunsubscribe], hvalid, .inl rfl⟩
    | ok sc' =>
      exact ⟨sc', by simp [step, hunsubscribe], valid_UnSubscribe hvalid hunsubscribe,
        .inr (.inr (.inl ⟨_, _, _, rfl, hunsubscribe⟩))⟩
  | unSubscribeAll remoteHost =>
    obtain ⟨sc', hall, hvalid', hP'⟩ := UnSubscribeAll_of_valid hround hvalid hP remoteHost
    exact ⟨sc', by simp [step, hall], hvalid',
      .inr (.inr (.inr (.inl ⟨remoteHost, rfl, hP'⟩)))⟩
  | receiveSubMsg msg =>
    obtain ⟨sc', hreceive, hsets, hkeys, hvalid'⟩ := receiveSubMsg_of_valid hvalid msg
    exact ⟨sc', hreceive, hvalid', .inr (.inr (.inr (.inr ⟨msg, rfl, hsets, hkeys⟩)))⟩

/-- **No call panics in its loop**: no channel is closed twice or used after that. -/
theorem step_of_valid (hvalid : sc.Valid) (c : SubscriptionCall α) :
    ∃ sc', sc.step c = some sc' ∧ sc'.Valid := by
  obtain ⟨sc', hstep, hvalid', _⟩ := step_cases (P := fun _ => True) (c := c)
    (fun _ _ _ _ _ _ _ => trivial) hvalid trivial
  exact ⟨sc', hstep, hvalid'⟩

theorem valid_step (hvalid : sc.Valid) (hstep : sc.step c = some sc') : sc'.Valid := by
  obtain ⟨sc'', hstep', hvalid'⟩ := step_of_valid hvalid c
  obtain rfl := Option.some.inj (hstep'.symm.trans hstep)
  exact hvalid'

theorem lost_UnSubscribe (hvalid : sc.Valid)
    (hunsubscribe : sc.UnSubscribe remoteHost eventName subID = .ok sc') :
    sc'.Lost eventName ⟨remoteHost, subID⟩ := by
  obtain ⟨sub, ⟨hsub, hevent, hsuber⟩, hholds, rfl⟩ := UnSubscribe_ok hvalid hunsubscribe
  refine ⟨hholds, ?_⟩
  rintro sub' ⟨hsub', hevent', hsuber'⟩
  obtain ⟨hne, hmem⟩ := mem_erase.mp hsub'
  exact hne (hvalid.unique sub' hmem sub hsub (hevent'.trans hevent.symm)
    (hsuber'.trans hsuber.symm))

theorem covered_Subscribe {number : Nat} (hcovered : sc.Covered)
    (hsubscribe : sc.Subscribe remoteHost eventName filterString = .ok (number, sc')) :
    sc'.Covered := by
  obtain ⟨subscribers, hset, _, _, rfl⟩ := Subscribe_ok hsubscribe
  intro eventName' suber hholds
  rcases (holds_insert hset _ _).mp hholds with ⟨rfl, rfl⟩ | hholds
  · exact ⟨_, (mem_insert _).mpr (.inl rfl), rfl, rfl⟩
  · obtain ⟨sub, hsub, hmatch⟩ := hcovered eventName' suber hholds
    exact ⟨sub, (mem_insert _).mpr (.inr hsub), hmatch⟩

theorem covered_step_iff (hvalid : sc.Valid) (hcovered : sc.Covered)
    (hstep : sc.step c = some sc') : sc'.Covered ↔ NoRemoval sc c := by
  obtain ⟨sc'', hstep', _, hcases⟩ := step_cases (c := c)
    (fun _ _ _ => covered_removeOne) hvalid hcovered
  obtain rfl := Option.some.inj (hstep'.symm.trans hstep)
  constructor
  · rintro hcovered' remoteHost eventName subID rfl sub hlive
    obtain ⟨after, hunsubscribe⟩ := UnSubscribe_of_live hvalid hlive
    obtain rfl : after = sc'' := by simpa [step, hunsubscribe] using hstep
    obtain ⟨hholds, hnone⟩ := lost_UnSubscribe hvalid hunsubscribe
    obtain ⟨other, hother⟩ := hcovered' _ _ hholds
    exact hnone other hother
  intro hno
  rcases hcases with rfl | ⟨_, _, _, _, rfl, hsubscribe⟩ |
    ⟨remoteHost, eventName, subID, rfl, hunsubscribe⟩ | ⟨_, rfl, hcovered'⟩ |
    ⟨_, rfl, hsets, hkeys⟩
  · exact hcovered
  · exact covered_Subscribe hcovered hsubscribe
  · obtain ⟨sub, hlive, _⟩ := UnSubscribe_ok hvalid hunsubscribe
    exact absurd hlive (hno remoteHost eventName subID rfl sub)
  · exact hcovered'
  · rintro eventName suber ⟨subscribers, hset, hmem⟩
    obtain ⟨sub, hsub, hmatch⟩ := hcovered eventName suber ⟨subscribers, hsets ▸ hset, hmem⟩
    exact ⟨sub, (hkeys sub).mpr hsub, hmatch⟩

end Step

section Registry

theorem firstFree_isSome (hcovered : sc.Covered) {subscribers : Finset Subscriber}
    (hset : sc.eventSubscribers eventName = some subscribers)
    (hbelow : (sc.liveSubs remoteHost eventName).length < ClientMaxSubsToOneEvent) :
    (firstFree remoteHost subscribers).isSome := by
  by_contra hnone
  simp only [firstFree, find?_isSome, mem_range'_1, decide_not, not_exists, not_and,
    Bool.not_eq_true, Bool.not_eq_false', decide_eq_true_eq] at hnone
  have hsubset : range' 1 ClientMaxSubsToOneEvent ⊆
      (sc.liveSubs remoteHost eventName).map (fun sub => sub.subID.toNat) := by
    intro i hi
    have hmem := hnone i (mem_range'_1.mp hi)
    obtain ⟨sub, hsub, hevent, hsuber⟩ := hcovered eventName ⟨remoteHost, i⟩ ⟨_, hset, hmem⟩
    obtain ⟨hhost, hid⟩ := Subscriber.mk.inj hsuber
    refine mem_map.mpr ⟨sub, ?_, ?_⟩
    · exact mem_filter.mpr ⟨mem_keys.mp hsub, by simp [hhost, hevent]⟩
    · rw [hid, Int.toNat_natCast]
  have hnodup : (range' 1 ClientMaxSubsToOneEvent).Nodup := nodup_range' 1
  have hle := (hnodup.subperm hsubset).length_le
  rw [length_range', length_map] at hle
  omega

theorem registry_of_covered (hvalid : sc.Valid) (hcovered : sc.Covered) : sc.Registry := by
  have hholds : ∀ eventName suber sub, sc.Live eventName suber sub → sc.Holds eventName suber := by
    rintro _ _ sub ⟨hsub, rfl, rfl⟩
    exact hvalid.held sub hsub
  constructor
  · intro eventName suber
    constructor
    · intro h
      obtain ⟨sub, hlive⟩ := hcovered eventName suber h
      refine ⟨sub, hlive, ?_⟩
      rintro sub' ⟨hsub', hevent', hsuber'⟩
      exact hvalid.unique sub' hsub' sub hlive.1 (hevent'.trans hlive.2.1.symm)
        (hsuber'.trans hlive.2.2.symm)
    · rintro ⟨sub, hlive, _⟩
      exact hholds eventName suber sub hlive
  · intro remoteHost eventName filterString hlegal hbelow
    obtain ⟨subscribers, hset⟩ := Option.isSome_iff_exists.mp hlegal
    obtain ⟨i, hfree⟩ := Option.isSome_iff_exists.mp (firstFree_isSome hcovered hset hbelow)
    simp [Subscribe, hset, hfree]
  · intro remoteHost eventName subID hnone
    unfold UnSubscribe
    cases hset : sc.eventSubscribers eventName with
    | none => exact ⟨_, rfl, trivial⟩
    | some subscribers =>
      dsimp only
      split_ifs with hrange hmem
      · exact ⟨_, rfl, trivial⟩
      · obtain ⟨sub, hlive⟩ := hcovered eventName ⟨remoteHost, subID⟩ ⟨_, hset, hmem⟩
        exact absurd hlive (hnone sub)
      · exact ⟨_, rfl, trivial⟩

theorem covered_of_registry (h : sc.Registry) : sc.Covered := by
  intro eventName suber hholds
  obtain ⟨sub, hlive, _⟩ := (h.paired eventName suber).mp hholds
  exact ⟨sub, hlive⟩

/-- **When the registry is right** all along: exactly when `UnSubscribe` is called for no live
entry. -/
theorem subscriptionRegistry_iff (calls : List (SubscriptionCall α)) :
    Throughout step Registry (newSubCenter : SubscriptionCenter α) calls ↔
      Along step NoRemoval (newSubCenter : SubscriptionCenter α) calls := by
  refine throughout_iff_along (fun _ _ _ => valid_step) ?_ ?_ valid_newSubCenter
    (registry_of_covered valid_newSubCenter covered_newSubCenter)
  · intro sc c sc' hvalid hregistry hstep
    have hiff := covered_step_iff hvalid (covered_of_registry hregistry) hstep
    constructor
    · intro hregistry'
      exact hiff.mp (covered_of_registry hregistry')
    · intro hno
      exact registry_of_covered (valid_step hvalid hstep) (hiff.mpr hno)
  · intro sc c hvalid _ hstep
    obtain ⟨_, hsome, _⟩ := step_of_valid hvalid c
    cases hstep.symm.trans hsome

def fiveRounds : List (SubscriptionCall Unit) :=
  (range' 1 5).flatMap fun i =>
    [.subscribe "a:1" "TxCommited" "", .unSubscribe "a:1" "TxCommited" i]

/-- After one round a second `UnSubscribe` panics; after five the client has no subscription
and is at the limit. -/
theorem unSubscribe_keeps_subscriber :
    (∃ sc, (fiveRounds.take 2).foldlM step newSubCenter = some sc ∧
      sc.liveSubs "a:1" "TxCommited" = [] ∧
      sc.UnSubscribe "a:1" "TxCommited" 1 = .error .nilQueue ∧ ¬ sc.Registry) ∧
    ∃ sc, fiveRounds.foldlM step newSubCenter = some sc ∧
      sc.liveSubs "a:1" "TxCommited" = [] ∧
      sc.Subscribe "a:1" "TxCommited" "" = .error .exceedSubsLimit := by
  refine ⟨⟨_, rfl, rfl, rfl, ?_⟩, ⟨_, rfl, rfl, rfl⟩⟩
  intro hregistry
  obtain ⟨error, herror, hreturned⟩ := hregistry.removed "a:1" "TxCommited" 1
    (by rintro sub ⟨hsub, _⟩; exact absurd hsub (notMem_empty sub))
  cases herror
  exact hreturned

end Registry

end SubscriptionCenter

end Topia.Rpc
