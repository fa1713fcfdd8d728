import Topia.Common
import Topia.Lib.Memo
import Topia.Lib.Run

/-!
# The response cache of the RPC server

`handleMessage` of `api/rpc/server.go` verifies a request, reads its arguments from JSON, and looks
for the response in a cache before it calls the method. The key is the name of the method and the
printed list of the arguments: strings as they are, separated by blanks. A method is a function of
its arguments and of the state `W` of the node; one with `cacheAble` of the arguments alone.
-/

namespace Topia.Rpc

open Lib

inductive Arg (O : Type) where
  | text (s : String)
  | other (value : O)
deriving DecidableEq, Repr

inductive AuthLevel where
  | none
  | read
  | write
  | sign
  | manager
deriving DecidableEq, Repr

def AuthLevel.rank : AuthLevel → Nat
  | .none => 0
  | .read => 1
  | .write => 2
  | .sign => 3
  | .manager => 4

inductive Errtype where
  | noErr
  | errMethodNotFound
  | errAuthFailed
  | errIllegalArgument
  | errServiceReturnError
deriving DecidableEq, Repr

structure ErrMsg where
  Errtype : Errtype
  ErrString : String
deriving DecidableEq, Repr

structure Message where
  (RequestId MethodName AuthCode : String)
  Payload : Bytes
deriving DecidableEq, Repr

structure Response where
  (RequestId MethodName AuthCode : String)
  ErrMsg : ErrMsg
  Payload : Bytes
deriving DecidableEq, Repr

/-- An argument tested against its parameter; the type of a JSON null cannot be taken: a panic. -/
inductive Converted (V : Type) where
  | value (v : V)
  | refused
  | panics

inductive Back where
  | panics
  | nothing
  | values (encoded : Except String Bytes) (err : Option String)

inductive CallResult where
  | failed (err : String)
  | done (resp : Bytes) (errString : Option String)
deriving DecidableEq, Repr

namespace CallResult

def payload : CallResult → Bytes
  | failed _ => []
  | done resp _ => resp

def errMsg : CallResult → ErrMsg
  | failed err => ⟨.errIllegalArgument, err⟩
  | done _ none => ⟨.noErr, ""⟩
  | done _ (some errString) => ⟨.errServiceReturnError, errString⟩

end CallResult

structure MethodType (W O V : Type) where
  authLevel : AuthLevel
  cacheAble : Bool
  numIn : Nat
  convert : Nat → Arg O → Converted V
  mValue : W → List V → Back
  /-- a method that can be cached is a function of its arguments -/
  pure_of_cacheAble : cacheAble = true → ∀ w w' vs, mValue w vs = mValue w' vs

namespace MethodType

variable {W O V : Type}

def convertArgs (m : MethodType W O V) : Nat → List (Arg O) → Converted (List V)
  | _, [] => .value []
  | i, arg :: args =>
    match m.convert i arg with
    | .refused => .refused
    | .panics => .panics
    | .value v =>
      match m.convertArgs (i + 1) args with
      | .refused => .refused
      | .panics => .panics
      | .value vs => .value (v :: vs)

/-- `Call`; after a panic it returns a nil response and a nil error. -/
def Call (m : MethodType W O V) (w : W) (inArgs : List (Arg O)) : CallResult :=
  if m.numIn ≠ inArgs.length then .failed "input error"
  else
    match m.convertArgs 0 inArgs with
    | .refused => .failed "input error"
    | .panics => .done [] none
    | .value vs =>
      match m.mValue w vs with
      | .panics => .done [] none
      | .nothing => .done [] none
      | .values (.error err) _ => .failed err
      | .values (.ok respBuf) err => .done respBuf err

theorem Call_of_cacheAble {m : MethodType W O V} (hcacheAble : m.cacheAble = true) (w w' : W)
    (inArgs : List (Arg O)) : m.Call w inArgs = m.Call w' inArgs := by
  have hsame : m.mValue w = m.mValue w' := funext (m.pure_of_cacheAble hcacheAble w w')
  simp [Call, hsame]

end MethodType

/-- Its methods, the level of a token, JSON, and printing. -/
structure Server (W O V : Type) where
  methodMap : String → Option (MethodType W O V)
  level : String → AuthLevel
  unmarshal : Bytes → Except String (List (Arg O))
  printOther : O → String

namespace Server

variable {W O V : Type} (s : Server W O V)

def Verify (reqToken methodName : String) : Except String Bool :=
  match s.methodMap methodName with
  | none => .error "method name error"
  | some method => .ok ((s.level reqToken).rank ≥ method.authLevel.rank)

def getInArgs (payload : Bytes) : Except String (List (Arg O)) :=
  if payload = [] then .ok [] else s.unmarshal payload

def print : Arg O → String
  | .text t => t
  | .other value => s.printOther value

def sprintf (inArgs : List (Arg O)) : String :=
  "[" ++ " ".intercalate (inArgs.map s.print) ++ "]"

def cacheKey (methodName : String) (inArgs : List (Arg O)) : String :=
  methodName ++ "_" ++ s.sprintf inArgs

def call (w : W) (methodName : String) (inArgs : List (Arg O)) : CallResult :=
  match s.methodMap methodName with
  | none => .done [] none
  | some method => method.Call w inArgs

def cached (w : W) (methodName : String) (inArgs : List (Arg O)) : Bool :=
  (s.methodMap methodName).any (fun method => method.cacheAble) &&
    (s.call w methodName inArgs).errMsg.Errtype = .noErr

/-- `handleMessage`; `kept` is whether the cache takes an entry. -/
def handleMessage (cache : String → Option Bytes) (w : W) (message : Message) (kept : Bool) :
    Response × (String → Option Bytes) :=
  let respond (errMsg : ErrMsg) (payload : Bytes) : Response :=
    ⟨message.RequestId, message.MethodName, message.AuthCode, errMsg, payload⟩
  match s.Verify message.AuthCode message.MethodName with
  | .error err => (respond ⟨.errMethodNotFound, err⟩ [], cache)
  | .ok false => (respond ⟨.errAuthFailed, "auth error"⟩ [], cache)
  | .ok true =>
    match s.getInArgs message.Payload with
    | .error err => (respond ⟨.errIllegalArgument, err⟩ [], cache)
    | .ok inArgs =>
      match cache (s.cacheKey message.MethodName inArgs) with
      | some val => (respond ⟨.noErr, ""⟩ val, cache)
      | none =>
        let result := s.call w message.MethodName inArgs
        (respond result.errMsg result.payload, if s.cached w message.MethodName inArgs && kept then
            Function.update cache (s.cacheKey message.MethodName inArgs) (some result.payload)
          else cache)

/-- The payload of a direct call; without readable arguments there is no call. -/
def direct (w : W) (message : Message) : Bytes :=
  match s.getInArgs message.Payload with
  | .error _ => []
  | .ok inArgs => (s.call w message.MethodName inArgs).payload

end Server

inductive ServerEvent (W : Type) where
  | request (w : W) (message : Message) (kept : Bool)
  | drop (key : String)

open MethodType Memo

namespace Server

variable {W O V : Type} (s : Server W O V)

def Authorised (message : Message) : Prop :=
  s.Verify message.AuthCode message.MethodName = .ok true

def step (cache : String → Option Bytes) : ServerEvent W → Option (String → Option Bytes)
  | .request w message kept => some (s.handleMessage cache w message kept).2
  | .drop key => some (Function.update cache key none)

def Transparent (cache : String → Option Bytes) (e : ServerEvent W) : Prop :=
  ∀ w message kept, e = .request w message kept → s.Authorised message →
    (s.handleMessage cache w message kept).1.Payload = s.direct w message

structure Request (s : Server W O V) where
  w : W
  message : Message
  inArgs : List (Arg O)
  authorised : s.Authorised message
  read : s.getInArgs message.Payload = .ok inArgs

namespace Request

variable {s}

variable (r : s.Request)

def key : String :=
  s.cacheKey r.message.MethodName r.inArgs

def payload (r : s.Request) : Bytes :=
  (s.call r.w r.message.MethodName r.inArgs).payload

def stored : Bool :=
  s.cached r.w r.message.MethodName r.inArgs

def called : String × List (Arg O) :=
  (r.message.MethodName, r.inArgs)

theorem direct_eq : s.direct r.w r.message = r.payload := by
  simp [direct, r.read, payload]

theorem call_eq_of_called_eq {r r' : s.Request} (hstored : r.stored = true)
    (hcalled : r.called = r'.called) : s.call r'.w r'.message.MethodName r'.inArgs =
      s.call r.w r.message.MethodName r.inArgs := by
  obtain ⟨hname, hargs⟩ := Prod.mk.inj hcalled
  rw [stored, cached, Bool.and_eq_true] at hstored
  rw [← hname, ← hargs, call, call]
  cases hmethod : s.methodMap r.message.MethodName with
  | none => rfl
  | some method =>
    have hcacheAble : method.cacheAble = true := by simpa [hmethod] using hstored.1
    dsimp only
    rw [Call_of_cacheAble hcacheAble]

end Request

variable {s}

theorem handleMessage_request (r : s.Request) (cache : String → Option Bytes) (kept : Bool) :
    (s.handleMessage cache r.w r.message kept).1.Payload =
        (ask Request.key Request.payload Request.stored cache r kept).1 ∧
      (s.handleMessage cache r.w r.message kept).2 =
        (ask Request.key Request.payload Request.stored cache r kept).2 := by
  have hauthorised : s.Verify r.message.AuthCode r.message.MethodName = .ok true := r.authorised
  simp only [handleMessage, hauthorised, r.read, ask]
  cases hval : cache (s.cacheKey r.message.MethodName r.inArgs) with
  | some val => simp [Request.key, hval]
  | none => simp [Request.key, hval, Request.payload, Request.stored]

theorem handleMessage_cases (s : Server W O V) (cache : String → Option Bytes) (w : W)
    (message : Message) (kept : Bool) :
    (∃ r : s.Request, r.w = w ∧ r.message = message) ∨
      ((s.handleMessage cache w message kept).2 = cache ∧ (s.Authorised message →
          (s.handleMessage cache w message kept).1.Payload = s.direct w message)) := by
  cases hverify : s.Verify message.AuthCode message.MethodName with
  | error err =>
    refine .inr ⟨by simp [handleMessage, hverify], ?_⟩
    intro hauthorised
    rw [Authorised, hverify] at hauthorised
    cases hauthorised
  | ok verified =>
    cases verified with
    | false =>
      refine .inr ⟨by simp [handleMessage, hverify], ?_⟩
      intro hauthorised
      rw [Authorised, hverify] at hauthorised
      cases hauthorised
    | true =>
      cases hread : s.getInArgs message.Payload with
      | error err =>
        exact .inr ⟨by simp [handleMessage, hverify, hread],
          fun _ => by simp [handleMessage, hverify, hread, direct]⟩
      | ok inArgs => exact .inl ⟨⟨w, message, inArgs, hverify, hread⟩, rfl, rfl⟩

open Request

theorem sound_step {cache cache' : String → Option Bytes} {e : ServerEvent W}
    (hsound : Sound (R := s.Request) key payload stored cache)
    (hstep : s.step cache e = some cache') :
    Sound (R := s.Request) key payload stored cache' := by
  cases e with
  | drop key =>
    cases hstep
    exact sound_drop hsound key
  | request w message kept =>
    cases hstep
    rcases handleMessage_cases s cache w message kept with ⟨r, rfl, rfl⟩ | ⟨hsame, _⟩
    · rw [(handleMessage_request r cache kept).2]
      exact sound_ask hsound
    · rw [hsame]
      exact hsound

theorem transparent_of_separates {cache : String → Option Bytes}
    (hseparates : Separates (R := s.Request) Request.key Request.payload Request.stored)
    (hsound : Sound (R := s.Request) Request.key Request.payload Request.stored cache)
    (e : ServerEvent W) : s.Transparent cache e := by
  rintro w message kept rfl hauthorised
  rcases handleMessage_cases s cache w message kept with ⟨r, rfl, rfl⟩ | ⟨_, hdirect⟩
  · rw [(handleMessage_request r cache kept).1, r.direct_eq]
    exact ask_eq_of_separates hseparates hsound
  · exact hdirect hauthorised

/-- **When the cache is not seen**: exactly when no response is cached under the key of a call with
a different payload. -/
theorem cacheTransparent_iff (s : Server W O V) :
    (∀ events : List (ServerEvent W), Along s.step s.Transparent (fun _ => none) events) ↔
      ∀ r r' : s.Request, r.called ≠ r'.called → r.key = r'.key → r.stored = true →
        r'.payload = r.payload := by
  constructor
  · intro hall r r' _ hkey hstored
    have hrun := hall [.request r.w r.message true, .request r'.w r'.message true]
    obtain ⟨_, hsecond⟩ := hrun
    obtain ⟨htransparent, _⟩ := hsecond _ rfl
    have hpayload := htransparent r'.w r'.message true rfl r'.authorised
    rw [(handleMessage_request r _ true).2, (handleMessage_request r' _ true).1, r'.direct_eq,
      ask_after_ask hstored hkey] at hpayload
    exact hpayload.symm
  · intro hcalls
    have hseparates : Separates (R := s.Request) Request.key Request.payload
        Request.stored := by
      intro r r' hstored hkey
      by_cases hcalled : r.called = r'.called
      · exact congrArg CallResult.payload (Request.call_eq_of_called_eq hstored hcalled)
      · exact hcalls r r' hcalled hkey hstored
    intro events
    exact along_of_invariant (fun _ _ _ => sound_step)
      (fun _ e hsound => transparent_of_separates hseparates hsound e) sound_empty events

/-- A cacheable method of two strings; its response is the length of the first. -/
def firstLength : MethodType Unit Empty String where
  authLevel := .none
  cacheAble := true
  numIn := 2
  convert := fun _ arg =>
    match arg with
    | .text t => .value t
    | .other _ => .refused
  mValue := fun _ vs => .values (.ok [UInt8.ofNat (vs.headD "").length]) none
  pure_of_cacheAble := fun _ _ _ _ => rfl

def firstLengthServer : Server Unit Empty String where
  methodMap := fun name => if name = "f" then some firstLength else none
  level := fun _ => .none
  unmarshal := fun payload =>
    if payload = ascii "[\"a b\",\"c\"]" then .ok [.text "a b", .text "c"]
    else if payload = ascii "[\"a\",\"b c\"]" then .ok [.text "a", .text "b c"]
    else .error "invalid"
  printOther := Empty.elim

/-- `"a b", "c"` and `"a", "b c"` have one key: the second request gets the first response. -/
theorem second_call_gets_first_response :
    let first : Message := ⟨"1", "f", "", ascii "[\"a b\",\"c\"]"⟩
    let second : Message := ⟨"2", "f", "", ascii "[\"a\",\"b c\"]"⟩
    let cache := (firstLengthServer.handleMessage (fun _ => none) () first true).2
    firstLengthServer.Authorised first ∧ firstLengthServer.Authorised second ∧
      (firstLengthServer.handleMessage cache () second true).1.Payload = [3] ∧
      firstLengthServer.direct () second = [1] := by
  exact ⟨rfl, rfl, rfl, rfl⟩

end Server

open CallResult

namespace MethodType

variable {W O V : Type} (m : MethodType W O V) (w : W) (inArgs : List (Arg O))

def Succeeds : Prop :=
  m.numIn = inArgs.length ∧ ∃ vs, m.convertArgs 0 inArgs = .value vs ∧
    (m.mValue w vs = .nothing ∨ ∃ encoded, m.mValue w vs = .values encoded none)

def Panics : Prop :=
  m.numIn = inArgs.length ∧ (m.convertArgs 0 inArgs = .panics ∨
    ∃ vs, m.convertArgs 0 inArgs = .value vs ∧ m.mValue w vs = .panics)

variable {m w inArgs}

theorem Call_of_panics (hpanics : m.Panics w inArgs) : m.Call w inArgs = .done [] none := by
  obtain ⟨hlen, hargs | ⟨vs, hargs, hcall⟩⟩ := hpanics
  · simp [Call, hlen, hargs]
  · simp [Call, hlen, hargs, hcall]

theorem not_panics_of_succeeds (hsucceeds : m.Succeeds w inArgs) : ¬ m.Panics w inArgs := by
  obtain ⟨-, vs, hargs, hcall⟩ := hsucceeds
  rintro ⟨-, hpanics⟩
  simp only [hargs, reduceCtorEq, Converted.value.injEq, false_or, exists_eq_left'] at hpanics
  simp [hpanics] at hcall

theorem succeeds_or_panics_of_noErr (hnoErr : (m.Call w inArgs).errMsg.Errtype = .noErr) :
    m.Succeeds w inArgs ∨ m.Panics w inArgs := by
  unfold Call at hnoErr
  by_cases hlen : m.numIn = inArgs.length
  · rw [if_neg (not_not_intro hlen)] at hnoErr
    cases hargs : m.convertArgs 0 inArgs with
    | refused => simp [hargs, errMsg] at hnoErr
    | panics => exact .inr ⟨hlen, .inl hargs⟩
    | value vs =>
      cases hcall : m.mValue w vs with
      | panics => exact .inr ⟨hlen, .inr ⟨vs, hargs, hcall⟩⟩
      | nothing => exact .inl ⟨hlen, vs, hargs, .inl hcall⟩
      | values encoded err =>
        refine .inl ⟨hlen, vs, hargs, .inr ⟨encoded, ?_⟩⟩
        cases encoded with
        | error => simp [hargs, hcall, errMsg] at hnoErr
        | ok => cases err with
          | none => exact hcall
          | some => simp [hargs, hcall, errMsg] at hnoErr
  · simp [hlen, errMsg] at hnoErr

end MethodType

namespace Server

variable {W O V : Type} {s : Server W O V}

def Request.Calls (r : s.Request) (P : MethodType W O V → W → List (Arg O) → Prop) : Prop :=
  ∃ method, s.methodMap r.message.MethodName = some method ∧ P method r.w r.inArgs

theorem Request.method_exists (r : s.Request) :
    ∃ method, s.methodMap r.message.MethodName = some method := by
  cases hmethod : s.methodMap r.message.MethodName with
  | some method => exact ⟨method, rfl⟩
  | none =>
    have hauthorised := r.authorised
    simp [Authorised, Verify, hmethod] at hauthorised

theorem Request.succeeds_of_noErr {r : s.Request}
    (hnoErr : (s.call r.w r.message.MethodName r.inArgs).errMsg.Errtype = .noErr)
    (hpanics : ¬ r.Calls Panics) : r.Calls Succeeds := by
  obtain ⟨method, hmethod⟩ := r.method_exists
  simp only [call, hmethod] at hnoErr
  refine ⟨method, hmethod, ?_⟩
  exact (succeeds_or_panics_of_noErr hnoErr).resolve_right
    fun h => hpanics ⟨method, hmethod, h⟩

theorem Request.eq_of_message {r r' : s.Request} (hw : r'.w = r.w)
    (hmessage : r'.message = r.message) : r' = r := by
  obtain ⟨w, message, inArgs, _, hread⟩ := r
  obtain ⟨w', message', inArgs', _, hread'⟩ := r'
  cases hw
  cases hmessage
  cases hread.symm.trans hread'
  rfl

theorem Request.noErr_of_stored {r : s.Request} (hstored : r.stored = true) :
    (s.call r.w r.message.MethodName r.inArgs).errMsg.Errtype = .noErr := by
  rw [stored, cached, Bool.and_eq_true, decide_eq_true_eq] at hstored
  exact hstored.2

/-- The cached responses are of successful calls, and a request that is answered without an error is
one whose call succeeds. -/
def Reports (s : Server W O V) (cache : String → Option Bytes) (e : ServerEvent W) : Prop :=
  (∀ k v, cache k = some v → ∃ r : s.Request, r.Calls Succeeds ∧ r.key = k ∧ r.payload = v) ∧
    ∀ w message kept, e = .request w message kept →
      (s.handleMessage cache w message kept).1.ErrMsg.Errtype = .noErr →
      ∃ r : s.Request, r.w = w ∧ r.message = message ∧ r.Calls Succeeds

theorem handleMessage_noErr_iff {cache : String → Option Bytes} {w : W} {message : Message}
    {kept : Bool} : (s.handleMessage cache w message kept).1.ErrMsg.Errtype = .noErr ↔
      ∃ r : s.Request, r.w = w ∧ r.message = message ∧ (cache r.key = none →
        (s.call r.w r.message.MethodName r.inArgs).errMsg.Errtype = .noErr) := by
  constructor
  · intro hnoErr
    unfold handleMessage at hnoErr
    split at hnoErr
    next => cases hnoErr
    next => cases hnoErr
    next hverify =>
      split at hnoErr
      next => cases hnoErr
      next inArgs hread =>
        refine ⟨⟨w, message, inArgs, hverify, hread⟩, rfl, rfl, fun hmiss => ?_⟩
        rw [show cache (s.cacheKey message.MethodName inArgs) = none from hmiss] at hnoErr
        exact hnoErr
  · rintro ⟨r, rfl, rfl, hcall⟩
    have hverify : s.Verify r.message.AuthCode r.message.MethodName = .ok true := r.authorised
    simp only [handleMessage, hverify, r.read]
    cases hval : cache (s.cacheKey r.message.MethodName r.inArgs) with
    | some val => rfl
    | none => exact hcall hval

/-- **When failures are reported**: exactly when no call panics, and no response is cached under the
key of another call that does not succeed. -/
theorem failuresReported_iff (s : Server W O V) :
    (∀ events : List (ServerEvent W), Along s.step s.Reports (fun _ => none) events) ↔
      (∀ r : s.Request, ¬ r.Calls Panics) ∧ ∀ r r' : s.Request, r.called ≠ r'.called →
        r.key = r'.key → r.stored = true → r'.Calls Succeeds := by
  constructor
  · intro hall
    refine ⟨?_, fun r r' _ hkey hstored => ?_⟩
    · rintro r ⟨method, hmethod, hpanics⟩
      obtain ⟨r', hw, hmessage, method', hmethod', hsucceeds⟩ :=
        (hall [.request r.w r.message false]).1.2 r.w r.message false rfl
          (handleMessage_noErr_iff.mpr ⟨r, rfl, rfl, fun _ => by
            simp [call, hmethod, Call_of_panics hpanics, errMsg]⟩)
      cases Request.eq_of_message hw hmessage
      cases hmethod.symm.trans hmethod'
      exact not_panics_of_succeeds hsucceeds hpanics
    · obtain ⟨_, hsecond⟩ :=
        hall [.request r.w r.message true, .request r'.w r'.message true]
      obtain ⟨⟨-, hreports⟩, -⟩ := hsecond _ rfl
      obtain ⟨r'', hw, hmessage, hsucceeds⟩ := hreports r'.w r'.message true rfl
        (handleMessage_noErr_iff.mpr ⟨r', rfl, rfl, fun hmiss => by
          rw [(handleMessage_request r _ true).2] at hmiss
          simp [ask, hstored, hkey] at hmiss⟩)
      exact Request.eq_of_message hw hmessage ▸ hsucceeds
  · rintro ⟨hpanics, hkeys⟩ events
    refine along_of_invariant (fun _ _ _ => sound_step) ?_ sound_empty events
    intro cache e hsound
    refine ⟨fun k v hv => ?_, fun w message kept _ hnoErr => ?_⟩
    · obtain ⟨r, hstored, hkey, hpayload⟩ := hsound k v hv
      exact ⟨r, Request.succeeds_of_noErr (Request.noErr_of_stored hstored) (hpanics r), hkey,
        hpayload⟩
    · obtain ⟨r, hw, hmessage, hnoErr⟩ := handleMessage_noErr_iff.mp hnoErr
      refine ⟨r, hw, hmessage, ?_⟩
      cases hval : cache r.key with
      | none => exact Request.succeeds_of_noErr (hnoErr hval) (hpanics r)
      | some val =>
        obtain ⟨r', hstored, hkey, -⟩ := hsound _ _ hval
        by_cases hcalled : r'.called = r.called
        · refine Request.succeeds_of_noErr ?_ (hpanics r)
          rw [Request.call_eq_of_called_eq hstored hcalled]
          exact Request.noErr_of_stored hstored
        · exact hkeys r' r hcalled hkey hstored

def nullServer : Server Unit Unit Empty where
  methodMap := fun _ => some
    { authLevel := .none
      cacheAble := true
      numIn := 1
      convert := fun _ arg =>
        match arg with
        | .text _ => .refused
        | .other _ => .panics
      mValue := fun _ _ => .nothing
      pure_of_cacheAble := fun _ _ _ _ => rfl }
  level := fun _ => .none
  unmarshal := fun _ => .ok [.other ()]
  printOther := fun _ => "<invalid reflect.Value>"

/-- The call panics; the response has no error and is cached. -/
theorem null_argument_cached :
    let result := nullServer.handleMessage (fun _ => none) () ⟨"1", "f", "", ascii "[null]"⟩ true
    result.1.ErrMsg = ⟨.noErr, ""⟩ ∧ result.1.Payload = [] ∧
      result.2 "f_[<invalid reflect.Value>]" = some [] := by
  exact ⟨rfl, rfl, rfl⟩

end Server

end Topia.Rpc
