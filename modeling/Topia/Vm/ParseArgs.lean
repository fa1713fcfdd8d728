import Topia.Crypt.Address

/-!
# The arguments of a contract method

`ParseArgs` of `vm/service/context_vm.go`: the text of the arguments is split at the separator, and
every part is read as the type of its parameter says.

The cases of integers and booleans set the pointer that `reflect.New` returns, which panics; only
the case of strings sets what it points to. For slices, maps and pointers `json.Unmarshal` gets a
`reflect.Value`, which is no pointer, so there is always an error. Arrays and structures are not
read at all.
-/

namespace Topia.Vm

open Crypt (hexEncode)

section Types

inductive IntSize where
  | native
  | bits8
  | bits16
  | bits32
  | bits64
deriving DecidableEq, Repr

def IntSize.bits : IntSize → Nat
  | .native => 64
  | .bits8 => 8
  | .bits16 => 16
  | .bits32 => 32
  | .bits64 => 64

inductive Kind where
  | bool
  | int (size : IntSize)
  | uint (size : IntSize)
  | string
  | slice
  | map
  | ptr
  | array
  | struct
deriving DecidableEq, Repr

structure ParamType (τ : Type) where
  Kind : Kind
  type : τ

inductive ArgValue (V : Type) where
  | bool (val : Bool)
  | int (val : Int)
  | uint (val : Nat)
  | string (val : Bytes)
  | json (val : V)
  | zero
deriving DecidableEq, Repr

inductive ArgError where
  | invalidArgs (length expected : Nat)
  | parseInt (arg : Bytes)
  | parseUint (arg : Bytes)
  | parseBool (arg : Bytes)
  | hex (arg : Bytes)
  | invalidJSON
  | invalidUnmarshal (kind : Kind)
deriving DecidableEq, Repr

/-- JSON for parameter types; every type has a value with a text. -/
structure JsonTypes (τ V : Type) where
  valid : Bytes → Bool
  read : τ → Bytes → Option V
  Writes : τ → V → Bytes → Prop
  exists_writes : ∀ type, ∃ v doc, Writes type v doc

end Types

section Reflect

structure Value where
  Kind : Kind
  assignable : Bool
deriving DecidableEq, Repr

def New : Value := ⟨.ptr, false⟩

def Elem (kind : Kind) : Value := ⟨kind, true⟩

variable {V : Type}

variable (v : Value) (x : Bytes)

/-- `SetInt`; `none` is a panic, as in the other ones. -/
def Value.SetInt (x : Int) : Option (ArgValue V) :=
  match v.assignable, v.Kind with
  | true, .int _ => some (.int x)
  | _, _ => none

def Value.SetUint (x : Nat) : Option (ArgValue V) :=
  match v.assignable, v.Kind with
  | true, .uint _ => some (.uint x)
  | _, _ => none

def Value.SetBool (x : Bool) : Option (ArgValue V) :=
  match v.assignable, v.Kind with
  | true, .bool => some (.bool x)
  | _, _ => none

def Value.SetString : Option (ArgValue V) :=
  match v.assignable, v.Kind with
  | true, .string => some (.string x)
  | _, _ => none

@[simp] theorem SetString_Elem :
    ((Elem .string).SetString x : Option (ArgValue V)) = some (.string x) := rfl

def jsonUnmarshal {τ : Type} (json : JsonTypes τ V) (type : τ) (data : Bytes) (kind : Kind) :
    Except ArgError V :=
  if json.valid data then
    match kind with
    | .ptr =>
      match json.read type data with
      | none => .error .invalidJSON
      | some v => .ok v
    | _ => .error (.invalidUnmarshal kind)
  else .error .invalidJSON

def boxedKind : Kind := .struct

theorem jsonUnmarshal_boxed {τ : Type} (json : JsonTypes τ V) (type : τ) (data : Bytes) :
    ∃ err, jsonUnmarshal json type data boxedKind = .error err := by
  unfold jsonUnmarshal
  split_ifs
  · exact ⟨_, rfl⟩
  · exact ⟨_, rfl⟩

end Reflect

open List

section Parse

variable {τ V : Type} {json : JsonTypes τ V} {paramType : ParamType τ}
  {paramTypes : List (ParamType τ)} {arg : Bytes} {args : List Bytes}

def ContractMethodArgs_Separation : UInt8 := 64

def parseInt (s : Bytes) : Option Int :=
  match s with
  | 45 :: digits => (parseUint digits).bind fun n => if n ≤ 2 ^ 63 then some (-n) else none
  | 43 :: digits => (parseUint digits).bind fun n => if n < 2 ^ 63 then some n else none
  | digits => (parseUint digits).bind fun n => if n < 2 ^ 63 then some n else none

def parseBool (s : Bytes) : Option Bool :=
  if ["1", "t", "T", "TRUE", "true", "True"].any fun text => s == ascii text then some true
  else if ["0", "f", "F", "FALSE", "false", "False"].any fun text => s == ascii text then
    some false
  else none

def fromHexChar (c : UInt8) : Option UInt8 :=
  if 48 ≤ c ∧ c ≤ 57 then some (c - 48)
  else if 97 ≤ c ∧ c ≤ 102 then some (c - 87)
  else if 65 ≤ c ∧ c ≤ 70 then some (c - 55)
  else none

def hexDecode : Bytes → Option Bytes
  | [] => some []
  | [_] => none
  | c :: d :: rest => do
      let a ← fromHexChar c
      let b ← fromHexChar d
      let bytes ← hexDecode rest
      return (a * 16 + b) :: bytes

def parseArg (json : JsonTypes τ V) (paramType : ParamType τ) (arg : Bytes) :
    Option (Except ArgError (ArgValue V)) :=
  match paramType.Kind with
  | .int _ =>
    match parseInt arg with
    | none => some (.error (.parseInt arg))
    | some pVal => (New.SetInt pVal).map .ok
  | .uint _ =>
    match parseUint arg with
    | none => some (.error (.parseUint arg))
    | some pVal => (New.SetUint pVal).map .ok
  | .string => ((Elem .string).SetString arg).map .ok
  | .bool =>
    match parseBool arg with
    | none => some (.error (.parseBool arg))
    | some pVal => (New.SetBool pVal).map .ok
  -- no case of the code reads an array or a structure
  | .array => some (.ok .zero)
  | .struct => some (.ok .zero)
  | .slice | .map | .ptr =>
    match hexDecode arg with
    | none => some (.error (.hex arg))
    | some paramBytes =>
      match jsonUnmarshal json paramType.type paramBytes boxedKind with
      | .error err => some (.error err)
      | .ok v => some (.ok (.json v))

def parseLoop (json : JsonTypes τ V) :
    List (ParamType τ) → List Bytes → Option (Except ArgError (List (ArgValue V)))
  | paramType :: paramTypes, arg :: args =>
    match parseArg json paramType arg with
    | none => none
    | some (.error err) => some (.error err)
    | some (.ok argValue) =>
      (parseLoop json paramTypes args).map fun rest => rest.map (argValue :: ·)
  | _, _ => some (.ok [])

def ParseArgs (json : JsonTypes τ V) (Args : Bytes) (paramTypes : List (ParamType τ)) :
    Option (Except ArgError (List (ArgValue V))) :=
  let args := Args.splitOn ContractMethodArgs_Separation
  if args.length ≠ paramTypes.length then
    some (.error (.invalidArgs args.length paramTypes.length))
  else parseLoop json paramTypes args

theorem parseArg_cases {argValue : ArgValue V}
    (hok : parseArg json paramType arg = some (.ok argValue)) :
    (paramType.Kind = .string ∧ argValue = .string arg) ∨
      ((paramType.Kind = .array ∨ paramType.Kind = .struct) ∧ argValue = .zero) := by
  unfold parseArg at hok
  split at hok
  · split at hok <;> cases hok
  · split at hok <;> cases hok
  · next hkind =>
      cases hok
      exact .inl ⟨hkind, rfl⟩
  · split at hok <;> cases hok
  · next hkind =>
      cases hok
      exact .inr ⟨.inl hkind, rfl⟩
  · next hkind =>
      cases hok
      exact .inr ⟨.inr hkind, rfl⟩
  all_goals
    split at hok
    · cases hok
    · next paramBytes _ =>
        obtain ⟨err, herr⟩ := jsonUnmarshal_boxed json paramType.type paramBytes
        simp only [herr] at hok
        cases hok

theorem parseArg_string (hkind : paramType.Kind = .string) :
    parseArg json paramType arg = some (.ok (.string arg)) := by
  unfold parseArg
  simp [hkind, SetString_Elem]

theorem parseLoop_ok {argValues : List (ArgValue V)} (hlength : args.length = paramTypes.length)
    (hok : parseLoop json paramTypes args = some (.ok argValues)) :
    ∀ paramType ∈ paramTypes,
      paramType.Kind = .string ∨ paramType.Kind = .array ∨ paramType.Kind = .struct := by
  induction paramTypes generalizing args argValues with
  | nil => simp
  | cons paramType paramTypes ih =>
    cases args with
    | nil => cases hlength
    | cons arg args =>
      unfold parseLoop at hok
      split at hok
      · cases hok
      · cases hok
      next argValue hfirst =>
        obtain ⟨rest, hrest, hmap⟩ := Option.map_eq_some_iff.mp hok
        cases rest with
        | error err => cases hmap
        | ok restValues =>
          refine forall_mem_cons.mpr ⟨?_, ih (Nat.succ.inj hlength) hrest⟩
          exact (parseArg_cases hfirst).imp And.left And.left

theorem parseLoop_strings (hlength : args.length = paramTypes.length)
    (hstrings : ∀ paramType ∈ paramTypes, paramType.Kind = .string) :
    parseLoop json paramTypes args = some (.ok (args.map .string)) := by
  induction paramTypes generalizing args with
  | nil =>
    cases args with
    | nil => rfl
    | cons arg args => cases hlength
  | cons paramType paramTypes ih =>
    cases args with
    | nil => cases hlength
    | cons arg args =>
      obtain ⟨hfirst, hrest⟩ := forall_mem_cons.mp hstrings
      unfold parseLoop
      rw [parseArg_string hfirst]
      simp only [ih (Nat.succ.inj hlength) hrest]
      rfl

end Parse

section Main

variable {τ V : Type} {json : JsonTypes τ V} {paramTypes : List (ParamType τ)}

def formatInt : Int → Bytes
  | .ofNat n => formatUint n
  | .negSucc n => 45 :: formatUint (n + 1)

inductive TextOf (json : JsonTypes τ V) : ParamType τ → ArgValue V → Bytes → Prop
  | int (size : IntSize) (type : τ) (val : Int)
      (hrange : -(2 ^ (size.bits - 1)) ≤ val ∧ val < 2 ^ (size.bits - 1)) :
      TextOf json ⟨.int size, type⟩ (.int val) (formatInt val)
  | uint (size : IntSize) (type : τ) (val : Nat) (hrange : val < 2 ^ size.bits) :
      TextOf json ⟨.uint size, type⟩ (.uint val) (formatUint val)
  | bool (type : τ) (val : Bool) :
      TextOf json ⟨.bool, type⟩ (.bool val) (ascii (if val then "true" else "false"))
  | string (type : τ) (val : Bytes) (hsep : ContractMethodArgs_Separation ∉ val) :
      TextOf json ⟨.string, type⟩ (.string val) val
  | json (kind : Kind) (type : τ) (v : V) (doc : Bytes)
      (hkind : kind = .slice ∨ kind = .map ∨ kind = .ptr) (hdoc : json.Writes type v doc) :
      TextOf json ⟨kind, type⟩ (.json v) (hexEncode doc)

def Malformed (json : JsonTypes τ V) (paramType : ParamType τ) (arg : Bytes) : Prop :=
  match paramType.Kind with
  | .int size => ∀ val, parseInt arg = some val →
      ¬ (-(2 ^ (size.bits - 1)) ≤ val ∧ val < 2 ^ (size.bits - 1))
  | .uint size => ∀ val, parseUint arg = some val → ¬ val < 2 ^ size.bits
  | .bool => parseBool arg = none
  | .string => False
  | .slice | .map | .ptr => ∀ doc, hexDecode arg = some doc → json.read paramType.type doc = none
  | .array | .struct => False

def HasTextForm (paramType : ParamType τ) : Prop :=
  paramType.Kind ≠ .array ∧ paramType.Kind ≠ .struct

/-- Texts of values give them, nothing panics, and a part that is no value is an error. -/
structure ReadsArgs (json : JsonTypes τ V) (paramTypes : List (ParamType τ)) : Prop where
  decodes : ∀ typed : List (ParamType τ × ArgValue V × Bytes), typed.map Prod.fst = paramTypes →
    (∀ entry ∈ typed, TextOf json entry.1 entry.2.1 entry.2.2) →
    ParseArgs json ([ContractMethodArgs_Separation].intercalate (typed.map fun entry => entry.2.2))
      paramTypes = some (.ok (typed.map fun entry => entry.2.1))
  noPanic : ∀ Args, ParseArgs json Args paramTypes ≠ none
  reports : ∀ Args, (∃ entry ∈ paramTypes.zip (Args.splitOn ContractMethodArgs_Separation),
      Malformed json entry.1 entry.2) →
    ∃ err, ParseArgs json Args paramTypes = some (.error err)

theorem sep_not_mem_formatUint (n : Nat) : ContractMethodArgs_Separation ∉ formatUint n := by
  intro hmem
  exact absurd (digit_of_mem_formatUint hmem).2 (by decide)

theorem hexDigit_ne_sep {d : UInt8} (hd : d < 16) :
    (if d < 10 then d + 48 else d + 87) ≠ ContractMethodArgs_Separation := by
  have hsmall : d.toNat < 16 := UInt8.lt_iff_toNat_lt.mp hd
  intro hsep
  split_ifs at hsep
  · have hvalue : (d.toNat + 48) % 256 = 64 := congrArg UInt8.toNat hsep
    omega
  · have hvalue : (d.toNat + 87) % 256 = 64 := congrArg UInt8.toNat hsep
    omega

theorem sep_not_mem_hexEncode (doc : Bytes) : ContractMethodArgs_Separation ∉ hexEncode doc := by
  intro hmem
  obtain ⟨c, _, hc⟩ := mem_flatMap.mp hmem
  obtain ⟨d, hd, hdigit⟩ := mem_map.mp hc
  refine hexDigit_ne_sep ?_ hdigit
  rw [UInt8.lt_iff_toNat_lt]
  rcases mem_cons.mp hd with rfl | hd
  · exact Nat.div_lt_of_lt_mul c.toNat_lt
  · rw [mem_singleton.mp hd, UInt8.toNat_mod]
    exact Nat.mod_lt _ (by decide)

theorem sep_not_mem_of_textOf {paramType : ParamType τ} {argValue : ArgValue V} {arg : Bytes}
    (htext : TextOf json paramType argValue arg) : ContractMethodArgs_Separation ∉ arg := by
  cases htext with
  | int size type val hrange =>
    cases val with
    | ofNat n => exact sep_not_mem_formatUint n
    | negSucc n =>
      intro hmem
      rcases mem_cons.mp hmem with hminus | hdigits
      · exact absurd hminus (by decide)
      · exact sep_not_mem_formatUint (n + 1) hdigits
  | uint size type val hrange => exact sep_not_mem_formatUint val
  | bool type val => cases val <;> decide
  | string type val hsep => exact hsep
  | json kind type v doc hkind hdoc => exact sep_not_mem_hexEncode doc

theorem exists_text (json : JsonTypes τ V) {paramType : ParamType τ}
    (hform : HasTextForm paramType) :
    ∃ argValue arg, TextOf json paramType argValue arg := by
  obtain ⟨kind, type⟩ := paramType
  obtain ⟨v, doc, hdoc⟩ := json.exists_writes type
  cases kind with
  | bool => exact ⟨_, _, .bool type true⟩
  | int size =>
    have hpos : (0 : Int) < 2 ^ (size.bits - 1) := Int.pow_pos (by decide)
    exact ⟨_, _, .int size type 0 ⟨by omega, hpos⟩⟩
  | uint size => exact ⟨_, _, .uint size type 0 (Nat.two_pow_pos _)⟩
  | string => exact ⟨_, _, .string type [] (by simp)⟩
  | slice => exact ⟨_, _, .json .slice type v doc (.inl rfl) hdoc⟩
  | map => exact ⟨_, _, .json .map type v doc (.inr (.inl rfl)) hdoc⟩
  | ptr => exact ⟨_, _, .json .ptr type v doc (.inr (.inr rfl)) hdoc⟩
  | array => exact absurd rfl hform.1
  | struct => exact absurd rfl hform.2

theorem exists_texts (json : JsonTypes τ V)
    (hforms : ∀ paramType ∈ paramTypes, HasTextForm paramType) :
    ∃ typed : List (ParamType τ × ArgValue V × Bytes), typed.map Prod.fst = paramTypes ∧
      ∀ entry ∈ typed, TextOf json entry.1 entry.2.1 entry.2.2 := by
  induction paramTypes with
  | nil => exact ⟨[], rfl, by simp⟩
  | cons paramType paramTypes ih =>
    obtain ⟨hform, hforms⟩ := forall_mem_cons.mp hforms
    obtain ⟨argValue, arg, htext⟩ := exists_text json hform
    obtain ⟨typed, rfl, htexts⟩ := ih hforms
    exact ⟨(paramType, argValue, arg) :: typed, rfl, forall_mem_cons.mpr ⟨htext, htexts⟩⟩

theorem ParseArgs_join {parts : List Bytes} (hne : parts ≠ [])
    (hsep : ∀ part ∈ parts, ContractMethodArgs_Separation ∉ part)
    (hlength : parts.length = paramTypes.length) :
    ParseArgs json ([ContractMethodArgs_Separation].intercalate parts) paramTypes =
      parseLoop json paramTypes parts := by
  unfold ParseArgs
  simp [splitOn_intercalate _ hsep hne, hlength]

theorem readsArgs_of_strings (hne : paramTypes ≠ [])
    (hstrings : ∀ paramType ∈ paramTypes, paramType.Kind = .string) :
    ReadsArgs json paramTypes := by
  refine ⟨?_, ?_, ?_⟩
  · rintro typed rfl htexts
    have hparts : typed.map (fun entry => entry.2.2) ≠ [] := by simpa using hne
    rw [ParseArgs_join hparts _ (by simp), parseLoop_strings (by simp) hstrings]
    · rw [map_map, Option.some.injEq, Except.ok.injEq]
      refine map_congr_left ?_
      rintro ⟨paramType, argValue, arg⟩ hentry
      have htext : TextOf json paramType argValue arg := htexts _ hentry
      have hkind : paramType.Kind = .string := hstrings _ (mem_map_of_mem hentry)
      cases htext with
      | string type val hsep => rfl
      | json kind type v doc hother hdoc =>
        rcases hother with rfl | rfl | rfl <;> cases hkind
      | _ => cases hkind
    · intro part hpart
      obtain ⟨entry, hentry, rfl⟩ := mem_map.mp hpart
      exact sep_not_mem_of_textOf (htexts entry hentry)
  · intro Args
    unfold ParseArgs
    dsimp only
    split_ifs with hlength
    · simp
    · rw [parseLoop_strings (not_not.mp hlength) hstrings]
      simp
  · rintro Args ⟨entry, hentry, hmalformed⟩
    have hkind := hstrings entry.1 (of_mem_zip hentry).1
    simp only [Malformed, hkind] at hmalformed

/-- **The arguments of a contract method** are read as they should be exactly when there are
parameters and all are strings. -/
theorem parseArgs_iff (json : JsonTypes τ V) (paramTypes : List (ParamType τ)) :
    ((∀ paramType ∈ paramTypes, HasTextForm paramType) ∧ ReadsArgs json paramTypes) ↔
      paramTypes ≠ [] ∧ ∀ paramType ∈ paramTypes, paramType.Kind = .string := by
  constructor
  · rintro ⟨hforms, hreads⟩
    obtain ⟨typed, rfl, htexts⟩ := exists_texts json hforms
    have hdecoded := hreads.decodes typed rfl htexts
    cases typed with
    | nil =>
      cases hdecoded
    | cons first rest =>
      refine ⟨by simp, ?_⟩
      rw [ParseArgs_join (by simp) _ (by simp)] at hdecoded
      · intro paramType hmem
        have hkinds := parseLoop_ok (by simp) hdecoded paramType hmem
        exact hkinds.resolve_right fun hother =>
          hother.elim (hforms paramType hmem).1 (hforms paramType hmem).2
      · intro part hpart
        obtain ⟨entry, hentry, rfl⟩ := mem_map.mp hpart
        exact sep_not_mem_of_textOf (htexts entry hentry)
  · rintro ⟨hne, hstrings⟩
    refine ⟨fun paramType hmem => ?_, readsArgs_of_strings hne hstrings⟩
    rw [HasTextForm, hstrings paramType hmem]
    exact ⟨by decide, by decide⟩

def emptyLists : JsonTypes Unit Unit where
  valid data := data == ascii "[]"
  read _ data := if data = ascii "[]" then some () else none
  Writes _ _ doc := doc = ascii "[]"
  exists_writes _ := ⟨(), _, rfl⟩

/-- A number panics, a list is an error, so is any text without parameters; an array is accepted. -/
theorem parseArgs_panics :
    ParseArgs emptyLists (ascii "5") [⟨.int .native, ()⟩] = none ∧
      ParseArgs emptyLists (hexEncode (ascii "[]")) [⟨.slice, ()⟩] =
        some (.error (.invalidUnmarshal .struct)) ∧
      ParseArgs emptyLists [] [] = some (.error (.invalidArgs 1 0)) ∧
      ParseArgs emptyLists (ascii "no array") [⟨.array, ()⟩] = some (.ok [.zero]) := by
  decide +kernel

end Main

end Topia.Vm
