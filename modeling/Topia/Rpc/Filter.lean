import Topia.Common

/-!
# Conditions of event filters

`api/rpc/filter`: a condition compares a field of the data of an event, which may be nested in
structures, with a value that is read from text as the kind of the field asks, found in the data
that were registered. Both searches for the field return what the first nested structure gives, and
do not go on behind it. A timestamp without a time is the start of its day for some operators, and
the end for others.
-/

namespace Topia.Rpc.Filter

open List

inductive Operator where
  | unknown | eq | ne | gt | lt | gte | lte | contains | exist
deriving DecidableEq

/-- The kinds of `reflect`: `int8` is `int true (some 8)`, `uint` is `int false none`. -/
inductive Kind where
  | int (signed : Bool) (size : Option Nat)
  | float (size : Nat)
  | string
  | slice
  | other
deriving DecidableEq

structure Field (F : Type) where
  name : Bytes
  kind : Kind
  ofBytes : Bool
  int : Int
  float : F
  text : Bytes

def Field.notBytes {F : Type} (f : Field F) : Bool := f.kind = .slice && !f.ofBytes

/-- A nil pointer to a structure is searched as a field. -/
def Field.asPointer {F : Type} (f : Field F) : Field F := { f with kind := .other }

/-- The fields of a structure with the values of the event, and the pointers to structures, which
may be set in the registered data (`isSet.1`) and in those of the event (`isSet.2`). -/
inductive Fields (F : Type) where
  | nil
  | field (f : Field F) (rest : Fields F)
  | struct (inner rest : Fields F)
  | pointer (f : Field F) (isSet : Bool × Bool) (inner rest : Fields F)

inductive Data (F : Type) where
  | none
  | int (x : Int)
  | float (x : F)
  | text (t : Bytes)

structure Condition (F : Type) where
  field : Bytes
  operator : Operator
  data : Data F
  dataType : Kind

/-- Lower case, the texts of numbers, of times and of days, in nanoseconds, and the comparison of
floats. -/
structure FilterEnv (F : Type) where
  toLower : Bytes → Bytes
  parseInt : Bool → Nat → Bytes → Option Int
  parseFloat : Nat → Bytes → Option F
  (parseTime parseDate : Bytes → Option Int)
  compareFloat : Operator → F → F → Bool

def hasText (s t : Bytes) : Bool := s.tails.any t.isPrefixOf

variable {F : Type} (env : FilterEnv F)

section Conditions

def compareInt (x d : Int) : Operator → Bool
  | .eq => x = d
  | .ne => x ≠ d
  | .gt => d < x
  | .lt => x < d
  | .gte => d ≤ x
  | .lte => x ≤ d
  | _ => false

def compareText (s t : Bytes) : Operator → Bool
  | .eq => s = t
  | .ne => s ≠ t
  | .contains => hasText s t
  | _ => false

/-- The comparison of a field of the name; `none` when the loop goes on behind it. -/
def Condition.compare (c : Condition F) (f : Field F) : Option Bool :=
  if c.operator = .exist then some true
  else if f.kind ≠ c.dataType then none
  else
    match c.dataType, c.data with
    | .int _ _, .int d => some (compareInt f.int d c.operator)
    | .float _, .float d => some (env.compareFloat c.operator f.float d)
    | .string, .text t => some (compareText f.text t c.operator)
    | .slice, .text t => if f.ofBytes then some (compareText f.text t c.operator) else none
    | _, _ => none

def Condition.pass (c : Condition F) : Fields F → Bool
  | .nil => false
  | .field f rest =>
    if env.toLower f.name = c.field then (c.compare env f).getD (c.pass rest) else c.pass rest
  | .struct inner _ => c.pass inner
  | .pointer f isSet inner rest =>
    if isSet.2 then c.pass inner
    else if env.toLower f.name = c.field then
      (c.compare env f.asPointer).getD (c.pass rest) else c.pass rest

def findFieldName (fieldName : Bytes) : Fields F → Option Kind
  | .nil => none
  | .field f rest =>
    if env.toLower f.name = fieldName then
      if f.notBytes then findFieldName fieldName rest else some f.kind
    else findFieldName fieldName rest
  | .struct inner _ => findFieldName fieldName inner
  | .pointer f isSet inner rest =>
    if isSet.1 then findFieldName fieldName inner
    else if env.toLower f.name = fieldName then some .other else findFieldName fieldName rest

def isValidFieldName (fieldName : Bytes) (d : Fields F) : Option Kind :=
  findFieldName env (env.toLower fieldName) d

def endOfDay : Int := 24 * 3600 * 10 ^ 9 - 10 ^ 6

/-- The number for an integer field: a `uint64` field may be a timestamp. -/
def completeInt (signed : Bool) (size : Option Nat) (field text : Bytes) (op : Operator) :
    Option Int :=
  if op = .contains then none
  else if signed = false ∧ size = some 64 ∧ hasText field (ascii "timestamp") then
    match env.parseTime text with
    | some t => some (t % 2 ^ 64)
    | none => (env.parseDate text).map fun d =>
        if op = .gt ∨ op = .gte then (d + endOfDay) % 2 ^ 64 else d % 2 ^ 64
  else env.parseInt signed (size.getD 64) text

def completeData (field text : Bytes) (op : Operator) : Kind → Option (Data F)
  | .int signed size => (completeInt env signed size field text op).map Data.int
  | .float size => if op = .contains then none else (env.parseFloat size text).map Data.float
  | .string | .slice =>
    if op = .eq ∨ op = .ne ∨ op = .contains then some (.text text) else none
  | .other => none

def complete (kind : Kind) (field text : Bytes) (op : Operator) : Option (Condition F) :=
  if op = .unknown then none
  else if op = .exist then some ⟨field, op, .none, .other⟩
  else (completeData env field text op kind).map (⟨field, op, ·, kind⟩)

end Conditions

section Lookup

namespace Fields

def all : Fields F → List (Field F)
  | nil => []
  | field f rest => f :: rest.all
  | struct inner rest => inner.all ++ rest.all
  | pointer f _ inner rest => f.asPointer :: (inner.all ++ rest.all)

/-- The fields up to the end of the first nested structure, with the pointers of one side. -/
def visible (side : Bool × Bool → Bool) : Fields F → List (Field F)
  | nil => []
  | field f rest => f :: rest.visible side
  | struct inner _ => inner.visible side
  | pointer f isSet inner rest =>
    if side isSet then inner.visible side else f.asPointer :: rest.visible side

end Fields

def Field.Supported (f : Field F) : Prop :=
  f.kind ≠ .other ∧ f.notBytes = false

def Named (name : Bytes) (f : Field F) : Prop :=
  env.toLower f.name = env.toLower name

/-- **The search of a name**: it finds what some field supports, and a condition with the kind that
it found is decided by the value of that field. -/
structure LookupRight (d : Fields F) (name : Bytes) : Prop where
  accepts : (isValidFieldName env name d).isSome ↔ ∃ f ∈ d.all, Named env name f ∧ f.Supported
  agrees : ∀ kind, isValidFieldName env name d = some kind → ∃ f ∈ d.all,
    Named env name f ∧ f.kind = kind ∧ ∀ text op c,
      complete env kind (env.toLower name) text op = some c →
        c.compare env f = some (c.pass env d)

variable {env}

theorem mem_all_of_visible {side : Bool × Bool → Bool} {d : Fields F} {f : Field F}
    (hf : f ∈ d.visible side) : f ∈ d.all := by
  induction d with
  | nil => exact hf
  | field g rest ih => exact mem_cons.mpr ((mem_cons.mp hf).imp_right ih)
  | struct inner rest ihi ihr => exact mem_append_left _ (ihi hf)
  | pointer g isSet inner rest ihi ihr =>
    rw [Fields.visible] at hf
    split_ifs at hf
    · exact mem_cons_of_mem _ (mem_append_left _ (ihi hf))
    · exact mem_cons.mpr ((mem_cons.mp hf).imp_right fun h => mem_append_right _ (ihr h))

theorem findFieldName_eq (fieldName : Bytes) (d : Fields F) :
    findFieldName env fieldName d = ((d.visible Prod.fst).find? fun f =>
      env.toLower f.name = fieldName && !f.notBytes).map Field.kind := by
  induction d with
  | nil => rfl
  | field f rest ih =>
    rw [findFieldName, Fields.visible, find?_cons, ih]
    by_cases hname : env.toLower f.name = fieldName
    · cases hslice : f.notBytes <;> simp [hname]
    · simp [hname]
  | struct inner rest ihi ihr => exact ihi
  | pointer f isSet inner rest ihi ihr =>
    rw [findFieldName, Fields.visible, ihi, ihr]
    split_ifs with hset hname
    · rfl
    · simp [Field.asPointer, Field.notBytes, hname]
    · simp [Field.asPointer, hname]

theorem pass_eq (c : Condition F) (d : Fields F) :
    c.pass env d = ((d.visible Prod.snd).findSome? fun f =>
      if env.toLower f.name = c.field then c.compare env f else none).getD false := by
  induction d with
  | nil => rfl
  | field f rest ih =>
    rw [Condition.pass, Fields.visible, findSome?_cons, ih]
    split_ifs with hname
    · cases c.compare env f <;> rfl
    · rfl
  | struct inner rest ihi ihr => exact ihi
  | pointer f isSet inner rest ihi ihr =>
    rw [Condition.pass, Fields.visible, ihi, ihr]
    split_ifs with hset hname
    · rfl
    · rw [findSome?_cons, if_pos (by exact hname)]
      cases c.compare env f.asPointer <;> rfl
    · rw [findSome?_cons, if_neg (by exact hname)]

theorem exists_of_pass {c : Condition F} {d : Fields F} (hpass : true = c.pass env d) :
    ∃ g ∈ d.visible Prod.snd, env.toLower g.name = c.field := by
  rw [pass_eq] at hpass
  cases hfind : (d.visible Prod.snd).findSome? fun f =>
      if env.toLower f.name = c.field then c.compare env f else none with
  | none =>
    rw [hfind] at hpass
    cases hpass
  | some b =>
    obtain ⟨g, hg, heq⟩ := exists_of_findSome?_eq_some hfind
    split_ifs at heq with hname
    exact ⟨g, hg, hname⟩

/-- The event shows the field, and no other one of its name. -/
def Fields.Shows (env : FilterEnv F) (d : Fields F) (f : Field F) : Prop :=
  f ∈ d.visible Prod.snd ∧ ∀ g ∈ d.visible Prod.snd, env.toLower g.name = env.toLower f.name → g = f

theorem pass_of_shows {c : Condition F} {d : Fields F} {f : Field F} (hshows : d.Shows env f)
    (hfield : env.toLower f.name = c.field) (hcompare : (c.compare env f).isSome) :
    c.compare env f = some (c.pass env d) := by
  obtain ⟨b, hb⟩ := Option.isSome_iff_exists.mp hcompare
  rw [pass_eq]
  cases hfind : (d.visible Prod.snd).findSome? fun f =>
      if env.toLower f.name = c.field then c.compare env f else none with
  | none =>
    have hnone := findSome?_eq_none_iff.mp hfind f hshows.1
    rw [if_pos hfield, hb] at hnone
    cases hnone
  | some b' =>
    obtain ⟨g, hg, heq⟩ := exists_of_findSome?_eq_some hfind
    split_ifs at heq with hname
    rw [← hshows.2 g hg (hname.trans hfield.symm), heq, Option.getD_some]

theorem compare_of_complete {kind : Kind} {field text : Bytes} {op : Operator} {c : Condition F}
    {f : Field F} (hc : complete env kind field text op = some c) (hkind : f.kind = kind)
    (hf : f.notBytes = false) : (c.compare env f).isSome := by
  subst hkind
  simp only [complete] at hc
  split_ifs at hc with hunknown hexist
  · cases hc
    simp [Condition.compare, hexist]
  · obtain ⟨data, hdata, rfl⟩ := Option.map_eq_some_iff.mp hc
    rw [Condition.compare, if_neg hexist, if_neg (by simp)]
    cases hk : f.kind with
    | int signed size =>
      rw [hk] at hdata
      obtain ⟨d, -, rfl⟩ := Option.map_eq_some_iff.mp hdata
      rfl
    | float size =>
      rw [hk, completeData] at hdata
      split_ifs at hdata
      obtain ⟨d, -, rfl⟩ := Option.map_eq_some_iff.mp hdata
      rfl
    | string =>
      rw [hk, completeData] at hdata
      split_ifs at hdata
      cases hdata
      rfl
    | slice =>
      rw [hk, completeData] at hdata
      split_ifs at hdata
      cases hdata
      simpa [Field.notBytes, hk] using hf
    | other =>
      rw [hk] at hdata
      cases hdata

theorem complete_field {kind : Kind} {field text : Bytes} {op : Operator} {c : Condition F}
    (hc : complete env kind field text op = some c) : c.field = field := by
  simp only [complete] at hc
  split_ifs at hc
  · cases hc
    rfl
  · obtain ⟨data, -, rfl⟩ := Option.map_eq_some_iff.mp hc
    rfl

theorem isValidFieldName_isSome (name : Bytes) (d : Fields F) :
    (isValidFieldName env name d).isSome ↔
      ∃ f ∈ d.visible Prod.fst, Named env name f ∧ f.notBytes = false := by
  rw [isValidFieldName, findFieldName_eq, Option.isSome_map, find?_isSome]
  simp [Named]

def number (name : String) : Field Unit := ⟨ascii name, .int true none, false, 0, (), []⟩

def asciiEnv : FilterEnv Unit :=
  ⟨map fun b => if 65 ≤ b ∧ b ≤ 90 then b + 32 else b, fun _ _ _ => none, fun _ _ => none,
    fun _ => none, fun _ => some 0, fun _ _ _ => false⟩

end Lookup

section Coherence

variable (f : Field F) (text : Bytes)

def Field.withInt (x : Int) : Field F := { f with int := x }

/-- On every event that shows the field with the value. -/
def Passes (op : Operator) (x : Int) : Prop :=
  ∃ c, complete env f.kind (env.toLower f.name) text op = some c ∧
    ∀ d : Fields F, d.Shows env (f.withInt x) → c.pass env d

def Accepted : Prop :=
  ∃ op, op ≠ .exist ∧ (complete env f.kind (env.toLower f.name) text op).isSome

def InRange (signed : Bool) (size : Option Nat) (x : Int) : Prop :=
  if signed then -2 ^ (size.getD 64 - 1) ≤ x ∧ x < 2 ^ (size.getD 64 - 1)
  else 0 ≤ x ∧ x < 2 ^ size.getD 64

/-- **The operators with one text are complements, and the lower bounds are monotone.** -/
structure Coherent (signed : Bool) (size : Option Nat) : Prop where
  lte : ∀ x, InRange signed size x → (Passes env f text .lte x ↔ ¬ Passes env f text .gt x)
  gte : ∀ x, InRange signed size x → (Passes env f text .gte x ↔ ¬ Passes env f text .lt x)
  ne : ∀ x, InRange signed size x → (Passes env f text .ne x ↔ ¬ Passes env f text .eq x)
  gt_mono : ∀ x y, x ≤ y → Passes env f text .gt x → Passes env f text .gt y
  gte_mono : ∀ x y, x ≤ y → Passes env f text .gte x → Passes env f text .gte y

def DateOnly : Prop :=
  f.kind = .int false (some 64) ∧ hasText (env.toLower f.name) (ascii "timestamp") ∧
    env.parseTime text = none ∧ (env.parseDate text).isSome

variable {env f text} {signed : Bool} {size : Option Nat} {op : Operator}

theorem passes_iff {x : Int} (hkind : f.kind = .int signed size) (hunknown : op ≠ .unknown)
    (hexist : op ≠ .exist) : Passes env f text op x ↔
      ∃ d, completeInt env signed size (env.toLower f.name) text op = some d ∧
        compareInt x d op := by
  simp only [Passes, complete, if_neg hunknown, if_neg hexist, hkind, completeData,
    Option.map_map, Option.map_eq_some_iff]
  constructor
  · rintro ⟨c, ⟨d, hd, rfl⟩, hpass⟩
    have hshown := hpass (.field (f.withInt x) .nil)
      ⟨mem_singleton_self _, fun g hg _ => mem_singleton.mp hg⟩
    exact ⟨d, hd, by
      simpa [Condition.pass, Condition.compare, Field.withInt, hexist, hkind] using hshown⟩
  · rintro ⟨d, hd, hcompare⟩
    refine ⟨_, ⟨d, hd, rfl⟩, fun e hshows => ?_⟩
    have hpass := pass_of_shows
      (c := ⟨env.toLower f.name, op, .int d, .int signed size⟩) hshows rfl
      (by simp [Condition.compare, Field.withInt, hexist, hkind])
    simpa [Condition.compare, Field.withInt, hexist, hkind, hcompare] using hpass.symm

theorem completeInt_op (hkind : f.kind = .int signed size) (hdate : ¬ DateOnly env f text)
    (hop : op ≠ .contains) : completeInt env signed size (env.toLower f.name) text op =
      completeInt env signed size (env.toLower f.name) text .eq := by
  simp only [completeInt, if_neg hop, reduceCtorEq, if_false]
  by_cases htime : signed = false ∧ size = some 64 ∧
      hasText (env.toLower f.name) (ascii "timestamp")
  · obtain ⟨rfl, rfl, hname⟩ := htime
    cases hparse : env.parseTime text with
    | some t => rfl
    | none =>
      have hnone : env.parseDate text = none := by
        by_contra hsome
        exact hdate ⟨hkind, hname, hparse, Option.isSome_iff_ne_none.mpr hsome⟩
      rw [hnone]
      rfl
  · rw [if_neg htime, if_neg htime]

theorem coherent_of_number {d : Int} (hkind : f.kind = .int signed size)
    (hd : ∀ op, op ≠ .contains →
      completeInt env signed size (env.toLower f.name) text op = some d) :
    Coherent env f text signed size := by
  have hpasses : ∀ op x, op ≠ .unknown → op ≠ .exist → op ≠ .contains →
      (Passes env f text op x ↔ compareInt x d op) := by
    intro op x hunknown hexist hcontains
    simp [passes_iff hkind hunknown hexist, hd op hcontains]
  constructor <;> intro x <;> simp [hpasses, compareInt] <;> omega

/-- The start and the end of the day differ, and the larger of them is a value that shows it. -/
theorem not_coherent_of_dateOnly (hdate : DateOnly env f text) :
    ¬ Coherent env f text false (some 64) := by
  obtain ⟨hkind, hname, htime, hsome⟩ := hdate
  obtain ⟨d, hd⟩ := Option.isSome_iff_exists.mp hsome
  have hlte : ∀ x, Passes env f text .lte x ↔ x ≤ d % 2 ^ 64 := by
    intro x
    simp [passes_iff hkind, completeInt, hname, htime, hd, compareInt]
  have hgt : ∀ x, Passes env f text .gt x ↔ (d + endOfDay) % 2 ^ 64 < x := by
    intro x
    simp [passes_iff hkind, completeInt, hname, htime, hd, compareInt]
  intro hcoherent
  have h := hcoherent.lte (max (d % 2 ^ 64) ((d + endOfDay) % 2 ^ 64)) (by simp [InRange]; omega)
  rw [hlte, hgt, endOfDay] at h
  omega

/-- **The comparisons with a text are coherent exactly when it is not a day for a timestamp.** -/
theorem comparisons_coherent_iff (env : FilterEnv F) (f : Field F) (text : Bytes) :
    (∀ signed size, f.kind = .int signed size → Accepted env f text →
      Coherent env f text signed size) ↔ ¬ DateOnly env f text := by
  constructor
  · intro h hdate
    refine not_coherent_of_dateOnly hdate (h _ _ hdate.1 ⟨.eq, by decide, ?_⟩)
    obtain ⟨hkind, hname, htime, hsome⟩ := hdate
    simp [complete, completeData, completeInt, hkind, hname, htime, hsome]
  · rintro hdate signed size hkind ⟨op, hexist, hop⟩
    have hcontains : op ≠ .contains := by
      rintro rfl
      simp [complete, completeData, completeInt, hkind] at hop
    have hunknown : op ≠ .unknown := by
      rintro rfl
      simp [complete] at hop
    simp only [complete, if_neg hunknown, if_neg hexist, completeData, hkind, Option.isSome_map]
      at hop
    obtain ⟨d, hd⟩ := Option.isSome_iff_exists.mp hop
    refine coherent_of_number hkind (d := d) fun op' hop' => ?_
    rw [completeInt_op hkind hdate hop', ← completeInt_op hkind hdate hcontains, hd]

/-- **No value within the day is at most the day or above it.** -/
theorem day_neither_lte_nor_gt :
    let f : Field Unit := ⟨ascii "TimeStamp", .int false (some 64), false, 0, (), []⟩
    Accepted asciiEnv f (ascii "1970-01-01") ∧ ¬ Passes asciiEnv f (ascii "1970-01-01") .lte 1 ∧
      ¬ Passes asciiEnv f (ascii "1970-01-01") .gt 1 := by
  refine ⟨⟨.eq, by decide, by decide⟩, ?_, ?_⟩
  all_goals
    rw [passes_iff rfl (by decide) (by decide)]
    decide

end Coherence

end Topia.Rpc.Filter
