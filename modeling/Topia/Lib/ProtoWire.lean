import Mathlib.Data.List.Forall2

/-!
# Protocol buffer messages as bytes

The proto3 wire format of messages with number, byte-string and embedded
message fields, written in the order of the field numbers.  A number that is
zero and a byte string that is empty are not written; an embedded message is
written whenever it is present.
-/

namespace Topia.Lib.ProtoWire

open UInt8

/-- Base-128 digits, least significant first, with continuation bits. -/
def varintDigits : Nat → Nat → List UInt8
  | 0, n => [ofNat (n % 128)]
  | fuel + 1, n =>
    if n < 128 then [ofNat n]
    else ofNat (n % 128 + 128) :: varintDigits fuel (n / 128)

def varint (n : Nat) : List UInt8 :=
  varintDigits n n

variable {a b f n g m : Nat}

theorem uint8_ofNat_inj (ha : a < 256) (hb : b < 256) (heq : ofNat a = ofNat b) :
    a = b := by
  have hnat := congrArg toNat heq
  simpa [toNat_ofNat', Nat.mod_eq_of_lt ha, Nat.mod_eq_of_lt hb] using hnat

theorem varintDigits_of_lt (hlt : n < 128) : varintDigits f n = [ofNat n] := by
  cases f with
  | zero => simp [varintDigits, Nat.mod_eq_of_lt hlt]
  | succ f => simp [varintDigits, hlt]

theorem varintDigits_of_le (hf : n ≤ f) (hle : 128 ≤ n) :
    ∃ g, n / 128 ≤ g ∧
      varintDigits f n = ofNat (n % 128 + 128) :: varintDigits g (n / 128) := by
  cases f with
  | zero => omega
  | succ f =>
    refine ⟨f, by omega, ?_⟩
    simp [varintDigits, Nat.not_lt.mpr hle]

variable {x y a b p q rest : List UInt8}

open List

theorem varintDigits_append_inj (hf : n ≤ f) (hg : m ≤ g)
    (heq : varintDigits f n ++ x = varintDigits g m ++ y) : n = m ∧ x = y := by
  induction n using Nat.strongRecOn generalizing f g m with
  | ind n ih =>
    rcases Nat.lt_or_ge n 128 with hn | hn
    · rcases Nat.lt_or_ge m 128 with hm | hm
      · rw [varintDigits_of_lt hn, varintDigits_of_lt hm] at heq
        obtain ⟨hbyte, hrest⟩ := cons.inj heq
        exact ⟨uint8_ofNat_inj (by omega) (by omega) hbyte, hrest⟩
      · obtain ⟨g', _, hdigits⟩ := varintDigits_of_le hg hm
        rw [varintDigits_of_lt hn, hdigits] at heq
        have := uint8_ofNat_inj (by omega) (by omega) (cons.inj heq).1
        omega
    · obtain ⟨f', hf', hdigits⟩ := varintDigits_of_le hf hn
      rw [hdigits] at heq
      rcases Nat.lt_or_ge m 128 with hm | hm
      · rw [varintDigits_of_lt hm] at heq
        have := uint8_ofNat_inj (by omega) (by omega) (cons.inj heq).1
        omega
      -- the low digits agree, and the rest of the numbers by induction
      obtain ⟨g', hg', hdigits'⟩ := varintDigits_of_le hg hm
      rw [hdigits'] at heq
      obtain ⟨hbyte, hrest⟩ := cons.inj heq
      have hlow := uint8_ofNat_inj (by omega) (by omega) hbyte
      obtain ⟨hhigh, hxy⟩ := ih (n / 128) (by omega) hf' hg' hrest
      exact ⟨by omega, hxy⟩

theorem varint_append_inj (heq : varint n ++ x = varint m ++ y) : n = m ∧ x = y :=
  varintDigits_append_inj (Nat.le_refl n) (Nat.le_refl m) heq

/-- The value of a field; `message none` is absent. -/
inductive Value where
  | number (n : Nat)
  | bytes (b : List UInt8)
  | message (m : Option (List UInt8))
deriving DecidableEq, Repr

structure Field where
  num : Nat
  value : Value
deriving DecidableEq, Repr

def Value.SameKind : Value → Value → Prop
  | .number _, .number _ => True
  | .bytes _, .bytes _ => True
  | .message _, .message _ => True
  | _, _ => False

def lengthDelimited (b : List UInt8) : List UInt8 :=
  varint b.length ++ b

theorem lengthDelimited_append_inj (heq : lengthDelimited a ++ x = lengthDelimited b ++ y) :
    a = b ∧ x = y := by
  simp only [lengthDelimited, append_assoc] at heq
  obtain ⟨hlen, hrest⟩ := varint_append_inj heq
  exact append_inj hrest hlen

def Field.key (f : Field) : Nat :=
  match f.value with
  | .number _ => f.num * 8
  | .bytes _ => f.num * 8 + 2
  | .message _ => f.num * 8 + 2

def Value.payload : Value → Option (List UInt8)
  | .number n => if n = 0 then none else some (varint n)
  | .bytes b => if b = [] then none else some (lengthDelimited b)
  | .message m => m.map lengthDelimited

def Field.encode (f : Field) : List UInt8 :=
  match f.value.payload with
  | none => []
  | some payload => varint f.key ++ payload

def encode (fields : List Field) : List UInt8 :=
  fields.flatMap Field.encode

@[simp] theorem encode_cons (f : Field) (fields : List Field) :
    encode (f :: fields) = f.encode ++ encode fields := by
  rfl

theorem varint_ne_nil (n : Nat) : varint n ≠ [] := by
  unfold varint
  cases n with
  | zero => simp [varintDigits]
  | succ n =>
    simp only [varintDigits]
    split_ifs <;> simp

theorem encode_starts (fields : List Field) :
    encode fields = [] ∨ ∃ f ∈ fields, ∃ rest, encode fields = varint f.key ++ rest := by
  induction fields with
  | nil => exact .inl rfl
  | cons f fields ih =>
    cases hp : f.value.payload with
    | some payload =>
      refine .inr ⟨f, by simp, payload ++ encode fields, ?_⟩
      simp [Field.encode, hp]
    | none =>
      have hskip : encode (f :: fields) = encode fields := by simp [Field.encode, hp]
      rw [hskip]
      rcases ih with hnil | ⟨g, hg, rest, hrest⟩
      · exact .inl hnil
      · exact .inr ⟨g, mem_cons_of_mem _ hg, rest, hrest⟩

theorem payload_append_inj {v w : Value} (hkind : v.SameKind w) (hp : v.payload = some p)
    (hq : w.payload = some q) (heq : p ++ x = q ++ y) : v = w ∧ x = y := by
  cases v with
  | number n =>
    cases w with
    | number m =>
      simp only [Value.payload] at hp hq
      split_ifs at hp hq
      cases hp
      cases hq
      obtain ⟨rfl, hrest⟩ := varint_append_inj heq
      exact ⟨rfl, hrest⟩
    | bytes b => exact hkind.elim
    | message m => exact hkind.elim
  | bytes a =>
    cases w with
    | number m => exact hkind.elim
    | bytes b =>
      simp only [Value.payload] at hp hq
      split_ifs at hp hq
      cases hp
      cases hq
      obtain ⟨rfl, hrest⟩ := lengthDelimited_append_inj heq
      exact ⟨rfl, hrest⟩
    | message m => exact hkind.elim
  | message a =>
    cases w with
    | number m => exact hkind.elim
    | bytes b => exact hkind.elim
    | message b =>
      obtain ⟨a', rfl, rfl⟩ := Option.map_eq_some_iff.mp hp
      obtain ⟨b', rfl, rfl⟩ := Option.map_eq_some_iff.mp hq
      obtain ⟨rfl, hrest⟩ := lengthDelimited_append_inj heq
      exact ⟨rfl, hrest⟩

theorem eq_of_payload_none {v w : Value} (hkind : v.SameKind w) (hv : v.payload = none)
    (hw : w.payload = none) : v = w := by
  cases v <;> cases w <;>
    first
    | exact hkind.elim
    | simp_all [Value.payload]

def SameShape (fs gs : List Field) : Prop :=
  Forall₂ (fun f g => f.num = g.num ∧ f.value.SameKind g.value) fs gs

variable {f g : Field}

theorem key_eq_of_sameKind (hnum : f.num = g.num) (hkind : f.value.SameKind g.value) :
    f.key = g.key := by
  obtain ⟨n, v⟩ := f
  obtain ⟨m, w⟩ := g
  obtain rfl : n = m := hnum
  cases v <;> cases w <;> first | exact hkind.elim | rfl

theorem num_eq_of_key_eq (hkey : f.key = g.key) : f.num = g.num := by
  obtain ⟨n, v⟩ := f
  obtain ⟨m, w⟩ := g
  cases v <;> cases w <;> simp only [Field.key] at hkey ⊢ <;> omega

variable {fields fs gs : List Field}

theorem encode_ne_key (hnew : f.num ∉ fields.map Field.num) :
    encode fields ≠ varint f.key ++ rest := by
  intro heq
  rcases encode_starts fields with hnil | ⟨g, hg, rest', hrest⟩
  · rw [hnil] at heq
    exact varint_ne_nil f.key (append_eq_nil_iff.mp heq.symm).1
  · rw [hrest] at heq
    have hnum := num_eq_of_key_eq (varint_append_inj heq).1
    exact hnew (hnum ▸ mem_map_of_mem hg)

theorem encode_cons_inj (heq : encode (f :: fs) = encode (g :: gs)) (hnum : f.num = g.num)
    (hkind : f.value.SameKind g.value) (hf : f.num ∉ fs.map Field.num)
    (hg : g.num ∉ gs.map Field.num) : f = g ∧ encode fs = encode gs := by
  have hkey := key_eq_of_sameKind hnum hkind
  rw [encode_cons, encode_cons] at heq
  cases hp : f.value.payload with
  | none =>
    cases hq : g.value.payload with
    | none =>
      have hvalue := eq_of_payload_none hkind hp hq
      simp only [Field.encode, hp, hq, nil_append] at heq
      obtain ⟨n, v⟩ := f
      exact ⟨by simp_all, heq⟩
    | some q =>
      -- only the second field is written: its key starts the rest of the first
      simp only [Field.encode, hp, hq, nil_append, append_assoc, ← hkey] at heq
      exact absurd heq (encode_ne_key hf)
  | some p =>
    cases hq : g.value.payload with
    | none =>
      simp only [Field.encode, hp, hq, nil_append, append_assoc] at heq
      rw [hkey] at heq
      exact absurd heq.symm (encode_ne_key hg)
    | some q =>
      simp only [Field.encode, hp, hq, append_assoc, hkey, append_cancel_left_eq] at heq
      obtain ⟨hvalue, htail⟩ := payload_append_inj hkind hp hq heq
      obtain ⟨n, v⟩ := f
      exact ⟨by simp_all, htail⟩

/-- **The fields of a message are determined by its bytes.** -/
theorem encode_inj (hshape : SameShape fs gs) (hnodup : (fs.map Field.num).Nodup)
    (heq : encode fs = encode gs) : fs = gs := by
  induction hshape with
  | nil => rfl
  | @cons f g fs gs hfg hrest ih =>
    obtain ⟨hnum, hkind⟩ := hfg
    rw [map_cons, nodup_cons] at hnodup
    obtain ⟨hnew, hnodup⟩ := hnodup
    have hnums : gs.map Field.num = fs.map Field.num := by
      clear ih hnodup hnew heq
      induction hrest with
      | nil => rfl
      | cons h _ ih => simp [h.1, ih]
    have hnew' : g.num ∉ gs.map Field.num := by rwa [hnums, ← hnum]
    obtain ⟨rfl, htail⟩ := encode_cons_inj heq hnum hkind hnew hnew'
    rw [ih hnodup htail]

end Topia.Lib.ProtoWire
