import Mathlib.Algebra.Order.Ring.Nat
import Mathlib.Data.List.GetD
import Mathlib.Data.List.Induction
import Mathlib.Data.List.Nodup

/-!
# Base 32 without padding

Five bytes are eight digits of five bits. A rest of one to four bytes is written with two, four,
five or seven digits, and the last digit has bits that stand for nothing. A reader ignores them, and
line breaks. A rest of one, three or six digits gives no byte.

A group is read as one number: the bytes are its digits in base 256, and the digits of the text,
without the unused bits, are its digits in base 32.
-/

namespace Topia.Lib.Base32

open List

section Positional

variable {base n value d : Nat} {digits : List Nat}

def ofBE (base : Nat) (digits : List Nat) : Nat :=
  digits.foldl (fun acc d => acc * base + d) 0

def toBE (base : Nat) : Nat → Nat → List Nat
  | 0, _ => []
  | n + 1, value => toBE base n (value / base) ++ [value % base]

theorem ofBE_concat : ofBE base (digits ++ [d]) = ofBE base digits * base + d := by
  simp [ofBE]

theorem length_toBE : (toBE base n value).length = n := by
  induction n generalizing value with
  | zero => rfl
  | succ n ih => rw [toBE, length_append, ih, length_singleton]

theorem lt_of_mem_toBE (hbase : 0 < base) (hd : d ∈ toBE base n value) : d < base := by
  induction n generalizing value with
  | zero => cases hd
  | succ n ih =>
    rcases mem_append.mp hd with hd | hd
    · exact ih hd
    · rw [mem_singleton.mp hd]
      exact Nat.mod_lt _ hbase

theorem ofBE_lt (hdigits : ∀ d ∈ digits, d < base) : ofBE base digits < base ^ digits.length := by
  induction digits using reverseRecOn with
  | nil => exact Nat.one_pos
  | append_singleton digits d ih =>
    obtain ⟨hinit, hlast⟩ := forall_mem_append.mp hdigits
    have hd : d < base := hlast d mem_cons_self
    have hrest : (ofBE base digits + 1) * base ≤ base ^ digits.length * base :=
      Nat.mul_le_mul_right base (ih hinit)
    rw [ofBE_concat, length_append, length_singleton, Nat.pow_succ]
    rw [Nat.add_mul, Nat.one_mul] at hrest
    omega

theorem ofBE_toBE (hvalue : value < base ^ n) : ofBE base (toBE base n value) = value := by
  induction n generalizing value with
  | zero =>
    rw [Nat.pow_zero, Nat.lt_one_iff] at hvalue
    exact hvalue.symm
  | succ n ih =>
    rw [Nat.pow_succ, Nat.mul_comm] at hvalue
    rw [toBE, ofBE_concat, ih (Nat.div_lt_of_lt_mul hvalue), Nat.mul_comm]
    exact Nat.div_add_mod value base

theorem toBE_ofBE (hdigits : ∀ d ∈ digits, d < base) :
    toBE base digits.length (ofBE base digits) = digits := by
  induction digits using reverseRecOn with
  | nil => rfl
  | append_singleton digits d ih =>
    obtain ⟨hinit, hlast⟩ := forall_mem_append.mp hdigits
    have hd : d < base := hlast d mem_cons_self
    have hpos : 0 < base := by omega
    have hdiv : (ofBE base digits * base + d) / base = ofBE base digits := by
      rw [Nat.mul_comm, Nat.mul_add_div hpos, Nat.div_eq_of_lt hd, Nat.add_zero]
    have hmod : (ofBE base digits * base + d) % base = d := by
      rw [Nat.mul_comm, Nat.mul_add_mod, Nat.mod_eq_of_lt hd]
    rw [length_append, length_singleton, toBE, ofBE_concat, hdiv, hmod, ih hinit]

end Positional

section Quantum

variable {bytes digits : List Nat} {k : Nat}

def digitCount (k : Nat) : Nat :=
  (8 * k + 4) / 5

def byteCount : Nat → Option Nat
  | 8 => some 5
  | 7 => some 4
  | 5 => some 3
  | 4 => some 2
  | 2 => some 1
  | _ => none

def unusedBits (length : Nat) : Nat :=
  match length % 8 with
  | 7 => 3
  | 5 => 1
  | 4 => 4
  | 2 => 2
  | _ => 0

def encodeQuantum (bytes : List Nat) : List Nat :=
  toBE 32 (digitCount bytes.length)
    (ofBE 256 bytes * 2 ^ (5 * digitCount bytes.length - 8 * bytes.length))

def decodeQuantum (digits : List Nat) : List Nat :=
  match byteCount digits.length with
  | none => []
  | some k => toBE 256 k (ofBE 32 digits / 2 ^ (5 * digits.length - 8 * k))

theorem pow_digitCount (hlength : k ≤ 5) :
    256 ^ k * 2 ^ (5 * digitCount k - 8 * k) = 32 ^ digitCount k := by
  have hsmall : k = 0 ∨ k = 1 ∨ k = 2 ∨ k = 3 ∨ k = 4 ∨ k = 5 := by omega
  rcases hsmall with rfl | rfl | rfl | rfl | rfl | rfl <;> decide

theorem byteCount_digitCount (hpos : 1 ≤ k) (hlength : k ≤ 5) :
    byteCount (digitCount k) = some k := by
  have hsmall : k = 1 ∨ k = 2 ∨ k = 3 ∨ k = 4 ∨ k = 5 := by omega
  rcases hsmall with rfl | rfl | rfl | rfl | rfl <;> rfl

theorem of_byteCount {n : Nat} (h : byteCount n = some k) :
    k ≤ 5 ∧ n = digitCount k ∧ 5 * n - 8 * k = unusedBits n := by
  unfold byteCount at h
  split at h <;> cases h <;> decide

theorem length_encodeQuantum : (encodeQuantum bytes).length = digitCount bytes.length :=
  length_toBE

theorem length_decodeQuantum :
    (decodeQuantum digits).length = (byteCount digits.length).getD 0 := by
  unfold decodeQuantum
  cases byteCount digits.length with
  | none => rfl
  | some k => exact length_toBE

theorem lt_of_mem_encodeQuantum {d : Nat} (hd : d ∈ encodeQuantum bytes) : d < 32 :=
  lt_of_mem_toBE (by decide) hd

theorem lt_of_mem_decodeQuantum {b : Nat} (hb : b ∈ decodeQuantum digits) : b < 256 := by
  unfold decodeQuantum at hb
  cases hcount : byteCount digits.length with
  | none =>
    rw [hcount] at hb
    cases hb
  | some k =>
    rw [hcount] at hb
    exact lt_of_mem_toBE (by decide) hb

theorem decodeQuantum_encodeQuantum (hbytes : ∀ b ∈ bytes, b < 256) (hlength : bytes.length ≤ 5) :
    decodeQuantum (encodeQuantum bytes) = bytes := by
  rcases Nat.eq_zero_or_pos bytes.length with hnil | hpos
  · rw [length_eq_zero_iff.mp hnil]
    rfl
  have hlt : ofBE 256 bytes * 2 ^ (5 * digitCount bytes.length - 8 * bytes.length) <
      32 ^ digitCount bytes.length := by
    rw [← pow_digitCount hlength]
    exact Nat.mul_lt_mul_of_pos_right (ofBE_lt hbytes) (Nat.two_pow_pos _)
  rw [decodeQuantum, length_encodeQuantum, byteCount_digitCount hpos hlength]
  show toBE 256 bytes.length (ofBE 32 (encodeQuantum bytes) / _) = bytes
  rw [encodeQuantum, ofBE_toBE hlt, Nat.mul_div_cancel _ (Nat.two_pow_pos _)]
  exact toBE_ofBE hbytes

theorem encodeQuantum_decodeQuantum_iff (hdigits : ∀ d ∈ digits, d < 32)
    (hcount : byteCount digits.length = some k) :
    encodeQuantum (decodeQuantum digits) = digits ↔
      ofBE 32 digits % 2 ^ unusedBits digits.length = 0 := by
  obtain ⟨hk, hlength, hunused⟩ := of_byteCount hcount
  have hdecode : decodeQuantum digits =
      toBE 256 k (ofBE 32 digits / 2 ^ unusedBits digits.length) := by
    rw [decodeQuantum, hcount, ← hunused]
  have hlt : ofBE 32 digits / 2 ^ unusedBits digits.length < 256 ^ k := by
    refine Nat.div_lt_of_lt_mul ?_
    rw [Nat.mul_comm, ← hunused, hlength, pow_digitCount hk, ← hlength]
    exact ofBE_lt hdigits
  have hencode : encodeQuantum (decodeQuantum digits) = toBE 32 digits.length
      (ofBE 32 digits / 2 ^ unusedBits digits.length * 2 ^ unusedBits digits.length) := by
    rw [encodeQuantum, hdecode, length_toBE, ofBE_toBE hlt, ← hlength, hunused]
  have hback : ofBE 32 digits / 2 ^ unusedBits digits.length * 2 ^ unusedBits digits.length <
      32 ^ digits.length :=
    Nat.lt_of_le_of_lt (Nat.div_mul_le_self _ _) (ofBE_lt hdigits)
  constructor
  · intro heq
    have hvalue := congrArg (ofBE 32) heq
    rw [hencode, ofBE_toBE hback] at hvalue
    rw [← hvalue, Nat.mul_mod_left]
  · intro hzero
    rw [hencode, Nat.div_mul_cancel (Nat.dvd_of_mod_eq_zero hzero)]
    exact toBE_ofBE hdigits

end Quantum

section Groups

variable {bytes digits quantum rest : List Nat}

def encodeDigits : List Nat → List Nat
  | a :: b :: c :: d :: e :: rest => encodeQuantum [a, b, c, d, e] ++ encodeDigits rest
  | tail => encodeQuantum tail

def decodeDigits : List Nat → List Nat
  | a :: b :: c :: d :: e :: f :: g :: h :: rest =>
    decodeQuantum [a, b, c, d, e, f, g, h] ++ decodeDigits rest
  | tail => decodeQuantum tail

theorem encodeDigits_append (hlength : quantum.length = 5) :
    encodeDigits (quantum ++ rest) = encodeQuantum quantum ++ encodeDigits rest := by
  match quantum, hlength with
  | [a, b, c, d, e], _ => rfl

theorem encodeDigits_tail (hlength : quantum.length < 5) :
    encodeDigits quantum = encodeQuantum quantum := by
  match quantum, hlength with
  | [], _ => rfl
  | [_], _ => rfl
  | [_, _], _ => rfl
  | [_, _, _], _ => rfl
  | [_, _, _, _], _ => rfl

theorem decodeDigits_append (hlength : quantum.length = 8) :
    decodeDigits (quantum ++ rest) = decodeQuantum quantum ++ decodeDigits rest := by
  match quantum, hlength with
  | [a, b, c, d, e, f, g, h], _ => rfl

theorem decodeDigits_tail (hlength : quantum.length < 8) :
    decodeDigits quantum = decodeQuantum quantum := by
  match quantum, hlength with
  | [], _ => rfl
  | [_], _ | [_, _], _ | [_, _, _], _ | [_, _, _, _], _ | [_, _, _, _, _], _ | [_, _, _, _, _, _], _
  | [_, _, _, _, _, _, _], _ => rfl

theorem groups_induction {P : List Nat → Prop} (size : Nat) (hsize : 0 < size)
    (hgroup : ∀ quantum rest, quantum.length = size → P rest → P (quantum ++ rest))
    (htail : ∀ tail, tail.length < size → P tail) (l : List Nat) : P l := by
  induction hn : l.length using Nat.strong_induction_on generalizing l with
  | _ n ih =>
    rcases Nat.lt_or_ge l.length size with hlt | hge
    · exact htail l hlt
    · rw [← take_append_drop size l]
      refine hgroup _ _ (length_take_of_le hge) (ih _ ?_ _ rfl)
      rw [length_drop]
      omega

theorem decodeDigits_encodeDigits (hbytes : ∀ b ∈ bytes, b < 256) :
    decodeDigits (encodeDigits bytes) = bytes := by
  induction bytes using groups_induction 5 (by decide) with
  | hgroup quantum rest hlength ih =>
    obtain ⟨hquantum, hrest⟩ := forall_mem_append.mp hbytes
    have hdigits : (encodeQuantum quantum).length = 8 := by
      rw [length_encodeQuantum, hlength]
      rfl
    rw [encodeDigits_append hlength, decodeDigits_append hdigits, ih hrest,
      decodeQuantum_encodeQuantum hquantum (Nat.le_of_eq hlength)]
  | htail tail hlength =>
    have hdigits : (encodeQuantum tail).length < 8 := by
      rw [length_encodeQuantum, digitCount]
      omega
    rw [encodeDigits_tail hlength, decodeDigits_tail hdigits,
      decodeQuantum_encodeQuantum hbytes (Nat.le_of_lt hlength)]

theorem lt_of_mem_encodeDigits {d : Nat} (hd : d ∈ encodeDigits bytes) : d < 32 := by
  induction bytes using groups_induction 5 (by decide) with
  | hgroup quantum rest hlength ih =>
    rw [encodeDigits_append hlength] at hd
    exact (mem_append.mp hd).elim lt_of_mem_encodeQuantum ih
  | htail tail hlength =>
    rw [encodeDigits_tail hlength] at hd
    exact lt_of_mem_encodeQuantum hd

theorem lt_of_mem_decodeDigits {b : Nat} (hb : b ∈ decodeDigits digits) : b < 256 := by
  induction digits using groups_induction 8 (by decide) with
  | hgroup quantum rest hlength ih =>
    rw [decodeDigits_append hlength] at hb
    exact (mem_append.mp hb).elim lt_of_mem_decodeQuantum ih
  | htail tail hlength =>
    rw [decodeDigits_tail hlength] at hb
    exact lt_of_mem_decodeQuantum hb

theorem length_decodeDigits :
    (decodeDigits digits).length =
      5 * (digits.length / 8) + (byteCount (digits.length % 8)).getD 0 := by
  induction digits using groups_induction 8 (by decide) with
  | hgroup quantum rest hlength ih =>
    rw [decodeDigits_append hlength, length_append, length_decodeQuantum, hlength, ih,
      length_append, hlength, Nat.add_mod_left, Nat.add_div_left _ (by decide)]
    show 5 + _ = _
    omega
  | htail tail hlength =>
    rw [decodeDigits_tail hlength, length_decodeQuantum, Nat.mod_eq_of_lt hlength,
      Nat.div_eq_of_lt hlength, Nat.mul_zero, Nat.zero_add]

theorem ofBE_mod_unusedBits {d : Nat} (length : Nat) :
    ofBE 32 (digits ++ [d]) % 2 ^ unusedBits length = d % 2 ^ unusedBits length := by
  have hdvd : 2 ^ unusedBits length ∣ 32 := by
    unfold unusedBits
    split <;> decide
  obtain ⟨c, hc⟩ := hdvd
  rw [ofBE_concat]
  rw [hc, Nat.mul_left_comm, Nat.mul_add_mod]

def UnusedZero (digits : List Nat) : Prop :=
  ∀ d ∈ digits.getLast?, d % 2 ^ unusedBits digits.length = 0

theorem unusedBits_add_eight (length : Nat) : unusedBits (8 + length) = unusedBits length := by
  rw [unusedBits, unusedBits, Nat.add_mod_left]

theorem unusedZero_append (hlength : quantum.length = 8) :
    UnusedZero (quantum ++ rest) ↔ UnusedZero rest := by
  unfold UnusedZero
  rw [length_append, hlength, unusedBits_add_eight]
  cases rest with
  | nil =>
    simp [unusedBits, Nat.mod_one]
  | cons r rest => rw [getLast?_append_cons]

def Whole (length : Nat) : Prop :=
  length % 8 = 0 ∨ (byteCount (length % 8)).isSome

theorem encodeDigits_decodeDigits_tail (hdigits : ∀ d ∈ digits, d < 32)
    (hlength : digits.length < 8) (hwhole : Whole digits.length) :
    encodeDigits (decodeDigits digits) = digits ↔ UnusedZero digits := by
  rw [Whole, Nat.mod_eq_of_lt hlength] at hwhole
  rw [decodeDigits_tail hlength]
  rcases hwhole with hnil | hsome
  · rw [length_eq_zero_iff.mp hnil]
    refine ⟨fun _ => ?_, fun _ => rfl⟩
    rintro d ⟨⟩
  obtain ⟨k, hcount⟩ := Option.isSome_iff_exists.mp hsome
  obtain ⟨_, hk, _⟩ := of_byteCount hcount
  have hbytes : (decodeQuantum digits).length < 5 := by
    rw [length_decodeQuantum, hcount, Option.getD_some]
    unfold digitCount at hk
    omega
  rw [encodeDigits_tail hbytes, encodeQuantum_decodeQuantum_iff hdigits hcount]
  have hne : digits ≠ [] := by
    rintro rfl
    cases hcount
  obtain ⟨init, d, rfl⟩ := eq_nil_or_concat' digits |>.resolve_left hne
  rw [UnusedZero, ofBE_mod_unusedBits, getLast?_concat]
  simp

/-- What is read is written back exactly when the unused bits are zero. -/
theorem encodeDigits_decodeDigits_iff (hdigits : ∀ d ∈ digits, d < 32)
    (hwhole : Whole digits.length) :
    encodeDigits (decodeDigits digits) = digits ↔ UnusedZero digits := by
  induction digits using groups_induction 8 (by decide) with
  | hgroup quantum rest hlength ih =>
    obtain ⟨hquantum, hrest⟩ := forall_mem_append.mp hdigits
    have hbytes : (decodeQuantum quantum).length = 5 := by
      rw [length_decodeQuantum, hlength]
      rfl
    have hback : encodeQuantum (decodeQuantum quantum) = quantum := by
      have hcount : byteCount quantum.length = some 5 := by
        rw [hlength]
        rfl
      rw [encodeQuantum_decodeQuantum_iff hquantum hcount, hlength]
      exact Nat.mod_one _
    have hwholeRest : Whole rest.length := by
      rwa [Whole, length_append, hlength, Nat.add_mod_left] at hwhole
    rw [decodeDigits_append hlength, encodeDigits_append hbytes, hback,
      append_cancel_left_eq, ih hrest hwholeRest, unusedZero_append hlength]
  | htail tail hlength => exact encodeDigits_decodeDigits_tail hdigits hlength hwhole

end Groups

section Text

structure Alphabet where
  chars : List UInt8
  length_chars : chars.length = 32
  nodup : chars.Nodup
  newline : 10 ∉ chars
  carriageReturn : 13 ∉ chars

variable {A : Alphabet} {bytes s : List UInt8} {c : UInt8} {d : Nat}

namespace Alphabet

def char (A : Alphabet) (d : Nat) : UInt8 :=
  A.chars.getD d 0

def value (A : Alphabet) (c : UInt8) : Nat :=
  A.chars.idxOf c

theorem value_lt (hc : c ∈ A.chars) : A.value c < 32 := by
  rw [← A.length_chars]
  exact idxOf_lt_length_of_mem hc

theorem char_mem (hd : d < 32) : A.char d ∈ A.chars := by
  rw [← A.length_chars] at hd
  rw [char, getD_eq_getElem _ _ hd]
  exact getElem_mem hd

theorem char_value (hc : c ∈ A.chars) : A.char (A.value c) = c := by
  have hlt : A.chars.idxOf c < A.chars.length := idxOf_lt_length_of_mem hc
  rw [char, value, getD_eq_getElem _ _ hlt, getElem_idxOf]

theorem value_char (hd : d < 32) : A.value (A.char d) = d := by
  rw [← A.length_chars] at hd
  rw [char, value, getD_eq_getElem _ _ hd]
  exact A.nodup.idxOf_getElem d hd

end Alphabet

open UInt8

def encodeToString (A : Alphabet) (bytes : List UInt8) : List UInt8 :=
  (encodeDigits (bytes.map toNat)).map A.char

def stripNewlines (s : List UInt8) : List UInt8 :=
  s.filter fun c => c != 13 && c != 10

def decodeString (A : Alphabet) (s : List UInt8) : Option (List UInt8) :=
  if (stripNewlines s).all (fun c => A.chars.contains c) then
    some ((decodeDigits ((stripNewlines s).map A.value)).map ofNat)
  else none

theorem map_toNat_ofNat {l : List Nat} (hl : ∀ b ∈ l, b < 256) :
    (l.map ofNat).map toNat = l := by
  rw [map_map]
  refine (map_congr_left fun b hb => ?_).trans (map_id l)
  exact toNat_ofNat_of_lt' (hl b hb)

theorem map_ofNat_toNat : (bytes.map UInt8.toNat).map UInt8.ofNat = bytes := by
  rw [map_map]
  refine (map_congr_left fun b _ => ?_).trans (map_id bytes)
  exact UInt8.ofNat_toNat

theorem stripNewlines_eq (hs : ∀ c ∈ s, c ∈ A.chars) : stripNewlines s = s := by
  refine filter_eq_self.mpr fun c hc => ?_
  have hnewline : c ≠ 10 := fun heq => A.newline (heq ▸ hs c hc)
  have hreturn : c ≠ 13 := fun heq => A.carriageReturn (heq ▸ hs c hc)
  simp [hnewline, hreturn]

theorem mem_of_mem_encodeToString (hc : c ∈ encodeToString A bytes) : c ∈ A.chars := by
  obtain ⟨d, hd, rfl⟩ := mem_map.mp hc
  exact A.char_mem (lt_of_mem_encodeDigits hd)

theorem map_value_encodeToString :
    (encodeToString A bytes).map A.value = encodeDigits (bytes.map toNat) := by
  rw [encodeToString, map_map]
  refine (map_congr_left fun d hd => ?_).trans (map_id _)
  exact A.value_char (lt_of_mem_encodeDigits hd)

theorem decodeString_encodeToString : decodeString A (encodeToString A bytes) = some bytes := by
  have hstrip : stripNewlines (encodeToString A bytes) = encodeToString A bytes :=
    stripNewlines_eq fun c hc => mem_of_mem_encodeToString hc
  have hall : (encodeToString A bytes).all (fun c => A.chars.contains c) :=
    all_eq_true.mpr fun c hc => contains_iff_mem.mpr (mem_of_mem_encodeToString hc)
  have hbytes : ∀ b ∈ bytes.map toNat, b < 256 := by
    intro b hb
    obtain ⟨c, _, rfl⟩ := mem_map.mp hb
    exact c.toNat_lt
  rw [decodeString, hstrip, if_pos hall, map_value_encodeToString,
    decodeDigits_encodeDigits hbytes, map_ofNat_toNat]

theorem stripNewlines_eq_self_iff : stripNewlines s = s ↔ ∀ c ∈ s, c ≠ 13 ∧ c ≠ 10 := by
  rw [stripNewlines, filter_eq_self]
  simp

theorem whole_of_decodeString (hdecode : decodeString A s = some bytes)
    (hlength : bytes.length % 5 ≠ 0) : Whole (stripNewlines s).length := by
  unfold decodeString at hdecode
  split_ifs at hdecode with hall
  rw [← Option.some.inj hdecode, length_map, length_decodeDigits, length_map] at hlength
  right
  cases hcount : byteCount ((stripNewlines s).length % 8) with
  | none =>
    rw [hcount, Option.getD_none] at hlength
    omega
  | some k => rfl

/-- A text is that of its bytes exactly without line breaks and with unused bits zero. -/
theorem encodeToString_eq_iff (hdecode : decodeString A s = some bytes)
    (hwhole : Whole (stripNewlines s).length) :
    encodeToString A bytes = s ↔ stripNewlines s = s ∧ UnusedZero (s.map A.value) := by
  unfold decodeString at hdecode
  split_ifs at hdecode with hall
  have hchars : ∀ c ∈ stripNewlines s, c ∈ A.chars := fun c hc =>
    contains_iff_mem.mp (all_eq_true.mp hall c hc)
  have hdigits : ∀ d ∈ (stripNewlines s).map A.value, d < 32 := by
    intro d hd
    obtain ⟨c, hc, rfl⟩ := mem_map.mp hd
    exact A.value_lt (hchars c hc)
  have hbytes : bytes.map toNat = decodeDigits ((stripNewlines s).map A.value) := by
    rw [← Option.some.inj hdecode]
    exact map_toNat_ofNat fun b hb => lt_of_mem_decodeDigits hb
  have hback := encodeDigits_decodeDigits_iff hdigits (by rwa [length_map])
  rw [← hbytes] at hback
  constructor
  · intro heq
    have hstrip : stripNewlines s = s :=
      stripNewlines_eq fun c hc => mem_of_mem_encodeToString (heq.symm ▸ hc)
    rw [hstrip] at hback
    refine ⟨hstrip, hback.mp ?_⟩
    rw [← map_value_encodeToString (A := A), heq]
  · rintro ⟨hstrip, hzero⟩
    rw [hstrip] at hback hchars
    rw [encodeToString, hback.mpr hzero, map_map]
    refine (map_congr_left fun c hc => ?_).trans (map_id s)
    exact A.char_value (hchars c hc)

end Text

end Topia.Lib.Base32
