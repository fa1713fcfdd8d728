import Mathlib.Algebra.GroupWithZero.Nat
import Mathlib.Algebra.Ring.Int.Defs
import Mathlib.Data.List.Basic

/-!
# Byte strings and numbers as the packages share them

Go strings and byte slices are byte strings. `setBytes` is the big-endian reading of
`big.Int.SetBytes`, `formatUint` the decimal text of `strconv.FormatUint`. A `uint64` is a natural
number; `wrap64` says where its arithmetic can wrap.
-/

namespace Topia

abbrev Bytes := List UInt8

def ascii (text : String) : Bytes :=
  text.toList.map (fun c => UInt8.ofNat c.toNat)

def formatUint (n : Nat) : Bytes :=
  (Nat.toDigits 10 n).map (fun c => UInt8.ofNat c.toNat)

def parseUint (s : Bytes) : Option Nat :=
  let n := s.foldl (fun acc b => 10 * acc + (b.toNat - 48)) 0
  if s ≠ [] ∧ s.all (fun b => 48 ≤ b.toNat ∧ b.toNat ≤ 57) ∧ n < 2 ^ 64 then some n else none

def setBytes (b : Bytes) : Nat :=
  b.foldl (fun acc x => acc * 256 + x.toNat) 0

def wrap64 (n : Nat) : Nat :=
  n % 2 ^ 64

variable {n m : Nat}

theorem digit_of_mem_toDigits {c : Char} (hc : c ∈ Nat.toDigits 10 n) :
    48 ≤ c.toNat ∧ c.toNat ≤ 57 := by
  have hdigit := Nat.isDigit_of_mem_toDigits (by omega) (by omega) hc
  simp only [Char.isDigit, Bool.and_eq_true, decide_eq_true_eq] at hdigit
  exact ⟨UInt32.le_iff_toNat_le.mp hdigit.1, UInt32.le_iff_toNat_le.mp hdigit.2⟩

open List

theorem digit_of_mem_formatUint {b : UInt8} (hb : b ∈ formatUint n) :
    48 ≤ b.toNat ∧ b.toNat ≤ 57 := by
  obtain ⟨c, hc, rfl⟩ := mem_map.mp hb
  obtain ⟨hle, hge⟩ := digit_of_mem_toDigits hc
  rw [UInt8.toNat_ofNat', Nat.mod_eq_of_lt (by omega)]
  exact ⟨hle, hge⟩

theorem parseUint_formatUint (hn : n < 2 ^ 64) : parseUint (formatUint n) = some n := by
  have hvalue : (formatUint n).foldl (fun acc b => 10 * acc + (b.toNat - 48)) 0 = n := by
    have hdigits : ∀ cs acc, (∀ c ∈ cs, c.toNat ≤ 57) →
        (cs.map fun c => UInt8.ofNat c.toNat).foldl (fun acc b => 10 * acc + (b.toNat - 48)) acc =
          Nat.ofDigitChars 10 cs acc := by
      intro cs
      induction cs with
      | nil => intro acc _; rfl
      | cons c cs ih =>
        intro acc hcs
        obtain ⟨hc, hcs⟩ := forall_mem_cons.mp hcs
        have hbyte : (UInt8.ofNat c.toNat).toNat = c.toNat := by
          rw [UInt8.toNat_ofNat', Nat.mod_eq_of_lt (by omega)]
        rw [map_cons, foldl_cons, hbyte, ih _ hcs]
        rfl
    rw [formatUint, hdigits _ _ fun c hc => (digit_of_mem_toDigits hc).2]
    exact Nat.ofDigitChars_toDigits (by omega) (by omega)
  have hne : formatUint n ≠ [] := by simp [formatUint, Nat.toDigits_ne_nil]
  have hall : (formatUint n).all (fun b => 48 ≤ b.toNat ∧ b.toNat ≤ 57) :=
    all_eq_true.mpr fun b hb => decide_eq_true (digit_of_mem_formatUint hb)
  unfold parseUint
  rw [hvalue]
  exact if_pos ⟨hne, hall, hn⟩

theorem formatUint_injective : Function.Injective formatUint := by
  have hback : ∀ n, (formatUint n).map (fun b => Char.ofNat b.toNat) = Nat.toDigits 10 n := by
    intro n
    rw [formatUint, map_map]
    refine (map_congr_left ?_).trans (map_id _)
    intro c hc
    obtain ⟨_, hle⟩ := digit_of_mem_toDigits hc
    have hsmall : c.toNat % 256 = c.toNat := by omega
    simp [hsmall]
  intro m n heq
  have hdigits : Nat.toDigits 10 m = Nat.toDigits 10 n := by rw [← hback m, ← hback n, heq]
  rw [← Nat.ofDigitChars_toDigits (b := 10) (n := m) (by omega) (by omega), hdigits,
    Nat.ofDigitChars_toDigits (by omega) (by omega)]

theorem formatUint_append_cons_inj {a b : Bytes}
    (heq : formatUint m ++ 64 :: a = formatUint n ++ 64 :: b) : m = n ∧ a = b := by
  have htext : ∀ k (rest : Bytes),
      (formatUint k ++ 64 :: rest).takeWhile (fun x => x != 64) = formatUint k := by
    intro k rest
    rw [takeWhile_append_of_pos]
    · simp
    · intro x hx
      obtain ⟨_, hle⟩ := digit_of_mem_formatUint hx
      rw [bne_iff_ne]
      rintro rfl
      exact absurd hle (by decide)
  have hformat : formatUint m = formatUint n := by rw [← htext m a, heq, htext n b]
  rw [hformat] at heq
  exact ⟨formatUint_injective hformat, cons_injective (append_cancel_left heq)⟩

end Topia
