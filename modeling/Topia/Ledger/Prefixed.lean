import Topia.Ledger.Iterators
import Topia.Lib.Region

/-!
# Prefixed backends

`ledger/backend/backend_prefixed.go`: a transaction behind a prefix puts it before every key, and
its iterator takes it off again. `DBReadWriter` is the interface of both sides; the transaction
below all prefixes is `txn`.

An iterator is the list of the items that a loop over it reads; `none` is a panic.
-/

namespace Topia.Ledger

open Lib

/-- `DBReadWriter` over a content, which a failed call leaves. -/
structure DBReadWriter where
  Get : BTree → Bytes → Except MemDBError (Option Bytes)
  Has : BTree → Bytes → Except MemDBError Bool
  Set : BTree → Bytes → Option Bytes → BTree × Option MemDBError
  Delete : BTree → Bytes → BTree × Option MemDBError
  Iterator : BTree → Option Bytes → Option Bytes → Option (Except MemDBError (List Item))

def txn : DBReadWriter where
  Get t key := if key = [] then .error .keyEmpty else .ok t[key]?
  Has t key := if key = [] then .error .keyEmpty else .ok (t.contains key)
  Set t key value :=
    match ValidateKv key value with
    | .error e => (t, some e)
    | .ok v => (t.insert key v, none)
  Delete t key := if key = [] then (t, some .keyEmpty) else (t.erase key, none)
  Iterator t start finish :=
    if start = some [] ∨ finish = some [] then some (.error .keyEmpty)
    else some (.ok ((BTree.directed t false).filter fun item => inRange start finish item.1))

/-- The loop of `endIter`: the last byte below `0xFF` is incremented, those behind it are zero; nil
without one. -/
def endIterLoop : Bytes → Option Bytes
  | [] => none
  | b :: rest =>
    match endIterLoop rest with
    | some e => some (b :: e)
    | none => if b < 0xFF then some ((b + 1) :: rest.map fun _ => 0) else none

def endIter (bz : Bytes) : Option (Option Bytes) :=
  if bz = [] then none else some (endIterLoop bz)

def prefixedEnd (pre : Bytes) : Option Bytes → Option (Option Bytes)
  | none => endIter pre
  | some b => some (some (pre ++ b))

def prefixItems (pre : Bytes) : List Item → List Item
  | [] => []
  | (key, value) :: items =>
    if pre <+: key then
      -- an entry under the prefix itself is skipped
      if key = pre then prefixItems pre items
      else (key.drop pre.length, value) :: prefixItems pre items
    else []

def NewBackendRWPrefixed (pre : Bytes) (db : DBReadWriter) : DBReadWriter where
  Get t key := if key = [] then .error .keyEmpty else db.Get t (pre ++ key)
  Has t key := if key = [] then .error .keyEmpty else db.Has t (pre ++ key)
  Set t key value :=
    if key = [] then (t, some .keyEmpty) else db.Set t (pre ++ key) value
  Delete t key := if key = [] then (t, some .keyEmpty) else db.Delete t (pre ++ key)
  Iterator t start finish :=
    if start = some [] ∨ finish = some [] then some (.error .keyEmpty)
    else do
      let pend ← prefixedEnd pre finish
      let source ← db.Iterator t (some (pre ++ start.getD [])) pend
      some (source.map (prefixItems pre))

section EndIter

variable {p e : Bytes}

theorem compare_succ {b : UInt8} (hb : b < 0xFF) : compare b (b + 1) = .lt := by
  have hlt : b < b + 1 := by
    rw [UInt8.lt_iff_toNat_lt, UInt8.toNat_add]
    have hb' : b.toNat < 255 := hb
    simp
    omega
  exact Std.compare_eq_lt.mpr hlt

theorem endIter_spec (hend : endIterLoop p = some e) (k : Bytes) : compare (p ++ k) e = .lt := by
  induction p generalizing e with
  | nil => cases hend
  | cons b rest ih =>
    unfold endIterLoop at hend
    cases hrest : endIterLoop rest with
    | some e' =>
      rw [hrest] at hend
      cases hend
      simpa [List.compare_eq_compareLex, List.compareLex_cons_cons] using ih hrest
    | none =>
      rw [hrest] at hend
      split_ifs at hend with hb
      cases hend
      simp [List.compare_eq_compareLex, compare_succ hb]

theorem ne_nil_of_endIterLoop (hend : endIterLoop p = some e) : e ≠ [] := by
  rintro rfl
  have hlt := endIter_spec hend []
  cases p with
  | nil => cases hend
  | cons b rest => simp at hlt

end EndIter

open List

section Items

variable {p : Bytes} {items : List Item}

theorem prefixItems_spec (hitems : Ascending items) (hstart : ∀ a ∈ items, compare a.1 p ≠ .lt) :
    Ascending (prefixItems p items) ∧
      ∀ k v, (k, v) ∈ prefixItems p items ↔ (p ++ k, v) ∈ items ∧ k ≠ [] := by
  induction items with
  | nil => exact ⟨Pairwise.nil, by simp [prefixItems]⟩
  | cons item items ih =>
    obtain ⟨key, value⟩ := item
    obtain ⟨hfirst, hrest⟩ := pairwise_cons.mp hitems
    obtain ⟨hascending, hmem⟩ := ih hrest fun a ha => hstart a (mem_cons_of_mem _ ha)
    by_cases hpre : p <+: key
    · obtain ⟨k, rfl⟩ := hpre
      by_cases hnil : k = []
      · subst hnil
        simp only [prefixItems, append_nil, prefix_rfl, if_true]
        refine ⟨hascending, ?_⟩
        intro k v
        rw [hmem, mem_cons]
        constructor
        · rintro ⟨hin, hk⟩
          exact ⟨.inr hin, hk⟩
        · rintro ⟨heq | hin, hk⟩
          · have hkey : p ++ k = p := congrArg Prod.fst heq
            exact absurd (append_right_eq_self.mp hkey) hk
          · exact ⟨hin, hk⟩
      · have hne : p ++ k ≠ p := fun h => hnil (append_right_eq_self.mp h)
        simp only [prefixItems, prefix_append, if_true, if_neg hne, drop_left]
        refine ⟨pairwise_cons.mpr ⟨?_, hascending⟩, ?_⟩
        · rintro ⟨k', v'⟩ hin
          have hlt := hfirst _ ((hmem k' v').mp hin).1
          rwa [compare_append_left] at hlt
        intro k' v'
        rw [mem_cons, mem_cons, hmem, Prod.mk.injEq, Prod.mk.injEq, append_cancel_left_eq]
        constructor
        · rintro (⟨rfl, rfl⟩ | ⟨hin, hk⟩)
          · exact ⟨.inl ⟨rfl, rfl⟩, hnil⟩
          · exact ⟨.inr hin, hk⟩
        · rintro ⟨heq | hin, hk⟩
          · exact .inl heq
          · exact .inr ⟨hin, hk⟩
    · -- the source has left the prefix, and does not come back to it
      have hout : prefixItems p ((key, value) :: items) = [] := by simp [prefixItems, hpre]
      rw [hout]
      refine ⟨Pairwise.nil, ?_⟩
      intro k v
      refine ⟨fun h => absurd h not_mem_nil, ?_⟩
      rintro ⟨hin, -⟩
      rcases mem_cons.mp hin with heq | hin
      · exact absurd ⟨k, congrArg Prod.fst heq⟩ hpre
      · exact absurd (prefix_of_between (prefix_append p k)
          (hstart _ mem_cons_self) (hfirst _ hin)) hpre

end Items

section Region

variable {p pre : Bytes} {db : DBReadWriter}

/-- A map of the keys with a prefix, in which empty keys are refused. -/
structure IsRegion (p : Bytes) (db : DBReadWriter) : Prop where
  get : ∀ t key, db.Get t key = if key = [] then .error .keyEmpty else .ok t[p ++ key]?
  has : ∀ t key, db.Has t key = if key = [] then .error .keyEmpty else .ok t[p ++ key]?.isSome
  set : ∀ t key value, db.Set t key value =
    match ValidateKv key value with
    | .error e => (t, some e)
    | .ok v => (t.insert (p ++ key) v, none)
  delete : ∀ t key, db.Delete t key =
    if key = [] then (t, some .keyEmpty) else (t.erase (p ++ key), none)
  iterate : ∀ t start finish, start ≠ some [] → finish ≠ some [] →
    ∃ items, db.Iterator t start finish = some (.ok items) ∧ Ascending items ∧
      ∀ k v, (k, v) ∈ items ↔
        t[p ++ k]? = some v ∧ inRange start finish k = true ∧ (p = [] ∨ k ≠ [])

theorem isRegion_txn : IsRegion [] txn where
  get _ _ := rfl
  has t key := by simp [txn]
  set _ _ _ := rfl
  delete _ _ := rfl
  iterate t start finish hstart hfinish := by
    refine ⟨_, if_neg (not_or.mpr ⟨hstart, hfinish⟩), ?_, ?_⟩
    · exact (directed_pairwise t false).filter _
    · intro k v
      simp [mem_directed]

theorem exists_prefixedEnd (hpre : pre ≠ []) (finish : Option Bytes) :
    ∃ pend, prefixedEnd pre finish = some pend ∧ pend ≠ some [] := by
  cases finish with
  | none =>
    refine ⟨endIterLoop pre, by simp [prefixedEnd, endIter, hpre], ?_⟩
    exact fun hend => ne_nil_of_endIterLoop hend rfl
  | some b => exact ⟨some (pre ++ b), rfl, by simp [hpre]⟩

theorem not_lt_of_not_lt_append {a k : Bytes} (h : compare a (pre ++ k) ≠ .lt) :
    compare a pre ≠ .lt := by
  intro hlt
  have hle : (compare pre (pre ++ k)).isLE = true := by
    have hcmp := compare_append_left pre [] k
    rw [append_nil] at hcmp
    rw [hcmp]
    cases k <;> rfl
  exact h (Std.TransCmp.lt_of_lt_of_isLE hlt hle)

theorem inRange_append (start finish pend : Option Bytes) (k : Bytes)
    (hpend : prefixedEnd pre finish = some pend) :
    inRange (some (pre ++ start.getD [])) pend (pre ++ k) = inRange start finish k := by
  have hlow : (compare (pre ++ k) (pre ++ start.getD []) != .lt) =
      start.all fun a => compare k a != .lt := by
    rw [compare_append_left]
    cases start with
    | none => exact compare_nil_bne_lt k
    | some a => rfl
  have hhigh : (pend.all fun b => compare (pre ++ k) b == .lt) =
      finish.all fun b => compare k b == .lt := by
    cases finish with
    | none =>
      have hend : endIter pre = some pend := hpend
      unfold endIter at hend
      split_ifs at hend
      cases hend
      cases hloop : endIterLoop pre with
      | none => rfl
      | some e => simp [endIter_spec hloop]
    | some b =>
      cases hpend
      simp [compare_append_left]
  simp only [inRange, Option.all_some]
  rw [hlow, hhigh]

/-- **A prefixed transaction is a map of its own.** -/
theorem isRegion_prefixed (hdb : IsRegion p db) (hpre : pre ≠ []) :
    IsRegion (p ++ pre) (NewBackendRWPrefixed pre db) where
  get t key := by
    simp [NewBackendRWPrefixed, hdb.get, hpre]
  has t key := by
    simp [NewBackendRWPrefixed, hdb.has, hpre]
  set t key value := by
    by_cases hkey : key = []
    · simp [NewBackendRWPrefixed, hkey, ValidateKv]
    · cases value with
      | none | some v => simp [NewBackendRWPrefixed, hkey, hdb.set, ValidateKv, hpre]
  delete t key := by
    simp [NewBackendRWPrefixed, hdb.delete, hpre]
  iterate t start finish hstart hfinish := by
    obtain ⟨pend, hpend, hpendNil⟩ := exists_prefixedEnd hpre finish
    obtain ⟨items, hitems, hascending, hmem⟩ :=
      hdb.iterate t (some (pre ++ start.getD [])) pend (by simp [hpre]) hpendNil
    have hfirst : ∀ a ∈ items, compare a.1 pre ≠ .lt := by
      intro a ha
      obtain ⟨_, hrange, _⟩ := (hmem a.1 a.2).mp ha
      simp only [inRange, Option.all_some, Bool.and_eq_true, bne_iff_ne] at hrange
      exact not_lt_of_not_lt_append hrange.1
    obtain ⟨hascending', hmem'⟩ := prefixItems_spec hascending hfirst
    refine ⟨prefixItems pre items, ?_, hascending', ?_⟩
    · simp only [NewBackendRWPrefixed]
      rw [if_neg (not_or.mpr ⟨hstart, hfinish⟩), hpend, Option.bind_eq_bind, Option.bind_some,
        hitems]
      rfl
    · intro k v
      rw [hmem', hmem, inRange_append start finish pend k hpend]
      simp [hpre, and_assoc]

end Region

section Frame

variable {p q : Bytes} {db : DBReadWriter} {t t' : BTree}

def SameUnder (q : Bytes) (t t' : BTree) : Prop :=
  ∀ k, t'[q ++ k]? = t[q ++ k]?

theorem SameUnder.refl (q : Bytes) (t : BTree) : SameUnder q t t :=
  fun _ => rfl

theorem SameUnder.trans {t'' : BTree} (h : SameUnder q t t') (h' : SameUnder q t' t'') :
    SameUnder q t t'' :=
  fun k => (h' k).trans (h k)

theorem sameUnder_insert (hpq : Incomparable p q) (key v : Bytes) :
    SameUnder q t (t.insert (p ++ key) v) := by
  intro k
  rw [Std.ExtTreeMap.getElem?_insert, if_neg]
  intro heq
  exact incomparable_iff.mp hpq key k (Std.LawfulEqCmp.eq_of_compare heq)

theorem sameUnder_erase (hpq : Incomparable p q) (key : Bytes) :
    SameUnder q t (t.erase (p ++ key)) := by
  intro k
  rw [Std.ExtTreeMap.getElem?_erase, if_neg]
  intro heq
  exact incomparable_iff.mp hpq key k (Std.LawfulEqCmp.eq_of_compare heq)

theorem IsRegion.sameUnder_set (hdb : IsRegion p db) (hpq : Incomparable p q)
    (key : Bytes) (value : Option Bytes) : SameUnder q t (db.Set t key value).1 := by
  rw [hdb.set]
  cases ValidateKv key value with
  | error e => exact SameUnder.refl q t
  | ok v => exact sameUnder_insert hpq key v

theorem IsRegion.sameUnder_delete (hdb : IsRegion p db) (hpq : Incomparable p q) (key : Bytes) :
    SameUnder q t (db.Delete t key).1 := by
  rw [hdb.delete]
  split_ifs
  · exact SameUnder.refl q t
  · exact sameUnder_erase hpq key

theorem IsRegion.reads_eq (hdb : IsRegion q db) (hsame : SameUnder q t t') :
    db.Get t' = db.Get t ∧ db.Has t' = db.Has t ∧
      ∀ start finish, start ≠ some [] → finish ≠ some [] →
        db.Iterator t' start finish = db.Iterator t start finish := by
  refine ⟨?_, ?_, ?_⟩
  · funext key
    rw [hdb.get, hdb.get, hsame key]
  · funext key
    rw [hdb.has, hdb.has, hsame key]
  intro start finish hstart hfinish
  obtain ⟨items, hitems, hascending, hmem⟩ := hdb.iterate t start finish hstart hfinish
  obtain ⟨items', hitems', hascending', hmem'⟩ := hdb.iterate t' start finish hstart hfinish
  have heq : items' = items := by
    refine eq_of_mem_iff hascending' hascending ?_
    rintro ⟨k, v⟩
    rw [hmem', hmem, hsame k]
  rw [hitems, hitems', heq]

end Frame

theorem txn_memDB {m : MemDBBackend} {i : Nat} {t : BTree} (ht : m.trees[i]? = some t) :
    m.Get (some i) = txn.Get t ∧ m.Has (some i) = txn.Has t ∧
      (∀ key value, match m.Set (some i) key value with
        | .error e => txn.Set t key value = (t, some e)
        | .ok m' => ∃ t', m'.trees[i]? = some t' ∧ txn.Set t key value = (t', none)) ∧
      (∀ key, match m.Delete (some i) key with
        | .error e => txn.Delete t key = (t, some e)
        | .ok m' => ∃ t', m'.trees[i]? = some t' ∧ txn.Delete t key = (t', none)) ∧
      ∀ start finish,
        match m.Iterator (some i) start finish with
        | .error e => txn.Iterator t start finish = some (.error e)
        | .ok it => ∃ items, txn.Iterator t start finish = some (.ok items) ∧
            ∀ n, items.length < n →
              collect MemDBIterator.Next MemDBIterator.read n it = some items := by
  have hcontent : m.content (some i) = some t := ht
  refine ⟨?_, ?_, ?_, ?_, ?_⟩
  · funext key
    simp only [MemDBBackend.Get, hcontent]
    rfl
  · funext key
    simp only [MemDBBackend.Has, hcontent]
    rfl
  · intro key value
    simp only [MemDBBackend.Set, txn]
    cases ValidateKv key value with
    | error e => rfl
    | ok v => exact ⟨_, by simp [ht], rfl⟩
  · intro key
    simp only [MemDBBackend.Delete, txn]
    split_ifs with hkey
    · rfl
    · exact ⟨_, by simp [ht], rfl⟩
  · intro start finish
    simp only [MemDBBackend.Iterator, MemDBBackend.iterate, hcontent, txn]
    split_ifs with hnil
    · rfl
    · refine ⟨_, rfl, ?_⟩
      intro n hn
      rw [← traverse_sent] at hn ⊢
      exact collect_memDB hn

end Topia.Ledger
