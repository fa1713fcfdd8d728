import Topia.Ledger.BadgerBackend
import Topia.Ledger.MemDB

/-!
# The iterators of the two backends

`ledger/backend/memdb/iterator.go` and the iterator of `ledger/backend/badger/backend.go`. The first
lets a goroutine walk the B-tree, whose descending walk includes its upper bound, and filters in the
visitor; the second seeks into Badger and checks the other bound at every step. A bound is nil
(`none`) or a key.

`Seek` goes to the first item that does not come before the key, in the direction of the iterator.
-/

namespace Topia.Ledger

open Lib

abbrev Item := Bytes × Bytes

def inRange (start finish : Option Bytes) (key : Bytes) : Bool :=
  start.all (fun a => compare key a != .lt) && finish.all (fun b => compare key b == .lt)

structure Visitor where
  (skipEqual abortLessThan : Option Bytes)
  sent : List Item

namespace Visitor

def visit (v : Visitor) (item : Item) : Bool × Visitor :=
  if v.skipEqual = some item.1 then (true, { v with skipEqual := none })
  else if v.abortLessThan.any (fun a => compare item.1 a == .lt) then (false, v)
  else (true, { v with sent := v.sent ++ [item] })

def walk (v : Visitor) : List Item → Visitor
  | [] => v
  | item :: items =>
    match v.visit item with
    | (false, v') => v'
    | (true, v') => walk v' items

end Visitor

namespace BTree

variable (t : BTree) (pivot : Bytes) (v : Visitor)

def directed (reverse : Bool) : List Item :=
  if reverse then t.toList.reverse else t.toList

def Ascend : Visitor :=
  v.walk t.toList

def Descend : Visitor :=
  v.walk t.toList.reverse

def AscendGreaterOrEqual : Visitor :=
  v.walk (t.toList.filter fun item => compare item.1 pivot != .lt)

def AscendRange (greaterOrEqual lessThan : Bytes) (v : Visitor) : Visitor :=
  v.walk (t.toList.filter fun item =>
    compare item.1 greaterOrEqual != .lt && compare item.1 lessThan == .lt)

def DescendLessOrEqual : Visitor :=
  v.walk (t.toList.reverse.filter fun item => compare item.1 pivot != .gt)

end BTree

structure MemDBIterator where
  ch : List Item
  item : Option Item
  (start finish : Option Bytes)

open BTree

namespace MemDBIterator

variable (t : BTree) (start finish : Option Bytes) (i : MemDBIterator)

/-- The goroutine of `newMemDBIterator`. A nil key is like the empty one. -/
def traverse (reverse : Bool) : Visitor :=
  let v : Visitor := { skipEqual := none, abortLessThan := none, sent := [] }
  match start, finish, reverse with
  | none, none, false => Ascend t v
  | none, none, true => Descend t v
  | some a, none, false => AscendGreaterOrEqual t a v
  | _, some b, false => AscendRange t (start.getD []) b v
  | some a, none, true => Descend t { v with abortLessThan := some a }
  | _, some b, true =>
    DescendLessOrEqual t b { v with skipEqual := some b, abortLessThan := start }

def newMemDBIterator (reverse : Bool) : MemDBIterator where
  ch := (traverse t start finish reverse).sent
  item := none
  start := start
  finish := finish

def Next : Bool × MemDBIterator :=
  match i.ch with
  | [] => (false, { i with item := none })
  | item :: ch => (true, { i with ch := ch, item := some item })

def read : Option Item :=
  i.item

end MemDBIterator

namespace MemDBBackend

variable (m : MemDBBackend) (tree : TreePtr) (start finish : Option Bytes)

def iterate (reverse : Bool) : Except MemDBError MemDBIterator :=
  match m.content tree with
  | none => .error .transactionClosed
  | some t =>
    if start = some [] ∨ finish = some [] then .error .keyEmpty
    else .ok (MemDBIterator.newMemDBIterator t start finish reverse)

def Iterator : Except MemDBError MemDBIterator :=
  m.iterate tree start finish false

def ReverseIterator : Except MemDBError MemDBIterator :=
  m.iterate tree start finish true

end MemDBBackend

structure BadgerCursor where
  (items rest : List Item)
  reverse : Bool

namespace BadgerCursor

def NewIterator (t : BTree) (reverse : Bool) : BadgerCursor where
  items := directed t reverse
  rest := []
  reverse := reverse

variable (c : BadgerCursor)

def Rewind : BadgerCursor :=
  { c with rest := c.items }

def Seek (key : Bytes) : BadgerCursor :=
  if key = [] then c.Rewind
  else
    { c with rest := c.items.dropWhile fun item =>
        compare item.1 key == if c.reverse then .gt else .lt }

def Next : BadgerCursor :=
  { c with rest := c.rest.tail }

end BadgerCursor

structure BadgerIterator where
  reverse : Bool
  (start finish : Option Bytes)
  iter : BadgerCursor
  primed : Bool

open BadgerCursor

namespace BadgerIterator

variable (t : BTree) (i : BadgerIterator)

def within (item : Item) : Bool :=
  match i.finish with
  | none => true
  | some b =>
    b = [] || !(!i.reverse && compare item.1 b != .lt || i.reverse && compare item.1 b == .lt)

def Valid : Bool :=
  i.iter.rest.head?.any i.within

def Next (i : BadgerIterator) : Bool × BadgerIterator :=
  let i' :=
    if i.primed then { i with iter := i.iter.Next } else { i with primed := true }
  (i'.Valid, i')

def read : Option Item :=
  if i.Valid then i.iter.rest.head? else none

def seek (start : Bytes) (reverse : Bool) : BadgerCursor :=
  let iter := ((NewIterator t reverse).Rewind).Seek start
  if reverse && iter.rest.head?.any (fun item => item.1 = start) then iter.Next else iter

def iteratorOpts (start finish : Option Bytes) (reverse : Bool) :
    Except BackendError BadgerIterator :=
  if start = some [] ∨ finish = some [] then .error .keyEmpty
  else
    .ok
      { reverse := reverse
        start := start
        finish := finish
        iter := seek t (start.getD []) reverse
        primed := false }

end BadgerIterator

open BadgerIterator

namespace BadgerBackend

variable (b : BadgerBackend) (ts : Nat) (start finish : Option Bytes)

def keys : List Bytes :=
  b.db.flatMap fun c => c.writes.map Prod.fst

def itemsAt : BTree :=
  b.keys.foldl (fun t key =>
    match b.content ts key with
    | none => t
    | some v => t.insert key v) ∅

def Iterator : Except BackendError BadgerIterator :=
  iteratorOpts (b.itemsAt ts) start finish false

def ReverseIterator : Except BackendError BadgerIterator :=
  iteratorOpts (b.itemsAt ts) finish start true

end BadgerBackend

open List

section Order

variable {t : BTree} {reverse : Bool} {v : Visitor} {items : List Item} {key : Bytes}

def Before (reverse : Bool) (a b : Item) : Prop :=
  compare a.1 b.1 = if reverse then .gt else .lt

theorem directed_pairwise (t : BTree) (reverse : Bool) :
    (directed t reverse).Pairwise (Before reverse) := by
  have hascending : t.toList.Pairwise (Before false) := Std.ExtTreeMap.ordered_keys_toList
  cases reverse with
  | false => exact hascending
  | true =>
    refine pairwise_reverse.mpr (hascending.imp fun {a b} hab => ?_)
    exact Std.OrientedCmp.gt_iff_lt.mpr hab

theorem mem_directed {item : Item} :
    item ∈ directed t reverse ↔ t[item.1]? = some item.2 := by
  cases reverse with
  | false => exact Std.ExtTreeMap.mem_toList_iff_getElem?_eq_some
  | true => exact mem_reverse.trans Std.ExtTreeMap.mem_toList_iff_getElem?_eq_some

theorem length_directed : (directed t reverse).length = t.size := by
  cases reverse with
  | false => exact Std.ExtTreeMap.length_toList
  | true => exact length_reverse.trans Std.ExtTreeMap.length_toList

theorem compare_nil_bne_lt (key : Bytes) : (compare key [] != .lt) = true := by
  cases key with
  | nil => rfl
  | cons a key => rfl

theorem lt_of_before {a b : Item} (hab : Before true a b) (ha : compare a.1 key = .lt) :
    compare b.1 key = .lt :=
  Std.TransCmp.lt_trans (Std.OrientedCmp.gt_iff_lt.mp hab) ha

theorem lt_of_after {a b : Item} (hab : Before false a b) (hb : compare b.1 key = .lt) :
    compare a.1 key = .lt :=
  Std.TransCmp.lt_trans (show compare a.1 b.1 = .lt from hab) hb

end Order

section MemDB

variable {t : BTree} {reverse : Bool} {v : Visitor} {items : List Item}

def Visitor.sends (v : Visitor) (item : Item) : Bool :=
  decide (v.skipEqual ≠ some item.1) && !v.abortLessThan.any (fun a => compare item.1 a == .lt)

open Visitor

theorem walk_plain (hskip : v.skipEqual = none) (habort : v.abortLessThan = none) :
    (v.walk items).sent = v.sent ++ items := by
  induction items generalizing v with
  | nil => simp [walk]
  | cons item items ih =>
    have hvisit : v.visit item = (true, { v with sent := v.sent ++ [item] }) := by
      simp [visit, hskip, habort]
    simp only [walk, hvisit]
    rw [ih (v := { v with sent := v.sent ++ [item] }) hskip habort, append_assoc]
    rfl

theorem walk_descending (hitems : items.Pairwise (Before true)) :
    (v.walk items).sent = v.sent ++ items.filter v.sends := by
  induction items generalizing v with
  | nil => simp [walk]
  | cons item items ih =>
    obtain ⟨hitem, hitems⟩ := pairwise_cons.mp hitems
    by_cases hskip : v.skipEqual = some item.1
    · -- the keys that follow are smaller, so they are not skipped either way
      have hvisit : v.visit item = (true, { v with skipEqual := none }) := by
        simp [visit, hskip]
      have hsame : items.filter (sends { v with skipEqual := none }) =
          items.filter v.sends := by
        refine filter_congr fun b hb => ?_
        have hne : item.1 ≠ b.1 := by
          intro heq
          have hgt := hitem b hb
          simp [Before, heq] at hgt
        simp [sends, hskip, hne]
      simp only [walk, hvisit]
      rw [ih hitems, hsame]
      simp [sends, hskip]
    · cases hbelow : v.abortLessThan.any (fun a => compare item.1 a == .lt) with
      | true =>
        have hvisit : v.visit item = (false, v) := by simp [visit, hskip, hbelow]
        have hnone : (item :: items).filter v.sends = [] := by
          obtain ⟨a, ha, hlt⟩ : ∃ a, v.abortLessThan = some a ∧ compare item.1 a = .lt := by
            cases habort : v.abortLessThan with
            | none => simp [habort] at hbelow
            | some a => exact ⟨a, rfl, by simpa [habort] using hbelow⟩
          refine filter_eq_nil_iff.mpr fun b hb => ?_
          have hlt' : compare b.1 a = .lt := by
            rcases mem_cons.mp hb with rfl | hb
            · exact hlt
            · exact lt_of_before (hitem b hb) hlt
          simp [sends, ha, hlt']
        simp [walk, hvisit, hnone]
      | false =>
        have hvisit : v.visit item = (true, { v with sent := v.sent ++ [item] }) := by
          simp [visit, hskip, hbelow]
        have hsends : v.sends item = true := by simp [sends, hskip, hbelow]
        simp only [walk, hvisit]
        rw [ih hitems, filter_cons_of_pos hsends, append_assoc]
        rfl

theorem traverse_ascending (t : BTree) (start finish : Option Bytes) :
    (MemDBIterator.traverse t start finish false).sent =
      (directed t false).filter fun item => inRange start finish item.1 := by
  cases start with
  | none =>
    cases finish with
    | none =>
      simp [MemDBIterator.traverse, Ascend, walk_plain, directed, inRange]
    | some b =>
      simp [MemDBIterator.traverse, AscendRange, walk_plain, directed, inRange, compare_nil_bne_lt]
  | some a =>
    cases finish with
    | none =>
      simp [MemDBIterator.traverse, AscendGreaterOrEqual, walk_plain, directed, inRange]
    | some b =>
      simp [MemDBIterator.traverse, AscendRange, walk_plain, directed, inRange]

theorem sends_below (start : Option Bytes) (b : Bytes) (item : Item) :
    ((⟨some b, start, []⟩ : Visitor).sends item && compare item.1 b != .gt) =
      inRange start (some b) item.1 := by
  simp only [sends, inRange]
  cases hcmp : compare item.1 b with
  | lt =>
    have hne : b ≠ item.1 := by
      rintro rfl
      simp at hcmp
    cases start with
    | none => simp [hne, hcmp]
    | some a => simp [hne, hcmp, bne]
  | eq => simp [Std.LawfulEqCmp.eq_of_compare hcmp]
  | gt => simp [hcmp]

theorem traverse_descending (t : BTree) (start finish : Option Bytes) :
    (MemDBIterator.traverse t start finish true).sent =
      (directed t true).filter fun item => inRange start finish item.1 := by
  have hdescending := directed_pairwise t true
  cases finish with
  | none =>
    cases start with
    | none =>
      simp [MemDBIterator.traverse, Descend, walk_plain, directed, inRange]
    | some a =>
      have hwalk := walk_descending (v := ⟨none, some a, []⟩) hdescending
      refine hwalk.trans ?_
      refine filter_congr fun item _ => ?_
      simp [sends, inRange, bne]
  | some b =>
    have hwalk := walk_descending (v := ⟨some b, start, []⟩)
      (hdescending.filter fun item => compare item.1 b != .gt)
    have htraverse : MemDBIterator.traverse t start (some b) true =
        walk ⟨some b, start, []⟩
          ((directed t true).filter fun item => compare item.1 b != .gt) := by
      cases start with
      | none => rfl
      | some a => rfl
    rw [htraverse, hwalk, nil_append, filter_filter]
    exact filter_congr fun item _ => sends_below start b item

theorem traverse_sent (t : BTree) (start finish : Option Bytes) (reverse : Bool) :
    (MemDBIterator.traverse t start finish reverse).sent =
      (directed t reverse).filter fun item => inRange start finish item.1 := by
  cases reverse with
  | false => exact traverse_ascending t start finish
  | true => exact traverse_descending t start finish

theorem collect_memDB {n : Nat} {i : MemDBIterator} (hn : i.ch.length < n) :
    collect MemDBIterator.Next MemDBIterator.read n i = some i.ch := by
  have hend : ∀ i : MemDBIterator, i.ch = [] → i.Next.1 = false := by
    intro i hch
    simp [MemDBIterator.Next, hch]
  have hnext : ∀ (i : MemDBIterator) item ch, i.ch = item :: ch →
      i.Next.1 = true ∧ i.Next.2.read = some item ∧ i.Next.2.ch = ch := by
    intro i item ch hch
    simp [MemDBIterator.Next, MemDBIterator.read, hch]
  exact collect_eq hend hnext rfl hn

end MemDB

open BadgerBackend

section Badger

variable {t : BTree} {items : List Item}

def BadgerIterator.ahead (i : BadgerIterator) : List Item :=
  (if i.primed then i.iter.rest.tail else i.iter.rest).takeWhile i.within

theorem BadgerIterator.ahead_Next (i : BadgerIterator) :
    i.ahead = i.Next.2.iter.rest.takeWhile i.within ∧ i.Next.2.primed = true ∧
      i.Next.2.within = i.within := by
  cases hprimed : i.primed with
  | false | true =>
    simp only [Next, ahead, hprimed]
    exact ⟨rfl, rfl, rfl⟩

theorem collect_badger {n : Nat} {i : BadgerIterator} (hn : i.ahead.length < n) :
    collect BadgerIterator.Next BadgerIterator.read n i = some i.ahead := by
  have hend : ∀ i : BadgerIterator, i.ahead = [] → i.Next.1 = false := by
    intro i hahead
    obtain ⟨hrest, _, hwithin⟩ := i.ahead_Next
    rw [hrest] at hahead
    show i.Next.2.Valid = false
    cases hitems : i.Next.2.iter.rest with
    | nil => simp [BadgerIterator.Valid, hitems]
    | cons item items =>
      rw [hitems, takeWhile_cons] at hahead
      simpa [BadgerIterator.Valid, hitems, hwithin] using hahead
  have hnext : ∀ (i : BadgerIterator) item items, i.ahead = item :: items →
      i.Next.1 = true ∧ i.Next.2.read = some item ∧ i.Next.2.ahead = items := by
    intro i item items hahead
    obtain ⟨hrest, hprimed, hwithin⟩ := i.ahead_Next
    rw [hrest] at hahead
    cases hitems : i.Next.2.iter.rest with
    | nil => simp [hitems] at hahead
    | cons first rest =>
      rw [hitems, takeWhile_cons] at hahead
      split at hahead
      · rename_i hfirst
        cases hahead
        have hvalid : i.Next.2.Valid = true := by
          simp [BadgerIterator.Valid, hitems, hwithin, hfirst]
        refine ⟨hvalid, ?_, ?_⟩
        · simp [BadgerIterator.read, hvalid, hitems]
        · simp [BadgerIterator.ahead, hprimed, hitems, hwithin]
      · cases hahead
  exact collect_eq hend hnext rfl hn

theorem seek_descending (key : Bytes) (hitems : items.Pairwise (Before true)) :
    (if (items.dropWhile fun item => compare item.1 key == .gt).head?.any
        (fun item => item.1 = key) then
      (items.dropWhile fun item => compare item.1 key == .gt).tail
    else items.dropWhile fun item => compare item.1 key == .gt) =
      items.filter fun item => compare item.1 key == .lt := by
  induction items with
  | nil => rfl
  | cons item items ih =>
    obtain ⟨hitem, hitems⟩ := pairwise_cons.mp hitems
    -- once an item is not above the key, those that follow are below it
    have hbelow : compare item.1 key ≠ .gt →
        (items.filter fun item => compare item.1 key == .lt) = items := by
      intro hcmp
      refine filter_eq_self.mpr fun b hb => ?_
      have hlt : compare b.1 item.1 = .lt := Std.OrientedCmp.gt_iff_lt.mp (hitem b hb)
      have hle : (compare item.1 key).isLE = true := Ordering.isLE_iff_ne_gt.mpr hcmp
      exact beq_iff_eq.mpr (Std.TransCmp.lt_of_lt_of_isLE hlt hle)
    cases hcmp : compare item.1 key with
    | gt => simpa [dropWhile_cons, hcmp] using ih hitems
    | eq =>
      have heq := Std.LawfulEqCmp.eq_of_compare hcmp
      simp [heq, hbelow]
    | lt =>
      have hne : item.1 ≠ key := by
        rintro rfl
        simp at hcmp
      simp [hcmp, hne, hbelow]

variable {start finish : Option Bytes}

theorem seek_forward (hstart : start ≠ some []) :
    (seek t (start.getD []) false).rest =
      (directed t false).filter fun item => start.all (compare item.1 · != .lt) := by
  cases start with
  | none => simp [seek, Seek, Rewind,
      NewIterator]
  | some a =>
    have ha : a ≠ [] := fun h => hstart (congrArg some h)
    have hdrop := dropWhile_eq_filter (p := fun item => compare item.1 a == .lt)
      (directed_pairwise t false)
      fun x y hxy hy => beq_iff_eq.mpr (lt_of_after hxy (eq_of_beq hy))
    simpa [seek, Seek, Rewind, NewIterator, ha, bne] using hdrop

theorem seek_reverse (hfinish : finish ≠ some []) (hkeys : t[([] : Bytes)]? = none) :
    (seek t (finish.getD []) true).rest =
      (directed t true).filter fun item => finish.all (compare item.1 · == .lt) := by
  cases finish with
  | none =>
    have hhead : (directed t true).head?.any (fun item => item.1 = []) = false := by
      cases hitem : (directed t true).head? with
      | none => rfl
      | some item =>
        have hmem := mem_directed.mp (mem_of_mem_head? hitem)
        have hne : item.1 ≠ [] := by
          intro hnil
          rw [hnil, hkeys] at hmem
          cases hmem
        simp [hne]
    simp [seek, Seek, Rewind, NewIterator, hhead]
  | some b =>
    have hb : b ≠ [] := fun h => hfinish (congrArg some h)
    have hseek := seek_descending b (directed_pairwise t true)
    simp only [Option.all_some]
    rw [← hseek]
    simp only [Option.getD_some, seek, Seek, if_neg hb, Rewind, NewIterator, if_true, Bool.true_and]
    split_ifs with hequal
    · rfl
    · rfl

theorem ahead_eq {i : BadgerIterator} {reverse : Bool} {p q : Item → Bool}
    (hprimed : i.primed = false) (hitems : items.Pairwise (Before reverse))
    (hrest : i.iter.rest = items.filter p) (hwithin : ∀ item, i.within item = q item)
    (hq : ∀ a b, Before reverse a b → q b = true → q a = true) :
    i.ahead = items.filter fun item => p item && q item := by
  have htake : i.iter.rest.takeWhile i.within = i.iter.rest.filter q := by
    rw [hrest, funext hwithin]
    exact takeWhile_eq_filter (hitems.filter p) hq
  simp only [ahead, hprimed, Bool.false_eq_true, if_false]
  rw [htake, hrest, filter_filter]
  exact filter_congr fun item _ => Bool.and_comm _ _

theorem iteratorOpts_forward (hstart : start ≠ some []) (hfinish : finish ≠ some []) :
    ∃ i, iteratorOpts t start finish false = .ok i ∧
      i.ahead = (directed t false).filter fun item => inRange start finish item.1 := by
  have hempty : ¬ (start = some [] ∨ finish = some []) := not_or.mpr ⟨hstart, hfinish⟩
  refine ⟨_, if_neg hempty, ?_⟩
  refine ahead_eq (q := fun item => finish.all (compare item.1 · == .lt)) rfl
    (directed_pairwise t false) (seek_forward hstart) ?_ ?_
  · intro item
    cases finish with
    | none => rfl
    | some b =>
      have hb : b ≠ [] := fun h => hfinish (congrArg some h)
      simp [within, hb, bne]
  · intro x y hxy hy
    cases finish with
    | none => rfl
    | some b =>
      simp only [Option.all_some, beq_iff_eq] at hy ⊢
      exact lt_of_after hxy hy

theorem iteratorOpts_reverse (hstart : start ≠ some [])
    (hfinish : finish ≠ some []) (hkeys : t[([] : Bytes)]? = none) :
    ∃ i, iteratorOpts t finish start true = .ok i ∧
      i.ahead = (directed t true).filter fun item => inRange start finish item.1 := by
  have hempty : ¬ (finish = some [] ∨ start = some []) := not_or.mpr ⟨hfinish, hstart⟩
  refine ⟨_, if_neg hempty, ?_⟩
  have hahead := ahead_eq (i := ⟨true, finish, start, _, false⟩)
    (q := fun item => start.all (compare item.1 · != .lt)) rfl
    (directed_pairwise t true) (seek_reverse hfinish hkeys) ?_ ?_
  · refine hahead.trans (filter_congr fun item _ => ?_)
    exact Bool.and_comm _ _
  · intro item
    cases start with
    | none => rfl
    | some a =>
      have ha : a ≠ [] := fun h => hstart (congrArg some h)
      simp [within, ha, bne]
  · intro x y hxy hy
    cases start with
    | none => rfl
    | some a =>
      simp only [Option.all_some, bne_iff_ne] at hy ⊢
      exact fun hx => hy (lt_of_before hxy hx)

theorem getElem?_itemsAt (b : BadgerBackend) (ts : Nat) (key : Bytes) :
    (b.itemsAt ts)[key]? = b.content ts key := by
  have hfold : ∀ (keys : List Bytes) (t : BTree),
      (keys.foldl (fun t key =>
        match b.content ts key with
        | none => t
        | some v => t.insert key v) t)[key]? =
      if key ∈ keys then (b.content ts key).or t[key]? else t[key]? := by
    intro keys
    induction keys with
    | nil => intro t; simp
    | cons key' keys ih =>
      intro t
      rw [foldl_cons, ih]
      by_cases hkey : key = key'
      · subst hkey
        cases hvalue : b.content ts key with
        | none => simp
        | some v => simp
      have hsame : (match b.content ts key' with
          | none => t
          | some v => t.insert key' v)[key]? = t[key]? := by
        cases b.content ts key' with
        | none => rfl
        | some v => simp [Std.ExtTreeMap.getElem?_insert, Ne.symm hkey]
      simp [hsame, hkey]
  rw [itemsAt, hfold]
  split_ifs with hkey
  · simp
  · have hnone : b.content ts key = none := by
      refine Mvcc.readAt_of_not_written (fun c hc w hw heq => hkey ?_) ts
      exact mem_flatMap.mpr ⟨c, hc, mem_map.mpr ⟨w, hw, heq⟩⟩
    simp [hnone]

end Badger

variable (m : MemDBBackend) (tree : TreePtr) (b : BadgerBackend) (ts : Nat)

def memDBItems (start finish : Option Bytes) (reverse : Bool) (n : Nat) : Option (List Item) :=
  match if reverse then m.ReverseIterator tree start finish else m.Iterator tree start finish with
  | .error _ => none
  | .ok i => collect MemDBIterator.Next MemDBIterator.read n i

def badgerItems (start finish : Option Bytes) (reverse : Bool) (n : Nat) : Option (List Item) :=
  match if reverse then b.ReverseIterator ts start finish else b.Iterator ts start finish with
  | .error _ => none
  | .ok i => collect Next read n i

/-- **Iterator equivalence.** On the same content, for bounds that are nil or not empty and both
directions, both iterators yield the items with `start ≤ key < end`, each once and in order. -/
theorem iterators_agree (t : BTree) (start finish : Option Bytes) (reverse : Bool) (n : Nat)
    (htree : m.content tree = some t) (hcontent : ∀ key, b.content ts key = t[key]?)
    (hkeys : t[([] : Bytes)]? = none) (hstart : start ≠ some []) (hfinish : finish ≠ some [])
    (hn : t.size < n) :
    ∃ items, memDBItems m tree start finish reverse n = some items ∧
      badgerItems b ts start finish reverse n = some items ∧
      (∀ item, item ∈ items ↔ t[item.1]? = some item.2 ∧ inRange start finish item.1 = true) ∧
      items.Pairwise (Before reverse) := by
  have hitems : b.itemsAt ts = t :=
    Std.ExtTreeMap.ext_getElem? fun key => (getElem?_itemsAt b ts key).trans (hcontent key)
  have hlength : ((directed t reverse).filter
      fun item => inRange start finish item.1).length < n := by
    have hle := length_filter_le (fun item => inRange start finish item.1)
      (directed t reverse)
    rw [length_directed] at hle
    omega
  have hempty : ¬ (start = some [] ∨ finish = some []) := not_or.mpr ⟨hstart, hfinish⟩
  refine ⟨(directed t reverse).filter fun item => inRange start finish item.1,
    ?_, ?_, fun item => ?_, (directed_pairwise t reverse).filter _⟩
  · have hiterate : m.iterate tree start finish reverse =
        .ok (MemDBIterator.newMemDBIterator t start finish reverse) := by
      simp [MemDBBackend.iterate, htree, hempty]
    have hch : (MemDBIterator.newMemDBIterator t start finish reverse).ch =
        (directed t reverse).filter fun item => inRange start finish item.1 :=
      traverse_sent t start finish reverse
    rw [← hch] at hlength ⊢
    have hcollect := collect_memDB hlength
    cases reverse with
    | false => simpa [memDBItems, MemDBBackend.Iterator, hiterate] using hcollect
    | true => simpa [memDBItems, MemDBBackend.ReverseIterator, hiterate] using hcollect
  · cases reverse with
    | false =>
      obtain ⟨i, hi, hahead⟩ := iteratorOpts_forward (t := t) hstart hfinish
      rw [← hahead] at hlength ⊢
      simp [badgerItems, Iterator, hitems, hi, collect_badger hlength]
    | true =>
      obtain ⟨i, hi, hahead⟩ := iteratorOpts_reverse (t := t) hstart hfinish hkeys
      rw [← hahead] at hlength ⊢
      simp [badgerItems, ReverseIterator, hitems, hi, collect_badger hlength]
  · rw [mem_filter, mem_directed]

def threeKeys : BadgerBackend :=
  { NewBadgerBackend with
    db := [{ ts := 1, writes := [([1], some [10]), ([2], some [20]), ([2, 7], some [])] }] }

theorem iterators_agree_on_three_keys :
    ∃ items,
      memDBItems { MemDBBackend.NewMemDBBackend with trees := [threeKeys.itemsAt 1] } (some 0)
        (some [1]) (some [2, 7]) true 4 = some items ∧
      badgerItems threeKeys 1 (some [1]) (some [2, 7]) true 4 = some items ∧
      (∀ item, item ∈ items ↔ (threeKeys.itemsAt 1)[item.1]? = some item.2 ∧
        inRange (some [1]) (some [2, 7]) item.1 = true) ∧
      items.Pairwise (Before true) :=
  iterators_agree _ _ threeKeys 1 (threeKeys.itemsAt 1) _ _ _ _ rfl
    (fun key => (getElem?_itemsAt threeKeys 1 key).symm) (by decide +kernel) (by decide)
    (by decide) (by decide +kernel)

example :
    badgerItems threeKeys 1 (some [1]) (some [2, 7]) true 4 = some [([2], [20]), ([1], [10])] := by
  decide +kernel

end Topia.Ledger
