import Mathlib.Data.Finmap

/-!
# The shrinkable map

`shrink_map.go`: a map in two halves, which is copied into a fresh one after many deletions, since
a Go map does not give its buckets back.  A `range` loop visits a map in an order of its own, so
that each call carries the order of its loops.
-/

namespace Topia.Common

variable {α β : Type} [DecidableEq α]

abbrev GoMap (α β : Type) := Finmap fun _ : α => β

structure RangeOrder (α β : Type) where
  range : GoMap α β → List (Σ _ : α, β)
  entries_eq : ∀ m, (range m : Multiset (Σ _ : α, β)) = m.entries

instance : Nonempty (RangeOrder α β) :=
  ⟨⟨fun m => m.entries.toList, fun m => m.entries.coe_toList⟩⟩

def copyThreshold : Nat := 1000
def maxDeletion : Nat := 10000

structure ShrinkableMap (α β : Type) where
  (deletionOld deletionNew : Nat)
  (dirtyOld dirtyNew : GoMap α β)

def copyInto (order : RangeOrder α β) (source target : GoMap α β) : GoMap α β :=
  (order.range source).foldl (fun m e => m.insert e.1 e.2) target

namespace ShrinkableMap

variable {m : ShrinkableMap α β} {plain : GoMap α β} {key : α} {value : β}

def NewShrinkMap (α β : Type) : ShrinkableMap α β := ⟨0, 0, ∅, ∅⟩

def delOld (m : ShrinkableMap α β) (key : α) : ShrinkableMap α β :=
  if key ∈ m.dirtyOld then
    { m with dirtyOld := m.dirtyOld.erase key, deletionOld := m.deletionOld + 1 }
  else m

def delNew (m : ShrinkableMap α β) (key : α) : ShrinkableMap α β :=
  if key ∈ m.dirtyNew then
    { m with dirtyNew := m.dirtyNew.erase key, deletionNew := m.deletionNew + 1 }
  else m

variable (order : RangeOrder α β)

def shrinkOld (m : ShrinkableMap α β) : ShrinkableMap α β :=
  if maxDeletion ≤ m.deletionOld ∧ m.dirtyOld.keys.card < copyThreshold then
    ⟨m.deletionNew, 0, copyInto order m.dirtyOld m.dirtyNew, ∅⟩
  else m

def shrinkNew (m : ShrinkableMap α β) : ShrinkableMap α β :=
  if maxDeletion ≤ m.deletionNew ∧ m.dirtyNew.keys.card < copyThreshold then
    ⟨m.deletionOld, 0, copyInto order m.dirtyNew m.dirtyOld, ∅⟩
  else m

def Del (m : ShrinkableMap α β) (key : α) : ShrinkableMap α β :=
  ((if key ∈ m.dirtyOld then m.delOld key else m.delNew key).shrinkOld order).shrinkNew order

def Set (m : ShrinkableMap α β) (key : α) (value : β) : ShrinkableMap α β :=
  if m.deletionOld ≤ maxDeletion then
    { m.delNew key with dirtyOld := m.dirtyOld.insert key value }
  else { m.delOld key with dirtyNew := m.dirtyNew.insert key value }

def Get (m : ShrinkableMap α β) (key : α) : Option β :=
  match m.dirtyOld.lookup key with
  | some val => some val
  | none => m.dirtyNew.lookup key

def IterateCallback (m : ShrinkableMap α β) : List (Σ _ : α, β) :=
  order.range m.dirtyOld ++ order.range m.dirtyNew

def AllKeys (m : ShrinkableMap α β) : List α :=
  (order.range m.dirtyOld).map Sigma.fst ++ (order.range m.dirtyNew).map Sigma.fst

def Size (m : ShrinkableMap α β) : Nat := m.dirtyOld.keys.card + m.dirtyNew.keys.card

structure Refines (m : ShrinkableMap α β) (plain : GoMap α β) : Prop where
  disjoint : m.dirtyOld.Disjoint m.dirtyNew
  union_eq : m.dirtyOld ∪ m.dirtyNew = plain

/-- Every read is that of a plain map: each key and each pair once. -/
structure Agrees (m : ShrinkableMap α β) (plain : GoMap α β) : Prop where
  get : ∀ key, m.Get key = plain.lookup key
  allKeys : ∀ order, (m.AllKeys order).Nodup ∧ ∀ key, key ∈ m.AllKeys order ↔ key ∈ plain
  iterate : ∀ order, (m.IterateCallback order).Nodup ∧
    ∀ key val, ⟨key, val⟩ ∈ m.IterateCallback order ↔ plain.lookup key = some val
  size : m.Size = plain.keys.card

end ShrinkableMap

/-- The writes, with the order of the loops of a deletion. -/
inductive MapCall (α β : Type) where
  | set (key : α) (value : β)
  | del (key : α) (order : RangeOrder α β)

def MapCall.apply : ShrinkableMap α β × GoMap α β → MapCall α β → ShrinkableMap α β × GoMap α β
  | (m, plain), .set key value => (m.Set key value, plain.insert key value)
  | (m, plain), .del key order => (m.Del order key, plain.erase key)

open Finmap

section Lookups

variable (s t : GoMap α β) (key k : α)

theorem lookup_union : (s ∪ t).lookup k = (s.lookup k).or (t.lookup k) := by
  cases hs : s.lookup k with
  | none => rw [lookup_union_right (lookup_eq_none.mp hs), Option.none_or]
  | some val => rw [lookup_union_left (mem_of_lookup_eq_some hs), hs, Option.some_or]

theorem lookup_erase_ite : (s.erase key).lookup k = if k = key then none else s.lookup k := by
  split_ifs with hk
  · rw [hk, lookup_erase]
  · rw [lookup_erase_ne hk]

theorem lookup_insert_ite (value : β) :
    (s.insert key value).lookup k = if k = key then some value else s.lookup k := by
  split_ifs with hk
  · rw [hk, lookup_insert]
  · rw [lookup_insert_of_ne _ hk]

theorem erase_of_notMem {s : GoMap α β} {key : α} (hkey : key ∉ s) : s.erase key = s := by
  refine ext_lookup fun k => ?_
  rw [lookup_erase_ite]
  split_ifs with hk
  · rw [hk, lookup_eq_none.mpr hkey]
  · rfl

end Lookups

section Ranges

variable (order : RangeOrder α β) (m : GoMap α β)

omit [DecidableEq α] in
theorem nodupKeys_range : (order.range m).NodupKeys := by
  rw [← Multiset.coe_nodupKeys, order.entries_eq]
  exact m.nodupKeys

theorem mem_range_iff {key : α} {val : β} :
    ⟨key, val⟩ ∈ order.range m ↔ m.lookup key = some val := by
  rw [lookup_eq_some_iff, ← order.entries_eq, Multiset.mem_coe]

theorem mem_map_range {key : α} : key ∈ (order.range m).map Sigma.fst ↔ key ∈ m := by
  rw [mem_iff]
  simp [← mem_range_iff order]

theorem lookup_foldl_insert {l : List (Σ _ : α, β)} (hl : l.NodupKeys) (key : α) :
    (l.foldl (fun m e => m.insert e.1 e.2) m).lookup key = (l.dlookup key).or (m.lookup key) := by
  induction l generalizing m with
  | nil => rfl
  | cons e l ih =>
    obtain ⟨hfresh, hl⟩ := List.nodupKeys_cons.mp hl
    rw [List.foldl_cons, ih (m.insert e.1 e.2) hl]
    by_cases hkey : key = e.1
    · subst hkey
      rw [List.dlookup_eq_none.mpr hfresh, lookup_insert, List.dlookup_cons_eq]
      rfl
    · rw [List.dlookup_cons_ne _ _ hkey, lookup_insert_of_ne _ hkey]

theorem copyInto_eq (target : GoMap α β) : copyInto order m target = m ∪ target := by
  refine ext_lookup fun key => ?_
  have hnodup := nodupKeys_range order m
  have hlookup : (order.range m).dlookup key = m.lookup key := by
    refine Option.ext fun val => ?_
    rw [← Option.mem_def, List.mem_dlookup_iff hnodup, mem_range_iff]
  rw [copyInto, lookup_foldl_insert target hnodup, hlookup, lookup_union]

end Ranges

namespace ShrinkableMap

variable {m : ShrinkableMap α β} {plain : GoMap α β}

@[simp] theorem delOld_dirtyOld (key : α) : (m.delOld key).dirtyOld = m.dirtyOld.erase key := by
  unfold delOld
  split_ifs with hkey
  · rfl
  · rw [erase_of_notMem hkey]

@[simp] theorem delNew_dirtyNew (key : α) : (m.delNew key).dirtyNew = m.dirtyNew.erase key := by
  unfold delNew
  split_ifs with hkey
  · rfl
  · rw [erase_of_notMem hkey]

@[simp] theorem delOld_dirtyNew (key : α) : (m.delOld key).dirtyNew = m.dirtyNew := by
  unfold delOld
  split_ifs <;> rfl

@[simp] theorem delNew_dirtyOld (key : α) : (m.delNew key).dirtyOld = m.dirtyOld := by
  unfold delNew
  split_ifs <;> rfl

theorem refines_shrink (h : m.Refines plain) (order : RangeOrder α β) :
    ((m.shrinkOld order).shrinkNew order).Refines plain := by
  have hold : (m.shrinkOld order).Refines plain := by
    unfold shrinkOld
    split_ifs
    · refine ⟨(disjoint_empty _).symm, ?_⟩
      rw [union_empty, copyInto_eq, h.union_eq]
    · exact h
  unfold shrinkNew
  split_ifs
  · refine ⟨(disjoint_empty _).symm, ?_⟩
    rw [union_empty, copyInto_eq, ← union_comm_of_disjoint hold.disjoint, hold.union_eq]
  · exact hold

theorem refines_Del (h : m.Refines plain) (key : α) (order : RangeOrder α β) :
    (m.Del order key).Refines (plain.erase key) := by
  refine refines_shrink ?_ order
  obtain ⟨hdisjoint, rfl⟩ := h
  split_ifs with hkey
  · refine ⟨fun k hk => ?_, ext_lookup fun k => ?_⟩
    · rw [delOld_dirtyOld, mem_erase] at hk
      rw [delOld_dirtyNew]
      exact hdisjoint k hk.2
    · have hnew := lookup_eq_none.mpr (hdisjoint key hkey)
      simp only [delOld_dirtyOld, delOld_dirtyNew, lookup_union, lookup_erase_ite]
      split_ifs with hk
      · rw [hk, hnew, Option.none_or]
      · rfl
  · refine ⟨fun k hk hnew => ?_, ext_lookup fun k => ?_⟩
    · rw [delNew_dirtyOld] at hk
      rw [delNew_dirtyNew, mem_erase] at hnew
      exact hdisjoint k hk hnew.2
    · have hold := lookup_eq_none.mpr hkey
      simp only [delNew_dirtyOld, delNew_dirtyNew, lookup_union, lookup_erase_ite]
      split_ifs with hk
      · rw [hk, hold, Option.none_or]
      · rfl

theorem refines_Set (h : m.Refines plain) (key : α) (value : β) :
    (m.Set key value).Refines (plain.insert key value) := by
  obtain ⟨hdisjoint, rfl⟩ := h
  unfold Set
  split_ifs
  · refine ⟨fun k hk hnew => ?_, ext_lookup fun k => ?_⟩
    · rw [delNew_dirtyNew, mem_erase] at hnew
      exact hdisjoint k ((mem_insert.mp hk).resolve_left hnew.1) hnew.2
    · simp only [delNew_dirtyNew, lookup_union, lookup_erase_ite, lookup_insert_ite]
      split_ifs <;> rfl
  · refine ⟨fun k hk hnew => ?_, ext_lookup fun k => ?_⟩
    · rw [delOld_dirtyOld, mem_erase] at hk
      exact hdisjoint k hk.2 ((mem_insert.mp hnew).resolve_left hk.1)
    · simp only [delOld_dirtyOld, lookup_union, lookup_erase_ite, lookup_insert_ite]
      split_ifs <;> rfl

theorem agrees_of_refines (h : m.Refines plain) : m.Agrees plain := by
  obtain ⟨hdisjoint, rfl⟩ := h
  have hget : ∀ key, m.Get key = (m.dirtyOld ∪ m.dirtyNew).lookup key := by
    intro key
    rw [lookup_union, Get]
    cases m.dirtyOld.lookup key with
    | none => rfl
    | some val => rfl
  refine ⟨hget, fun order => ⟨?_, fun key => ?_⟩, fun order => ⟨?_, fun key val => ?_⟩, ?_⟩
  · refine List.Nodup.append (nodupKeys_range order _) (nodupKeys_range order _) ?_
    intro key hold hnew
    exact hdisjoint key ((mem_map_range order _).mp hold) ((mem_map_range order _).mp hnew)
  · rw [AllKeys, List.mem_append, mem_map_range, mem_map_range, mem_union]
  · refine List.Nodup.append (nodupKeys_range order _).nodup (nodupKeys_range order _).nodup ?_
    rintro ⟨key, val⟩ hold hnew
    exact hdisjoint key (mem_of_lookup_eq_some ((mem_range_iff order _).mp hold))
      (mem_of_lookup_eq_some ((mem_range_iff order _).mp hnew))
  · rw [IterateCallback, List.mem_append, mem_range_iff, mem_range_iff, lookup_union,
      Option.or_eq_some_iff]
    refine or_congr_right ⟨fun hnew => ⟨?_, hnew⟩, And.right⟩
    exact lookup_eq_none.mpr fun hold =>
      hdisjoint key hold (mem_of_lookup_eq_some hnew)
  · rw [Size, keys_union, Finset.card_union_of_disjoint]
    exact Finset.disjoint_left.mpr fun key hold hnew =>
      hdisjoint key (mem_keys.mp hold) (mem_keys.mp hnew)

end ShrinkableMap

/-- **A shrinkable map is a plain map.** After any writes and deletions, however the loops run, the
halves share no key, together they are the plain map, and every read agrees. -/
theorem shrinkMap_refines (α β : Type) [DecidableEq α] (calls : List (MapCall α β)) :
    let s := calls.foldl MapCall.apply (.NewShrinkMap α β, ∅)
    s.1.Refines s.2 ∧ s.1.Agrees s.2 := by
  have hrefines : ∀ s, s.1.Refines s.2 →
      (calls.foldl MapCall.apply s).1.Refines (calls.foldl MapCall.apply s).2 := by
    induction calls with
    | nil => exact fun s h => h
    | cons c calls ih =>
      intro s h
      refine ih _ ?_
      cases c with
      | set key value => exact ShrinkableMap.refines_Set h key value
      | del key order => exact ShrinkableMap.refines_Del h key order
  have hend := hrefines (.NewShrinkMap α β, ∅) ⟨disjoint_empty _, union_empty⟩
  exact ⟨hend, ShrinkableMap.agrees_of_refines hend⟩

end Topia.Common
