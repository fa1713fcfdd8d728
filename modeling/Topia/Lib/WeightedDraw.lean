import Mathlib.Algebra.GroupWithZero.Nat
import Mathlib.Algebra.Order.BigOperators.Group.List
import Mathlib.Algebra.Ring.Int.Defs
import Mathlib.Data.List.Sort

/-!
# Orders of a list, and draws by weight

When only equal elements of a comparison tie, every arrangement of a list has the same order. A draw
walks through a list and adds up the weights until the sum passes a threshold: each element has an
interval of thresholds as long as its weight, one behind the other.
-/

namespace Topia.Lib

open List

universe u

section Order

variable {α : Type u} {cmp : α → α → Ordering} {l l' : List α}

def sortBy (cmp : α → α → Ordering) (l : List α) : List α :=
  l.insertionSort fun a b => (cmp a b).isLE

theorem sortBy_perm (cmp : α → α → Ordering) (l : List α) : sortBy cmp l ~ l :=
  perm_insertionSort _ l

theorem pairwise_sortBy [Std.TransCmp cmp] (l : List α) :
    (sortBy cmp l).Pairwise fun a b => (cmp a b).isLE := by
  have htotal : Std.Total fun a b => (cmp a b).isLE = true := by
    refine ⟨fun a b => ?_⟩
    cases hcmp : cmp a b with
    | lt => exact .inl rfl
    | eq => exact .inl rfl
    | gt =>
      right
      rw [Std.OrientedCmp.gt_iff_lt.mp hcmp]
      rfl
  have htrans : IsTrans α fun a b => (cmp a b).isLE = true :=
    ⟨fun _ _ _ => Std.TransCmp.isLE_trans⟩
  exact pairwise_insertionSort _ l

theorem eq_sortBy [Std.TransCmp cmp] (htie : ∀ a ∈ l, ∀ b ∈ l, cmp a b = .eq → a = b)
    (hperm : l' ~ l) (hordered : l'.Pairwise fun a b => (cmp a b).isLE) : l' = sortBy cmp l := by
  have hsort := sortBy_perm cmp l
  refine (hperm.trans hsort.symm).eq_of_pairwise ?_ hordered (pairwise_sortBy l)
  intro a b ha hb hab hba
  exact htie a (hperm.mem_iff.mp ha) b (hsort.mem_iff.mp hb) (Std.OrientedCmp.isLE_antisymm hab hba)

theorem sortBy_eq_of_perm [Std.TransCmp cmp] (htie : ∀ a ∈ l', ∀ b ∈ l', cmp a b = .eq → a = b)
    (hperm : l ~ l') : sortBy cmp l = sortBy cmp l' :=
  eq_sortBy htie ((sortBy_perm cmp l).trans hperm) (pairwise_sortBy l)

end Order

open List

section Draw

variable {α : Type u} {weight : α → Nat} {threshold cumulative i j : Nat} {items : List α} {a : α}

/-- The first item that takes the sum past the threshold. -/
def draw (weight : α → Nat) (threshold cumulative : Nat) : List α → Option α
  | [] => none
  | a :: rest =>
    if threshold < cumulative + weight a then some a
    else draw weight threshold (cumulative + weight a) rest

def weightBefore (weight : α → Nat) (items : List α) (i : Nat) : Nat :=
  ((items.take i).map weight).sum

def InInterval (weight : α → Nat) (items : List α) (threshold i : Nat) : Prop :=
  ∃ a, items[i]? = some a ∧ weightBefore weight items i ≤ threshold ∧
    threshold < weightBefore weight items i + weight a

theorem weightBefore_succ (h : items[i]? = some a) :
    weightBefore weight items (i + 1) = weightBefore weight items i + weight a := by
  simp [weightBefore, take_add_one, h]

theorem weightBefore_cons_succ :
    weightBefore weight (a :: items) (i + 1) = weight a + weightBefore weight items i := by
  simp [weightBefore]

theorem weightBefore_mono (weight : α → Nat) (items : List α) (h : i ≤ j) :
    weightBefore weight items i ≤ weightBefore weight items j := by
  induction j, h using Nat.le_induction with
  | base => exact le_rfl
  | succ j _ ih =>
    cases hitem : items[j]? with
    | none =>
      have hlength : items.length ≤ j := getElem?_eq_none_iff.mp hitem
      simpa [weightBefore, take_of_length_le, hlength, Nat.le_succ_of_le] using ih
    | some a =>
      rw [weightBefore_succ hitem]
      exact Nat.le_add_right_of_le ih

theorem InInterval.unique (hi : InInterval weight items threshold i)
    (hj : InInterval weight items threshold j) : i = j := by
  obtain ⟨a, hitem, hle, hlt⟩ := hi
  obtain ⟨b, hitem', hle', hlt'⟩ := hj
  rcases Nat.lt_trichotomy i j with hij | hij | hij
  · have hmono := weightBefore_mono weight items (Nat.succ_le_of_lt hij)
    rw [weightBefore_succ hitem] at hmono
    omega
  · exact hij
  · have hmono := weightBefore_mono weight items (Nat.succ_le_of_lt hij)
    rw [weightBefore_succ hitem'] at hmono
    omega

theorem draw_eq_some (hle : cumulative ≤ threshold)
    (hlt : threshold < cumulative + (items.map weight).sum) :
    ∃ i a, items[i]? = some a ∧ draw weight threshold cumulative items = some a ∧
      cumulative + weightBefore weight items i ≤ threshold ∧
      threshold < cumulative + weightBefore weight items i + weight a := by
  induction items generalizing cumulative with
  | nil =>
    rw [map_nil, sum_nil] at hlt
    omega
  | cons first rest ih =>
    by_cases hfirst : threshold < cumulative + weight first
    · exact ⟨0, first, rfl, if_pos hfirst, hle, hfirst⟩
    have hnext : cumulative + weight first ≤ threshold := Nat.le_of_not_lt hfirst
    rw [map_cons, sum_cons, ← Nat.add_assoc] at hlt
    obtain ⟨i, a, hitem, hdraw, hle', hlt'⟩ := ih hnext hlt
    refine ⟨i + 1, a, hitem, (if_neg hfirst).trans hdraw, ?_, ?_⟩
    · rw [weightBefore_cons_succ]
      omega
    · rw [weightBefore_cons_succ]
      omega

theorem exists_draw (hlt : threshold < (items.map weight).sum) :
    ∃ i a, items[i]? = some a ∧ draw weight threshold 0 items = some a ∧
      ∀ j, InInterval weight items threshold j ↔ j = i := by
  rw [← Nat.zero_add (items.map weight).sum] at hlt
  obtain ⟨i, a, hitem, hdraw, hle, hlt⟩ := draw_eq_some (Nat.zero_le threshold) hlt
  rw [Nat.zero_add] at hle hlt
  have hinterval : InInterval weight items threshold i := ⟨a, hitem, hle, hlt⟩
  refine ⟨i, a, hitem, hdraw, fun j => ⟨fun hj => hj.unique hinterval, ?_⟩⟩
  rintro rfl
  exact hinterval

end Draw

section DrawAll

variable {α : Type u} {weight : α → Nat} {thresholds : List Nat} {cumulative : Nat}
  {items out : List α}

/-- One walk: each item is drawn for one threshold at most. -/
def drawAll (weight : α → Nat) : List Nat → Nat → List α → Option (List α)
  | [], _, _ => some []
  | _ :: _, _, [] => none
  | threshold :: thresholds, cumulative, a :: rest =>
    if threshold < cumulative + weight a then
      (drawAll weight thresholds (cumulative + weight a) rest).map (a :: ·)
    else drawAll weight (threshold :: thresholds) (cumulative + weight a) rest

theorem drawAll_length (hdraw : drawAll weight thresholds cumulative items = some out) :
    out.length = thresholds.length := by
  induction items generalizing thresholds cumulative out with
  | nil =>
    cases thresholds with
    | nil =>
      cases hdraw
      rfl
    | cons threshold thresholds => cases hdraw
  | cons a rest ih =>
    cases thresholds with
    | nil =>
      cases hdraw
      rfl
    | cons threshold thresholds =>
      rw [drawAll] at hdraw
      split_ifs at hdraw with hlt
      · obtain ⟨drawn, hdrawn, rfl⟩ := Option.map_eq_some_iff.mp hdraw
        rw [length_cons, length_cons, ih hdrawn]
      · exact ih hdraw

/-- Every threshold is below the weight of the items that the later ones do not need. -/
theorem drawAll_isSome_iff :
    (drawAll weight thresholds cumulative items).isSome ↔
      thresholds.length ≤ items.length ∧
        ∀ j threshold, thresholds[j]? = some threshold →
          threshold < cumulative +
            weightBefore weight items (items.length - thresholds.length + j + 1) := by
  induction items generalizing thresholds cumulative with
  | nil => cases thresholds <;> simp [drawAll]
  | cons a rest ih =>
    cases thresholds with
    | nil => simp [drawAll]
    | cons threshold thresholds =>
      rw [drawAll, length_cons, length_cons, Nat.add_sub_add_right, Nat.add_le_add_iff_right]
      by_cases hlt : threshold < cumulative + weight a
      · -- the item is drawn, and the other thresholds go to the rest
        rw [if_pos hlt, Option.isSome_map, ih]
        refine and_congr_right fun _ => ⟨fun hall j t ht => ?_, fun hall j t ht => ?_⟩
        · cases j with
          | zero =>
            obtain rfl : threshold = t := by simpa using ht
            rw [weightBefore_cons_succ]
            omega
          | succ j =>
            have hrest := hall j t ht
            rw [← Nat.add_assoc, weightBefore_cons_succ]
            omega
        · have hrest := hall (j + 1) t ht
          rw [← Nat.add_assoc, weightBefore_cons_succ] at hrest
          omega
      · rw [if_neg hlt, ih, length_cons]
        have hindex : ∀ j, thresholds.length + 1 ≤ rest.length →
            rest.length - thresholds.length + j =
              rest.length - (thresholds.length + 1) + j + 1 := by
          intro j hlength
          omega
        constructor
        · rintro ⟨hlength, hall⟩
          refine ⟨Nat.le_of_succ_le hlength, fun j t ht => ?_⟩
          have hrest := hall j t ht
          rw [hindex j hlength, weightBefore_cons_succ]
          omega
        · rintro ⟨hle, hall⟩
          -- without the item there are still enough of them
          have hlength : thresholds.length + 1 ≤ rest.length := by
            by_contra hshort
            have hfirst := hall 0 threshold rfl
            have hzero : rest.length - thresholds.length = 0 := by omega
            rw [hzero, weightBefore_cons_succ] at hfirst
            exact hlt (by simpa [weightBefore] using hfirst)
          refine ⟨hlength, fun j t ht => ?_⟩
          have hrest := hall j t ht
          rw [hindex j hlength, weightBefore_cons_succ] at hrest
          omega

end DrawAll

end Topia.Lib
