import Topia.Ledger.VersionManager
import Topia.Lib.Run
import Topia.Lib.Iterator

/-!
# The versions over a run of saves and deletes

A backend hands the pointer to its versions to readers. Before it saves or deletes a version it
copies the manager and changes the copy: `MemDBBackend.save` assigns the copy when the save has
succeeded, `BadgerBackend.save` before it tries.
-/

namespace Topia.Ledger

open Lib

namespace VersionManager

variable (vm : VersionManager)

def Last : Nat :=
  vm.last

def Initial : Nat :=
  vm.initial

def Count : Nat :=
  vm.versions.card

def Copy : VersionManager where
  versions := vm.versions
  initial := vm.initial
  last := vm.last

def Walk (order : List Nat) : Prop :=
  order.Nodup ∧ order.toFinset = vm.versions

end VersionManager

structure VmIterator where
  ch : List Nat
  isOpen : Bool
  buf : Nat
deriving DecidableEq, Repr

namespace VmIterator

def Next (vi : VmIterator) : Bool × VmIterator :=
  match vi.ch with
  | [] => (false, { vi with isOpen := false, buf := 0 })
  | ver :: ch => (true, { ch := ch, isOpen := true, buf := ver })

def Value (vi : VmIterator) : Nat :=
  vi.buf

def receive (n : Nat) (vi : VmIterator) : Option (List Nat) :=
  collect Next (fun vi => some vi.Value) n vi

theorem receive_eq {n : Nat} {vi : VmIterator} (hn : vi.ch.length < n) :
    vi.receive n = some vi.ch := by
  have hend : ∀ vi : VmIterator, vi.ch = [] → vi.Next.1 = false := by
    intro vi hch
    simp [Next, hch]
  have hnext : ∀ (vi : VmIterator) ver ch, vi.ch = ver :: ch →
      vi.Next.1 = true ∧ some vi.Next.2.Value = some ver ∧ vi.Next.2.ch = ch := by
    intro vi ver ch hch
    simp [Next, hch, Value]
  exact collect_eq hend hnext rfl hn

end VmIterator

open Finset List

namespace VersionManager

def Iterator (order : List Nat) : VmIterator where
  ch := order
  isOpen := false
  buf := 0

def Bounds (vm : VersionManager) : Prop :=
  (vm.versions = ∅ ∧ vm.Initial = 0 ∧ vm.Last = 0) ∨
    (IsLeast (vm.versions : Set Nat) vm.Initial ∧ IsGreatest (vm.versions : Set Nat) vm.Last)

theorem Last_le_of_versions_subset {vm vm' : VersionManager} (hbounds : vm.Bounds)
    (hbounds' : vm'.Bounds) (hsubset : vm'.versions ⊆ vm.versions) : vm'.Last ≤ vm.Last := by
  rcases hbounds' with ⟨_, _, hzero⟩ | ⟨_, hgreatest'⟩
  · omega
  · have hmem : vm'.Last ∈ vm.versions := hsubset hgreatest'.1
    rcases hbounds with ⟨hempty, _⟩ | ⟨_, hgreatest⟩
    · simp [hempty] at hmem
    · exact hgreatest.2 hmem

structure Exact (vm : VersionManager) : Prop where
  nonzero : 0 ∉ vm.versions
  bounds : vm.Bounds
  save : ∀ target id vm', target < 2 ^ 64 - 1 → vm.Save target = .ok (id, vm') →
    (target = 0 ∧ id = vm.Last + 1) ∨ (vm.Last < target ∧ id = target)
  iterator : ∀ order n, vm.Walk order → vm.Count < n →
    ∃ values, (Iterator order).receive n = some values ∧ values.Nodup ∧
      values.length = vm.Count ∧ ∀ ver, ver ∈ values ↔ vm.Exists ver = true

section Bounds

variable {vm vm' : VersionManager} {target : Nat}

theorem isGreatest_foldl_max {α : Type} [LinearOrder α] (a : α) (l : List α) :
    IsGreatest {x | x ∈ a :: l} (l.foldl max a) := by
  induction l generalizing a with
  | nil => simp [IsGreatest, upperBounds]
  | cons b l ih =>
    obtain ⟨hmem, hle⟩ := ih (max a b)
    rw [foldl_cons]
    constructor
    · rcases mem_cons.mp hmem with heq | hmem
      · rw [heq]
        rcases max_choice a b with hmax | hmax
        · rw [hmax]
          exact mem_cons_self
        · rw [hmax]
          exact mem_cons_of_mem _ mem_cons_self
      · exact mem_cons_of_mem _ (mem_cons_of_mem _ hmem)
    · intro x hx
      rcases mem_cons.mp hx with rfl | hx
      · exact (le_max_left x b).trans (hle mem_cons_self)
      · rcases mem_cons.mp hx with rfl | hx
        · exact (le_max_right a x).trans (hle mem_cons_self)
        · exact hle (mem_cons_of_mem _ hx)

theorem foldl_initial {init : Nat} {versions : List Nat} (hinit : init ≠ 0)
    (hversions : ∀ ver ∈ versions, ver ≠ 0) :
    IsLeast {ver | ver ∈ init :: versions}
      (versions.foldl (fun init ver => if init = 0 ∨ ver < init then ver else init) init) := by
  have hmin : versions.foldl (fun init ver => if init = 0 ∨ ver < init then ver else init) init =
      versions.foldl min init := by
    induction versions generalizing init with
    | nil => rfl
    | cons ver versions ih =>
      obtain ⟨hver, hrest⟩ := forall_mem_cons.mp hversions
      have hstep : (if init = 0 ∨ ver < init then ver else init) = min init ver := by
        split_ifs <;> omega
      rw [foldl_cons, foldl_cons, hstep, ih (by omega) hrest]
  rw [hmin]
  -- the minimum is the maximum of the dual order
  exact isGreatest_foldl_max (OrderDual.toDual init) (versions : List Natᵒᵈ)

theorem foldl_last (last : Nat) (versions : List Nat) :
    IsGreatest {ver | ver ∈ last :: versions}
      (versions.foldl (fun last ver => if last < ver then ver else last) last) := by
  have hmax : (fun last ver : Nat => if last < ver then ver else last) = max := by
    funext last ver
    split_ifs <;> omega
  rw [hmax]
  exact isGreatest_foldl_max last versions

theorem bounds_NewVersionManager {versions : List Nat} (hversions : ∀ ver ∈ versions, ver ≠ 0) :
    (NewVersionManager versions).Bounds := by
  cases versions with
  | nil => exact .inl ⟨rfl, rfl, rfl⟩
  | cons ver versions =>
    obtain ⟨hver, hrest⟩ := forall_mem_cons.mp hversions
    have hset : ((ver :: versions).toFinset : Set Nat) = {x | x ∈ ver :: versions} := by
      ext x
      simp
    refine .inr ⟨?_, ?_⟩
    · have hleast := foldl_initial hver hrest
      simp only [NewVersionManager, Initial, foldl_cons]
      rw [hset]
      simpa using hleast
    · have hgreatest := foldl_last ver versions
      simp only [NewVersionManager, Last, foldl_cons, if_pos (Nat.pos_of_ne_zero hver)]
      rw [hset]
      exact hgreatest

theorem bounds_add (hbounds : vm.Bounds) (hlast : vm.Last < target) : (vm.add target).Bounds := by
  refine .inr ?_
  rcases hbounds with ⟨hempty, _, _⟩ | ⟨hleast, hgreatest⟩
  · simp [add, Initial, Last, hempty]
  have hfresh : target ∉ vm.versions := fun htarget => absurd (hgreatest.2 htarget) (by omega)
  have hcard : (insert target vm.versions).card ≠ 1 := by
    have hpos : 0 < vm.versions.card := card_pos.mpr ⟨_, hleast.1⟩
    rw [card_insert_of_notMem hfresh]
    omega
  have hmin : min target vm.Initial = vm.Initial := by
    have hle : vm.Initial ≤ vm.Last := hleast.2 hgreatest.1
    omega
  have hmax : max target vm.Last = target := by omega
  have hleast' := hleast.insert target
  have hgreatest' := hgreatest.insert target
  rw [hmin] at hleast'
  rw [hmax] at hgreatest'
  simp only [add, Initial, Last, if_neg hcard, coe_insert]
  exact ⟨hleast', hgreatest'⟩

theorem isGreatest_fold (versions : Finset Nat) :
    IsGreatest (insert 0 versions : Set Nat) (versions.fold max 0 id) := by
  induction versions using Finset.induction_on with
  | empty => simp
  | insert ver versions hver ih =>
    rw [Finset.fold_insert hver, Finset.coe_insert, Set.insert_comm]
    exact ih.insert ver

theorem isLeast_fold (last : Nat) (versions : Finset Nat) :
    IsLeast (insert last versions : Set Nat) (versions.fold min last id) := by
  induction versions using Finset.induction_on with
  | empty => simp
  | insert ver versions hver ih =>
    rw [Finset.fold_insert hver, Finset.coe_insert, Set.insert_comm]
    exact ih.insert ver

theorem isGreatest_Delete (hbounds : vm.Bounds) (hrest : (vm.versions.erase target).Nonempty) :
    IsGreatest ((vm.versions.erase target : Finset Nat) : Set Nat) (vm.Delete target).Last := by
  have hgreatest : IsGreatest (vm.versions : Set Nat) vm.Last := by
    rcases hbounds with ⟨hempty, _⟩ | ⟨_, hgreatest⟩
    · simp [hempty] at hrest
    · exact hgreatest
  simp only [Delete, Last]
  split_ifs with htarget
  · obtain ⟨hmem, hge⟩ := isGreatest_fold (vm.versions.erase target)
    refine ⟨?_, fun ver hver => hge (Set.mem_insert_of_mem _ hver)⟩
    rcases hmem with hzero | hmem
    · obtain ⟨ver, hver⟩ := hrest
      have hle := hge (Set.mem_insert_of_mem 0 hver)
      rw [hzero] at hle ⊢
      rw [← Nat.le_zero.mp hle]
      exact hver
    · exact hmem
  · refine ⟨mem_erase.mpr ⟨fun heq => htarget heq.symm, hgreatest.1⟩, fun ver hver => ?_⟩
    exact hgreatest.2 (mem_of_mem_erase hver)

theorem Initial_Delete (vm : VersionManager) (target : Nat) :
    (vm.Delete target).Initial = if target = vm.initial then
      (vm.versions.erase target).fold min (vm.Delete target).Last id else vm.initial := by
  rfl

theorem Delete_of_erase_eq_empty (hbounds : vm.Bounds) (hempty : vm.versions.erase target = ∅) :
    (vm.Delete target).Initial = 0 ∧ (vm.Delete target).Last = 0 := by
  have hone : ∀ ver ∈ vm.versions, target = ver := by
    intro ver hver
    by_contra hne
    have hmem := mem_erase.mpr ⟨fun heq => hne heq.symm, hver⟩
    rw [hempty] at hmem
    cases hmem
  have hlast : target ≠ vm.last → vm.last = 0 := by
    intro hne
    rcases hbounds with ⟨_, _, hlast⟩ | ⟨_, hgreatest⟩
    · exact hlast
    · exact absurd (hone _ hgreatest.1) hne
  have hinitial : target ≠ vm.initial → vm.initial = 0 := by
    intro hne
    rcases hbounds with ⟨_, hinitial, _⟩ | ⟨hleast, _⟩
    · exact hinitial
    · exact absurd (hone _ hleast.1) hne
  have hlast' : (vm.Delete target).Last = 0 := by
    simp only [Delete, Last, hempty, fold_empty]
    split_ifs with htarget
    · rfl
    · exact hlast htarget
  refine ⟨?_, hlast'⟩
  rw [Initial_Delete, hempty, fold_empty, hlast']
  split_ifs with htarget
  · rfl
  · exact hinitial htarget

theorem bounds_Delete (hbounds : vm.Bounds) (target : Nat) : (vm.Delete target).Bounds := by
  rcases (vm.versions.erase target).eq_empty_or_nonempty with hempty | hrest
  · exact .inl ⟨hempty, Delete_of_erase_eq_empty hbounds hempty⟩
  have hgreatest := isGreatest_Delete hbounds hrest
  refine .inr ⟨?_, hgreatest⟩
  have hleast : IsLeast (vm.versions : Set Nat) vm.Initial := by
    rcases hbounds with ⟨hnone, _⟩ | ⟨hleast, _⟩
    · simp [hnone] at hrest
    · exact hleast
  rw [Initial_Delete]
  split_ifs with htarget
  · have hfold := isLeast_fold (vm.Delete target).Last (vm.versions.erase target)
    rwa [Set.insert_eq_of_mem hgreatest.1] at hfold
  · refine ⟨mem_erase.mpr ⟨fun heq => htarget heq.symm, hleast.1⟩, fun ver hver => ?_⟩
    exact hleast.2 (mem_of_mem_erase hver)

theorem Save_exact {id : Nat} (hlast : vm.Last < 2 ^ 64 - 1)
    (hsave : vm.Save target = .ok (id, vm')) :
    (target = 0 ∧ id = vm.Last + 1) ∨ (vm.Last < target ∧ id = target) := by
  have hnext : vm.next = vm.Last + 1 :=
    Nat.mod_eq_of_lt (show vm.Last + 1 < 2 ^ 64 by omega)
  unfold Save at hsave
  split_ifs at hsave with hzero hlt
  · obtain ⟨hid, _⟩ := saveTarget_ok hsave
    exact .inl ⟨hzero, hid.trans hnext⟩
  · obtain ⟨hid, _⟩ := saveTarget_ok hsave
    exact .inr ⟨by omega, hid⟩

theorem Save_lt {id : Nat} (htarget : target < 2 ^ 64) (hsave : vm.Save target = .ok (id, vm')) :
    id < 2 ^ 64 := by
  unfold Save at hsave
  split_ifs at hsave with hzero hlt
  · obtain ⟨rfl, _⟩ := saveTarget_ok hsave
    exact Nat.mod_lt _ (by omega)
  · obtain ⟨rfl, _⟩ := saveTarget_ok hsave
    exact htarget

theorem Save_zero (hbounds : vm.Bounds) (hlast : vm.Last < 2 ^ 64 - 1) :
    vm.Save 0 = .ok (vm.Last + 1, vm.add (vm.Last + 1)) := by
  have hnext : vm.next = vm.Last + 1 :=
    Nat.mod_eq_of_lt (show vm.Last + 1 < 2 ^ 64 by omega)
  have hfresh : vm.Last + 1 ∉ vm.versions := by
    intro hmem
    rcases hbounds with ⟨hempty, _⟩ | ⟨_, hgreatest⟩
    · simp [hempty] at hmem
    · exact absurd (hgreatest.2 hmem) (by omega)
  simp [Save, hnext, saveTarget, hfresh]

theorem Save_zero_of_largest (hlast : vm.Last = 2 ^ 64 - 1) (hnonzero : 0 ∉ vm.versions) :
    vm.Save 0 = .ok (0, vm.add 0) := by
  have hnext : vm.next = 0 := by
    rw [next, show vm.last = 2 ^ 64 - 1 from hlast]
    exact Nat.mod_self _
  simp [Save, hnext, saveTarget, hnonzero]

theorem iterator_agrees (vm : VersionManager) (order : List Nat) (n : Nat) (hwalk : vm.Walk order)
    (hn : vm.Count < n) :
    ∃ values, (Iterator order).receive n = some values ∧ values.Nodup ∧
      values.length = vm.Count ∧ ∀ ver, ver ∈ values ↔ vm.Exists ver = true := by
  obtain ⟨hnodup, hset⟩ := hwalk
  have hlength : order.length = vm.Count := by
    rw [Count, ← hset, toFinset_card_of_nodup hnodup]
  refine ⟨order, VmIterator.receive_eq (show order.length < n by omega), hnodup, hlength,
    fun ver => ?_⟩
  simp [Exists, ← hset]

theorem exact_iff (hnonzero : 0 ∉ vm.versions) (hbounds : vm.Bounds)
    (hsmall : ∀ ver ∈ vm.versions, ver < 2 ^ 64) : vm.Exact ↔ vm.Last < 2 ^ 64 - 1 := by
  constructor
  · intro hexact
    by_contra hlarge
    have hlast : vm.Last = 2 ^ 64 - 1 := by
      rcases hbounds with ⟨_, _, hzero⟩ | ⟨_, hgreatest⟩
      · omega
      · have := hsmall _ hgreatest.1
        omega
    have hsave := hexact.save 0 _ _ (by omega) (Save_zero_of_largest hlast hnonzero)
    omega
  · intro hlast
    exact ⟨hnonzero, hbounds, fun _ _ _ _ => Save_exact hlast, vm.iterator_agrees⟩

end Bounds

end VersionManager

structure VersionHeap where
  managers : List VersionManager
  vmgr : Nat
  handed : List (Nat × VersionManager)
deriving DecidableEq

namespace VersionHeap

/-- `Versions`, and `Save` or `Delete` on a copy, which a save assigns at once (`assigned`) or on
success. -/
inductive Op where
  | versions
  | save (target : Nat) (assigned : Bool)
  | delete (target : Nat)
deriving DecidableEq, Repr

open VersionManager

def start (versions : List Nat) : VersionHeap where
  managers := [NewVersionManager versions]
  vmgr := 0
  handed := []

variable (h : VersionHeap) (vm : VersionManager)

def current : Option VersionManager :=
  h.managers[h.vmgr]?

def alloc : Nat × VersionHeap :=
  (h.managers.length, { h with managers := h.managers ++ [vm] })

def store (p : Nat) (vm : VersionManager) : VersionHeap :=
  { h with managers := h.managers.set p vm }

def step : Op → Option VersionHeap
  | .versions => do
      let vm ← h.current
      some { h with handed := h.handed ++ [(h.vmgr, vm)] }
  | .save target assigned => do
      let vm ← h.current
      let (p, h') := h.alloc vm.Copy
      match vm.Copy.Save target with
      | .error _ => some (if assigned then { h' with vmgr := p } else h')
      | .ok (_, vm') => some { h'.store p vm' with vmgr := p }
  | .delete target => do
      let vm ← h.current
      let (p, h') := h.alloc vm.Copy
      some { h'.store p (vm.Copy.Delete target) with vmgr := p }

def after : Op → VersionManager
  | .versions => vm
  | .save target _ =>
    match vm.Save target with
    | .error _ => vm
    | .ok (_, vm') => vm'
  | .delete target => vm.Delete target

def VersionsOk : Prop :=
  (∃ vm, h.current = some vm ∧ vm.Exact) ∧ ∀ p vm, (p, vm) ∈ h.handed → h.managers[p]? = some vm

def Sized : Prop :=
  ∃ vm, h.current = some vm ∧ ∀ ver ∈ vm.versions, ver < 2 ^ 64

def Op.Ranged : Op → Prop
  | .versions => True
  | .save target _ => target < 2 ^ 64 - 1
  | .delete target => target < 2 ^ 64 - 1

def Below (op : Op) : Prop :=
  ∀ vm assigned, h.current = some vm → op = .save 0 assigned → vm.Last ≠ 2 ^ 64 - 2

section Step

variable {h h' : VersionHeap} {op : Op} {vm : VersionManager}

theorem step_spec (hstep : step h op = some h') :
    ∃ vm, h.current = some vm ∧ h'.current = some (after vm op) ∧
      h.managers <+: h'.managers ∧
      (h'.handed = h.handed ∨ h'.handed = h.handed ++ [(h.vmgr, vm)]) := by
  cases op with
  | versions =>
    obtain ⟨vm, hvm, hstep⟩ := Option.bind_eq_some_iff.mp hstep
    cases hstep
    exact ⟨vm, hvm, hvm, List.prefix_rfl, .inr rfl⟩
  | save target assigned =>
    obtain ⟨vm, hvm, hstep⟩ := Option.bind_eq_some_iff.mp hstep
    refine ⟨vm, hvm, ?_⟩
    have hcopy : vm.Copy = vm := rfl
    have hlt : h.vmgr < h.managers.length := (List.getElem?_eq_some_iff.mp hvm).1
    simp only [alloc, store, hcopy, after] at hstep ⊢
    cases hsave : vm.Save target with
    | error e =>
      rw [hsave] at hstep
      cases hstep
      cases assigned with
      | false => exact ⟨(List.getElem?_append_left hlt).trans hvm, ⟨_, rfl⟩, .inl rfl⟩
      | true => exact ⟨by simp [current], ⟨_, rfl⟩, .inl rfl⟩
    | ok saved =>
      rw [hsave] at hstep
      cases hstep
      exact ⟨by simp [current], by simp, .inl rfl⟩
  | delete target =>
    obtain ⟨vm, hvm, hstep⟩ := Option.bind_eq_some_iff.mp hstep
    cases hstep
    exact ⟨vm, hvm, by simp [current, store, after, Copy],
      by simp [store], .inl rfl⟩

theorem handed_step (hhanded : ∀ p vm, (p, vm) ∈ h.handed → h.managers[p]? = some vm)
    (hstep : step h op = some h') : ∀ p vm, (p, vm) ∈ h'.handed → h'.managers[p]? = some vm := by
  obtain ⟨cur, hcur, _, hprefix, hlog⟩ := step_spec hstep
  have hframe : ∀ {p : Nat} {vm}, h.managers[p]? = some vm → h'.managers[p]? = some vm := by
    intro p vm hp
    obtain ⟨rest, hrest⟩ := hprefix
    rw [← hrest, List.getElem?_append_left (List.getElem?_eq_some_iff.mp hp).1]
    exact hp
  intro p vm hmem
  rcases hlog with hlog | hlog
  · rw [hlog] at hmem
    exact hframe (hhanded p vm hmem)
  · rw [hlog, List.mem_append, List.mem_singleton] at hmem
    rcases hmem with hmem | hmem
    · exact hframe (hhanded p vm hmem)
    · cases hmem
      exact hframe hcur

theorem sized_after (hsized : ∀ ver ∈ vm.versions, ver < 2 ^ 64) (hranged : op.Ranged) :
    ∀ ver ∈ (after vm op).versions, ver < 2 ^ 64 := by
  cases op with
  | versions => exact hsized
  | save target assigned =>
    have htarget : target < 2 ^ 64 - 1 := hranged
    simp only [after]
    cases hsave : vm.Save target with
    | error e => exact hsized
    | ok saved =>
      obtain ⟨id, vm'⟩ := saved
      obtain ⟨_, rfl, _⟩ := Save_ok hsave
      simp only [add, mem_insert, forall_eq_or_imp]
      exact ⟨Save_lt (by omega) hsave, hsized⟩
  | delete target => exact fun ver hver => hsized ver (mem_of_mem_erase hver)

theorem bounds_after (op : Op) (hbounds : vm.Bounds) (hlast : vm.Last < 2 ^ 64 - 1)
    (hnonzero : 0 ∉ vm.versions) : (after vm op).Bounds ∧ 0 ∉ (after vm op).versions := by
  cases op with
  | versions => exact ⟨hbounds, hnonzero⟩
  | save target assigned =>
    simp only [after]
    cases hsave : vm.Save target with
    | error e => exact ⟨hbounds, hnonzero⟩
    | ok saved =>
      obtain ⟨id, vm'⟩ := saved
      obtain ⟨_, rfl, _⟩ := Save_ok hsave
      have hid : vm.Last < id := by
        rcases Save_exact hlast hsave with ⟨_, rfl⟩ | ⟨hlt, rfl⟩
        · omega
        · exact hlt
      refine ⟨bounds_add hbounds hid, ?_⟩
      simp only [add, mem_insert, not_or]
      exact ⟨by omega, hnonzero⟩
  | delete target =>
    exact ⟨bounds_Delete hbounds target, fun hzero => hnonzero (mem_of_mem_erase hzero)⟩

theorem Last_after_lt_iff (hbounds : vm.Bounds) (hlast : vm.Last < 2 ^ 64 - 1)
    (hranged : op.Ranged) :
    (after vm op).Last < 2 ^ 64 - 1 ↔ ∀ assigned, op = .save 0 assigned → vm.Last ≠ 2 ^ 64 - 2 := by
  cases op with
  | versions => simpa [after] using hlast
  | save target assigned =>
    by_cases hzero : target = 0
    · subst hzero
      simp only [after, Save_zero hbounds hlast, add, Last] at hlast ⊢
      simp
      omega
    have htarget : target < 2 ^ 64 - 1 := hranged
    simp only [after]
    cases hsave : vm.Save target with
    | error e => simpa [hzero] using hlast
    | ok saved =>
      obtain ⟨id, vm'⟩ := saved
      obtain ⟨_, rfl, hid⟩ := Save_ok hsave
      simp only [add, Last, hid hzero]
      simpa [hzero] using htarget
  | delete target =>
    have hle : (vm.Delete target).Last ≤ vm.Last :=
      Last_le_of_versions_subset hbounds
        (bounds_Delete hbounds target) (erase_subset _ _)
    simp [after]
    omega

theorem step_ne_none (hvm : h.current = some vm) : step h op ≠ none := by
  cases op with
  | save target assigned =>
    simp only [step, hvm]
    cases hsave : vm.Copy.Save target with
    | error e => simp [hsave]
    | ok saved => simp [hsave]
  | _ => simp [step, hvm]

theorem versionsOk_step_iff (hvm : h.current = some vm) (hbounds : vm.Bounds)
    (hlast : vm.Last < 2 ^ 64 - 1) (hnonzero : 0 ∉ vm.versions)
    (hsized : ∀ ver ∈ vm.versions, ver < 2 ^ 64)
    (hhanded : ∀ p vm, (p, vm) ∈ h.handed → h.managers[p]? = some vm) (hranged : op.Ranged)
    (hstep : step h op = some h') : VersionsOk h' ↔ Below h op := by
  obtain ⟨vm, hvm', hafter, _⟩ := step_spec hstep
  cases hvm.symm.trans hvm'
  obtain ⟨hbounds', hnonzero'⟩ := bounds_after op hbounds hlast hnonzero
  have hexact := exact_iff hnonzero' hbounds' (sized_after hsized hranged)
  have hbelow : Below h op ↔ (after vm op).Exact := by
    rw [hexact, Last_after_lt_iff hbounds hlast hranged]
    constructor
    · exact fun hbelow assigned => hbelow vm assigned hvm
    · intro hbelow vm' assigned hvm'
      cases hvm.symm.trans hvm'
      exact hbelow assigned
  rw [hbelow]
  constructor
  · rintro ⟨⟨vm', hvm', hok⟩, _⟩
    cases hafter.symm.trans hvm'
    exact hok
  · exact fun hok => ⟨⟨_, hafter, hok⟩, handed_step hhanded hstep⟩

end Step

theorem versionsOk_start {versions : List Nat} (hnonzero : ∀ ver ∈ versions, ver ≠ 0)
    (hsized : ∀ ver ∈ versions, ver < 2 ^ 64) :
    VersionsOk (start versions) ↔ 2 ^ 64 - 1 ∉ versions := by
  have hbounds := bounds_NewVersionManager hnonzero
  have hset : (NewVersionManager versions).versions = versions.toFinset := rfl
  have hiff := exact_iff (by simpa [hset] using fun hzero => hnonzero 0 hzero rfl)
    hbounds (by simpa [hset] using hsized)
  have hlast : (NewVersionManager versions).Last < 2 ^ 64 - 1 ↔
      2 ^ 64 - 1 ∉ versions := by
    rcases hbounds with ⟨hempty, _, hzero⟩ | ⟨_, hmem, hge⟩
    · have hnil : versions = [] := by simpa [hset] using hempty
      subst hnil
      simp [hzero]
    · rw [hset, mem_coe, mem_toFinset] at hmem
      constructor
      · intro hlt hlargest
        have hle := hge (mem_coe.mpr (mem_toFinset.mpr hlargest))
        omega
      · intro hlargest
        have hne : (NewVersionManager versions).Last ≠ 2 ^ 64 - 1 := by
          intro heq
          exact hlargest (heq ▸ hmem)
        have hlt := hsized _ hmem
        omega
  rw [← hlast, ← hiff]
  simp [VersionsOk, start, current]

/-- **The versions over a run.** `Last` and `Initial` are the bounds of the set, a save succeeds
only for the next version or one after the last, `Count` and `Iterator` agree, and readers keep what
they got, exactly when no version is the largest number. -/
theorem versions_iff (versions : List Nat) (ops : List Op)
    (hnonzero : ∀ ver ∈ versions, ver ≠ 0) (hsized : ∀ ver ∈ versions, ver < 2 ^ 64)
    (hranged : ∀ op ∈ ops, op.Ranged) :
    Throughout step VersionsOk (start versions) ops ↔
      2 ^ 64 - 1 ∉ versions ∧ Along step Below (start versions) ops := by
  have hstart := versionsOk_start hnonzero hsized
  have hinv : ∀ h op h', Sized h → op.Ranged → step h op = some h' → Sized h' := by
    intro h op h' ⟨vm, hvm, hsized⟩ hranged hstep
    obtain ⟨vm, hvm', hafter, _⟩ := step_spec hstep
    cases hvm.symm.trans hvm'
    exact ⟨_, hafter, sized_after hsized hranged⟩
  have hexact : ∀ h op h', Sized h → VersionsOk h → op.Ranged → step h op = some h' →
      (VersionsOk h' ↔ Below h op) := by
    intro h op h' ⟨vm, hvm, hsized⟩ ⟨⟨vm, hvm', hexact⟩, hhanded⟩ hranged hstep
    cases hvm.symm.trans hvm'
    have hlast := (exact_iff hexact.nonzero hexact.bounds hsized).mp hexact
    exact versionsOk_step_iff hvm hexact.bounds hlast hexact.nonzero hsized hhanded hranged hstep
  have hidle : ∀ h op, Sized h → VersionsOk h → step h op = none → Below h op := by
    intro h op ⟨vm, hvm, _⟩ _ hstep
    exact absurd hstep (step_ne_none hvm)
  by_cases hlargest : 2 ^ 64 - 1 ∈ versions
  · simp only [hlargest, not_true_eq_false, false_and, iff_false]
    intro hall
    exact hstart.mp (hall [] _ nil_prefix rfl) hlargest
  · have hrun := throughout_iff_along_of hinv hexact hidle
      ⟨_, rfl, by simpa [NewVersionManager] using hsized⟩ (hstart.mpr hlargest)
      (along_of_forall_mem (fun op hop _ => hranged op hop) _)
    simp only [hrun, hlargest, not_false_eq_true, true_and]

theorem versions_of_save_delete :
    Throughout step VersionsOk (start [3, 5])
      [.versions, .save 0 true, .delete 3, .save 9 false, .versions] := by
  refine (versions_iff [3, 5] _ (by decide) (by decide) (by simp [Op.Ranged])).mpr ⟨by decide, ?_⟩
  refine ⟨by simp [Below], ?_⟩
  rintro _ ⟨⟩
  refine ⟨?_, ?_⟩
  · rintro _ _ ⟨⟩ _
    decide
  rintro _ ⟨⟩
  refine ⟨by simp [Below], ?_⟩
  rintro _ ⟨⟩
  refine ⟨by simp [Below], ?_⟩
  rintro _ ⟨⟩
  refine ⟨by simp [Below], ?_⟩
  rintro _ ⟨⟩
  trivial

/-- After the largest number comes zero, and a lower version is accepted. -/
theorem versions_fail_on_largest :
    ¬ Throughout step VersionsOk (start [2 ^ 64 - 1]) [] ∧
      ¬ Throughout step VersionsOk (start []) [.save (2 ^ 64 - 2) true, .save 0 true] ∧
      ((NewVersionManager [2 ^ 64 - 1]).Save 3).toOption.map Prod.fst = some 3 := by
  refine ⟨?_, ?_, by decide +kernel⟩
  · intro hall
    obtain ⟨⟨vm, hvm, hexact⟩, _⟩ := hall [] _ nil_prefix rfl
    cases hvm
    have hzero := hexact.save 0 0 _ (by decide) rfl
    revert hzero
    decide +kernel
  · intro hall
    obtain ⟨⟨vm, hvm, hexact⟩, _⟩ := hall _ _ prefix_rfl rfl
    cases hvm
    have hzero := hexact.save 0 0 _ (by decide) rfl
    revert hzero
    decide +kernel

end VersionHeap

end Topia.Ledger
