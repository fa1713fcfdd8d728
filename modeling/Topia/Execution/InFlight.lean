import Topia.Execution.Commit

/-!
# The counter of the batches in flight

`exePackedCount` of the scheduler is meant to be the number of batches that were executed and are
not committed yet. `ExecutePackedTx` raises it for every batch; only the end of `CommitPackedTx`
lowers it. A batch that the block subscriber commits through `CommitBlock` stays counted.
-/

namespace Topia.Execution

open Lib Chain State

def Place.compState : Place → Option CompState
  | .created _ c => some c
  | .latestSet _ c => some c
  | _ => none

def Place.locks : Place → Option CompState
  | .latestSet _ c => some c
  | _ => none

namespace CommitNode

variable {LC : Lru Nat}

open Finset CompState

variable (n : CommitNode LC)

def inFlight : Finset Nat :=
  (range n.scheduler.executed).filter (fun b => full b ∉ n.commited)

/-- The counter is the number in flight, and with none a new batch is taken. -/
structure Counted : Prop where
  count : n.scheduler.exePackedCount = n.inFlight.card
  accepts : n.inFlight = ∅ → ∃ v, n.scheduler.MaxStateVersion n.latestBlock.Head.Height = .ok v

def InFlightCounter (events : List CommitEvent) : Prop :=
  Throughout step Counted n events ∧
  ∀ before e m m', before ++ [e] <+: events → before.foldlM step n = some m →
    m.step e = some m' →
    m'.scheduler.exePackedCount ≤ m.scheduler.exePackedCount + 1

/-- An execution that 32 bits can count, and a commit by `CommitPackedTx` with messages that can be
marshaled. -/
def Accounted : CommitEvent → Prop
  | .executePackedTxs stateVersion executes =>
    n.place .commitPackedTx = .idle → n.scheduler.Executes stateVersion executes →
      n.inFlight.card + 1 < 2 ^ 32
  | .commit path published =>
    ∀ r b, n.place path = .latestSet r (.full b) → path = .commitPackedTx ∧ published = true
  | _ => True

open Place ExecutionScheduler

section Tracking

variable {n n' : CommitNode LC} {path : CommitPath} {r : Request} {c : CompState}
  {x : Place} {e : CommitEvent}

def Known (n : CommitNode LC) (path : CommitPath) : CompState → Prop
  | .full b => b < n.scheduler.executed
  | .simple _ _ => path ≠ .commitPackedTx

/-- Composition states in use are of batches or of the builder, and a locked one is not committed
and locked once. -/
structure Tracked (n : CommitNode LC) : Prop where
  listed : ∀ e ∈ n.scheduler.exePackedTxsList, ∃ b, b < n.scheduler.executed ∧ e.compState = .full b
  held : ∀ path c, (n.place path).compState = some c → n.Known path c
  commitedBatch : ∀ b, full b ∈ n.commited → b < n.scheduler.executed
  fresh : ∀ path c, (n.place path).locks = some c → c ∉ n.commited
  apart : ∀ p q c, (n.place p).locks = some c → (n.place q).locks = some c → p = q

theorem compState_of_locks (hlocks : x.locks = some c) : x.compState = some c := by
  cases x with
  | latestSet r c' => exact hlocks
  | _ => simp [locks] at hlocks

theorem Tracked.moveTo (hn : n.Tracked) (hknown : ∀ c, x.compState = some c → n.Known path c)
    (hfresh : ∀ c, x.locks = some c → c ∉ n.commited)
    (hapart : ∀ c q, x.locks = some c → q ≠ path → (n.place q).locks ≠ some c) :
    (n.moveTo path x).Tracked := by
  have hplace : ∀ q, (n.moveTo path x).place q = if q = path then x else n.place q := by
    intro q
    simp [CommitNode.moveTo, Function.update_apply]
  refine ⟨hn.listed, ?_, hn.commitedBatch, ?_, ?_⟩
  · intro q c hc
    rw [hplace] at hc
    split_ifs at hc with hq
    · cases hq
      exact hknown c hc
    · exact hn.held q c hc
  · intro q c hc
    rw [hplace] at hc
    split_ifs at hc with hq
    · exact hfresh c hc
    · exact hn.fresh q c hc
  · intro p q c hp hq
    rw [hplace] at hp hq
    split_ifs at hp hq with hpath hpath' hpath'
    · rw [hpath, hpath']
    · exact absurd hq (hapart c q hp hpath')
    · exact absurd hp (hapart c p hq hpath)
    · exact hn.apart p q c hp hq

theorem Tracked.leave (hn : n.Tracked) (hx : x.compState = none) : (n.moveTo path x).Tracked := by
  have hlocks : x.locks = none := by
    cases hl : x.locks with
    | none => rfl
    | some c => simp [compState_of_locks hl] at hx
  exact hn.moveTo (by simp [hx]) (by simp [hlocks]) (by simp [hlocks])

theorem Tracked.frame (hn : n.Tracked)
    (hlist : n'.scheduler.exePackedTxsList = n.scheduler.exePackedTxsList)
    (hexecuted : n'.scheduler.executed = n.scheduler.executed)
    (hcommited : n'.commited = n.commited) (hplace : n'.place = n.place) : n'.Tracked := by
  have hknown : ∀ path c, n'.Known path c ↔ n.Known path c := by
    intro path c
    cases c with
    | full b => simp [Known, hexecuted]
    | simple v number => simp [Known]
  refine ⟨?_, ?_, ?_, ?_, ?_⟩
  · rw [hlist, hexecuted]
    exact hn.listed
  · intro path c hc
    rw [hknown]
    exact hn.held path c (hplace ▸ hc)
  · rw [hexecuted, hcommited]
    exact hn.commitedBatch
  · rw [hplace, hcommited]
    exact hn.fresh
  · rw [hplace]
    exact hn.apart

theorem Tracked.markCommited (path : CommitPath) (hn : n.Tracked) (hknown : n.Known path c)
    (hunlocked : ∀ q, (n.place q).locks ≠ some c) :
    ({ n with commited := c :: n.commited } : CommitNode LC).Tracked := by
  refine ⟨hn.listed, hn.held, ?_, ?_, hn.apart⟩
  · intro b hb
    rcases List.mem_cons.mp hb with rfl | hold
    · exact hknown
    · exact hn.commitedBatch b hold
  · intro q c' hc' hmem
    rcases List.mem_cons.mp hmem with rfl | hold
    · exact hunlocked q hc'
    · exact hn.fresh q c' hc' hold

theorem enter_tracked (hn : n.Tracked) : (n.enter e).Tracked := by
  unfold enter
  have hframe : ({ n with commitMsg := n.recordCommitMsg e } : CommitNode LC).Tracked :=
    hn.frame rfl rfl rfl rfl
  split
  · exact hframe
  · exact hframe.leave rfl

theorem createState_tracked (hn : n.Tracked) (hstep : n.createState path r = some n') :
    n'.Tracked := by
  obtain ⟨simpleStates, found, rfl, hfound⟩ := createState_cases hstep
  have hframe : ({ n with simpleStates := simpleStates } : CommitNode LC).Tracked :=
    hn.frame rfl rfl rfl rfl
  cases found with
  | none => exact hframe.leave rfl
  | some c =>
    refine hframe.moveTo ?_ (by simp [locks]) (by simp [locks])
    rintro c' ⟨⟩
    rcases hfound c rfl with ⟨e, he, rfl⟩ | ⟨hpath, number, rfl⟩
    · obtain ⟨b, hb, hstate⟩ := hn.listed e he
      rw [hstate]
      exact hb
    · exact hpath

theorem locks_ne_of_not_locked (hlocked : n.locked path c = false) (q : CommitPath) :
    (n.place q).locks ≠ some c := by
  intro hq
  simp only [locked, List.any_eq_false] at hlocked
  have hmem : q ∈ [CommitPath.commitPackedTx, .blockInfo, .validator, .proposer] := by
    cases q <;> simp
  have hfalse := hlocked q hmem
  cases hplace : n.place q with
  | latestSet r' c' =>
    rw [hplace] at hq hfalse
    have hsame : c' = c := by simpa [locks] using hq
    simp [hsame] at hfalse
  | _ => simp [hplace, locks] at hq

theorem setLatestBlock_tracked {stored : Bool} (hn : n.Tracked)
    (hplace : n.place path = .created r c) (hlocked : n.locked path c = false)
    (hopen : stored = true → c ∉ n.commited) : (n.setLatestBlock path r c stored).Tracked := by
  have hframe : ({ n with latestBlock := r.block } : CommitNode LC).Tracked :=
    hn.frame rfl rfl rfl rfl
  cases stored with
  | false => exact hframe.leave rfl
  | true =>
    refine hframe.moveTo ?_ ?_ ?_
    · rintro c' ⟨⟩
      exact hn.held path c (by simp [hplace, compState])
    · rintro c' ⟨⟩
      exact hopen rfl
    · rintro c' q ⟨⟩ _
      exact locks_ne_of_not_locked hlocked q

theorem commit_tracked {published : Bool} (hn : n.Tracked)
    (hplace : n.place path = .latestSet r c) : (n.commit path published r c).Tracked := by
  have hself : (n.place path).locks = some c := by simp [hplace, locks]
  have hknown : n.Known path c := hn.held path c (compState_of_locks hself)
  have hidle : (n.moveTo path .idle).Tracked := hn.leave rfl
  have hunlocked : ∀ q, ((n.moveTo path .idle).place q).locks ≠ some c := by
    intro q hq
    by_cases hqpath : q = path
    · simp [hqpath, locks] at hq
    · rw [moveTo_place_of_ne n _ hqpath] at hq
      exact hqpath (hn.apart q path c hq hself)
  have hmarked := Tracked.markCommited path hidle hknown hunlocked
  refine hmarked.frame ?_ ?_ rfl rfl
  · simp only [commit, moveTo]
    split_ifs <;> simp
  · simp only [commit, moveTo]
    split_ifs <;> simp

theorem executePackedTxs_tracked {stateVersion : Nat} {executes : Bool} (hn : n.Tracked) :
    ({ n with scheduler := (n.scheduler.ExecutePackedTx stateVersion executes).2 } :
      CommitNode LC).Tracked := by
  rcases n.scheduler.ExecutePackedTx_cases stateVersion executes with ⟨_, heq⟩ | ⟨_, heq⟩
  · rw [heq]
    refine ⟨?_, ?_, ?_, hn.fresh, hn.apart⟩
    · intro e he
      rcases mem_of_mem_push he with hold | rfl
      · obtain ⟨b, hb, hstate⟩ := hn.listed e hold
        exact ⟨b, Nat.lt_succ_of_lt hb, hstate⟩
      · exact ⟨n.scheduler.executed, Nat.lt_succ_self _, rfl⟩
    · intro path c hc
      have hold := hn.held path c hc
      cases c with
      | full b => exact Nat.lt_succ_of_lt hold
      | simple v number => exact hold
    · intro b hb
      exact Nat.lt_succ_of_lt (hn.commitedBatch b hb)
  · rw [heq]
    exact hn.frame rfl rfl rfl rfl

theorem step_tracked (hn : n.Tracked) (hstep : n.step e = some n') : n'.Tracked := by
  have hcase := step_cases hstep
  cases e with
  | createState path =>
    obtain ⟨r, _, hcreate⟩ := hcase
    exact createState_tracked hn hcreate
  | setLatestBlock path stored =>
    obtain ⟨r, c, hplace, hlocked, hopen, rfl⟩ := hcase
    exact setLatestBlock_tracked hn hplace hlocked hopen
  | commit path published =>
    obtain ⟨r, c, hplace, rfl⟩ := hcase
    exact commit_tracked hn hplace
  | executePackedTxs stateVersion executes =>
    obtain ⟨_, rfl⟩ := hcase
    exact executePackedTxs_tracked hn
  | maintain => exact hcase ▸ hn.frame rfl rfl rfl rfl
  | _ => exact hcase ▸ enter_tracked hn

theorem new_tracked (LC : Lru Nat) (MaxPrepareMsgCache : Nat) (cType : CompStateBuilderType)
    (latestBlock : Block) : (new LC MaxPrepareMsgCache cType latestBlock).Tracked := by
  refine ⟨?_, ?_, ?_, ?_, ?_⟩
  · intro e he
    simp [new, NewExecutionScheduler] at he
  · intro path c hc
    simp [new, compState] at hc
  · intro b hb
    simp [new] at hb
  · intro path c hc
    simp [new, locks] at hc
  · intro p q c hp
    simp [new, locks] at hp

end Tracking

section Counting

variable {n n' : CommitNode LC} {path : CommitPath} {r : Request} {c : CompState}
  {e : CommitEvent} {b : Nat}

theorem mem_inFlight :
    b ∈ n.inFlight ↔ b < n.scheduler.executed ∧ full b ∉ n.commited := by
  simp [inFlight]

theorem inFlight_congr (hexecuted : n'.scheduler.executed = n.scheduler.executed)
    (hcommited : n'.commited = n.commited) : n'.inFlight = n.inFlight := by
  simp [inFlight, hexecuted, hcommited]

theorem counted_iff : n.Counted ↔ n.scheduler.exePackedCount = n.inFlight.card := by
  refine ⟨Counted.count, fun hcount => ⟨hcount, ?_⟩⟩
  intro hnone
  rw [hnone, card_empty] at hcount
  unfold MaxStateVersion
  rw [hcount]
  split_ifs with hfull hlatest
  · exact absurd hfull (by decide)
  · exact ⟨_, rfl⟩
  · exact ⟨_, rfl⟩

theorem card_inFlight_push {stateVersion : Nat} (hn : n.Tracked) :
    ({ n with scheduler := n.scheduler.push stateVersion } : CommitNode LC).inFlight.card =
      n.inFlight.card + 1 := by
  have hinsert :
      ({ n with scheduler := n.scheduler.push stateVersion } : CommitNode LC).inFlight =
        insert n.scheduler.executed n.inFlight := by
    ext b
    rw [mem_inFlight, mem_insert, mem_inFlight]
    have hfresh : b = n.scheduler.executed → full b ∉ n.commited := by
      rintro rfl hmem
      exact absurd (hn.commitedBatch _ hmem) (lt_irrefl _)
    change b < n.scheduler.executed + 1 ∧ _ ↔ _
    rw [Nat.lt_succ_iff_lt_or_eq]
    tauto
  rw [hinsert, card_insert_of_notMem]
  simp [mem_inFlight]

theorem card_inFlight_commit {published : Bool} (hn : n.Tracked)
    (hplace : n.place path = .latestSet r (.full b)) :
    (n.commit path published r (.full b)).inFlight.card + 1 = n.inFlight.card := by
  have hself : (n.place path).locks = some (.full b) := by simp [hplace, locks]
  have hmem : b ∈ n.inFlight :=
    mem_inFlight.mpr ⟨hn.held path _ (compState_of_locks hself), hn.fresh path _ hself⟩
  have herase : (n.commit path published r (.full b)).inFlight = n.inFlight.erase b := by
    ext b'
    rw [mem_inFlight, mem_erase, mem_inFlight]
    have hexecuted : (n.commit path published r (.full b)).scheduler.executed =
        n.scheduler.executed := by
      simp only [commit, moveTo]
      split_ifs <;> simp
    rw [hexecuted]
    simp only [commit, moveTo, List.mem_cons, full.injEq]
    tauto
  rw [herase, card_erase_add_one hmem]

theorem step_effect (hn : n.Tracked) (hstep : n.step e = some n') :
    (∃ stateVersion executes, e = .executePackedTxs stateVersion executes ∧
      n.place .commitPackedTx = .idle ∧ n.scheduler.Executes stateVersion executes ∧
      n'.scheduler.exePackedCount = (n.scheduler.exePackedCount + 1) % 2 ^ 32 ∧
      n'.inFlight.card = n.inFlight.card + 1) ∨
    (∃ path published r b, e = .commit path published ∧ n.place path = .latestSet r (.full b) ∧
      n'.scheduler.exePackedCount = (if path = .commitPackedTx ∧ published = true then
          n.scheduler.subCount.exePackedCount else n.scheduler.exePackedCount) ∧
      n'.inFlight.card + 1 = n.inFlight.card) ∨
    (n.Accounted e ∧ n'.scheduler.exePackedCount = n.scheduler.exePackedCount ∧
      n'.inFlight = n.inFlight) := by
  have hcase := step_cases hstep
  have hsame : ∀ m : CommitNode LC, m.scheduler = n.scheduler ∧ m.commited = n.commited →
      m.scheduler.exePackedCount = n.scheduler.exePackedCount ∧ m.inFlight = n.inFlight := by
    rintro m ⟨hscheduler, hcommited⟩
    rw [hscheduler]
    exact ⟨rfl, inFlight_congr (by rw [hscheduler]) hcommited⟩
  cases e with
  | createState path =>
    obtain ⟨r, _, hcreate⟩ := hcase
    obtain ⟨simpleStates, found, rfl, _⟩ := createState_cases hcreate
    refine .inr (.inr ⟨trivial, hsame _ ?_⟩)
    cases found <;> exact ⟨rfl, rfl⟩
  | setLatestBlock path stored =>
    obtain ⟨r, c, _, _, _, rfl⟩ := hcase
    exact .inr (.inr ⟨trivial, hsame _ ⟨rfl, rfl⟩⟩)
  | commit path published =>
    obtain ⟨r, c, hplace, rfl⟩ := hcase
    cases c with
    | full b =>
      refine .inr (.inl ⟨path, published, r, b, rfl, hplace, ?_,
        card_inFlight_commit hn hplace⟩)
      simp only [commit, moveTo]
      split_ifs <;> rfl
    | simple v number =>
      have hpath : path ≠ .commitPackedTx :=
        hn.held path (.simple v number) (by simp [hplace, compState])
      refine .inr (.inr ⟨?_, ?_, ?_⟩)
      · intro r' b hplace'
        rw [hplace] at hplace'
        cases hplace'
      · simp [commit, moveTo, hpath]
      · ext b
        rw [mem_inFlight, mem_inFlight]
        simp [commit, moveTo, hpath]
  | executePackedTxs stateVersion executes =>
    obtain ⟨hidle, rfl⟩ := hcase
    rcases n.scheduler.ExecutePackedTx_cases stateVersion executes with
      ⟨hexecutes, heq⟩ | ⟨hnot, heq⟩
    · rw [heq]
      exact .inl ⟨stateVersion, executes, rfl, hidle, hexecutes, rfl, card_inFlight_push hn⟩
    · refine .inr (.inr ⟨fun _ hexecutes => absurd hexecutes hnot, ?_⟩)
      exact hsame _ ⟨heq, rfl⟩
  | maintain =>
    have heq : n' = { n with simpleStates := n.simpleStates.maintain n.commited } := hcase
    exact .inr (.inr ⟨trivial, hsame _ (heq ▸ ⟨rfl, rfl⟩)⟩)
  | _ =>
    exact .inr (.inr ⟨trivial, hsame _ (hcase ▸ n.enter_frame _)⟩)

theorem step_bounded (hn : n.Tracked) (hbound : n.scheduler.exePackedCount < 2 ^ 32)
    (hstep : n.step e = some n') : n'.scheduler.exePackedCount < 2 ^ 32 := by
  rcases step_effect hn hstep with ⟨_, _, _, _, _, hcount, _⟩ | ⟨_, _, _, _, _, _, hcount, _⟩ |
    ⟨_, hcount, _⟩
  · rw [hcount]
    exact Nat.mod_lt _ (by decide)
  · rw [hcount]
    split_ifs
    · simp only [subCount]
      omega
    · exact hbound
  · rw [hcount]
    exact hbound

theorem step_counted_iff (hn : n.Tracked) (hbound : n.scheduler.exePackedCount < 2 ^ 32)
    (hcounted : n.Counted) (hstep : n.step e = some n') : n'.Counted ↔ n.Accounted e := by
  rw [counted_iff] at hcounted ⊢
  rcases step_effect hn hstep with ⟨v, x, rfl, hidle, hexecutes, hcount, hcard⟩ |
    ⟨path, published, r, b, rfl, hplace, hcount, hcard⟩ | ⟨hok, hcount, hcard⟩
  · rw [hcount, hcard, hcounted]
    have haccounted : n.Accounted (.executePackedTxs v x) ↔ n.inFlight.card + 1 < 2 ^ 32 :=
      ⟨fun hok => hok hidle hexecutes, fun hlt _ _ => hlt⟩
    rw [haccounted]
    constructor
    · intro heq
      rw [← heq]
      exact Nat.mod_lt _ (by decide)
    · exact Nat.mod_eq_of_lt
  · have haccounted : n.Accounted (.commit path published) ↔
        path = .commitPackedTx ∧ published = true := by
      refine ⟨fun hok => hok r b hplace, fun hpacked r' b' _ => hpacked⟩
    rw [haccounted, hcount]
    by_cases hpacked : path = .commitPackedTx ∧ published = true
    · have hsub : n.scheduler.subCount.exePackedCount =
          (((n.scheduler.exePackedCount : Int) - 1) % 2 ^ 32).toNat := rfl
      rw [if_pos hpacked, hsub]
      refine ⟨fun _ => hpacked, fun _ => ?_⟩
      omega
    · rw [if_neg hpacked]
      refine ⟨fun heq => ?_, fun hpacked' => absurd hpacked' hpacked⟩
      omega
  · rw [hcount, hcard]
    exact ⟨fun _ => hok, fun _ => hcounted⟩

theorem accounted_of_disabled (hstep : n.step e = none) : n.Accounted e := by
  cases e with
  | executePackedTxs stateVersion executes =>
    intro hidle
    simp [step, hidle] at hstep
  | commit path published =>
    intro r b hplace
    simp [step, hplace] at hstep
  | _ => exact trivial

theorem card_inFlight_step_le (hn : n.Tracked) (hstep : n.step e = some n') :
    n'.inFlight.card ≤ n.inFlight.card + 1 := by
  rcases step_effect hn hstep with ⟨_, _, _, _, _, _, hcard⟩ | ⟨_, _, _, _, _, _, _, hcard⟩ |
    ⟨_, _, hcard⟩
  · omega
  · omega
  · rw [hcard]
    omega

end Counting

/-- **When the counter is right**: exactly when every commit of a batch is made by `CommitPackedTx`
with messages that can be marshaled and 32 bits suffice for the batches in flight. -/
theorem inFlightCounter_iff (LC : Lru Nat) (MaxPrepareMsgCache : Nat)
    (cType : CompStateBuilderType) (latestBlock : Block) (events : List CommitEvent) :
    InFlightCounter (new LC MaxPrepareMsgCache cType latestBlock) events ↔
      Along step Accounted (new LC MaxPrepareMsgCache cType latestBlock) events := by
  have hinv : ∀ (m : CommitNode LC) (e : CommitEvent) (m' : CommitNode LC),
      (m.Tracked ∧ m.scheduler.exePackedCount < 2 ^ 32) → m.step e = some m' →
      m'.Tracked ∧ m'.scheduler.exePackedCount < 2 ^ 32 := by
    rintro m e m' ⟨hm, hbound⟩ hstep
    exact ⟨step_tracked hm hstep, step_bounded hm hbound hstep⟩
  have hstart : (new LC MaxPrepareMsgCache cType latestBlock).Tracked ∧
      (new LC MaxPrepareMsgCache cType latestBlock).scheduler.exePackedCount < 2 ^ 32 :=
    ⟨new_tracked LC MaxPrepareMsgCache cType latestBlock, Nat.two_pow_pos 32⟩
  have hcounted : (new LC MaxPrepareMsgCache cType latestBlock).Counted :=
    counted_iff.mpr rfl
  have hiff : Throughout step Counted (new LC MaxPrepareMsgCache cType latestBlock) events ↔
      Along step Accounted (new LC MaxPrepareMsgCache cType latestBlock) events :=
    throughout_iff_along hinv
      (fun _ _ _ hm => step_counted_iff hm.1 hm.2)
      (fun _ _ _ _ => accounted_of_disabled) hstart hcounted
  rw [← hiff]
  refine ⟨And.left, fun hall => ⟨hall, ?_⟩⟩
  intro before e m m' hbefore hrun hstep
  have hm := run_invariant hinv hstart hrun
  have hcount := (hall before m ((List.prefix_append before [e]).trans hbefore) hrun).count
  have hrun' : (before ++ [e]).foldlM step (new LC MaxPrepareMsgCache cType latestBlock) =
      some m' := run_append_iff.mpr ⟨m, hrun, by simp [hstep]⟩
  have hcount' := (hall (before ++ [e]) m' hbefore hrun').count
  rw [hcount, hcount']
  exact card_inFlight_step_le hm.1 hstep

def subscriberCommits : List CommitEvent :=
  [2, 3, 4, 5, 6].map (fun v => .executePackedTxs v true) ++
  [2, 3, 4, 5, 6].flatMap (fun v =>
    [.blockInfo ⟨headAt v, []⟩ true, .createState .blockInfo, .setLatestBlock .blockInfo true,
      .commit .blockInfo true])

/-- Every batch is committed, the counter is five, and no new batch is taken. -/
theorem inFlightCounter_fails_on_subscriber :
    (∃ n, subscriberCommits.foldlM step executorOne = some n ∧ n.inFlight = ∅ ∧
      n.scheduler.exePackedCount = 5 ∧
      n.scheduler.MaxStateVersion n.latestBlock.Head.Height = .error 5) ∧
    ¬ InFlightCounter executorOne subscriberCommits := by
  refine ⟨⟨_, rfl, by decide, rfl, rfl⟩, ?_⟩
  rintro ⟨hall, _⟩
  have hright := (hall subscriberCommits _ List.prefix_rfl rfl).count
  exact absurd hright (by decide)

section Once

variable {n n' : CommitNode LC} {e : CommitEvent}

structure Once (n : CommitNode LC) : Prop where
  tracked : n.Tracked
  nodup : n.commited.Nodup
  length : n.ledger.length = n.commited.length + 1

theorem step_once (hn : n.Once) (hstep : n.step e = some n') : n'.Once := by
  have htracked := step_tracked hn.tracked hstep
  have hcase := step_cases hstep
  cases e with
  | commit path published =>
    obtain ⟨r, c, hplace, rfl⟩ := hcase
    have hfresh := hn.tracked.fresh path c (by simp [hplace, locks])
    exact ⟨htracked, List.nodup_cons.mpr ⟨hfresh, hn.nodup⟩, by simp [commit, moveTo, hn.length]⟩
  | createState path =>
    obtain ⟨r, _, hcreate⟩ := hcase
    obtain ⟨simpleStates, found, rfl, _⟩ := createState_cases hcreate
    cases found <;> exact ⟨htracked, hn.nodup, hn.length⟩
  | setLatestBlock path stored =>
    obtain ⟨r, c, _, _, _, rfl⟩ := hcase
    exact ⟨htracked, hn.nodup, hn.length⟩
  | executePackedTxs stateVersion executes =>
    obtain ⟨_, rfl⟩ := hcase
    exact ⟨htracked, hn.nodup, hn.length⟩
  | maintain =>
    cases hcase
    exact ⟨htracked, hn.nodup, hn.length⟩
  | _ =>
    cases hcase
    revert htracked
    unfold enter
    split <;> exact fun htracked => ⟨htracked, hn.nodup, hn.length⟩

/-- **A composition state is committed once**, however the four paths interleave, and each block
of the ledger behind the first has one of its own. -/
theorem committed_once (MaxPrepareMsgCache : Nat) (cType : CompStateBuilderType)
    (latestBlock : Block) (events : List CommitEvent) :
    Throughout step (fun n => n.commited.Nodup ∧ n.ledger.length = n.commited.length + 1)
      (new LC MaxPrepareMsgCache cType latestBlock) events := by
  intro before n _ hrun
  have honce : n.Once := run_invariant (fun _ _ _ => step_once)
    ⟨new_tracked LC MaxPrepareMsgCache cType latestBlock, List.nodup_nil, rfl⟩ hrun
  exact ⟨honce.nodup, honce.length⟩

end Once

end CommitNode

end Topia.Execution
