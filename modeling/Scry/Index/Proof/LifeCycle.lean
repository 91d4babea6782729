/-
  The life cycle of a slot (`node.rs`).

  A slot is claimed and published, or buried, by CASes on its state; each step of an
  operation does at most one of these (`SlotStep`).  The record of a run (`Past`) lists the
  states that a slot went through, and `Stage` says which records a slot can have.
-/
import Scry.Index.Proof.Moves

namespace Scry.Index

variable {K V : Type}

/-! ## The record of a slot -/

/-- The states of a slot until now, newest first and none twice in a row, and how often a
    pair was stored in it. -/
structure Past where
  states : List SlotState
  stores : ℕ

/-- The slot was seen in the state `st`. -/
def Past.see (p : Past) (st : SlotState) : Past :=
  if p.states.head? = some st then p else { p with states := st :: p.states }

/-- The slot `i` of `n` as it is now, once the node is in memory. -/
def Past.observe (p : Past) (m : Mem K V) (n : NodeId) (i : ℕ) : Past :=
  if n.alloc < m.next then p.see ((m.cells n).state i) else p

theorem Past.see_see (p : Past) (st : SlotState) : (p.see st).see st = p.see st := by
  refine if_pos ?_
  unfold Past.see
  split_ifs with h
  · exact h
  · rfl

theorem Past.observe_of_alloc {m : Mem K V} {n : NodeId} (h : n.alloc < m.next) (p : Past) (i : ℕ) :
    p.observe m n i = p.see ((m.cells n).state i) := if_pos h

theorem Past.observe_of_next_le {m : Mem K V} {n : NodeId} (h : m.next ≤ n.alloc) (p : Past)
    (i : ℕ) : p.observe m n i = p := if_neg (not_lt.2 h)

/-- How often the next step of the operation stores a pair in the slot. -/
def Thread.stores (th : Thread K V) (n : NodeId) (i : ℕ) : ℕ :=
  match th.pc, th.write with
  | .publish, .inline _ _ => if n = th.cur ∧ i = th.idx then 1 else 0
  | _, _ => 0

/-- What the action adds to the record of the slot. -/
def notePast (n : NodeId) (i : ℕ) (s : Sys K V) (p : Past) (a : Sys.Act K V) : Past :=
  let p := p.observe s.mem n i
  match a with
  | .call _ _ => p
  | .step t =>
    match s.threads t with
    | some th => { p with stores := p.stores + th.stores n i }
    | none => p

/-- The ways of a slot through its states: built empty, with a pair, or with a child. -/
def lifeCycles : List (List SlotState) :=
  [[.empty, .writing, .data, .writing, .childStale],
    [.empty, .writing, .data, .tombstone, .writing, .childStale],
    [.data, .writing, .childStale],
    [.data, .tombstone, .writing, .childStale],
    [.child]]

/-- The record keeps to one of these ways, on which no slot is `EMPTY` or `DATA` twice; a
    pair is stored once, and in no slot that was built with one. -/
structure Past.Ordered (p : Past) : Prop where
  cycle : ∃ c ∈ lifeCycles, p.states.reverse <+: c
  empty : p.states.count .empty ≤ 1
  data : p.states.count .data ≤ 1
  stores : p.stores ≤ 1
  built : p.states.getLast? = some .data → p.stores = 0

instance (p : Past) : Decidable p.Ordered :=
  decidable_of_iff ((∃ c ∈ lifeCycles, p.states.reverse <+: c) ∧ p.states.count .empty ≤ 1 ∧
      p.states.count .data ≤ 1 ∧ p.stores ≤ 1 ∧ (p.states.getLast? = some .data → p.stores = 0))
    ⟨fun h => ⟨h.1, h.2.1, h.2.2.1, h.2.2.2.1, h.2.2.2.2⟩,
      fun h => ⟨h.cycle, h.empty, h.data, h.stores, h.built⟩⟩

/-! ## Stages -/

/-- A slot with its record: whether it is claimed, its state but for that, the states until
    now, and the number of times its pair was stored. -/
inductive Stage : Bool → SlotState → List SlotState → ℕ → Prop
  | empty : Stage false .empty [.empty] 0
  | fill : Stage true .empty [.writing, .empty] 0
  | written : Stage false .data [.data, .writing, .empty] 1
  | built : Stage false .data [.data] 0
  | bury {l : List SlotState} {w : ℕ} (h : Stage false .data l w) :
      Stage false .tombstone (.tombstone :: l) w
  | claim {st : SlotState} {l : List SlotState} {w : ℕ} (h : Stage false st l w)
      (hs : st = .data ∨ st = .tombstone) : Stage true st (.writing :: l) w
  | attach {st : SlotState} {l : List SlotState} {w : ℕ} (h : Stage true st l w)
      (hs : st = .data ∨ st = .tombstone) : Stage false .childStale (.childStale :: l) w
  | child : Stage false .child [.child] 0

namespace Stage
variable {cl : Bool} {st : SlotState} {l : List SlotState} {w : ℕ}

theorem head (h : Stage cl st l w) : l.head? = some (if cl then .writing else st) := by
  cases h <;> rfl

theorem data (h : Stage false .data l w) :
    l = [.data, .writing, .empty] ∧ w = 1 ∨ l = [.data] ∧ w = 0 := by
  cases h with
  | written => exact Or.inl ⟨rfl, rfl⟩
  | built => exact Or.inr ⟨rfl, rfl⟩

theorem tombstone (h : Stage false .tombstone l w) :
    l = [.tombstone, .data, .writing, .empty] ∧ w = 1 ∨ l = [.tombstone, .data] ∧ w = 0 := by
  cases h with
  | bury h =>
    rcases h.data with ⟨rfl, rfl⟩ | ⟨rfl, rfl⟩
    · exact Or.inl ⟨rfl, rfl⟩
    · exact Or.inr ⟨rfl, rfl⟩

theorem idle (h : Stage cl st l w) : st ≠ .writing := by
  cases h with
  | claim _ hs => rcases hs with rfl | rfl <;> decide
  | _ => decide

/-- A slot holds a pair unless it is still to be filled or was built with a child. -/
theorem pair (h : Stage cl st l w) :
    (st = .data ∨ st = .tombstone ∨ st = .childStale) ∨ (cl = false ∧ (st = .empty ∨ st = .child)) ∨
      l = [.writing, .empty] := by
  cases h with
  | empty => exact Or.inr (Or.inl ⟨rfl, Or.inl rfl⟩)
  | child => exact Or.inr (Or.inl ⟨rfl, Or.inr rfl⟩)
  | fill => exact Or.inr (Or.inr rfl)
  | claim _ hs => exact Or.inl (hs.imp_right Or.inl)
  | _ => simp

/-- A slot with a pair, buried or not: the states before. -/
theorem held (h : Stage false st l w) (hs : st = .data ∨ st = .tombstone) :
    (l = [.data, .writing, .empty] ∨ l = [.tombstone, .data, .writing, .empty]) ∧ w = 1 ∨
      (l = [.data] ∨ l = [.tombstone, .data]) ∧ w = 0 := by
  rcases hs with rfl | rfl
  · rcases h.data with ⟨hl, hw⟩ | ⟨hl, hw⟩
    · exact Or.inl ⟨Or.inl hl, hw⟩
    · exact Or.inr ⟨Or.inl hl, hw⟩
  · rcases h.tombstone with ⟨hl, hw⟩ | ⟨hl, hw⟩
    · exact Or.inl ⟨Or.inr hl, hw⟩
    · exact Or.inr ⟨Or.inr hl, hw⟩

/-- **A slot goes along one of the life cycles.** -/
theorem ordered (h : Stage cl st l w) : Past.Ordered ⟨l, w⟩ := by
  cases h with
  | empty | fill | written | built | child => decide
  | bury h =>
    rcases h.data with ⟨rfl, rfl⟩ | ⟨rfl, rfl⟩ <;> decide
  | claim h hs =>
    rcases h.held hs with ⟨rfl | rfl, rfl⟩ | ⟨rfl | rfl, rfl⟩ <;> decide
  | attach h hs =>
    cases h with
    | fill => rcases hs with hs | hs <;> cases hs
    | claim h =>
      rcases h.held hs with ⟨rfl | rfl, rfl⟩ | ⟨rfl | rfl, rfl⟩ <;> decide

end Stage

/-! ## Steps -/

/-- What is in a slot: its pair, from the first on, and its child. -/
structure Cell.Filled (c : Cell K V) (i : ℕ) : Prop where
  pair : c.slots i = .data ∨ c.slots i = .tombstone ∨ c.slots i = .childStale → (c.inline i).isSome
  child : (c.slots i).isChild → (c.children i).isSome

/-- What a step does to one slot: it stores the pair `w` times. -/
inductive SlotStep (c c' : Cell K V) (i : ℕ) : ℕ → Prop
  | same (hs : c'.slots i = c.slots i) (hc : c'.claimed i = c.claimed i)
      (hi : c'.inline i = c.inline i) (hch : (c.children i).isSome → (c'.children i).isSome) :
      SlotStep c c' i 0
  | claim (hc : c.claimed i = false)
      (hst : c.slots i = .empty ∨ c.slots i = .data ∨ c.slots i = .tombstone)
      (hs : c'.slots i = c.slots i) (hc' : c'.claimed i = true) (hi : c'.inline i = c.inline i) :
      SlotStep c c' i 0
  | publishData (hc : c.claimed i = true) (hst : c.slots i = .empty) (hs : c'.slots i = .data)
      (hc' : c'.claimed i = false) (hi : (c'.inline i).isSome) : SlotStep c c' i 1
  | publishChild (hc : c.claimed i = true) (hst : c.slots i = .data ∨ c.slots i = .tombstone)
      (hs : c'.slots i = .childStale) (hc' : c'.claimed i = false)
      (hi : c'.inline i = c.inline i) (hch : (c'.children i).isSome) : SlotStep c c' i 0
  | bury (hc : c.claimed i = false) (hst : c.slots i = .data) (hs : c'.slots i = .tombstone)
      (hc' : c'.claimed i = false) (hi : c'.inline i = c.inline i) : SlotStep c c' i 0

namespace SlotStep
variable {c c' : Cell K V} {i j : ℕ} {w : ℕ}

theorem refl (c : Cell K V) (i : ℕ) : SlotStep c c i 0 := .same rfl rfl rfl id

/-- **A slot stays filled.** -/
theorem filled (h : SlotStep c c' i w) (hf : c.Filled i) : c'.Filled i := by
  cases h with
  | same hs _ hi hch =>
    exact ⟨fun h => hi ▸ hf.pair (hs ▸ h), fun h => hch (hf.child (hs ▸ h))⟩
  | claim _ hst hs _ hi =>
    refine ⟨fun h => hi ▸ hf.pair (hs ▸ h), fun h => ?_⟩
    rw [hs] at h
    rcases hst with hst | hst | hst <;> rw [hst] at h <;> cases h
  | publishData _ _ hs _ hi =>
    refine ⟨fun _ => hi, fun h => ?_⟩
    rw [hs] at h
    cases h
  | publishChild _ hst _ _ hi hch =>
    refine ⟨fun _ => ?_, fun _ => hch⟩
    rw [hi]
    exact hf.pair (hst.imp_right Or.inl)
  | bury _ hst hs _ hi =>
    refine ⟨fun _ => ?_, fun h => ?_⟩
    · rw [hi]
      exact hf.pair (Or.inl hst)
    · rw [hs] at h
      cases h

/-- **A step takes a slot to its next stage.** -/
theorem stage (h : SlotStep c c' i w) {l : List SlotState} {n : ℕ}
    (hs : Stage (c.claimed i) (c.slots i) l n) :
    Stage (c'.claimed i) (c'.slots i) ((⟨l, n + w⟩ : Past).see (c'.state i)).states
      ((⟨l, n + w⟩ : Past).see (c'.state i)).stores := by
  have hhead := hs.head
  have hnew : ∀ {st : SlotState}, c'.state i = st → c.state i ≠ st →
      (⟨l, n + w⟩ : Past).see (c'.state i) = ⟨st :: l, n + w⟩ := by
    rintro st rfl hne
    exact if_neg fun he => hne (Option.some.inj (hhead.symm.trans he))
  cases h with
  | same hst hc =>
    have he : c'.state i = c.state i := by rw [Cell.state, Cell.state, hc, hst]
    rw [Past.see, if_pos (by rw [he]; exact hhead), hst, hc]
    exact hs
  | claim hc hst hs' hc' =>
    have hne : c.state i ≠ .writing := by
      rw [Cell.state, hc]
      rcases hst with h | h | h <;> simp [h]
    rw [hnew (Cell.state_of_claimed hc') hne, hs', hc']
    rw [hc] at hs
    rcases hst with he | he
    · rw [he] at hs ⊢
      cases hs
      exact .fill
    · exact .claim hs he
  | publishData hc hst hs' hc' =>
    have hst' : c'.state i = .data := by rw [Cell.state, hc', hs']; rfl
    rw [hnew hst' (by rw [Cell.state_of_claimed hc]; decide), hs', hc']
    rw [hc, hst] at hs
    cases hs with
    | fill => exact .written
    | claim _ h => rcases h with h | h <;> cases h
  | publishChild hc hst hs' hc' =>
    have hst' : c'.state i = .childStale := by rw [Cell.state, hc', hs']; rfl
    rw [hnew hst' (by rw [Cell.state_of_claimed hc]; decide), hs', hc']
    rw [hc] at hs
    exact .attach hs hst
  | bury hc hst hs' hc' =>
    have hst' : c'.state i = .tombstone := by rw [Cell.state, hc', hs']; rfl
    rw [hnew hst' (by rw [Cell.state, hc, hst]; decide), hs', hc']
    rw [hc, hst] at hs
    exact .bury hs

theorem ofClaim (hc : c.claimed j = false)
    (hst : c.slots j = .empty ∨ c.slots j = .data ∨ c.slots j = .tombstone) :
    SlotStep c (c.claim j) i 0 := by
  by_cases hi : i = j
  · subst hi
    exact .claim hc hst rfl (Function.update_self _ _ _) rfl
  · exact .same rfl (Function.update_of_ne hi _ _) rfl id

theorem ofPublishData (hc : c.claimed j = true) (hst : c.slots j = .empty) (key : K) (value : V) :
    SlotStep c (c.publishData j key value) i (if i = j then 1 else 0) := by
  by_cases hi : i = j
  · subst hi
    rw [if_pos rfl]
    refine .publishData hc hst (Function.update_self _ _ _) (Function.update_self _ _ _) ?_
    rw [show (c.publishData i key value).inline i = some (key, value) from
      Function.update_self _ _ _]
    rfl
  · rw [if_neg hi]
    exact .same (Function.update_of_ne hi _ _) (Function.update_of_ne hi _ _)
      (Function.update_of_ne hi _ _) id

theorem ofPublishChild (hc : c.claimed j = true) (hst : c.slots j = .data ∨ c.slots j = .tombstone)
    (child : NodeId) : SlotStep c (c.publishChild j child) i 0 := by
  by_cases hi : i = j
  · subst hi
    refine .publishChild hc hst (Function.update_self _ _ _) (Function.update_self _ _ _) rfl ?_
    rw [show (c.publishChild i child).children i = some ⟨child, false⟩ from
      Function.update_self _ _ _]
    rfl
  · refine .same (Function.update_of_ne hi _ _) (Function.update_of_ne hi _ _) rfl fun h => ?_
    rwa [show (c.publishChild j child).children i = c.children i from Function.update_of_ne hi _ _]

theorem ofBury (hc : c.claimed j = false) (hst : c.slots j = .data) :
    SlotStep c (c.bury j) i 0 := by
  by_cases hi : i = j
  · subst hi
    exact .bury hc hst (Function.update_self _ _ _) hc rfl
  · exact .same (Function.update_of_ne hi _ _) rfl rfl id

theorem ofSetChild (p : Ptr) : SlotStep c (c.setChild j p) i 0 := by
  refine .same rfl rfl rfl fun h => ?_
  show (Function.update c.children j (some p) i).isSome
  rw [Function.update_apply]
  split_ifs
  · rfl
  · exact h

variable {m : Mem K V} {n x : NodeId}

theorem modify {f : Cell K V → Cell K V} (h : n = x → SlotStep (m.cells x) (f (m.cells x)) i w)
    (h0 : n ≠ x → w = 0) : SlotStep (m.cells n) ((m.modify x f).cells n) i w := by
  by_cases hn : n = x
  · subst hn
    rw [Mem.modify_cells_self]
    exact h rfl
  · rw [show (m.modify x f).cells n = m.cells n from Function.update_of_ne hn _ _, h0 hn]
    exact .refl _ _

theorem place (hn : n.alloc < m.next) {r : Bool} {route : List (Edge K)} {tree : Node K V} :
    SlotStep (m.cells n) ((m.place r route tree).cells n) i 0 := by
  rw [Mem.place_cells hn]
  exact .refl _ _

theorem placeChild {tree : Node K V} {set : Cell K V → NodeId → Cell K V} (hn : n.alloc < m.next)
    (h : SlotStep (m.cells x) (set (m.cells x) (m.fresh false)) i 0) :
    SlotStep (m.cells n) ((m.placeChild x j tree set).cells n) i 0 := by
  by_cases hx : n = x
  · subst hx
    rw [Mem.placeChild_cells_self hn]
    exact h
  · rw [show (m.placeChild x j tree set).cells n = _ from Function.update_of_ne hx _ _]
    exact .place hn

end SlotStep

theorem Thread.stores_eq_zero {th : Thread K V} (hpc : th.pc ≠ .publish) (n : NodeId) (i : ℕ) :
    th.stores n i = 0 := by
  unfold Thread.stores
  split
  · rename_i h _
    exact absurd h hpc
  · rfl

section Effect
variable [LinearOrder K] [Key K] {m m' : Mem K V} {th : Thread K V}

/-- A slot is claimed in a state in which it is empty or holds a pair. -/
theorem WriteOk.prev_cases {n : NodeId} {i : ℕ} {call : Call K V} {k : K} {w : Write K V}
    (h : WriteOk m n i call k w) :
    (∃ v, w = .inline k v) ∨
      (w.prev = .data ∨ w.prev = .tombstone) ∧ ∀ key v, w ≠ .inline key v := by
  cases h with
  | inline => exact Or.inl ⟨_, rfl⟩
  | tombstone => exact Or.inr ⟨Or.inr rfl, fun _ _ he => (by cases he)⟩
  | data => exact Or.inr ⟨Or.inl rfl, fun _ _ he => (by cases he)⟩
  | bury => exact Or.inr ⟨Or.inl rfl, fun _ _ he => (by cases he)⟩

/-- **What a step does to a slot** of a node in memory. -/
theorem Effect.slotStep (he : Effect m th m') (hok : th.Ok m) (hl : th.Locks m) {n : NodeId}
    {i : ℕ} (hn : n.alloc < m.next) : SlotStep (m.cells n) (m'.cells n) i (th.stores n i) := by
  have quiet : th.pc ≠ .publish → SlotStep (m.cells n) (m'.cells n) i 0 →
      SlotStep (m.cells n) (m'.cells n) i (th.stores n i) := fun hpc h => by
    rwa [Thread.stores_eq_zero hpc]
  cases he with
  | quiet hpc hc =>
    refine quiet hpc ?_
    rw [hc]
    exact .refl _ _
  | claim hpc hs hw =>
    refine quiet (by rw [hpc]; rintro ⟨⟩) (.modify (fun _ => ?_) fun _ => rfl)
    simp only [Thread.Ok, hpc] at hok
    obtain ⟨k, -, hwr⟩ := hok
    obtain ⟨hc, hst⟩ := (Cell.state_eq hwr.prev.1).1 hs
    refine .ofClaim hc ?_
    rw [hst]
    rcases hwr.prev_cases with ⟨v, he⟩ | ⟨hp, -⟩
    · exact Or.inl (by rw [he]; rfl)
    · exact Or.inr hp
  | bury hpc hs =>
    refine quiet (by rw [hpc]; rintro ⟨⟩) (.modify (fun _ => ?_) fun _ => rfl)
    obtain ⟨hc, hst⟩ := (Cell.state_eq (s := .data) (by decide)).1 hs
    exact .ofBury hc hst
  | @publishData key v hpc hw =>
    simp only [Thread.Locks, hpc, hw] at hl
    have hstores : th.stores n i = if n = th.cur ∧ i = th.idx then 1 else 0 := by
      rw [Thread.stores, hpc, hw]
    rw [hstores]
    refine .modify (fun hx => ?_) fun hx => if_neg fun h => hx h.1
    simp only [hx, true_and]
    exact .ofPublishData hl.1 hl.2 key v
  | @publishChild prev child isNew hpc hw =>
    simp only [Thread.Ok, hpc] at hok
    simp only [Thread.Locks, hpc] at hl
    obtain ⟨k, -, hwr⟩ := hok
    have hstores : th.stores n i = 0 := by rw [Thread.stores, hpc, hw]
    rw [hstores]
    refine .placeChild hn (.ofPublishChild hl.1 ?_ _)
    rw [hl.2]
    rcases hwr.prev_cases with ⟨v, he⟩ | ⟨hp, -⟩
    · cases hw.symm.trans he
    · exact hp
  | count d hpc =>
    exact quiet (by rw [hpc]; rintro ⟨⟩) (.modify (fun _ => .same rfl rfl rfl id) fun _ => rfl)
  | freeze hpc =>
    exact quiet (by rw [hpc]; rintro ⟨⟩) (.modify (fun _ => .ofSetChild _) fun _ => rfl)
  | unfreeze hpc =>
    exact quiet (by rw [hpc]; rintro ⟨⟩) (.modify (fun _ => .ofSetChild _) fun _ => rfl)
  | swapChild hpc =>
    exact quiet (by rw [hpc]; rintro ⟨⟩) (.placeChild hn (.ofSetChild _))
  | freezeRoot hpc => exact quiet (by rw [hpc]; rintro ⟨⟩) (.refl _ _)
  | unfreezeRoot hpc => exact quiet (by rw [hpc]; rintro ⟨⟩) (.refl _ _)
  | swapRoot hpc => exact quiet (by rw [hpc]; rintro ⟨⟩) (.place hn)
  | swapEmpty hpc => exact quiet (by rw [hpc]; rintro ⟨⟩) (.place hn)

end Effect

/-! ## Runs -/

namespace Sys

/-- Thread `t` owns the slot `i` of `n`: it has claimed it and publishes it next. -/
def Owns (s : Sys K V) (t : ℕ) (n : NodeId) (i : ℕ) : Prop :=
  ∃ th, s.threads t = some th ∧ th.pc = .publish ∧ th.cur = n ∧ th.idx = i

/-- What the life cycle promises of the slot `i` of `n` and its record. -/
structure LifeCycle (s : Sys K V) (n : NodeId) (i : ℕ) (past : Past) : Prop where
  ordered : past.Ordered
  now : past.states.head? = some ((s.mem.cells n).state i)
  owned : (s.mem.cells n).state i = .writing ↔ ∃ t, s.Owns t n i
  owner {t t' : ℕ} : s.Owns t n i → s.Owns t' n i → t = t'
  pair : (s.mem.cells n).state i ≠ .empty → (s.mem.cells n).state i ≠ .child →
    past.states ≠ [.writing, .empty] → ((s.mem.cells n).inline i).isSome
  child : ((s.mem.cells n).state i).isChild → ((s.mem.cells n).children i).isSome

variable [LinearOrder K] [Key K]

/-- What holds of the slot and its record in every state of a run. -/
structure Living (n : NodeId) (i : ℕ) (p : Sys K V × Past) : Prop where
  inv : p.1.Inv
  regular : p.1.Regular
  unborn : p.1.mem.next ≤ n.alloc → p.2 = ⟨[], 0⟩
  filled : n.alloc < p.1.mem.next → (p.1.mem.cells n).Filled i
  stage : n.alloc < p.1.mem.next → Stage ((p.1.mem.cells n).claimed i)
    ((p.1.mem.cells n).slots i) (p.2.observe p.1.mem n i).states (p.2.observe p.1.mem n i).stores

end Sys

/-- A slot of a node that was just built. -/
theorem Cell.Pristine.born {c : Cell K V} (h : c.Pristine) (i : ℕ) :
    c.Filled i ∧ Stage (c.claimed i) (c.slots i) ((⟨[], 0⟩ : Past).see (c.state i)).states
      ((⟨[], 0⟩ : Past).see (c.state i)).stores := by
  have hfree := h.free i
  rw [Cell.state, hfree]
  rcases h.slot i with hs | ⟨hs, hi⟩ | ⟨hs, hc⟩
  · refine ⟨⟨fun h => ?_, fun h => ?_⟩, by rw [hs]; exact .empty⟩
    · rcases h with h | h | h <;> cases hs.symm.trans h
    · rw [hs] at h; cases h
  · refine ⟨⟨fun _ => hi, fun h => ?_⟩, by rw [hs]; exact .built⟩
    rw [hs] at h; cases h
  · refine ⟨⟨fun h => ?_, fun _ => hc⟩, by rw [hs]; exact .child⟩
    rcases h with h | h | h <;> cases hs.symm.trans h

section Born
variable [LinearOrder K] [Key K] {config : Config} {m m' : Mem K V} {th : Thread K V} {next : Next K V}

/-- The nodes that a step puts in memory were just built. -/
theorem step_born [LawfulKey K] (hc : 0 ≤ config.rangeHeadroom) (hok : th.Ok m) (hl : th.Locks m)
    (ha : th.AttachesNone) (h : th.step config m = some (m', next)) {n : NodeId}
    (hn : m.next ≤ n.alloc) (hn' : n.alloc < m'.next) : (m'.cells n).Pristine := by
  by_cases hpc : th.pc = .countTombstone
  · simp only [Thread.step, hpc, stepCountTombstone] at h
    cases h
    exact absurd hn' (not_lt.2 hn)
  · rcases step_sameTombstones hc hok hl ha hpc h n with ⟨-, hold⟩ | ⟨-, hnew⟩
    · exact absurd hn' (not_lt.2 (hold hn))
    · exact hnew

theorem Thread.Ok.stores (hok : th.Ok m) {n : NodeId} (hn : m.next ≤ n.alloc) (i : ℕ) :
    th.stores n i = 0 := by
  unfold Thread.stores
  split
  · rename_i hpc _
    simp only [Thread.Ok, hpc] at hok
    obtain ⟨k, ⟨hat, -⟩, -⟩ := hok
    refine if_neg fun h => not_lt.2 hn ?_
    rw [h.1]
    exact hat.2.2.curWF.alloc
  · rfl

end Born

namespace Sys
variable {s s' : Sys K V} {n : NodeId} {i : ℕ} {past : Past}

section Owners
variable [LinearOrder K] [Key K]

theorem Inv.owns_iff (h : s.Inv) (hn : n.alloc < s.mem.next) :
    (s.mem.cells n).claimed i = true ↔ ∃ t, s.Owns t n i := by
  constructor
  · intro hc
    obtain ⟨t, th, hth, hlock⟩ := h.owned hn hc
    obtain ⟨hpc, hcur, hidx⟩ := Thread.lock_slot hlock
    exact ⟨t, th, hth, hpc, hcur.symm, hidx.symm⟩
  · rintro ⟨t, th, hth, hpc, rfl, rfl⟩
    have hl := h.locks hth
    simp only [Thread.Locks, hpc] at hl
    exact hl.1

theorem Inv.owner {t t' : ℕ} (h : s.Inv) (ht : s.Owns t n i) (ht' : s.Owns t' n i) : t = t' := by
  obtain ⟨th, hth, hpc, rfl, rfl⟩ := ht
  obtain ⟨th', hth', hpc', hcur, hidx⟩ := ht'
  refine h.excl hth hth' (l := .slot th.cur th.idx) ?_ ?_
  · rw [Thread.lock, hpc]
  · rw [Thread.lock, hpc', hcur, hidx]

end Owners

namespace Living
variable [LinearOrder K] [Key K]

theorem init [LawfulKey K] {config : Config} (hc : config.Valid) {map : LearnedMap K V}
    {pairs : List (K × V)} (hs : Starts config map pairs) :
    Living n i (Sys.init map, ⟨[], 0⟩) := by
  have hborn : n.alloc < (Sys.init map).mem.next → ((Sys.init map).mem.cells n).Pristine := by
    intro hn
    rcases Mem.SameTombstones.place (m := ⟨fun _ => .blank, 0, ⟨⟨true, 0, []⟩, false⟩, map.len,
      map.nextRootRebuild⟩) (Node.Pristine.ofStarts hs).1 n with ⟨-, hold⟩ | ⟨-, hnew⟩
    · exact absurd hn (not_lt.2 (hold (Nat.zero_le _)))
    · exact hnew
  refine ⟨.init hc hs, fun _ _ hth => (by cases hth), fun _ => rfl, fun hn => ((hborn hn).born i).1,
    fun hn => ?_⟩
  rw [Past.observe_of_alloc hn]
  exact ((hborn hn).born i).2

theorem invoke {t : ℕ} {call : Call K V} (h : Living n i (s, past)) (hreg : s'.Regular)
    (hs : s.invoke t call = some s') : Living n i (s', past.observe s.mem n i) := by
  have hinv := h.inv.invoke hs
  obtain ⟨-, rfl⟩ := invoke_eq_some hs
  refine ⟨hinv, hreg, fun hn => ?_, h.filled, fun hn => ?_⟩
  · exact (Past.observe_of_next_le hn past i).trans (h.unborn hn)
  · have hstage := h.stage hn
    have hagain : (past.observe s.mem n i).observe s.mem n i = past.observe s.mem n i := by
      rw [Past.observe_of_alloc hn, Past.observe_of_alloc hn, Past.see_see]
    exact hagain.symm ▸ hstage

/-- **Step lemma**: the slot keeps to its life cycle. -/
theorem step [LawfulKey K] {t : ℕ} {th : Thread K V} {m' : Mem K V} {next : Next K V}
    (h : Living n i (s, past)) (hth : s.threads t = some th)
    (hstep : th.step s.config s.mem = some (m', next))
    (hinv' : (s.proceed t th.call m' next).Inv) (hreg' : (s.proceed t th.call m' next).Regular) :
    Living n i (s.proceed t th.call m' next,
      ⟨(past.observe s.mem n i).states, (past.observe s.mem n i).stores + th.stores n i⟩) := by
  have hok : th.Ok s.mem := h.inv.ok hth
  have hl : th.Locks s.mem := h.inv.locks hth
  have he := step_effect h.inv.headroom hok hl hstep
  have hnext := (he.content hok hl).evolves.next
  -- a node that was not in memory before was just built
  have hborn : s.mem.next ≤ n.alloc → n.alloc < m'.next → (m'.cells n).Pristine :=
    step_born h.inv.headroom hok hl (h.regular hth).attaches hstep
  have hunborn : s.mem.next ≤ n.alloc → (⟨(past.observe s.mem n i).states,
      (past.observe s.mem n i).stores + th.stores n i⟩ : Past) = ⟨[], 0⟩ := by
    intro hn
    have hpast : past = ⟨[], 0⟩ := h.unborn hn
    rw [Past.observe_of_next_le hn, hpast, hok.stores hn]
  refine ⟨hinv', hreg', ?_, ?_, ?_⟩ <;> simp only [proceed_mem]
  · exact fun hn => hunborn (hnext.trans hn)
  · intro hn
    by_cases hold : n.alloc < s.mem.next
    · exact (he.slotStep hok hl hold).filled (h.filled hold)
    · exact ((hborn (not_lt.1 hold) hn).born i).1
  · intro hn
    by_cases hold : n.alloc < s.mem.next
    · rw [Past.observe_of_alloc hn]
      exact (he.slotStep hok hl hold).stage (h.stage hold)
    · rw [hunborn (not_lt.1 hold), Past.observe_of_alloc hn]
      exact ((hborn (not_lt.1 hold) hn).born i).2

theorem act [LawfulKey K] {p p' : Sys K V × Past} {a : Act K V} (h : Living n i p)
    (ha : Run.recording Sys.act (notePast n i) p a = some p') : Living n i p' := by
  obtain ⟨s, past⟩ := p
  obtain ⟨s', past'⟩ := p'
  obtain ⟨hact, rfl⟩ := Run.recording_eq_some.1 ha
  have hreg' := h.regular.act h.inv hact
  cases a with
  | call t call => exact h.invoke hreg' hact
  | step t =>
    have hinv' := h.inv.step hact
    obtain ⟨th, m', next, hth, hstep, rfl⟩ := step_eq_some hact
    have hnote : notePast n i s past (.step t) = ⟨(past.observe s.mem n i).states,
        (past.observe s.mem n i).stores + th.stores n i⟩ := by
      rw [notePast, hth]
    dsimp only
    rw [hnote]
    exact h.step hth hstep hinv' hreg'

/-- **The slot and its record** keep what the life cycle promises. -/
theorem lifeCycle (h : Living n i (s, past)) (hn : n.alloc < s.mem.next) :
    s.LifeCycle n i (past.observe s.mem n i) := by
  have hstage := h.stage hn
  have hfilled := h.filled hn
  refine ⟨hstage.ordered, hstage.head, ?_, h.inv.owner, fun hempty hchild hfill => ?_, fun hc => ?_⟩
  · rw [← h.inv.owns_iff hn]
    refine ⟨fun hs => ?_, Cell.state_of_claimed⟩
    by_contra hc
    rw [Cell.state, if_neg hc] at hs
    exact hstage.idle hs
  · rcases hstage.pair with hs | ⟨hc, hs⟩ | hl
    · exact hfilled.pair hs
    · rw [Cell.state, if_neg (by rw [hc]; exact Bool.false_ne_true)] at hempty hchild
      rcases hs with hs | hs
      · exact absurd hs hempty
      · exact absurd hs hchild
    · exact absurd hl hfill
  · refine hfilled.child ?_
    unfold Cell.state at hc
    split_ifs at hc
    · cases hc
    · exact hc

end Living

variable [LinearOrder K] [Key K]

/-- **The life cycle of a slot**: it goes through its states in order, it has one owner while
    it is claimed, its pair is stored once and its child is there when it is needed. -/
theorem run_lifeCycle [LawfulKey K] {config : Config} (hc : config.Valid) {map : LearnedMap K V}
    {pairs : List (K × V)} (hs : Starts config map pairs) {sched : List (Act K V)}
    (hrun : (Sys.init map).run sched = some s) (n : NodeId) (i : ℕ) (hn : n.alloc < s.mem.next) :
    ∃ past : Past, sched.foldlM (Run.recording Sys.act (notePast n i)) (Sys.init map, ⟨[], 0⟩) =
        some (s, past) ∧ s.LifeCycle n i (past.observe s.mem n i) := by
  obtain ⟨⟨s', past⟩, hrec, hs'⟩ := Option.map_eq_some_iff.1
    ((Run.recording_run Sys.act (notePast n i) sched (Sys.init map) ⟨[], 0⟩).trans hrun)
  obtain rfl : s' = s := hs'
  have hend : Living n i (s', past) :=
    Run.run_induct (C := fun _ _ => True) (fun h _ ha => h.act ha) (.init hc hs)
      (.of_forall fun _ _ => trivial) hrec
  exact ⟨past, hrec, hend.lifeCycle hn⟩

/-- A byte is inserted and removed, and its slot is claimed for it once more. -/
def claimAgain : List (Act (Fin (2 ^ 8)) ℕ) :=
  .call 0 (.insert ⟨11, by decide⟩ 1) :: List.replicate 8 (Act.step 0) ++
    Act.call 0 (.remove ⟨11, by decide⟩) :: List.replicate 8 (Act.step 0) ++
    Act.call 0 (.insert ⟨11, by decide⟩ 2) :: List.replicate 3 (Act.step 0)

theorem run_lifeCycle_byte : ∃ s past, claimAgain.foldlM
    (Run.recording Sys.act (notePast ⟨true, 0, []⟩ 11))
      (Sys.init (.withConfig {} : LearnedMap (Fin (2 ^ 8)) ℕ), ⟨[], 0⟩) = some (s, past) ∧
    s.LifeCycle ⟨true, 0, []⟩ 11 (past.observe s.mem ⟨true, 0, []⟩ 11) := by
  have := lawfulKey_unsigned (show 8 ≤ 64 by decide)
  have he : ((Sys.init (.withConfig {} : LearnedMap (Fin (2 ^ 8)) ℕ)).run claimAgain).any
      (fun s => decide (0 < s.mem.next)) = true := by
    decide +kernel
  obtain ⟨s, hs, hn⟩ := (Option.any_eq_true _ _).1 he
  exact ⟨s, run_lifeCycle (show ({} : Config).Valid from ⟨one_le_two, le_rfl⟩) .withConfig hs
    ⟨true, 0, []⟩ 11 (of_decide_eq_true hn)⟩

end Sys

end Scry.Index
