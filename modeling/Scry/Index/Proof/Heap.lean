/-
  Well-formed nodes in the heap.

  The slots on the way to a node fix which keys it may hold (`Cell.Routes`).  A node is
  well-formed (`Mem.NodeWF`) if its pairs are routed to it, and so are all nodes below.
  What the tree holds of a key (`Mem.Holds`) is found on the path of the key, where a
  slot that is `WRITING` counts as what it was when it was claimed.
-/
import Scry.Index.Heap
import Scry.Index.Proof.Update

namespace Scry.Index

variable {K V : Type} [LinearOrder K] [Key K]

/-! ## Cells -/

namespace Cell

/-- The slots on the way to the node are those that the key is predicted to. -/
def Routes (c : Cell K V) (k : K) : Prop := ∀ e ∈ c.route, e.head.predictSlot k = e.slot

/-- The slot of a key. -/
def slotOf (c : Cell K V) (k : K) : ℕ := c.head.predictSlot k

/-- What a slot without child holds of a key. -/
def leafGet (c : Cell K V) (i : ℕ) (k : K) : Option V :=
  match c.slots i with
  | .data => (c.inline i).bind fun (k', v) => if k' = k then some v else none
  | _ => none

omit [Key K] in
theorem leafGet_data {c : Cell K V} {i : ℕ} {k' : K} {v : V} (hs : c.slots i = .data)
    (hi : c.inline i = some (k', v)) (k : K) :
    c.leafGet i k = if k' = k then some v else none := by
  rw [leafGet, hs, hi]
  rfl

omit [Key K] in
theorem leafGet_of_ne_data {c : Cell K V} {i : ℕ} (hs : c.slots i ≠ .data) (k : K) :
    c.leafGet i k = none := by
  unfold leafGet
  cases h : c.slots i with
  | data => exact absurd h hs
  | _ => rfl

omit [LinearOrder K] [Key K] in
theorem state_of_claimed {c : Cell K V} {i : ℕ} (h : c.claimed i = true) : c.state i = .writing :=
  if_pos h

omit [LinearOrder K] [Key K] in
theorem state_eq {c : Cell K V} {i : ℕ} {s : SlotState} (hs : s ≠ .writing) :
    c.state i = s ↔ c.claimed i = false ∧ c.slots i = s := by
  rw [state]
  cases c.claimed i
  · simp
  · simp [hs.symm]

end Cell

/-- What is required of the node `n`, given that of the nodes below. -/
structure CellOk (m : Mem K V) (n : NodeId) (c : Cell K V) : Prop where
  head : c.head.Valid
  root : n.isRoot = true → c.route = []
  idle (i : ℕ) : c.slots i ≠ .writing
  data (i : ℕ) : c.slots i = .data →
    ∃ k v, c.inline i = some (k, v) ∧ c.slotOf k = i ∧ c.Routes k
  child (i : ℕ) : (c.slots i).isChild → ∃ p, c.children i = some p ∧ p.node.isRoot = false ∧
    (m.cells p.node).route = c.route ++ [⟨n, c.head, i⟩]
  claimed (i : ℕ) : c.claimed i = true → (c.slots i).isChild = false
  frozen (i : ℕ) (p : Ptr) : (c.slots i).isChild → c.children i = some p → p.frozen = true →
    n.isRoot = true

namespace Mem

/-- The node and all nodes below it are well-formed. -/
inductive NodeWF (m : Mem K V) : NodeId → Prop
  | mk {n : NodeId} (alloc : n.alloc < m.next) (cell : CellOk m n (m.cells n))
      (below : ∀ i p, ((m.cells n).slots i).isChild → (m.cells n).children i = some p →
        NodeWF m p.node) : NodeWF m n

variable {m : Mem K V} {n : NodeId}

theorem NodeWF.alloc (h : m.NodeWF n) : n.alloc < m.next := by
  cases h with | mk alloc => exact alloc

theorem NodeWF.cell (h : m.NodeWF n) : CellOk m n (m.cells n) := by
  cases h with | mk _ cell => exact cell

theorem NodeWF.ofChild (h : m.NodeWF n) {i : ℕ} {p : Ptr} (hs : ((m.cells n).slots i).isChild)
    (hp : (m.cells n).children i = some p) : m.NodeWF p.node := by
  cases h with | mk _ _ below => exact below i p hs hp

/-- A child of a well-formed node: its keys are those of the node that are predicted to
    the slot. -/
theorem NodeWF.routes_child (h : m.NodeWF n) {i : ℕ} {p : Ptr}
    (hs : ((m.cells n).slots i).isChild) (hp : (m.cells n).children i = some p) (k : K) :
    (m.cells p.node).Routes k ↔ (m.cells n).Routes k ∧ (m.cells n).slotOf k = i := by
  obtain ⟨q, hq, -, hr⟩ := h.cell.child i hs
  cases hp.symm.trans hq
  rw [Cell.Routes, hr, List.forall_mem_append, List.forall_mem_singleton]
  rfl

/-! ## What the tree holds -/

/-- The tree at the node holds the value, or nothing, for the key. -/
inductive Holds (m : Mem K V) (k : K) : NodeId → Option V → Prop
  | leaf {n : NodeId} (h : ((m.cells n).slots ((m.cells n).slotOf k)).isChild = false) :
      Holds m k n ((m.cells n).leafGet ((m.cells n).slotOf k) k)
  | child {n : NodeId} {p : Ptr} {o : Option V}
      (h : ((m.cells n).slots ((m.cells n).slotOf k)).isChild)
      (hp : (m.cells n).children ((m.cells n).slotOf k) = some p) (ho : Holds m k p.node o) :
      Holds m k n o

variable {k : K}

theorem holds_leaf {o : Option V}
    (h : ((m.cells n).slots ((m.cells n).slotOf k)).isChild = false) :
    m.Holds k n o ↔ o = (m.cells n).leafGet ((m.cells n).slotOf k) k := by
  constructor
  · intro ho
    cases ho with
    | leaf => rfl
    | child h' => rw [h] at h'; cases h'
  · rintro rfl
    exact .leaf h

theorem holds_child {p : Ptr} {o : Option V}
    (h : ((m.cells n).slots ((m.cells n).slotOf k)).isChild)
    (hp : (m.cells n).children ((m.cells n).slotOf k) = some p) :
    m.Holds k n o ↔ m.Holds k p.node o := by
  constructor
  · intro ho
    cases ho with
    | leaf h' => rw [h] at h'; cases h'
    | child _ hp' ho => cases hp.symm.trans hp'; exact ho
  · exact .child h hp

/-- **The tree holds one thing for each key.** -/
theorem Holds.unique {o o' : Option V} (h : m.Holds k n o) (h' : m.Holds k n o') : o = o' := by
  induction h with
  | leaf h => exact ((holds_leaf h).1 h').symm
  | child h hp _ ih => exact ih ((holds_child h hp).1 h')

/-- **The path of a key ends.** -/
theorem NodeWF.holds (h : m.NodeWF n) (k : K) : ∃ o, m.Holds k n o := by
  induction h with
  | @mk n _ cell _ ih =>
    by_cases hs : ((m.cells n).slots ((m.cells n).slotOf k)).isChild
    · obtain ⟨p, hp, -⟩ := cell.child _ hs
      obtain ⟨o, ho⟩ := ih _ p hs hp
      exact ⟨o, .child hs hp ho⟩
    · exact ⟨_, .leaf (by simpa using hs)⟩

/-- The path of the key leads from one node to another, over pointers that no rebuild
    replaces. -/
inductive Leads (m : Mem K V) (k : K) : NodeId → NodeId → Prop
  | refl (n : NodeId) : Leads m k n n
  | step {n d : NodeId} {p : Ptr} (hn : n.isRoot = false)
      (h : ((m.cells n).slots ((m.cells n).slotOf k)).isChild)
      (hp : (m.cells n).children ((m.cells n).slotOf k) = some p) (hd : Leads m k p.node d) :
      Leads m k n d

theorem Leads.snoc {d : NodeId} (hl : m.Leads k n d) (hd : d.isRoot = false) {p : Ptr}
    (h : ((m.cells d).slots ((m.cells d).slotOf k)).isChild)
    (hp : (m.cells d).children ((m.cells d).slotOf k) = some p) : m.Leads k n p.node := by
  induction hl with
  | refl => exact .step hd h hp (.refl _)
  | step hn h' hp' _ ih => exact .step hn h' hp' (ih hd h hp)

theorem Leads.holds {d : NodeId} (hl : m.Leads k n d) {o : Option V} :
    m.Holds k n o ↔ m.Holds k d o := by
  induction hl with
  | refl => rfl
  | step _ h hp _ ih => rw [holds_child h hp, ih]

end Mem

/-! ## Allocated trees -/

namespace NodeId

/-- The address at the end of a path in a tree. -/
def descend (n : NodeId) : List ℕ → NodeId
  | [] => n
  | i :: path => (n.child i).descend path

theorem descend_alloc (n : NodeId) (path : List ℕ) : (n.descend path).alloc = n.alloc := by
  induction path generalizing n with
  | nil => rfl
  | cons i path ih => exact ih (n.child i)

theorem descend_path (n : NodeId) (path : List ℕ) : (n.descend path).path = n.path ++ path := by
  induction path generalizing n with
  | nil => exact (List.append_nil _).symm
  | cons i path ih =>
    rw [descend, ih]
    exact List.append_assoc n.path [i] path

end NodeId

namespace Mem
variable {m : Mem K V} {n : NodeId}

omit [LinearOrder K] [Key K] in
theorem cellAt_children {h : Header K} {st : ℕ → SlotState} {kv : ℕ → Option (K × V)}
    {ch : ℕ → Node K V} {t : ℕ} (route : List (Edge K)) {i : ℕ} (hc : ch i ≠ .null) :
    ((Node.mk h st kv ch t).cellAt n route []).children i = some ⟨n.child i, false⟩ := by
  rw [Node.cellAt]
  dsimp only
  cases hci : ch i with
  | null => exact absurd hci hc
  | mk => rfl

omit [LinearOrder K] [Key K] in
theorem cellAt_route {tree : Node K V} (ht : tree ≠ .null) (route : List (Edge K)) :
    (tree.cellAt n route []).route = route := by
  cases tree with
  | null => exact absurd rfl ht
  | mk => rfl

/-- The keys of the tree are routed along the path. -/
def Routed (route : List (Edge K)) (tree : Node K V) : Prop :=
  ∀ k, (tree.get k).isSome → ∀ e ∈ route, e.head.predictSlot k = e.slot

theorem Routed.sub {h : Header K} {st : ℕ → SlotState} {kv : ℕ → Option (K × V)}
    {ch : ℕ → Node K V} {t : ℕ} {route : List (Edge K)} (hr : Routed route (.mk h st kv ch t))
    (hw : (Node.mk h st kv ch t).WF) {i : ℕ} (hi : (st i).isChild) (n : NodeId) :
    Routed (route ++ [⟨n, h, i⟩]) (ch i) := by
  intro k hk
  have hk' : h.predictSlot k = i := hw.routed hi hk
  rw [List.forall_mem_append, List.forall_mem_singleton]
  refine ⟨hr k ?_, hk'⟩
  rwa [Node.get_mk, hk', Node.slotGet_isChild hi]

/-- A tree in memory as it was allocated: the node itself, given the trees below. -/
theorem cellOk_of_tree {h : Header K} {st : ℕ → SlotState} {kv : ℕ → Option (K × V)}
    {ch : ℕ → Node K V} {t : ℕ} {route : List (Edge K)} (hw : (Node.mk h st kv ch t).WF)
    (hr : Routed route (.mk h st kv ch t)) (hroot : n.isRoot = true → route = [])
    (hsub : ∀ i, (st i).isChild → (m.cells (n.child i)).route = route ++ [⟨n, h, i⟩]) :
    CellOk m n ((Node.mk h st kv ch t).cellAt n route []) where
  head := hw.head
  root := hroot
  idle := hw.idle
  data := by
    intro i hi
    have hi : st i = .data := hi
    obtain ⟨k, v, hkv, hp⟩ := hw.data hi
    refine ⟨k, v, hkv, hp, hr k ?_⟩
    rw [Node.get_mk, hp, hi, hkv]
    simp [Node.slotGet]
  child := by
    intro i hi
    exact ⟨_, cellAt_children route (hw.child_ne_null hi), rfl, hsub i hi⟩
  claimed := by
    intro i hi
    cases hi
  frozen := by
    intro i p hi hp hf
    cases (cellAt_children (n := n) route (hw.child_ne_null hi)).symm.trans hp
    cases hf

/-- What a tree holds, read off its topmost node. -/
theorem holds_tree {h : Header K} {st : ℕ → SlotState} {kv : ℕ → Option (K × V)}
    {ch : ℕ → Node K V} {t : ℕ} {route : List (Edge K)} (hw : (Node.mk h st kv ch t).WF)
    (hc : m.cells n = (Node.mk h st kv ch t).cellAt n route [])
    (hsub : ∀ i, (st i).isChild → ∀ k, m.Holds k (n.child i) ((ch i).get k)) (k : K) :
    m.Holds k n ((Node.mk h st kv ch t).get k) := by
  have hslot : (m.cells n).slotOf k = h.predictSlot k := by rw [hc]; rfl
  have hstate : (m.cells n).slots (h.predictSlot k) = st (h.predictSlot k) := by rw [hc]; rfl
  by_cases hi : (st (h.predictSlot k)).isChild
  · rw [Node.get_mk, Node.slotGet_isChild hi]
    refine .child (p := ⟨n.child (h.predictSlot k), false⟩) ?_ ?_ (hsub _ hi k)
    · rw [hslot, hstate]; exact hi
    · rw [hslot, hc]; exact cellAt_children route (hw.child_ne_null hi)
  · have hs : ((m.cells n).slots ((m.cells n).slotOf k)).isChild = false := by
      rw [hslot, hstate]; simpa using hi
    rw [holds_leaf hs, hslot, hc, Node.get_mk]
    unfold Cell.leafGet Node.cellAt
    dsimp only
    cases hst : st (h.predictSlot k) with
    | child | childStale => rw [hst] at hi; exact absurd rfl hi
    | _ => rfl

/-- A tree at some address, as it was allocated. -/
theorem tree_spec {tree : Node K V} (ht : tree.WF) :
    ∀ {n : NodeId} {route : List (Edge K)},
      (∀ path, m.cells (n.descend path) = tree.cellAt n route path) → n.alloc < m.next →
      Routed route tree → (n.isRoot = true → route = []) →
      m.NodeWF n ∧ ∀ k, m.Holds k n (tree.get k) := by
  induction ht with
  | @mk h st kv ch t head idle data child routed ih =>
    intro n route hc ha hr hroot
    have hw : (Node.mk h st kv ch t).WF := .mk head idle data child routed
    have hsub : ∀ i, (st i).isChild → m.NodeWF (n.child i) ∧
        ∀ k, m.Holds k (n.child i) ((ch i).get k) := fun i hi =>
      ih i hi (fun path => hc (i :: path)) ha (hr.sub hw hi n) nofun
    have hroute : ∀ i, (st i).isChild →
        (m.cells (n.child i)).route = route ++ [⟨n, h, i⟩] := by
      intro i hi
      rw [show m.cells (n.child i) = _ from hc [i]]
      exact cellAt_route (hw.child_ne_null hi) _
    have hn : m.cells n = (Node.mk h st kv ch t).cellAt n route [] := hc []
    refine ⟨.mk ha ?_ ?_, holds_tree hw hn fun i hi => (hsub i hi).2⟩
    · rw [hn]
      exact cellOk_of_tree hw hr hroot hroute
    · rw [hn]
      intro i p hi hp
      cases (cellAt_children (n := n) route (hw.child_ne_null hi)).symm.trans hp
      exact (hsub i hi).1

/-- The tree is in memory at `n`. -/
structure Placed (m : Mem K V) (n : NodeId) (route : List (Edge K)) (tree : Node K V) : Prop where
  cells (path : List ℕ) : m.cells (n.descend path) = tree.cellAt n route path
  alloc : n.alloc < m.next
  root : n.isRoot = true → route = []

omit [LinearOrder K] [Key K] in
theorem place_placed (m : Mem K V) {isRoot : Bool} {route : List (Edge K)} (tree : Node K V)
    (hr : isRoot = true → route = []) :
    (m.place isRoot route tree).Placed (m.fresh isRoot) route tree where
  cells path := by
    have ha : ((m.fresh isRoot).descend path).alloc = m.next := NodeId.descend_alloc _ _
    have hp : ((m.fresh isRoot).descend path).path = path := NodeId.descend_path _ _
    show (if _ = _ then _ else _) = _
    rw [if_pos ha, hp]
  alloc := Nat.lt_succ_self _
  root := hr

/-- **An allocated tree is well-formed and holds its pairs.** -/
theorem Placed.spec {route : List (Edge K)} {tree : Node K V} (hp : m.Placed n route tree)
    (ht : tree.WF) (hr : Routed route tree) :
    m.NodeWF n ∧ (∀ k, m.Holds k n (tree.get k)) ∧ (m.cells n).route = route := by
  obtain ⟨h₁, h₂⟩ := tree_spec ht hp.cells hp.alloc hr hp.root
  refine ⟨h₁, h₂, ?_⟩
  rw [show m.cells n = _ from hp.cells []]
  exact cellAt_route (fun he => Node.not_wf_null (he ▸ ht)) _

end Mem

end Scry.Index
