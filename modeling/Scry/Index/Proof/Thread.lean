/-
  Where a running operation stands (`Thread.Ok`), and what it owns (`Thread.Locks`).

  An update descends from a root along the path of its key (`InTree`).  It owns the slot
  that it claimed, a subtree rebuild the pointer that it froze, and a root rebuild the
  frozen root; a step changes these only for their owner.
-/
import Scry.Index.Proof.Walk
import Scry.Index.Concurrent

namespace Scry.Index

variable {K V : Type} [LinearOrder K] [Key K]

/-! ## Operations -/

namespace Call

/-- The key of an operation on one key. -/
def key : Call K V → Option K
  | .get k => some k
  | .insert k _ => some k
  | .getOrInsert k _ => some k
  | .remove k => some k
  | _ => none

/-- The value that an operation stores. -/
def value : Call K V → Option V
  | .insert _ v => some v
  | .getOrInsert _ v => some v
  | _ => none

end Call

/-- The first descent led from the root over the child `c` to the current node. -/
structure Descent (m : Mem K V) (root cur : NodeId) (k : K) (p : NodeId) (i : ℕ) (c : NodeId) :
    Prop where
  parent : p = root
  slot : (m.cells p).slotOf k = i
  child : ((m.cells p).slots i).isChild
  wf : m.NodeWF c
  leads : m.Leads k c cur
  below : cur.isRoot = false

/-- An update of the key `k` is at the node `cur` of the tree at `root`. -/
structure InTree (m : Mem K V) (root cur : NodeId) (first : Option (NodeId × ℕ × NodeId)) (k : K) :
    Prop where
  rootWF : m.NodeWF root
  isRoot : root.isRoot = true
  curWF : m.NodeWF cur
  routes : (m.cells cur).Routes k
  start : first = none → cur = root
  descent : ∀ p i c, first = some (p, i, c) → Descent m root cur k p i c

/-- The change that an operation is about to make to the slot `i` of `n`. -/
inductive WriteOk (m : Mem K V) (n : NodeId) (i : ℕ) (call : Call K V) (k : K) : Write K V → Prop
  | inline {v : V} (hv : call.value = some v) : WriteOk m n i call k (.inline k v)
  | tombstone {v : V} {child : Node K V} (hv : call.value = some v) (hw : child.WF)
      (hs : (m.cells n).slots i ≠ .empty)
      (hget : ∀ k', child.get k' = if k' = k then some v else none) :
      WriteOk m n i call k (.attach .tombstone child true)
  | data {v : V} {child : Node K V} {k₁ : K} {v₁ : V} (hv : call.value = some v) (hw : child.WF)
      (hs : (m.cells n).slots i ≠ .empty) (hi : (m.cells n).inline i = some (k₁, v₁))
      (hget : ∀ k', child.get k' = if k' = k then some v else if k' = k₁ then some v₁ else none)
      (hg : (∃ v', call = .getOrInsert k v') → k₁ ≠ k) :
      WriteOk m n i call k (.attach .data child (decide (k₁ ≠ k)))
  | bury {v : V} (hc : call = .remove k) (hs : (m.cells n).slots i ≠ .empty)
      (hi : (m.cells n).inline i = some (k, v)) : WriteOk m n i call k .bury

variable {m m' : Mem K V} {k : K}

theorem Cell.routes_root {n : NodeId} (h : m.NodeWF n) (hr : n.isRoot = true) (k : K) :
    (m.cells n).Routes k := by
  intro e he
  rw [h.cell.root hr] at he
  cases he

namespace InTree
variable {root cur : NodeId} {first : Option (NodeId × ℕ × NodeId)}

/-- An attempt starts at the root. -/
theorem ofRoot (hr : m.NodeWF root) (hi : root.isRoot = true) : InTree m root root none k :=
  ⟨hr, hi, hr, Cell.routes_root hr hi k, fun _ => rfl, nofun⟩

theorem evolve (h : InTree m root cur first k) (he : m.Evolves m') : InTree m' root cur first k where
  rootWF := he.wf _ h.rootWF
  isRoot := h.isRoot
  curWF := he.wf _ h.curWF
  routes := (he.routes h.curWF.alloc k).2 h.routes
  start := h.start
  descent p i c hf := by
    have hd := h.descent p i c hf
    have hp : p.alloc < m.next := hd.parent ▸ h.rootWF.alloc
    exact ⟨hd.parent, (he.slotOf hp k).trans hd.slot, he.child p i hp hd.child, he.wf _ hd.wf,
      he.leads hd.wf hd.leads, hd.below⟩

/-- A descent into the child of the slot of the key. -/
theorem descend (h : InTree m root cur first k) {p : Ptr}
    (hc : ((m.cells cur).slots ((m.cells cur).slotOf k)).isChild)
    (hp : (m.cells cur).children ((m.cells cur).slotOf k) = some p) :
    InTree m root p.node (first.or (some (cur, (m.cells cur).slotOf k, p.node))) k where
  rootWF := h.rootWF
  isRoot := h.isRoot
  curWF := h.curWF.ofChild hc hp
  routes := (h.curWF.routes_child hc hp k).2 ⟨h.routes, rfl⟩
  start hf := by
    cases first <;> cases hf
  descent p' i c hf := by
    have hbelow : p.node.isRoot = false := by
      obtain ⟨q, hq, hr, -⟩ := h.curWF.cell.child _ hc
      obtain rfl := Option.some.inj (hp.symm.trans hq)
      exact hr
    cases first with
    | none =>
      cases hf
      exact ⟨h.start rfl, rfl, hc, h.curWF.ofChild hc hp, .refl _, hbelow⟩
    | some f =>
      cases hf
      have hd := h.descent p' i c rfl
      exact ⟨hd.parent, hd.slot, hd.child, hd.wf, hd.leads.snoc hd.below hc hp, hbelow⟩

end InTree

theorem WriteOk.evolve {n : NodeId} {i : ℕ} {call : Call K V} {w : Write K V}
    (h : WriteOk m n i call k w) (hn : n.alloc < m.next) (he : m.Evolves m') :
    WriteOk m' n i call k w := by
  cases h with
  | inline hv => exact .inline hv
  | tombstone hv hw hs hget => exact .tombstone hv hw (he.written n i hn hs).1 hget
  | data hv hw hs hi hget hg =>
    obtain ⟨hs', hi'⟩ := he.written n i hn hs
    exact .data hv hw hs' (hi'.trans hi) hget hg
  | bury hc hs hi =>
    obtain ⟨hs', hi'⟩ := he.written n i hn hs
    exact .bury hc hs' (hi'.trans hi)

/-- A slot is claimed in a state that has no child. -/
theorem WriteOk.prev {n : NodeId} {i : ℕ} {call : Call K V} {w : Write K V}
    (h : WriteOk m n i call k w) : w.prev ≠ .writing ∧ w.prev.isChild = false := by
  cases h <;> exact ⟨nofun, rfl⟩

/-! ## Running operations -/

namespace Thread

/-- The operation is an update of `k` at its current node. -/
def At (m : Mem K V) (th : Thread K V) (k : K) : Prop :=
  th.call.key = some k ∧ (∀ k', th.call ≠ .get k') ∧ InTree m th.root th.cur th.first k

/-- It has looked at the slot of its key. -/
def AtSlot (m : Mem K V) (th : Thread K V) (k : K) : Prop :=
  th.At m k ∧ th.idx = (m.cells th.cur).slotOf k

/-- It has changed the slot of its key, or it is about to count that. -/
def Attached (m : Mem K V) (th : Thread K V) (k : K) : Prop :=
  th.AtSlot m k ∧ WriteOk m th.cur th.idx th.call k th.write ∧
    ∀ prev child isNew, th.write = .attach prev child isNew →
      ((m.cells th.cur).slots th.idx).isChild

/-- It looks for `k` at the node `n`; `get_or_insert` does so within its update. -/
def Looks (m : Mem K V) (th : Thread K V) (k : K) (n : NodeId) : Prop :=
  th.call.key = some k ∧ m.NodeWF n ∧ (m.cells n).Routes k ∧
    ((∀ k', th.call ≠ .get k') → th.At m k ∧ n.isRoot = false)

/-- It rebuilds the child `c` of the slot of its first descent. -/
def Rebuilds (m : Mem K V) (th : Thread K V) (k : K) (c : NodeId) : Prop :=
  th.Attached m k ∧ th.first.isSome ∧ m.NodeWF c ∧
    ∀ p i c₀, th.first = some (p, i, c₀) → ∀ k', (m.cells c).Routes k' → (m.cells p).slotOf k' = i

/-- What holds of an operation before its next step. -/
def Ok (m : Mem K V) (th : Thread K V) : Prop :=
  match th.pc with
  | .loadRoot => th.call.key.isSome
  | .readSlot => ∃ k, th.At m k
  | .loadChild => ∃ k, th.AtSlot m k ∧ ((m.cells th.cur).slots th.idx).isChild
  | .claim => ∃ k, th.AtSlot m k ∧ WriteOk m th.cur th.idx th.call k th.write
  | .publish => ∃ k, th.AtSlot m k ∧ WriteOk m th.cur th.idx th.call k th.write
  | .countTombstone => ∃ k, th.Attached m k
  | .validateChild => ∃ k, th.Attached m k
  | .checkRatio => ∃ k, th.Attached m k
  | .subState => ∃ k, th.Attached m k
  | .subLoad => ∃ k, th.Attached m k
  | .subFreeze _ => ∃ k, th.Attached m k
  | .subWalk c w => ∃ k, th.Rebuilds m k c ∧ WalkOk m c w
  | .subSwap c pairs => ∃ k, th.Rebuilds m k c ∧ Ascending pairs ∧
      ∀ a ∈ pairs, (m.cells c).Routes a.1
  | .ownChild => ∃ k, th.AtSlot m k ∧ ((m.cells th.cur).slots th.idx).isChild
  | .look n => ∃ k, th.Looks m k n
  | .lookChild n => ∃ k, th.Looks m k n ∧
      ((m.cells n).slots ((m.cells n).slotOf k)).isChild
  | .validateRoot _ _ => ∃ k, th.call.key = some k ∧ ∀ k', th.call ≠ .get k'
  | .rootWalk r w => m.NodeWF r ∧ WalkOk m r w
  | .rootSwap _ pairs => Ascending pairs
  | _ => True

theorem At.evolve {th : Thread K V} (h : th.At m k) (he : m.Evolves m') : th.At m' k :=
  ⟨h.1, h.2.1, h.2.2.evolve he⟩

theorem AtSlot.evolve {th : Thread K V} (h : th.AtSlot m k) (he : m.Evolves m') :
    th.AtSlot m' k :=
  ⟨h.1.evolve he, h.2.trans (he.slotOf h.1.2.2.curWF.alloc k).symm⟩

theorem Attached.evolve {th : Thread K V} (h : th.Attached m k) (he : m.Evolves m') :
    th.Attached m' k :=
  ⟨h.1.evolve he, h.2.1.evolve h.1.1.2.2.curWF.alloc he, fun prev child isNew hw =>
    he.child _ _ h.1.1.2.2.curWF.alloc (h.2.2 prev child isNew hw)⟩

theorem Looks.evolve {th : Thread K V} {n : NodeId} (h : th.Looks m k n) (he : m.Evolves m') :
    th.Looks m' k n :=
  ⟨h.1, he.wf n h.2.1, (he.routes h.2.1.alloc k).2 h.2.2.1, fun hc =>
    ⟨(h.2.2.2 hc).1.evolve he, (h.2.2.2 hc).2⟩⟩

theorem Rebuilds.evolve {th : Thread K V} {c : NodeId} (h : th.Rebuilds m k c)
    (he : m.Evolves m') : th.Rebuilds m' k c := by
  obtain ⟨hat, hf, hc, hr⟩ := h
  refine ⟨hat.evolve he, hf, he.wf c hc, fun p i c₀ hp k' hk' => ?_⟩
  have hpa : p.alloc < m.next := (hat.1.1.2.2.descent p i c₀ hp).parent ▸ hat.1.1.2.2.rootWF.alloc
  rw [he.slotOf hpa]
  exact hr p i c₀ hp k' ((he.routes hc.alloc k').1 hk')

/-- **Other steps leave an operation where it stands.** -/
theorem Ok.evolve {th : Thread K V} (h : th.Ok m) (he : m.Evolves m') : th.Ok m' := by
  unfold Ok at h ⊢
  split at h
  · exact h
  · exact h.imp fun k h => h.evolve he
  · exact h.imp fun k h => ⟨h.1.evolve he, he.child _ _ h.1.1.2.2.curWF.alloc h.2⟩
  · exact h.imp fun k h => ⟨h.1.evolve he, h.2.evolve h.1.1.2.2.curWF.alloc he⟩
  · exact h.imp fun k h => ⟨h.1.evolve he, h.2.evolve h.1.1.2.2.curWF.alloc he⟩
  · exact h.imp fun k h => h.evolve he
  · exact h.imp fun k h => h.evolve he
  · exact h.imp fun k h => h.evolve he
  · exact h.imp fun k h => h.evolve he
  · exact h.imp fun k h => h.evolve he
  · exact h.imp fun k h => h.evolve he
  · exact h.imp fun k h => ⟨h.1.evolve he, h.2.evolve h.1.2.2.1.alloc he⟩
  · exact h.imp fun k h => ⟨h.1.evolve he, h.2.1, fun a ha =>
      (he.routes h.1.2.2.1.alloc a.1).2 (h.2.2 a ha)⟩
  · exact h.imp fun k h => ⟨h.1.evolve he, he.child _ _ h.1.1.2.2.curWF.alloc h.2⟩
  · exact h.imp fun k h => h.evolve he
  · refine h.imp fun k h => ⟨h.1.evolve he, ?_⟩
    rw [he.slotOf h.1.2.1.alloc]
    exact he.child _ _ h.1.2.1.alloc h.2
  · exact h
  · exact ⟨he.wf _ h.1, h.2.evolve h.1.alloc he⟩
  · exact h
  · exact h

end Thread

/-! ## Ownership -/

/-- What one thread owns at a time: a slot that is `WRITING`, a frozen pointer of a root, or
    the frozen root. -/
inductive Lock where
  | slot (n : NodeId) (i : ℕ)
  | edge (p : NodeId) (i : ℕ)
  | root

namespace Lock

/-- It is in memory. -/
def Placed (m : Mem K V) : Lock → Prop
  | .slot n _ => n.alloc < m.next
  | .edge p i => p.alloc < m.next ∧ ((m.cells p).slots i).isChild
  | .root => True

/-- No thread owns it. -/
def Free (m : Mem K V) : Lock → Prop
  | .slot n i => (m.cells n).claimed i = false
  | .edge p i => ∀ c, (m.cells p).children i ≠ some ⟨c, true⟩
  | .root => m.root.frozen = false

/-- It is left alone. -/
def Same (m m' : Mem K V) : Lock → Prop
  | .slot n i => (m'.cells n).claimed i = (m.cells n).claimed i ∧
      (m'.cells n).slots i = (m.cells n).slots i
  | .edge p i => (m'.cells p).children i = (m.cells p).children i
  | .root => m'.root = m.root

end Lock

namespace Thread

/-- What the operation owns. -/
def lock (th : Thread K V) : Option Lock :=
  match th.pc with
  | .publish => some (.slot th.cur th.idx)
  | .subWalk _ _ => th.first.map fun f => .edge f.1 f.2.1
  | .subSwap _ _ => th.first.map fun f => .edge f.1 f.2.1
  | .rootWalk _ _ => some .root
  | .rootSwap _ _ => some .root
  | _ => none

/-- What the operation owns is as it left it. -/
def Locks (m : Mem K V) (th : Thread K V) : Prop :=
  match th.pc with
  | .publish => (m.cells th.cur).claimed th.idx = true ∧
      (m.cells th.cur).slots th.idx = th.write.prev
  | .subWalk c _ => ∀ p i c₀, th.first = some (p, i, c₀) →
      (m.cells p).children i = some ⟨c, true⟩
  | .subSwap c _ => ∀ p i c₀, th.first = some (p, i, c₀) →
      (m.cells p).children i = some ⟨c, true⟩
  | .rootWalk r _ => m.root = ⟨r, true⟩
  | .rootSwap r _ => m.root = ⟨r, true⟩
  | _ => True

omit [LinearOrder K] [Key K] in
theorem Locks.of_same {th : Thread K V} (h : th.Locks m)
    (hs : ∀ l, th.lock = some l → l.Same m m') : th.Locks m' := by
  obtain ⟨call, pc, was, again, root, cur, idx, depth, first, write, reply⟩ := th
  cases pc with
  | publish =>
    obtain ⟨hc, hst⟩ := hs _ rfl
    exact ⟨hc.trans h.1, hst.trans h.2⟩
  | subWalk c w =>
    rintro p i c₀ rfl
    exact (hs _ rfl).trans (h p i c₀ rfl)
  | subSwap c pairs =>
    rintro p i c₀ rfl
    exact (hs _ rfl).trans (h p i c₀ rfl)
  | rootWalk r w => exact (hs _ rfl).trans h
  | rootSwap r pairs => exact (hs _ rfl).trans h
  | _ => trivial

omit [LinearOrder K] [Key K] in
theorem Locks.not_free {th : Thread K V} (h : th.Locks m) {l : Lock} (hl : th.lock = some l) :
    ¬ l.Free m := by
  intro hfree
  obtain ⟨call, pc, was, again, root, cur, idx, depth, first, write, reply⟩ := th
  cases pc with
  | publish =>
    cases hl
    have : (m.cells cur).claimed idx = false := hfree
    rw [h.1] at this
    cases this
  | subWalk c w =>
    obtain ⟨⟨p, i, c₀⟩, hf, rfl⟩ := Option.map_eq_some_iff.1 hl
    exact hfree _ (h p i c₀ hf)
  | subSwap c pairs =>
    obtain ⟨⟨p, i, c₀⟩, hf, rfl⟩ := Option.map_eq_some_iff.1 hl
    exact hfree _ (h p i c₀ hf)
  | rootWalk r w =>
    cases hl
    have : m.root.frozen = false := hfree
    rw [h] at this
    cases this
  | rootSwap r pairs =>
    cases hl
    have : m.root.frozen = false := hfree
    rw [h] at this
    cases this
  | _ => cases hl

/-- What an operation owns is in memory. -/
theorem Ok.placed {th : Thread K V} (h : th.Ok m) {l : Lock} (hl : th.lock = some l) :
    l.Placed m := by
  obtain ⟨call, pc, was, again, root, cur, idx, depth, first, write, reply⟩ := th
  cases pc with
  | publish =>
    obtain ⟨k, h, -⟩ := h
    cases hl
    exact h.1.2.2.curWF.alloc
  | subWalk c w =>
    obtain ⟨k, h, -⟩ := h
    obtain ⟨⟨p, i, c₀⟩, hf, rfl⟩ := Option.map_eq_some_iff.1 hl
    have hd := h.1.1.1.2.2.descent p i c₀ hf
    exact ⟨hd.parent ▸ h.1.1.1.2.2.rootWF.alloc, hd.child⟩
  | subSwap c pairs =>
    obtain ⟨k, h, -⟩ := h
    obtain ⟨⟨p, i, c₀⟩, hf, rfl⟩ := Option.map_eq_some_iff.1 hl
    have hd := h.1.1.1.2.2.descent p i c₀ hf
    exact ⟨hd.parent ▸ h.1.1.1.2.2.rootWF.alloc, hd.child⟩
  | rootWalk r w => cases hl; trivial
  | rootSwap r pairs => cases hl; trivial
  | _ => cases hl

end Thread

end Scry.Index
