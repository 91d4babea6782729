/-
  Changes of the shared memory.

  A step changes one slot of one node, or it allocates a tree (`Mem.Changes`).  What has
  been reached once stays well-formed (`Mem.Evolves`), and what the tree holds of a key
  changes only below the changed slot (`Mem.Changes.sat`).
-/
import Scry.Index.Proof.Heap

namespace Scry.Index

variable {K V : Type} [LinearOrder K] [Key K]

/-- What `CellOk` requires of one slot. -/
structure CellSlotOk (m : Mem K V) (n : NodeId) (c : Cell K V) (i : ℕ) : Prop where
  idle : c.slots i ≠ .writing
  data : c.slots i = .data → ∃ k v, c.inline i = some (k, v) ∧ c.slotOf k = i ∧ c.Routes k
  child : (c.slots i).isChild → ∃ p, c.children i = some p ∧ p.node.isRoot = false ∧
    (m.cells p.node).route = c.route ++ [⟨n, c.head, i⟩]
  claimed : c.claimed i = true → (c.slots i).isChild = false
  frozen (p : Ptr) : (c.slots i).isChild → c.children i = some p → p.frozen = true →
    n.isRoot = true

theorem CellOk.slot {m : Mem K V} {n : NodeId} {c : Cell K V} (h : CellOk m n c) (i : ℕ) :
    CellSlotOk m n c i :=
  ⟨h.idle i, h.data i, h.child i, h.claimed i, h.frozen i⟩

theorem CellOk.of_slots {m : Mem K V} {n : NodeId} {c : Cell K V} (hh : c.head.Valid)
    (hr : n.isRoot = true → c.route = []) (h : ∀ i, CellSlotOk m n c i) : CellOk m n c :=
  ⟨hh, hr, fun i => (h i).idle, fun i => (h i).data, fun i => (h i).child,
    fun i => (h i).claimed, fun i => (h i).frozen⟩

namespace Mem
variable {m m' : Mem K V} {n x : NodeId} {i : ℕ} {k : K} {P : Option V → Prop}

/-- What no step takes back. -/
structure Evolves (m m' : Mem K V) : Prop where
  next : m.next ≤ m'.next
  head (n : NodeId) : n.alloc < m.next → (m'.cells n).head = (m.cells n).head
  route (n : NodeId) : n.alloc < m.next → (m'.cells n).route = (m.cells n).route
  child (n : NodeId) (i : ℕ) : n.alloc < m.next → ((m.cells n).slots i).isChild →
    ((m'.cells n).slots i).isChild
  edge (n : NodeId) (i : ℕ) : n.alloc < m.next → n.isRoot = false →
    ((m.cells n).slots i).isChild → (m'.cells n).children i = (m.cells n).children i
  written (n : NodeId) (i : ℕ) : n.alloc < m.next → (m.cells n).slots i ≠ .empty →
    (m'.cells n).slots i ≠ .empty ∧ (m'.cells n).inline i = (m.cells n).inline i
  wf (n : NodeId) : m.NodeWF n → m'.NodeWF n

namespace Evolves

theorem slotOf (h : Evolves m m') (hn : n.alloc < m.next) (k : K) :
    (m'.cells n).slotOf k = (m.cells n).slotOf k := by
  rw [Cell.slotOf, h.head n hn]
  rfl

theorem routes (h : Evolves m m') (hn : n.alloc < m.next) (k : K) :
    (m'.cells n).Routes k ↔ (m.cells n).Routes k := by
  rw [Cell.Routes, h.route n hn]
  rfl

theorem leads (h : Evolves m m') {d : NodeId} (hn : m.NodeWF n) (hl : m.Leads k n d) :
    m'.Leads k n d := by
  induction hl with
  | refl => exact .refl _
  | @step n d p hr hs hp _ ih =>
    have hslot := h.slotOf hn.alloc k
    refine .step hr ?_ ?_ (ih (hn.ofChild hs hp))
    · rw [hslot]
      exact h.child _ _ hn.alloc hs
    · rw [hslot, h.edge _ _ hn.alloc hr hs, hp]

end Evolves

/-! ## A changed slot -/

/-- Only slot `i` of `x` may change, and new nodes may appear. -/
structure Changes (m m' : Mem K V) (x : NodeId) (i : ℕ) : Prop where
  next : m.next ≤ m'.next
  other (n : NodeId) : n.alloc < m.next → n ≠ x → m'.cells n = m.cells n
  head : (m'.cells x).head = (m.cells x).head
  route : (m'.cells x).route = (m.cells x).route
  slots (j : ℕ) : j ≠ i → (m'.cells x).slots j = (m.cells x).slots j
  claimed (j : ℕ) : j ≠ i → (m'.cells x).claimed j = (m.cells x).claimed j
  inline (j : ℕ) : j ≠ i → (m'.cells x).inline j = (m.cells x).inline j
  children (j : ℕ) : j ≠ i → (m'.cells x).children j = (m.cells x).children j

/-- What the changed slot must fulfil so that the memory evolves. -/
structure NewSlot (m m' : Mem K V) (x : NodeId) (i : ℕ) : Prop where
  ok : CellSlotOk m' x (m'.cells x) i
  child : ((m.cells x).slots i).isChild → ((m'.cells x).slots i).isChild
  edge : x.isRoot = false → ((m.cells x).slots i).isChild →
    (m'.cells x).children i = (m.cells x).children i
  written : (m.cells x).slots i ≠ .empty →
    (m'.cells x).slots i ≠ .empty ∧ (m'.cells x).inline i = (m.cells x).inline i
  below (p : Ptr) : ((m'.cells x).slots i).isChild → (m'.cells x).children i = some p →
    (((m.cells x).slots i).isChild ∧ ∃ q, (m.cells x).children i = some q ∧ q.node = p.node) ∨
      m'.NodeWF p.node

namespace Changes

omit [LinearOrder K] [Key K] in
theorem head_eq (h : Changes m m' x i) (hn : n.alloc < m.next) :
    (m'.cells n).head = (m.cells n).head := by
  by_cases hx : n = x
  · rw [hx, h.head]
  · rw [h.other n hn hx]

omit [LinearOrder K] [Key K] in
theorem route_eq (h : Changes m m' x i) (hn : n.alloc < m.next) :
    (m'.cells n).route = (m.cells n).route := by
  by_cases hx : n = x
  · rw [hx, h.route]
  · rw [h.other n hn hx]

theorem slotOf (h : Changes m m' x i) (hn : n.alloc < m.next) (k : K) :
    (m'.cells n).slotOf k = (m.cells n).slotOf k := by
  rw [Cell.slotOf, h.head_eq hn]
  rfl

/-- A slot that stays as it is stays well-formed. -/
theorem slotOk (h : Changes m m' x i) (hn : m.NodeWF n) {j : ℕ} (hj : n = x → j ≠ i) :
    CellSlotOk m' n (m'.cells n) j := by
  have hsame : (m'.cells n).slots j = (m.cells n).slots j ∧
      (m'.cells n).claimed j = (m.cells n).claimed j ∧
      (m'.cells n).inline j = (m.cells n).inline j ∧
      (m'.cells n).children j = (m.cells n).children j := by
    by_cases hx : n = x
    · subst hx
      exact ⟨h.slots j (hj rfl), h.claimed j (hj rfl), h.inline j (hj rfl), h.children j (hj rfl)⟩
    · rw [h.other n hn.alloc hx]
      exact ⟨rfl, rfl, rfl, rfl⟩
  obtain ⟨hs, hc, hi, hch⟩ := hsame
  have hok := hn.cell.slot j
  refine ⟨hs ▸ hok.idle, fun hd => ?_, fun hd => ?_, fun hd => ?_, fun p hd hp => ?_⟩
  · obtain ⟨k, v, hkv, hslot, hroutes⟩ := hok.data (hs ▸ hd)
    refine ⟨k, v, hi.trans hkv, (h.slotOf hn.alloc k).trans hslot, ?_⟩
    rw [Cell.Routes, h.route_eq hn.alloc]
    exact hroutes
  · rw [hs] at hd
    obtain ⟨p, hp, hroot, hr⟩ := hok.child hd
    refine ⟨p, hch.trans hp, hroot, ?_⟩
    rw [h.route_eq (hn.ofChild hd hp).alloc, hr, h.route_eq hn.alloc, h.head_eq hn.alloc]
  · rw [hs]
    exact hok.claimed (hc ▸ hd)
  · exact hok.frozen p (hs ▸ hd) (hch ▸ hp)

/-- **A change of one slot of a well-formed node.** -/
theorem evolves (h : Changes m m' x i) (hs : NewSlot m m' x i) : Evolves m m' where
  next := h.next
  head n hn := h.head_eq hn
  route n hn := h.route_eq hn
  child n j hn hj := by
    by_cases hx : n = x
    · subst hx
      by_cases hji : j = i
      · subst hji; exact hs.child hj
      · rwa [h.slots j hji]
    · rwa [h.other n hn hx]
  edge n j hn hr hj := by
    by_cases hx : n = x
    · subst hx
      by_cases hji : j = i
      · subst hji; exact hs.edge hr hj
      · exact h.children j hji
    · rw [h.other n hn hx]
  written n j hn hj := by
    by_cases hx : n = x
    · subst hx
      by_cases hji : j = i
      · subst hji; exact hs.written hj
      · rw [h.slots j hji, h.inline j hji]
        exact ⟨hj, rfl⟩
    · rw [h.other n hn hx]
      exact ⟨hj, rfl⟩
  wf n hn := by
    induction hn with
    | @mk n alloc cell below ih =>
      have hn : m.NodeWF n := .mk alloc cell below
      refine .mk (alloc.trans_le h.next) ?_ fun j p hj hp => ?_
      · refine CellOk.of_slots ?_ ?_ fun j => ?_
        · rw [h.head_eq alloc]; exact cell.head
        · rw [h.route_eq alloc]; exact cell.root
        · by_cases hji : n = x ∧ j = i
          · obtain ⟨rfl, rfl⟩ := hji
            exact hs.ok
          · exact h.slotOk hn fun hx hj => hji ⟨hx, hj⟩
      · by_cases hx : n = x
        · subst hx
          by_cases hji : j = i
          · subst hji
            rcases hs.below p hj hp with ⟨hj', q, hq, hqp⟩ | hwf
            · exact hqp ▸ ih j q hj' hq
            · exact hwf
          · rw [h.slots j hji] at hj
            rw [h.children j hji] at hp
            exact ih j p hj hp
        · rw [h.other n alloc hx] at hj hp
          exact ih j p hj hp

end Changes

/-- Nothing changes but the root, the counters and new nodes. -/
theorem Evolves.of_same (hn : m.next ≤ m'.next)
    (hc : ∀ n : NodeId, n.alloc < m.next → m'.cells n = m.cells n) : Evolves m m' where
  next := hn
  head n h := by rw [hc n h]
  route n h := by rw [hc n h]
  child n i h hs := by rwa [hc n h]
  edge n i h _ _ := by rw [hc n h]
  written n i h hs := by rw [hc n h]; exact ⟨hs, rfl⟩
  wf n h := by
    induction h with
    | @mk n alloc cell below ih =>
      have hwf : m.NodeWF n := .mk alloc cell below
      refine .mk (alloc.trans_le hn) ?_ fun j p hj hp => ?_
      · rw [hc n alloc]
        refine ⟨cell.head, cell.root, cell.idle, cell.data, fun i hi => ?_, cell.claimed,
          cell.frozen⟩
        obtain ⟨p, hp, hroot, hr⟩ := cell.child i hi
        exact ⟨p, hp, hroot, by rw [hc _ (hwf.ofChild hi hp).alloc, hr]⟩
      · rw [hc n alloc] at hj hp
        exact ih j p hj hp

/-! ## What the tree holds after a change -/

/-- What the tree at the node holds for the key fulfils `P`. -/
def Sat (P : Option V → Prop) (m : Mem K V) (k : K) (n : NodeId) : Prop :=
  ∃ o, m.Holds k n o ∧ P o

theorem sat_leaf (h : ((m.cells n).slots ((m.cells n).slotOf k)).isChild = false) :
    Sat P m k n ↔ P ((m.cells n).leafGet ((m.cells n).slotOf k) k) := by
  constructor
  · rintro ⟨o, ho, hP⟩
    rwa [← (holds_leaf h).1 ho]
  · exact fun hP => ⟨_, .leaf h, hP⟩

theorem sat_child {p : Ptr} (h : ((m.cells n).slots ((m.cells n).slotOf k)).isChild)
    (hp : (m.cells n).children ((m.cells n).slotOf k) = some p) :
    Sat P m k n ↔ Sat P m k p.node := by
  simp only [Sat, holds_child h hp]

theorem Leads.sat {d : NodeId} (hl : m.Leads k n d) : Sat P m k n ↔ Sat P m k d := by
  simp only [Sat, hl.holds]

theorem Sat.imp {Q : Option V → Prop} (h : Sat P m k n) (hPQ : ∀ o, P o → Q o) : Sat Q m k n := by
  obtain ⟨o, ho, hP⟩ := h
  exact ⟨o, ho, hPQ o hP⟩

/-- A change is seen by no key that is predicted to another slot, and by another key only
    through the changed node. -/
theorem Changes.sat (h : Changes m m' x i)
    (hx : (m.cells x).slotOf k = i → Sat P m k x → Sat P m' k x) (hn : m.NodeWF n)
    (hs : Sat P m k n) : Sat P m' k n := by
  obtain ⟨o, ho, hP⟩ := hs
  induction ho with
  | @leaf n hl =>
    by_cases hxi : n = x ∧ (m.cells n).slotOf k = i
    · obtain ⟨rfl, hi⟩ := hxi
      exact hx hi ((sat_leaf hl).2 hP)
    have hslot := h.slotOf hn.alloc k
    have hsame : (m'.cells n).slots ((m.cells n).slotOf k) =
          (m.cells n).slots ((m.cells n).slotOf k) ∧
        (m'.cells n).inline ((m.cells n).slotOf k) = (m.cells n).inline ((m.cells n).slotOf k) := by
      by_cases hnx : n = x
      · subst hnx
        have hi : (m.cells n).slotOf k ≠ i := fun hi => hxi ⟨rfl, hi⟩
        exact ⟨h.slots _ hi, h.inline _ hi⟩
      · rw [h.other n hn.alloc hnx]
        exact ⟨rfl, rfl⟩
    refine (sat_leaf ?_).2 ?_
    · rw [hslot, hsame.1]
      exact hl
    · rw [hslot, Cell.leafGet, hsame.1, hsame.2]
      exact hP
  | @child n p o hc hp ho ih =>
    by_cases hxi : n = x ∧ (m.cells n).slotOf k = i
    · obtain ⟨rfl, hi⟩ := hxi
      exact hx hi ⟨o, .child hc hp ho, hP⟩
    have hslot := h.slotOf hn.alloc k
    have hsame : (m'.cells n).slots ((m.cells n).slotOf k) =
          (m.cells n).slots ((m.cells n).slotOf k) ∧
        (m'.cells n).children ((m.cells n).slotOf k) =
          (m.cells n).children ((m.cells n).slotOf k) := by
      by_cases hnx : n = x
      · subst hnx
        have hi : (m.cells n).slotOf k ≠ i := fun hi => hxi ⟨rfl, hi⟩
        exact ⟨h.slots _ hi, h.children _ hi⟩
      · rw [h.other n hn.alloc hnx]
        exact ⟨rfl, rfl⟩
    refine (sat_child (p := p) ?_ ?_).2 (ih (hn.ofChild hc hp) hP)
    · rw [hslot, hsame.1]
      exact hc
    · rw [hslot, hsame.2]
      exact hp

/-- A change of a root is seen at no other node. -/
theorem Changes.sat_of_ne (h : Changes m m' x i) (hroot : x.isRoot = true) (hne : n ≠ x)
    (hn : m.NodeWF n) (hs : Sat P m k n) : Sat P m' k n := by
  obtain ⟨o, ho, hP⟩ := hs
  induction ho with
  | @leaf n hl =>
    rw [sat_leaf] <;> rw [h.other n hn.alloc hne]
    · exact hP
    · exact hl
  | @child n p o hc hp ho ih =>
    have hne' : p.node ≠ x := by
      obtain ⟨q, hq, hqr, -⟩ := hn.cell.child _ hc
      obtain rfl := Option.some.inj (hp.symm.trans hq)
      rintro rfl
      rw [hroot] at hqr
      cases hqr
    refine (sat_child (p := p) ?_ ?_).2 (ih hne' (hn.ofChild hc hp) hP) <;>
      rw [h.other n hn.alloc hne]
    · exact hc
    · exact hp

/-! ## Changes that keep what the tree holds -/

/-- The tree holds what it held. -/
structure Keeps (m m' : Mem K V) : Prop extends Evolves m m' where
  holds {n : NodeId} {k : K} {o : Option V} : m.NodeWF n → m.Holds k n o → m'.Holds k n o

theorem Keeps.sat (h : Keeps m m') (hn : m.NodeWF n) (hs : Sat P m k n) : Sat P m' k n := by
  obtain ⟨o, ho, hP⟩ := hs
  exact ⟨o, h.holds hn ho, hP⟩

theorem Keeps.of_same (hn : m.next ≤ m'.next)
    (hc : ∀ n : NodeId, n.alloc < m.next → m'.cells n = m.cells n) : Keeps m m' where
  toEvolves := .of_same hn hc
  holds {n k o} hwf ho := by
    induction ho with
    | @leaf n hl =>
      rw [← hc n hwf.alloc] at hl ⊢
      exact .leaf hl
    | @child n p o hs hp ho ih =>
      have ih := ih (hwf.ofChild hs hp)
      rw [← hc n hwf.alloc] at hs hp
      exact .child hs hp ih

/-- The slot may be claimed, or its pointer tagged. -/
theorem Changes.keeps (h : Changes m m' x i) (hx : m.NodeWF x)
    (hs : (m'.cells x).slots i = (m.cells x).slots i)
    (hi : (m'.cells x).inline i = (m.cells x).inline i)
    (hn : ((m'.cells x).children i).map Ptr.node = ((m.cells x).children i).map Ptr.node)
    (hc : (m'.cells x).claimed i = true → ((m.cells x).slots i).isChild = false)
    (hf : x.isRoot = false → (m'.cells x).children i = (m.cells x).children i) : Keeps m m' where
  toEvolves := by
    have hok := hx.cell.slot i
    refine h.evolves ⟨⟨hs ▸ hok.idle, fun hd => ?_, fun hd => ?_, fun hd => hs ▸ hc hd,
      fun p hd hp hfr => ?_⟩, fun hd => hs ▸ hd, fun hr _ => hf hr, fun hd => ⟨hs ▸ hd, hi⟩,
      fun p hd hp => ?_⟩
    · obtain ⟨k, v, hkv, hslot, hroutes⟩ := hok.data (hs ▸ hd)
      refine ⟨k, v, hi.trans hkv, (h.slotOf hx.alloc k).trans hslot, ?_⟩
      rw [Cell.Routes, h.route]
      exact hroutes
    · rw [hs] at hd
      obtain ⟨p, hp, hroot, hr⟩ := hok.child hd
      rw [hp] at hn
      obtain ⟨q, hq, hqp⟩ := Option.map_eq_some_iff.1 hn
      refine ⟨q, hq, hqp ▸ hroot, ?_⟩
      rw [hqp, h.route_eq (hx.ofChild hd hp).alloc, hr, h.route, h.head]
    · by_contra hroot
      rw [hf (by simpa using hroot)] at hp
      exact hroot (hok.frozen p (hs ▸ hd) hp hfr)
    · rw [hp] at hn
      obtain ⟨q, hq, hqp⟩ := Option.map_eq_some_iff.1 hn.symm
      exact Or.inl ⟨hs ▸ hd, q, hq, hqp⟩
  holds {n k o} hwf ho := by
    induction ho with
    | @leaf n hl =>
      have hsame : (m'.cells n).slots ((m.cells n).slotOf k) =
            (m.cells n).slots ((m.cells n).slotOf k) ∧
          (m'.cells n).inline ((m.cells n).slotOf k) =
            (m.cells n).inline ((m.cells n).slotOf k) := by
        by_cases hnx : n = x
        · subst hnx
          by_cases hki : (m.cells n).slotOf k = i
          · rw [hki]; exact ⟨hs, hi⟩
          · exact ⟨h.slots _ hki, h.inline _ hki⟩
        · rw [h.other n hwf.alloc hnx]; exact ⟨rfl, rfl⟩
      have hslot := h.slotOf hwf.alloc k
      rw [holds_leaf (by rw [hslot, hsame.1]; exact hl), hslot, Cell.leafGet, Cell.leafGet,
        hsame.1, hsame.2]
    | @child n p o hc' hp ho ih =>
      have hsame : (m'.cells n).slots ((m.cells n).slotOf k) =
            (m.cells n).slots ((m.cells n).slotOf k) ∧
          ((m'.cells n).children ((m.cells n).slotOf k)).map Ptr.node = some p.node := by
        have hp' : ((m.cells n).children ((m.cells n).slotOf k)).map Ptr.node = some p.node := by
          rw [hp]; rfl
        by_cases hnx : n = x
        · subst hnx
          by_cases hki : (m.cells n).slotOf k = i
          · rw [hki] at hp' ⊢; exact ⟨hs, hn.trans hp'⟩
          · exact ⟨h.slots _ hki, by rw [h.children _ hki, hp']⟩
        · rw [h.other n hwf.alloc hnx]; exact ⟨rfl, hp'⟩
      obtain ⟨q, hq, hqp⟩ := Option.map_eq_some_iff.1 hsame.2
      have hslot := h.slotOf hwf.alloc k
      refine .child (p := q) (by rw [hslot, hsame.1]; exact hc') (by rw [hslot, hq]) ?_
      rw [hqp]
      exact ih (hwf.ofChild hc' hp)

omit [LinearOrder K] [Key K] in
@[simp] theorem modify_cells_self (m : Mem K V) (x : NodeId) (f : Cell K V → Cell K V) :
    (m.modify x f).cells x = f (m.cells x) := Function.update_self _ _ _

omit [LinearOrder K] [Key K] in
theorem modify_changes (m : Mem K V) (x : NodeId) (i : ℕ) (f : Cell K V → Cell K V)
    (hh : (f (m.cells x)).head = (m.cells x).head)
    (hr : (f (m.cells x)).route = (m.cells x).route)
    (hj : ∀ j ≠ i, (f (m.cells x)).slots j = (m.cells x).slots j ∧
      (f (m.cells x)).claimed j = (m.cells x).claimed j ∧
      (f (m.cells x)).inline j = (m.cells x).inline j ∧
      (f (m.cells x)).children j = (m.cells x).children j) : Changes m (m.modify x f) x i where
  next := le_rfl
  other n _ hn := Function.update_of_ne hn _ _
  head := by rw [modify_cells_self, hh]
  route := by rw [modify_cells_self, hr]
  slots j h := by rw [modify_cells_self, (hj j h).1]
  claimed j h := by rw [modify_cells_self, (hj j h).2.1]
  inline j h := by rw [modify_cells_self, (hj j h).2.2.1]
  children j h := by rw [modify_cells_self, (hj j h).2.2.2]

/-- **Claiming a slot** keeps what the tree holds: the slot counts as what it was. -/
theorem claim_keeps (hx : m.NodeWF x) (hi : ((m.cells x).slots i).isChild = false) :
    Keeps m (m.modify x fun c => c.claim i) :=
  Changes.keeps (modify_changes m x i (fun c => c.claim i) rfl rfl fun j hj =>
    ⟨rfl, Function.update_of_ne hj _ _, rfl, rfl⟩) hx (by rw [modify_cells_self]; rfl)
    (by rw [modify_cells_self]; rfl) (by rw [modify_cells_self]; rfl) (fun _ => hi)
    fun _ => by rw [modify_cells_self]; rfl

theorem addTombstones_keeps (hx : m.NodeWF x) (d : ℤ) :
    Keeps m (m.modify x fun c => c.addTombstones d) :=
  Changes.keeps (i := 0) (modify_changes m x 0 (fun c => c.addTombstones d) rfl rfl fun j _ =>
    ⟨rfl, rfl, rfl, rfl⟩) hx (by rw [modify_cells_self]; rfl)
    (by rw [modify_cells_self]; rfl) (by rw [modify_cells_self]; rfl)
    (fun h => hx.cell.claimed 0 (by rw [modify_cells_self] at h; exact h))
    fun _ => by rw [modify_cells_self]; rfl

/-- **Tagging a pointer** of a root keeps what the tree holds. -/
theorem setFrozen_keeps (hx : m.NodeWF x) (hroot : x.isRoot = true) {c : NodeId} {b b' : Bool}
    (hp : (m.cells x).children i = some ⟨c, b⟩) :
    Keeps m (m.modify x fun cell => cell.setChild i ⟨c, b'⟩) :=
  Changes.keeps (modify_changes m x i (fun cell => cell.setChild i ⟨c, b'⟩) rfl rfl fun j hj =>
    ⟨rfl, rfl, rfl, Function.update_of_ne hj _ _⟩) hx (by rw [modify_cells_self]; rfl)
    (by rw [modify_cells_self]; rfl)
    (by rw [modify_cells_self, hp]; simp [Cell.setChild])
    (fun h => hx.cell.claimed i (by rw [modify_cells_self] at h; exact h))
    fun h => by rw [hroot] at h; cases h

/-! ## Updates of a key -/

/-- The tree holds `o` for the key at the node `x`, and what it held for other keys. -/
structure Writes (m m' : Mem K V) (x : NodeId) (key : K) (o : Option V) : Prop
    extends Evolves m m' where
  other (n : NodeId) : n.alloc < m.next → n ≠ x → m'.cells n = m.cells n
  self : m'.Holds key x o
  keep {n : NodeId} {k : K} {o' : Option V} : k ≠ key → m.NodeWF n → m.Holds k n o' →
    m'.Holds k n o'
  sat {n : NodeId} {P : Option V → Prop} : (Sat P m key x → P o) → m.NodeWF n →
    Sat P m key n → Sat P m' key n

theorem NewSlot.of_leaf (hc : ((m.cells x).slots i).isChild = false)
    (hc' : ((m'.cells x).slots i).isChild = false) (hidle : (m'.cells x).slots i ≠ .writing)
    (hdata : (m'.cells x).slots i = .data → ∃ k v, (m'.cells x).inline i = some (k, v) ∧
      (m'.cells x).slotOf k = i ∧ (m'.cells x).Routes k)
    (hw : (m.cells x).slots i ≠ .empty →
      (m'.cells x).slots i ≠ .empty ∧ (m'.cells x).inline i = (m.cells x).inline i) :
    NewSlot m m' x i where
  ok := ⟨hidle, hdata, fun h => absurd h (by simp [hc']), fun _ => hc',
    fun _ h => absurd h (by simp [hc'])⟩
  child h := absurd h (by simp [hc])
  edge _ h := absurd h (by simp [hc])
  written := hw
  below _ h := absurd h (by simp [hc'])

theorem NewSlot.of_child {d : NodeId} (hc : ((m.cells x).slots i).isChild → x.isRoot = true)
    (hc' : ((m'.cells x).slots i).isChild) (hclaimed : (m'.cells x).claimed i = false)
    (hptr : (m'.cells x).children i = some ⟨d, false⟩) (hd : d.isRoot = false)
    (hroute : (m'.cells d).route = (m'.cells x).route ++ [⟨x, (m'.cells x).head, i⟩])
    (hwf : m'.NodeWF d)
    (hw : (m.cells x).slots i ≠ .empty →
      (m'.cells x).slots i ≠ .empty ∧ (m'.cells x).inline i = (m.cells x).inline i) :
    NewSlot m m' x i where
  ok := by
    refine ⟨fun h => ?_, fun h => ?_, fun _ => ⟨_, hptr, hd, hroute⟩, fun h => ?_, fun p _ hp hf => ?_⟩
    · rw [h] at hc'
      cases hc'
    · rw [h] at hc'
      cases hc'
    · rw [hclaimed] at h
      cases h
    · obtain rfl := Option.some.inj (hptr.symm.trans hp)
      cases hf
  child _ := hc'
  edge hr h := by
    rw [hc h] at hr
    cases hr
  written := hw
  below p _ hp := by
    obtain rfl := Option.some.inj (hptr.symm.trans hp)
    exact Or.inr hwf

/-- **A change of the slot of a key**, given what the slot holds afterwards. -/
theorem Changes.writes (h : Changes m m' x i) (hs : NewSlot m m' x i) {key : K} {o : Option V}
    (hself : m'.Holds key x o)
    (hkeep : ∀ k ≠ key, (m.cells x).slotOf k = i → ∀ o', m.Holds k x o' → m'.Holds k x o') :
    Writes m m' x key o where
  toEvolves := h.evolves hs
  other := h.other
  self := hself
  keep {n k o'} hk hn ho := by
    obtain ⟨o₁, ho₁, rfl⟩ := h.sat (P := (· = o'))
      (fun hi ⟨o₂, ho₂, he⟩ => ⟨o₂, hkeep k hk hi o₂ ho₂, he⟩) hn ⟨o', ho, rfl⟩
    exact ho₁
  sat {n P} hP hn hs := h.sat (fun _ hx => ⟨o, hself, hP hx⟩) hn hs

/-- `EMPTY` to `DATA`. -/
theorem publishData_writes (hx : m.NodeWF x) (hs : (m.cells x).slots i = .empty) {key : K} (v : V)
    (hkey : (m.cells x).slotOf key = i) (hr : (m.cells x).Routes key) :
    Writes m (m.modify x fun c => c.publishData i key v) x key (some v) := by
  set f : Cell K V → Cell K V := fun c => c.publishData i key v
  have hch : Changes m (m.modify x f) x i := modify_changes m x i f rfl rfl fun j hj =>
    ⟨Function.update_of_ne hj _ _, Function.update_of_ne hj _ _, Function.update_of_ne hj _ _, rfl⟩
  have hcell : (m.modify x f).cells x = (m.cells x).publishData i key v := modify_cells_self m x f
  have hslots : ((m.modify x f).cells x).slots i = .data := by
    rw [hcell]; exact Function.update_self _ _ _
  have hinline : ((m.modify x f).cells x).inline i = some (key, v) := by
    rw [hcell]; exact Function.update_self _ _ _
  have hslot := fun k => hch.slotOf hx.alloc k
  -- what the slot holds after the change
  have hholds : ∀ k, (m.cells x).slotOf k = i →
      (m.modify x f).Holds k x (if key = k then some v else none) := fun k hk => by
    rw [holds_leaf (by rw [hslot, hk, hslots]; rfl), hslot, hk, Cell.leafGet_data hslots hinline]
  refine hch.writes (.of_leaf (by rw [hs]; rfl) (by rw [hslots]; rfl) (by rw [hslots]; decide)
    (fun _ => ⟨key, v, hinline, (hslot key).trans hkey, ?_⟩) fun h => absurd hs h) ?_
    fun k hk hi o' ho => ?_
  · rw [Cell.Routes, hch.route]
    exact hr
  · have := hholds key hkey
    rwa [if_pos rfl] at this
  · have hold := (holds_leaf (by rw [hi, hs]; rfl)).1 ho
    rw [hi, Cell.leafGet_of_ne_data (by rw [hs]; decide)] at hold
    have := hholds k hi
    rwa [if_neg (Ne.symm hk), ← hold] at this

/-- `DATA` to `TOMBSTONE`. -/
theorem bury_writes (hx : m.NodeWF x) (hs : (m.cells x).slots i = .data) {key : K} {v : V}
    (hi : (m.cells x).inline i = some (key, v)) :
    Writes m (m.modify x fun c => c.bury i) x key none := by
  set f : Cell K V → Cell K V := fun c => c.bury i
  have hch : Changes m (m.modify x f) x i := modify_changes m x i f rfl rfl fun j hj =>
    ⟨Function.update_of_ne hj _ _, rfl, rfl, rfl⟩
  have hcell : (m.modify x f).cells x = (m.cells x).bury i := modify_cells_self m x f
  have hslots : ((m.modify x f).cells x).slots i = .tombstone := by
    rw [hcell]; exact Function.update_self _ _ _
  have hslot := fun k => hch.slotOf hx.alloc k
  obtain ⟨k₁, v₁, hkv, hkey, -⟩ := hx.cell.data i hs
  obtain ⟨rfl, rfl⟩ := Prod.mk.inj (Option.some.inj (hi.symm.trans hkv))
  have hholds : ∀ k, (m.cells x).slotOf k = i → (m.modify x f).Holds k x none := fun k hk => by
    rw [holds_leaf (by rw [hslot, hk, hslots]; rfl), hslot, hk,
      Cell.leafGet_of_ne_data (by rw [hslots]; decide)]
  refine hch.writes (.of_leaf (by rw [hs]; rfl) (by rw [hslots]; rfl) (by rw [hslots]; decide)
    (fun h => by rw [hslots] at h; cases h)
    fun _ => ⟨by rw [hslots]; decide, by rw [hcell]; rfl⟩) (hholds key hkey)
    fun k hk hki o' ho => ?_
  have hold := (holds_leaf (by rw [hki, hs]; rfl)).1 ho
  rw [hki, Cell.leafGet_data hs hi, if_neg (Ne.symm hk)] at hold
  rw [hold]
  exact hholds k hki

/-! ## New trees -/

omit [LinearOrder K] [Key K] in
theorem fresh_child_ne (hx : x.alloc < m.next) (b : Bool) (path : List ℕ) :
    (m.fresh b).descend path ≠ x := by
  rintro rfl
  rw [NodeId.descend_alloc] at hx
  exact lt_irrefl _ hx

omit [LinearOrder K] [Key K] in
theorem place_cells {r : Bool} {route : List (Edge K)} {tree : Node K V} (hn : n.alloc < m.next) :
    (m.place r route tree).cells n = m.cells n := if_neg hn.ne

omit [LinearOrder K] [Key K] in
theorem placeChild_cells_self (hx : x.alloc < m.next) (tree : Node K V)
    (set : Cell K V → NodeId → Cell K V) :
    (m.placeChild x i tree set).cells x = set (m.cells x) (m.fresh false) := by
  rw [placeChild, modify_cells_self, place_cells hx]

omit [LinearOrder K] [Key K] in
theorem placeChild_changes (hx : x.alloc < m.next) (tree : Node K V)
    (set : Cell K V → NodeId → Cell K V) (c : Cell K V) (hc : set (m.cells x) (m.fresh false) = c)
    (hh : c.head = (m.cells x).head) (hr : c.route = (m.cells x).route)
    (hj : ∀ j ≠ i, c.slots j = (m.cells x).slots j ∧ c.claimed j = (m.cells x).claimed j ∧
      c.inline j = (m.cells x).inline j ∧ c.children j = (m.cells x).children j) :
    Changes m (m.placeChild x i tree set) x i := by
  have hcell : (m.placeChild x i tree set).cells x = c := (placeChild_cells_self hx tree set).trans hc
  refine ⟨Nat.le_succ _, fun n hn hne => ?_, by rw [hcell, hh], by rw [hcell, hr],
    fun j h => by rw [hcell, (hj j h).1], fun j h => by rw [hcell, (hj j h).2.1],
    fun j h => by rw [hcell, (hj j h).2.2.1], fun j h => by rw [hcell, (hj j h).2.2.2]⟩
  rw [placeChild]
  exact (Function.update_of_ne hne _ _).trans (place_cells hn)

omit [LinearOrder K] [Key K] in
theorem placeChild_placed (hx : x.alloc < m.next) (tree : Node K V)
    (set : Cell K V → NodeId → Cell K V) :
    (m.placeChild x i tree set).Placed (m.fresh false)
      ((m.cells x).route ++ [⟨x, (m.cells x).head, i⟩]) tree where
  cells path := by
    rw [placeChild]
    have hp : (m.place false ((m.cells x).route ++ [⟨x, (m.cells x).head, i⟩]) tree).Placed
        (m.fresh false) _ tree := place_placed m tree nofun
    exact (Function.update_of_ne (fresh_child_ne hx false path) _ _).trans (hp.cells path)
  alloc := Nat.lt_succ_self _
  root := nofun

/-- **A new tree hangs in a slot**, in place of what was there. -/
theorem placeChild_spec (hx : m.NodeWF x) {tree : Node K V} (ht : tree.WF)
    (hr : ∀ k, (tree.get k).isSome → (m.cells x).slotOf k = i ∧ (m.cells x).Routes k)
    (set : Cell K V → NodeId → Cell K V) :
    let m' := m.placeChild x i tree set
    m'.NodeWF (m.fresh false) ∧ (∀ k, m'.Holds k (m.fresh false) (tree.get k)) ∧
      (m'.cells (m.fresh false)).route = (m.cells x).route ++ [⟨x, (m.cells x).head, i⟩] := by
  refine (placeChild_placed hx.alloc tree set).spec ht fun k hk e he => ?_
  obtain ⟨hslot, hroutes⟩ := hr k hk
  rcases List.mem_append.1 he with he | he
  · exact hroutes e he
  · rw [List.mem_singleton.1 he]
    exact hslot

/-- `TOMBSTONE` or `DATA` to `CHILD_STALE`. -/
theorem publishChild_writes (hx : m.NodeWF x)
    (hc : ((m.cells x).slots i).isChild = false) {child : Node K V} (ht : child.WF) {key : K} {v : V}
    (hget : ∀ k, child.get k = if k = key then some v else (m.cells x).leafGet i k)
    (hkey : (m.cells x).slotOf key = i) (hr : (m.cells x).Routes key) :
    Writes m (m.placeChild x i child fun c n => c.publishChild i n) x key (some v) := by
  set set' : Cell K V → NodeId → Cell K V := fun c n => c.publishChild i n
  have hcell := placeChild_cells_self (i := i) hx.alloc child set'
  have hch : Changes m (m.placeChild x i child set') x i :=
    placeChild_changes hx.alloc child set' _ rfl rfl rfl fun j hj =>
      ⟨Function.update_of_ne hj _ _, Function.update_of_ne hj _ _, rfl,
        Function.update_of_ne hj _ _⟩
  -- the keys of the child are predicted to the slot
  have hroutes : ∀ k, (child.get k).isSome → (m.cells x).slotOf k = i ∧ (m.cells x).Routes k := by
    intro k hk
    rw [hget] at hk
    split_ifs at hk with hkk
    · exact hkk ▸ ⟨hkey, hr⟩
    · by_cases hd : (m.cells x).slots i = .data
      · obtain ⟨k₁, v₁, hkv, hslot, hroutes⟩ := hx.cell.data i hd
        rw [Cell.leafGet_data hd hkv] at hk
        split_ifs at hk with hk₁
        · exact hk₁ ▸ ⟨hslot, hroutes⟩
        · cases hk
      · rw [Cell.leafGet_of_ne_data hd] at hk
        cases hk
  obtain ⟨hwf, hholds, hroute⟩ := placeChild_spec hx ht hroutes set'
  have hslots : ((m.placeChild x i child set').cells x).slots i = .childStale := by
    rw [hcell]; exact Function.update_self _ _ _
  have hclaimed : ((m.placeChild x i child set').cells x).claimed i = false := by
    rw [hcell]; exact Function.update_self _ _ _
  have hptr : ((m.placeChild x i child set').cells x).children i = some ⟨m.fresh false, false⟩ := by
    rw [hcell]; exact Function.update_self _ _ _
  have hslot := fun k => hch.slotOf hx.alloc k
  have hnew : ∀ k, (m.cells x).slotOf k = i →
      (m.placeChild x i child set').Holds k x (child.get k) := fun k hk =>
    .child (p := ⟨m.fresh false, false⟩) (by rw [hslot, hk, hslots]; rfl) (by rw [hslot, hk, hptr])
      (hholds k)
  refine hch.writes (.of_child (fun h => by rw [hc] at h; cases h) (by rw [hslots]; rfl) hclaimed
    hptr rfl (by rw [hroute, hch.route, hch.head]) hwf
    fun _ => ⟨by rw [hslots]; decide, by rw [hcell]; rfl⟩) ?_ fun k hk hki o' ho => ?_
  · have := hnew key hkey
    rwa [hget, if_pos rfl] at this
  · have hold := (holds_leaf (by rw [hki, hc])).1 ho
    rw [hki] at hold
    have := hnew k hki
    rwa [hget, if_neg hk, ← hold] at this

/-- The slot `i` of the root `p` has a new child with the given pairs. -/
structure Swaps (m m' : Mem K V) (p : NodeId) (i : ℕ) (pairs : List (K × V)) : Prop
    extends Evolves m m' where
  other (n : NodeId) : n.alloc < m.next → n ≠ p → m'.cells n = m.cells n
  holds {k : K} : (m.cells p).slotOf k = i → m'.Holds k p (pairs.lookup k)
  sat {n : NodeId} {k : K} {P : Option V → Prop} :
    (n = p → (m.cells p).slotOf k = i → P (pairs.lookup k)) → m.NodeWF n → Sat P m k n →
    Sat P m' k n

/-- **A rebuilt child.** -/
theorem swapChild_swaps (hx : m.NodeWF x) (hroot : x.isRoot = true)
    (hs : ((m.cells x).slots i).isChild) {tree : Node K V} (ht : tree.WF) {pairs : List (K × V)}
    (hget : ∀ k, tree.get k = pairs.lookup k) (hr : ∀ a ∈ pairs, (m.cells x).slotOf a.1 = i) :
    Swaps m (m.placeChild x i tree fun c n => c.setChild i ⟨n, false⟩) x i pairs := by
  set set' : Cell K V → NodeId → Cell K V := fun c n => c.setChild i ⟨n, false⟩
  have hcell := placeChild_cells_self (i := i) hx.alloc tree set'
  have hch : Changes m (m.placeChild x i tree set') x i :=
    placeChild_changes hx.alloc tree set' _ rfl rfl rfl fun j hj =>
      ⟨rfl, rfl, rfl, Function.update_of_ne hj _ _⟩
  have hroutes : ∀ k, (tree.get k).isSome → (m.cells x).slotOf k = i ∧ (m.cells x).Routes k := by
    intro k hk
    rw [hget] at hk
    obtain ⟨a, ha, rfl⟩ := List.mem_map.1 (lookup_isSome_iff.1 hk)
    refine ⟨hr a ha, fun e he => ?_⟩
    rw [hx.cell.root hroot] at he
    cases he
  obtain ⟨hwf, hholds, hroute⟩ := placeChild_spec hx ht hroutes set'
  have hptr : ((m.placeChild x i tree set').cells x).children i = some ⟨m.fresh false, false⟩ := by
    rw [hcell]; exact Function.update_self _ _ _
  have hslots : ((m.placeChild x i tree set').cells x).slots i = (m.cells x).slots i := by
    rw [hcell]; rfl
  have hclaimed : ((m.placeChild x i tree set').cells x).claimed i = (m.cells x).claimed i := by
    rw [hcell]; rfl
  have hinline : ((m.placeChild x i tree set').cells x).inline i = (m.cells x).inline i := by
    rw [hcell]; rfl
  have hnew : ∀ {k}, (m.cells x).slotOf k = i →
      (m.placeChild x i tree set').Holds k x (pairs.lookup k) := fun {k} hk => by
    have hslot := hch.slotOf hx.alloc k
    refine .child (p := ⟨m.fresh false, false⟩) (by rw [hslot, hk, hslots]; exact hs)
      (by rw [hslot, hk, hptr]) ?_
    rw [← hget]
    exact hholds k
  refine ⟨hch.evolves (.of_child (fun _ => hroot) (by rw [hslots]; exact hs) ?_ hptr rfl
    (by rw [hroute, hch.route, hch.head]) hwf fun h => by rw [hslots, hinline]; exact ⟨h, rfl⟩),
    hch.other, hnew, fun {n k P} hP hn hsat => ?_⟩
  · rw [hclaimed]
    by_contra h
    rw [hx.cell.claimed i (by simpa using h)] at hs
    cases hs
  · by_cases hnx : n = x
    · subst hnx
      exact hch.sat (fun hi _ => ⟨_, hnew hi, hP rfl hi⟩) hn hsat
    · exact hch.sat_of_ne hroot hnx hn hsat

end Mem

end Scry.Index
