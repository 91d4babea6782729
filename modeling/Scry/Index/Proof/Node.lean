/-
  Well-formed nodes: every key sits on the path that its predictions describe.

  A well-formed node lists its pairs in strictly ascending order, lookups find exactly
  the listed pairs, and the traversals yield the list from either end.
-/
import Scry.Lib.SortedMap
import Scry.Index.Proof.Model

namespace Scry.Index

variable {K V : Type}

/-! ## Slots -/

/-- The pairs of a slot, given those of its child. -/
def slotEntries (s : SlotState) (p : Option (K × V)) (sub : List (K × V)) : List (K × V) :=
  match s with
  | .data => p.toList
  | .child => sub
  | .childStale => sub
  | _ => []

theorem slotEntries_reverse (s : SlotState) (p : Option (K × V)) (sub : List (K × V)) :
    slotEntries s p sub.reverse = (slotEntries s p sub).reverse := by
  cases s <;> cases p <;> rfl

theorem slotEntries_isChild {s : SlotState} (hs : s.isChild) (p : Option (K × V))
    (sub : List (K × V)) : slotEntries s p sub = sub := by
  cases s <;> first | rfl | cases hs

namespace Node

/-- The pairs of a tree, slot by slot. -/
def entries : Node K V → List (K × V)
  | .null => []
  | .mk h st kv ch _ =>
    (List.range h.capacity).flatMap fun i => slotEntries (st i) (kv i) (ch i).entries

/-- No slot of the tree is being written. -/
inductive AtRest : Node K V → Prop
  | null : AtRest .null
  | mk {h : Header K} {st : ℕ → SlotState} {kv : ℕ → Option (K × V)} {ch : ℕ → Node K V} {t : ℕ}
      (idle : ∀ i, st i ≠ .writing)
      (child : ∀ i, (st i).isChild → (ch i).AtRest) :
      AtRest (.mk h st kv ch t)

variable [LinearOrder K] [Key K]

/-- What a lookup finds in a slot. -/
def slotGet (s : SlotState) (p : Option (K × V)) (child : Node K V) (key : K) : Option V :=
  match s with
  | .data => p.bind fun (k, v) => if k = key then some v else none
  | .child => child.get key
  | .childStale => child.get key
  | _ => none

theorem slotGet_isChild {s : SlotState} (hs : s.isChild) (p : Option (K × V)) (child : Node K V)
    (key : K) : slotGet s p child key = child.get key := by
  cases s <;> first | rfl | cases hs

variable {h : Header K} {st : ℕ → SlotState} {kv : ℕ → Option (K × V)} {ch : ℕ → Node K V} {t : ℕ}

theorem get_mk (key : K) : (Node.mk h st kv ch t).get key =
    slotGet (st (h.predictSlot key)) (kv (h.predictSlot key)) (ch (h.predictSlot key)) key := by
  cases hs : st (h.predictSlot key) <;> simp only [get, slotGet, hs]

variable (h st kv ch t) in
/-- A change of one slot is seen by the keys that are predicted to it. -/
theorem get_update (i : ℕ) (s : SlotState) (p : Option (K × V)) (c : Node K V) (t' : ℕ) (key : K) :
    (Node.mk h (Function.update st i s) (Function.update kv i p) (Function.update ch i c) t').get key =
      if h.predictSlot key = i then slotGet s p c key else (Node.mk h st kv ch t).get key := by
  rw [get_mk, get_mk]
  split_ifs with hi
  · rw [hi, Function.update_self, Function.update_self, Function.update_self]
  · rw [Function.update_of_ne hi, Function.update_of_ne hi, Function.update_of_ne hi]

/-! ## Well-formed nodes -/

/-- The invariant of a tree without other threads. -/
inductive WF : Node K V → Prop
  | mk {h : Header K} {st : ℕ → SlotState} {kv : ℕ → Option (K × V)} {ch : ℕ → Node K V} {t : ℕ}
      (head : h.Valid)
      (idle : ∀ i, st i ≠ .writing)
      (data : ∀ i, st i = .data → ∃ k v, kv i = some (k, v) ∧ h.predictSlot k = i)
      (child : ∀ i, (st i).isChild → (ch i).WF)
      (routed : ∀ i, (st i).isChild → ∀ k, ((ch i).get k).isSome → h.predictSlot k = i) :
      WF (.mk h st kv ch t)

theorem WF.head (hn : (Node.mk h st kv ch t).WF) : h.Valid := by
  cases hn with | mk head => exact head

theorem WF.idle (hn : (Node.mk h st kv ch t).WF) (i : ℕ) : st i ≠ .writing := by
  cases hn with | mk _ idle => exact idle i

theorem WF.data (hn : (Node.mk h st kv ch t).WF) {i : ℕ} (hi : st i = .data) :
    ∃ k v, kv i = some (k, v) ∧ h.predictSlot k = i := by
  cases hn with | mk _ _ data => exact data i hi

theorem WF.child (hn : (Node.mk h st kv ch t).WF) {i : ℕ} (hi : (st i).isChild) : (ch i).WF := by
  cases hn with | mk _ _ _ child => exact child i hi

theorem WF.routed (hn : (Node.mk h st kv ch t).WF) {i : ℕ} (hi : (st i).isChild) {k : K}
    (hk : ((ch i).get k).isSome) : h.predictSlot k = i := by
  cases hn with | mk _ _ _ _ routed => exact routed i hi k hk

theorem WF.atRest {n : Node K V} (hn : n.WF) : n.AtRest := by
  induction hn with
  | mk _ idle _ _ _ ih => exact .mk idle ih

theorem not_wf_null : ¬ (null : Node K V).WF := by
  intro h
  cases h

theorem WF.child_ne_null (hn : (Node.mk h st kv ch t).WF) {i : ℕ} (hi : (st i).isChild) :
    ch i ≠ .null := by
  intro he
  exact not_wf_null (he ▸ hn.child hi)

/-- What a slot may hold. -/
structure SlotOk (h : Header K) (i : ℕ) (s : SlotState) (p : Option (K × V)) (c : Node K V) :
    Prop where
  idle : s ≠ .writing
  data : s = .data → ∃ k v, p = some (k, v) ∧ h.predictSlot k = i
  child : s.isChild → c.WF ∧ ∀ k, (c.get k).isSome → h.predictSlot k = i

theorem SlotOk.of_data {i : ℕ} {k : K} (hi : h.predictSlot k = i) (v : V) (c : Node K V) :
    SlotOk h i .data (some (k, v)) c :=
  ⟨by decide, fun _ => ⟨k, v, rfl, hi⟩, fun hs => nomatch hs⟩

theorem SlotOk.of_child {i : ℕ} {s : SlotState} {c : Node K V} (hs : s.isChild) (hc : c.WF)
    (hr : ∀ k, (c.get k).isSome → h.predictSlot k = i) (p : Option (K × V)) :
    SlotOk h i s p c := by
  refine ⟨?_, ?_, fun _ => ⟨hc, hr⟩⟩ <;> rintro rfl <;> cases hs

/-- **Well-formedness is kept by a change of one slot.** -/
theorem WF.update (hn : (Node.mk h st kv ch t).WF) {i : ℕ} {s : SlotState} {p : Option (K × V)}
    {c : Node K V} (ho : SlotOk h i s p c) (t' : ℕ) :
    (Node.mk h (Function.update st i s) (Function.update kv i p) (Function.update ch i c) t').WF := by
  refine ⟨hn.head, fun j => ?_, fun j => ?_, fun j => ?_, fun j => ?_⟩ <;> by_cases hj : j = i
  · rw [hj, Function.update_self]; exact ho.idle
  · rw [Function.update_of_ne hj]; exact hn.idle j
  · rw [hj, Function.update_self, Function.update_self]; exact ho.data
  · rw [Function.update_of_ne hj, Function.update_of_ne hj]; exact hn.data
  · rw [hj, Function.update_self, Function.update_self]; exact fun hs => (ho.child hs).1
  · rw [Function.update_of_ne hj, Function.update_of_ne hj]; exact hn.child
  · rw [hj, Function.update_self, Function.update_self]; exact fun hs => (ho.child hs).2
  · rw [Function.update_of_ne hj, Function.update_of_ne hj]; exact fun hs _ => hn.routed hs

/-! ## Entries -/

theorem WF.mem_slotEntries (hn : (Node.mk h st kv ch t).WF) {i : ℕ} {k : K} {v : V}
    (hch : (st i).isChild → ((k, v) ∈ (ch i).entries ↔ (ch i).get k = some v)) :
    (k, v) ∈ slotEntries (st i) (kv i) (ch i).entries ↔
      h.predictSlot k = i ∧ slotGet (st i) (kv i) (ch i) k = some v := by
  by_cases hc : (st i).isChild
  · rw [slotEntries_isChild hc, slotGet_isChild hc, hch hc]
    exact ⟨fun hk => ⟨hn.routed hc (by rw [hk]; rfl), hk⟩, And.right⟩
  · by_cases hd : st i = .data
    · obtain ⟨k', v', hkv, hp⟩ := hn.data hd
      rw [hd, hkv]
      simp only [slotEntries, slotGet, Option.toList_some, List.mem_singleton, Option.bind_some,
        Option.ite_none_right_eq_some, Option.some.injEq, Prod.mk.injEq]
      constructor
      · rintro ⟨rfl, rfl⟩; exact ⟨hp, rfl, rfl⟩
      · rintro ⟨-, rfl, rfl⟩; exact ⟨rfl, rfl⟩
    · cases hs : st i <;> simp_all [slotEntries, slotGet, SlotState.isChild]

/-- **Lookups find exactly the pairs of the tree.** -/
theorem WF.mem_entries {n : Node K V} (hn : n.WF) (k : K) (v : V) :
    (k, v) ∈ n.entries ↔ n.get k = some v := by
  induction hn with
  | @mk h st kv ch t head idle data child routed ih =>
    have hn : (Node.mk h st kv ch t).WF := ⟨head, idle, data, child, routed⟩
    simp only [entries, List.mem_flatMap, List.mem_range, get_mk]
    constructor
    · rintro ⟨i, -, hi⟩
      obtain ⟨rfl, hg⟩ := (hn.mem_slotEntries (ih i)).1 hi
      exact hg
    · intro hg
      exact ⟨_, head.predictSlot_lt k, (hn.mem_slotEntries (ih _)).2 ⟨rfl, hg⟩⟩

/-- A tree at rest whose predictions are monotone and in which every key under a slot is
    predicted to it. -/
inductive Ordered : Node K V → Prop
  | null : Ordered .null
  | mk {h : Header K} {st : ℕ → SlotState} {kv : ℕ → Option (K × V)} {ch : ℕ → Node K V} {t : ℕ}
      (pos : 0 < h.capacity)
      (mono : ∀ a b, a ≤ b → h.predictSlot a ≤ h.predictSlot b)
      (idle : ∀ i, st i ≠ .writing)
      (routed : ∀ i, ∀ a ∈ slotEntries (st i) (kv i) (ch i).entries, h.predictSlot a.1 = i)
      (child : ∀ i, (st i).isChild → (ch i).Ordered) :
      Ordered (.mk h st kv ch t)

theorem WF.ordered [LawfulKey K] {n : Node K V} (hn : n.WF) : n.Ordered := by
  induction hn with
  | @mk h st kv ch t head idle data child routed ih =>
    have hn : (Node.mk h st kv ch t).WF := ⟨head, idle, data, child, routed⟩
    refine .mk head.capacity_pos (fun a b hab => head.predictSlot_mono hab) idle (fun i a ha => ?_) ih
    exact ((hn.mem_slotEntries (k := a.1) (v := a.2) fun hc => (child i hc).mem_entries _ _).1 ha).1

theorem Ordered.atRest {n : Node K V} (hn : n.Ordered) : n.AtRest := by
  induction hn with
  | null => exact .null
  | mk _ _ idle _ _ ih => exact .mk idle ih

/-- Keys that are predicted to ascending slots ascend. -/
theorem lt_of_predictSlot_lt (mono : ∀ a b, a ≤ b → h.predictSlot a ≤ h.predictSlot b) {a b : K}
    (hab : h.predictSlot a < h.predictSlot b) : a < b :=
  lt_of_not_ge fun hba => absurd (mono b a hba) (not_le.2 hab)

theorem Ordered.ascending {n : Node K V} (hn : n.Ordered) : Ascending n.entries := by
  induction hn with
  | null => exact ascending_nil
  | @mk h st kv ch t pos mono idle routed child ih =>
    rw [entries, Ascending, List.pairwise_flatMap]
    constructor
    · intro i _
      by_cases hc : (st i).isChild
      · rw [slotEntries_isChild hc]; exact ih i hc
      · cases hs : st i with
        | data => cases hkv : kv i <;> simp [slotEntries]
        | child | childStale => rw [hs] at hc; exact absurd rfl hc
        | _ => exact List.Pairwise.nil
    · refine List.pairwise_lt_range.imp fun {i j} hij a ha b hb => lt_of_predictSlot_lt mono ?_
      rwa [routed i a ha, routed j b hb]

/-- **The pairs of a tree are strictly ascending.** -/
theorem WF.ascending [LawfulKey K] {n : Node K V} (hn : n.WF) : Ascending n.entries :=
  hn.ordered.ascending

theorem WF.get_eq_lookup [LawfulKey K] {n : Node K V} (hn : n.WF) (k : K) :
    n.get k = n.entries.lookup k := by
  ext v
  rw [hn.ascending.lookup_iff, hn.mem_entries]

/-- The pairs of a tree are determined by its lookups. -/
theorem WF.entries_eq [LawfulKey K] {n : Node K V} (hn : n.WF) {l : List (K × V)}
    (hl : Ascending l) (h : ∀ k, n.get k = l.lookup k) : n.entries = l :=
  hn.ascending.eq_of_lookup hl fun k => by rw [← hn.get_eq_lookup, h]

end Node

/-! ## Traversals -/

section Traversal
variable {ent : Stack K V → List (K × V)} {cost : Stack K V → ℕ} {Inv : Stack K V → Prop}

/-- One iteration of a traversal: the pairs that are still to come are those before, less
    the one yielded, and less remains to be done. -/
def VisitSpec (ent : Stack K V → List (K × V)) (cost : Stack K V → ℕ) (Inv : Stack K V → Prop)
    (s : Stack K V) : Visit K V → Prop
  | .goOn s' => Inv s' ∧ ent s = ent s' ∧ cost s' < cost s
  | .item key value s' => Inv s' ∧ ent s = (key, value) :: ent s' ∧ cost s' < cost s
  | .done => ent s = []
  | .spin => False

variable {next : Stack K V → Visit K V}

/-- Within enough iterations a traversal yields the head of what is to come. -/
theorem nextItem_spec (hv : ∀ s, Inv s → VisitSpec ent cost Inv s (next s)) (n : ℕ) :
    ∀ s, Inv s → cost s < n →
      (ent s = [] ∧ nextItem next n s = none) ∨
      ∃ e s', ent s = e :: ent s' ∧ nextItem next n s = some (e, s') ∧ Inv s' ∧ cost s' < cost s := by
  induction n with
  | zero => intro s _ hs; omega
  | succ n ih =>
    intro s hok hs
    have hstep := hv s hok
    rw [nextItem]
    cases hvs : next s with
    | goOn s' =>
      rw [hvs] at hstep
      obtain ⟨hok', he, hc⟩ := hstep
      rcases ih s' hok' (by omega) with ⟨h₁, h₂⟩ | ⟨e, s'', h₁, h₂, h₃, h₄⟩
      · exact Or.inl ⟨he.trans h₁, h₂⟩
      · exact Or.inr ⟨e, s'', he.trans h₁, h₂, h₃, h₄.trans hc⟩
    | item k v s' =>
      rw [hvs] at hstep
      obtain ⟨hok', he, hc⟩ := hstep
      exact Or.inr ⟨(k, v), s', he, rfl, hok', hc⟩
    | done =>
      rw [hvs] at hstep
      exact Or.inl ⟨hstep, rfl⟩
    | spin =>
      rw [hvs] at hstep
      exact hstep.elim

theorem nextItem_head (hv : ∀ s, Inv s → VisitSpec ent cost Inv s (next s)) {n : ℕ}
    {s : Stack K V} (hs : Inv s) (hn : cost s < n) :
    (nextItem next n s).map Prod.fst = (ent s).head? := by
  rcases nextItem_spec hv n s hs hn with ⟨h₁, h₂⟩ | ⟨e, s', h₁, h₂, -, -⟩ <;> rw [h₁, h₂] <;> rfl

/-- The slots of a traversal look at one slot after the other. -/
theorem visitSlot_spec {st : ℕ → SlotState} {kv : ℕ → Option (K × V)} {ch : ℕ → Node K V}
    {start : Node K V → ℕ} {i c : ℕ} {s stack : Stack K V} (sub : List (K × V))
    (hidle : st i ≠ .writing) (hok : Inv stack)
    (hchild : (st i).isChild → Inv (stack.push (ch i) (start (ch i))) ∧
      ent (stack.push (ch i) (start (ch i))) = sub ++ ent stack ∧
      cost (stack.push (ch i) (start (ch i))) ≤ c + cost stack)
    (hent : ent s = slotEntries (st i) (kv i) sub ++ ent stack)
    (hcost : cost s = 1 + c + cost stack) :
    VisitSpec ent cost Inv s (visitSlot st kv ch start i stack) := by
  unfold visitSlot
  cases hs : st i with
  | writing => exact absurd hs hidle
  | data =>
    rw [hs] at hent
    cases hkv : kv i with
    | none | some p => rw [hkv] at hent; exact ⟨hok, hent, by omega⟩
  | child | childStale =>
    rw [hs] at hent
    obtain ⟨h₁, h₂, h₃⟩ := hchild (by rw [hs]; rfl)
    exact ⟨h₁, hent.trans h₂.symm, by omega⟩
  | empty | tombstone =>
    rw [hs] at hent
    exact ⟨hok, hent, by omega⟩

namespace Node

/-- The pairs in a slot of a node. -/
def pairsAt : Node K V → ℕ → List (K × V)
  | .null, _ => []
  | .mk _ st kv ch _, i => slotEntries (st i) (kv i) (ch i).entries

/-- The iterations that a slot of a node can take. -/
def visitsAt : Node K V → ℕ → ℕ
  | .null, _ => 0
  | .mk _ _ _ ch _, i => 1 + (ch i).visits

theorem entries_eq_flatMap (n : Node K V) : n.entries = (List.range n.capacity).flatMap n.pairsAt := by
  cases n <;> rfl

theorem visits_eq_sum (n : Node K V) :
    n.visits = 1 + ((List.range n.capacity).map n.visitsAt).sum := by
  cases n <;> rfl

end Node

namespace Stack

/-- What a traversal from the left has still to yield. -/
def ahead (s : Stack K V) : List (K × V) :=
  s.flatMap fun f => (List.range' f.2 (f.1.capacity - f.2)).flatMap f.1.pairsAt

def aheadCost (s : Stack K V) : ℕ :=
  (s.map fun f => 1 + ((List.range' f.2 (f.1.capacity - f.2)).map f.1.visitsAt).sum).sum

/-- What a traversal from the right has still to yield. -/
def behind (s : Stack K V) : List (K × V) :=
  s.flatMap fun f => ((List.range f.2).flatMap f.1.pairsAt).reverse

def behindCost (s : Stack K V) : ℕ :=
  (s.map fun f => 1 + ((List.range f.2).map f.1.visitsAt).sum).sum

variable (s : Stack K V) (n : Node K V)

theorem ahead_root : ahead ((n, 0) :: s) = n.entries ++ ahead s := by
  simp [ahead, n.entries_eq_flatMap, List.range_eq_range']

theorem aheadCost_root : aheadCost ((n, 0) :: s) = n.visits + aheadCost s := by
  simp [aheadCost, n.visits_eq_sum, List.range_eq_range']

theorem behind_root : behind ((n, n.capacity) :: s) = n.entries.reverse ++ behind s := by
  simp [behind, n.entries_eq_flatMap]

theorem behindCost_root : behindCost ((n, n.capacity) :: s) = n.visits + behindCost s := by
  simp [behindCost, n.visits_eq_sum]

theorem ahead_end {i : ℕ} (hi : n.capacity ≤ i) : ahead ((n, i) :: s) = ahead s := by
  simp [ahead, Nat.sub_eq_zero_of_le hi]

theorem aheadCost_end {i : ℕ} (hi : n.capacity ≤ i) :
    aheadCost ((n, i) :: s) = 1 + aheadCost s := by
  simp [aheadCost, Nat.sub_eq_zero_of_le hi]

theorem range'_slot {i c : ℕ} (hi : i < c) :
    List.range' i (c - i) = i :: List.range' (i + 1) (c - (i + 1)) := by
  rw [show c - i = c - (i + 1) + 1 by omega, List.range'_succ]

theorem ahead_slot {i : ℕ} (hi : i < n.capacity) :
    ahead ((n, i) :: s) = n.pairsAt i ++ ahead ((n, i + 1) :: s) := by
  simp only [ahead, List.flatMap_cons, range'_slot hi, List.append_assoc]

theorem aheadCost_slot {i : ℕ} (hi : i < n.capacity) :
    aheadCost ((n, i) :: s) = n.visitsAt i + aheadCost ((n, i + 1) :: s) := by
  simp only [aheadCost, List.map_cons, List.sum_cons, range'_slot hi]
  omega

theorem behind_slot (i : ℕ) :
    behind ((n, i + 1) :: s) = (n.pairsAt i).reverse ++ behind ((n, i) :: s) := by
  simp [behind, List.range_succ]

theorem behindCost_slot (i : ℕ) :
    behindCost ((n, i + 1) :: s) = n.visitsAt i + behindCost ((n, i) :: s) := by
  simp only [behindCost, List.map_cons, List.sum_cons, List.range_succ, List.map_append,
    List.sum_append, List.map_nil, List.sum_nil]
  omega

/-- The stacks that traversals of trees at rest build. -/
def Ok (s : Stack K V) : Prop := ∀ f ∈ s, f.1.AtRest

variable {s n}

theorem ok_cons {i : ℕ} : Ok ((n, i) :: s) ↔ n.AtRest ∧ Ok s := List.forall_mem_cons

theorem ok_push (hn : n.AtRest) (hs : Ok s) (i : ℕ) : Ok (s.push n i) := by
  cases n with
  | null => exact hs
  | mk h st kv ch t => exact ok_cons.2 ⟨hn, hs⟩

theorem ahead_push : ahead (s.push n 0) = n.entries ++ ahead s := by
  cases n with
  | null => rfl
  | mk h st kv ch t => exact ahead_root s _

theorem aheadCost_push_le : aheadCost (s.push n 0) ≤ n.visits + aheadCost s := by
  cases n with
  | null => exact Nat.le_add_left _ _
  | mk h st kv ch t => exact (aheadCost_root s _).le

theorem behind_push : behind (s.push n n.capacity) = n.entries.reverse ++ behind s := by
  cases n with
  | null => rfl
  | mk h st kv ch t => exact behind_root s _

theorem behindCost_push_le : behindCost (s.push n n.capacity) ≤ n.visits + behindCost s := by
  cases n with
  | null => exact Nat.le_add_left _ _
  | mk h st kv ch t => exact (behindCost_root s _).le

end Stack

theorem visit_spec (s : Stack K V) (hs : Stack.Ok s) :
    VisitSpec Stack.ahead Stack.aheadCost Stack.Ok s (visit s) := by
  rcases s with - | ⟨⟨n, i⟩, s⟩
  · rfl
  · obtain ⟨hn, hok⟩ := Stack.ok_cons.1 hs
    cases hn with
    | null => exact ⟨hok, Stack.ahead_end s _ (Nat.zero_le _), by
        rw [Stack.aheadCost_end s _ (Nat.zero_le _)]; omega⟩
    | @mk h st kv ch t idle child =>
      rw [visit]
      split_ifs with hi
      · exact ⟨hok, Stack.ahead_end s _ hi, by rw [Stack.aheadCost_end s _ hi]; omega⟩
      · have hi : i < (Node.mk h st kv ch t).capacity := not_le.1 hi
        have hok' : Stack.Ok ((Node.mk h st kv ch t, i + 1) :: s) :=
          Stack.ok_cons.2 ⟨.mk idle child, hok⟩
        exact visitSlot_spec (ch i).entries (idle i) hok'
          (fun hc => ⟨Stack.ok_push (child i hc) hok' 0, Stack.ahead_push, Stack.aheadCost_push_le⟩)
          (Stack.ahead_slot s _ hi) (Stack.aheadCost_slot s _ hi)

theorem visitBack_spec (s : Stack K V) (hs : Stack.Ok s) :
    VisitSpec Stack.behind Stack.behindCost Stack.Ok s (visitBack s) := by
  rcases s with - | ⟨⟨n, i⟩, s⟩
  · rfl
  · obtain ⟨hn, hok⟩ := Stack.ok_cons.1 hs
    cases hn with
    | null => exact ⟨hok, by simp [Stack.behind, Node.pairsAt], by simp [Stack.behindCost]⟩
    | @mk h st kv ch t idle child =>
      cases i with
      | zero =>
        rw [visitBack]
        exact ⟨hok, by simp [Stack.behind], by simp [Stack.behindCost]⟩
      | succ i =>
        rw [visitBack]
        have hok' : Stack.Ok ((Node.mk h st kv ch t, i) :: s) :=
          Stack.ok_cons.2 ⟨.mk idle child, hok⟩
        refine visitSlot_spec (ch i).entries.reverse (idle i) hok'
          (fun hc => ⟨Stack.ok_push (child i hc) hok' _, Stack.behind_push, Stack.behindCost_push_le⟩)
          ((Stack.behind_slot s _ i).trans ?_) (Stack.behindCost_slot s _ i)
        rw [slotEntries_reverse]
        rfl

theorem collect_eq {fuel : ℕ} (n : ℕ) :
    ∀ s : Stack K V, Stack.Ok s → s.aheadCost < fuel → s.aheadCost < n → collect fuel n s = s.ahead := by
  induction n with
  | zero => intro s _ _ hn; omega
  | succ n ih =>
    intro s hs hf hn
    rw [collect]
    rcases nextItem_spec visit_spec fuel s hs hf with ⟨h₁, h₂⟩ | ⟨e, s', h₁, h₂, h₃, h₄⟩
    · rw [h₁, h₂]
    · rw [h₁, h₂]
      exact congrArg (e :: ·) (ih s' h₃ (by omega) (by omega))

namespace Node
variable {n : Node K V}

/-- **A traversal yields all pairs of the tree in order.** -/
theorem AtRest.sortedPairs_eq (hn : n.AtRest) : n.sortedPairs = n.entries := by
  have hok : Stack.Ok [(n, 0)] := Stack.ok_cons.2 ⟨hn, fun f hf => nomatch hf⟩
  have hcost : Stack.aheadCost [(n, 0)] < n.visits + 1 := by
    rw [Stack.aheadCost_root]; simp [Stack.aheadCost]
  rw [sortedPairs, collect_eq _ _ hok hcost hcost, Stack.ahead_root]
  simp [Stack.ahead]

theorem AtRest.firstEntry_eq (hn : n.AtRest) : n.firstEntry = n.entries.head? := by
  have hok : Stack.Ok [(n, 0)] := Stack.ok_cons.2 ⟨hn, fun f hf => nomatch hf⟩
  rw [firstEntry, nextItem_head visit_spec hok, Stack.ahead_root]
  · simp [Stack.ahead]
  · rw [Stack.aheadCost_root]; simp [Stack.aheadCost]

theorem AtRest.lastEntry_eq (hn : n.AtRest) : n.lastEntry = n.entries.getLast? := by
  have hok : Stack.Ok [(n, n.capacity)] := Stack.ok_cons.2 ⟨hn, fun f hf => nomatch hf⟩
  rw [lastEntry, nextItem_head visitBack_spec hok, Stack.behind_root]
  · simp [Stack.behind]
  · rw [Stack.behindCost_root]; simp [Stack.behindCost]

/-- **The entries at the ends are those of the traversal**, also where whole subtrees have
    been emptied. -/
theorem AtRest.ends_agree (hn : n.AtRest) :
    n.lastEntry = n.sortedPairs.getLast? ∧ n.firstEntry = n.sortedPairs.head? ∧
      (n.lastEntry = none ↔ n.sortedPairs = []) ∧ (n.firstEntry = none ↔ n.sortedPairs = []) := by
  rw [hn.lastEntry_eq, hn.firstEntry_eq, hn.sortedPairs_eq]
  exact ⟨rfl, rfl, List.getLast?_eq_none_iff, List.head?_eq_none_iff⟩

/-- A pair, and after it a subtree that has been emptied. -/
def emptiedTree : Node ℕ ℕ :=
  let leaf := .mk ⟨.constant, none, 2⟩ (fun _ => .tombstone) (fun _ => none) (fun _ => .null) 2
  let inner := .mk ⟨.constant, none, 2⟩ (fun _ => .child) (fun _ => none) (fun _ => leaf) 0
  .mk ⟨.constant, none, 3⟩ (fun i => if i = 0 then .data else .childStale) (fun _ => some (1, 2))
    (fun _ => inner) 0

theorem emptiedTree_atRest : emptiedTree.AtRest := by
  have hleaf : (Node.mk ⟨.constant, none, 2⟩ (fun _ => .tombstone) (fun _ => none)
      (fun _ => .null) 2 : Node ℕ ℕ).AtRest := by
    refine .mk (fun i h => ?_) fun i h => ?_ <;> cases h
  refine .mk (fun i h => ?_) fun i _ => .mk (fun i h => ?_) fun i _ => hleaf
  · by_cases h0 : i = 0
    · rw [if_pos h0] at h
      cases h
    · rw [if_neg h0] at h
      cases h
  · cases h

theorem emptiedTree_ends_agree : emptiedTree.lastEntry = some (1, 2) ∧
    emptiedTree.lastEntry = emptiedTree.sortedPairs.getLast? ∧
    emptiedTree.firstEntry = emptiedTree.sortedPairs.head? ∧
    (emptiedTree.lastEntry = none ↔ emptiedTree.sortedPairs = []) ∧
    (emptiedTree.firstEntry = none ↔ emptiedTree.sortedPairs = []) :=
  ⟨by decide +kernel, emptiedTree_atRest.ends_agree⟩

variable [LinearOrder K] [Key K]

theorem WF.sortedPairs_eq (hn : n.WF) : n.sortedPairs = n.entries := hn.atRest.sortedPairs_eq

theorem WF.firstEntry_eq (hn : n.WF) : n.firstEntry = n.entries.head? := hn.atRest.firstEntry_eq

theorem WF.lastEntry_eq (hn : n.WF) : n.lastEntry = n.entries.getLast? := hn.atRest.lastEntry_eq

end Node

end Traversal

end Scry.Index
