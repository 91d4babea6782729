/-
  The tombstones that a node counts.

  A tree that was just built counts none (`Node.Pristine`).  In a slot that was once
  buried no pair comes to stand again (`Cell.Buried`), and only the step that counts a
  tombstone changes the counter of a node.
-/
import Scry.Index.Proof.Runs

namespace Scry.Index

variable {K V : Type}

/-! ## Built trees -/

namespace Node

/-- A tree as it was built: a slot is empty or holds a pair or a child, and no tombstone is
    counted. -/
inductive Pristine : Node K V → Prop
  | mk {h : Header K} {st : ℕ → SlotState} {kv : ℕ → Option (K × V)} {ch : ℕ → Node K V}
      (hst : ∀ i, st i = .empty ∨ (st i = .data ∧ (kv i).isSome) ∨ (st i = .child ∧ ch i ≠ .null))
      (hch : ∀ i, ch i ≠ .null → (ch i).Pristine) : Pristine (.mk h st kv ch 0)

namespace Pristine
variable {n child : Node K V}

theorem ne_null (hn : n.Pristine) : n ≠ .null := by
  cases hn with
  | mk => rintro ⟨⟩

theorem withHeader (h : Header K) : (Node.withHeader h : Node K V).Pristine :=
  .mk (fun _ => Or.inl rfl) fun _ hne => absurd rfl hne

theorem storeData (hn : n.Pristine) (i : ℕ) (key : K) (value : V) :
    (n.storeData i key value).Pristine := by
  cases hn with
  | mk hst hch =>
    refine .mk (fun j => ?_) hch
    rw [Function.update_apply, Function.update_apply]
    split_ifs
    · exact Or.inr (Or.inl ⟨rfl, rfl⟩)
    · exact hst j

theorem storeChild (hn : n.Pristine) (hc : child.Pristine) (i : ℕ) :
    (n.storeChild i child).Pristine := by
  cases hn with
  | mk hst hch =>
    refine .mk (fun j => ?_) fun j hj => ?_
    · rw [Function.update_apply, Function.update_apply]
      split_ifs
      · exact Or.inr (Or.inr ⟨rfl, hc.ne_null⟩)
      · exact hst j
    · rw [Function.update_apply] at hj ⊢
      split_ifs at hj ⊢
      · exact hc
      · exact hch j hj

variable {build : List (K × V) → Option (Node K V)}

theorem storeHalf (hb : ∀ l c, build l = some c → c.Pristine) (hn : n.Pristine) {i : ℕ}
    {half : List (K × V)} {n' : Node K V} (h : storeHalf build n i half = some n') :
    n'.Pristine := by
  unfold Scry.Index.storeHalf at h
  split at h
  · cases h
    exact hn.storeData _ _ _
  · obtain ⟨c, hc, rfl⟩ := Option.map_eq_some_iff.1 h
    exact hn.storeChild (hb _ _ hc) _

variable [LinearOrder K] [Key K]

theorem splitNode (lo hi : K) (size : ℕ) : (splitNode lo hi size : Node K V).Pristine := by
  unfold Scry.Index.splitNode
  dsimp only
  split_ifs
  · exact .withHeader _
  · exact .withHeader _

theorem buildDegenerate (fuel : ℕ) : ∀ (l : List (K × V)) (c : Node K V),
    buildDegenerate fuel l = some c → c.Pristine := by
  induction fuel with
  | zero =>
    intro l c h
    unfold Scry.Index.buildDegenerate at h
    split at h
    · cases h
    · cases h
      exact (withHeader _).storeData _ _ _
    · cases h
    · rename_i hfuel _ _
      cases hfuel
  | succ fuel ih =>
    intro l c h
    unfold Scry.Index.buildDegenerate at h
    split at h
    · cases h
    · cases h
      exact (withHeader _).storeData _ _ _
    · cases h
    · rename_i hfuel _ _
      cases hfuel
      obtain ⟨lo, -, h⟩ := Option.bind_eq_some_iff.1 h
      obtain ⟨hi, -, h⟩ := Option.bind_eq_some_iff.1 h
      obtain ⟨node, h₁, h₂⟩ := Option.bind_eq_some_iff.1 h
      exact storeHalf ih (storeHalf ih (splitNode _ _ _) h₁) h₂

theorem foldlM_storeRun (hb : ∀ l c, build l = some c → c.Pristine)
    (runs : List (ℕ × List (K × V))) : ∀ {n n' : Node K V}, n.Pristine →
      runs.foldlM (storeRun build) n = some n' → n'.Pristine := by
  induction runs with
  | nil =>
    intro n n' hn h
    cases h
    exact hn
  | cons run runs ih =>
    intro n n' hn h
    rw [List.foldlM_cons, Option.bind_eq_bind, Option.bind_eq_some_iff] at h
    obtain ⟨n₁, h₁, h⟩ := h
    refine ih ?_ h
    unfold storeRun at h₁
    split at h₁
    · cases h₁
      exact hn.storeData _ _ _
    · obtain ⟨c, hc, rfl⟩ := Option.map_eq_some_iff.1 h₁
      refine hn.storeChild ?_ _
      split_ifs at hc
      · exact buildDegenerate _ _ _ hc
      · exact hb _ _ hc

theorem buildRecursive (config : Config) (fuel : ℕ) : ∀ (l : List (K × V)) (c : Node K V),
    buildRecursive config fuel l = some c → c.Pristine := by
  induction fuel with
  | zero => intro l c h; cases h
  | succ fuel ih =>
    intro l c h
    unfold Scry.Index.buildRecursive at h
    split_ifs at h with hd
    · exact buildDegenerate _ _ _ h
    · obtain ⟨r, -, h⟩ := Option.bind_eq_some_iff.1 h
      dsimp only at h
      split_ifs at h
      · cases h
        have : ∀ (l : List (K × V)) (n : Node K V), n.Pristine →
            (l.foldl (fun node p => node.storeData (node.predictSlot p.1) p.1 p.2) n).Pristine := by
          intro l
          induction l with
          | nil => exact fun n hn => hn
          | cons p l ih => exact fun n hn => ih _ (hn.storeData _ _ _)
        exact this l _ (withHeader _)
      · exact foldlM_storeRun ih _ (withHeader _) h

theorem bulkLoad {config : Config} {l : List (K × V)} {root : Node K V}
    (h : bulkLoad config l = some (.ok root)) : root.Pristine := by
  unfold Scry.Index.bulkLoad at h
  split_ifs at h with _ hasc
  · cases h
  · obtain ⟨n, hn, he⟩ := Option.map_eq_some_iff.1 h
    cases he
    exact buildRecursive _ _ _ _ hn
  · cases h

theorem buildSingleEntryChild (key : K) (value : V) :
    (buildSingleEntryChild key value).Pristine := (withHeader _).storeData _ _ _

theorem buildConflictNode {k₁ k₂ : K} {v₁ v₂ : V} {c : Node K V}
    (h : buildConflictNode k₁ v₁ k₂ v₂ = some c) : c.Pristine := by
  unfold Scry.Index.buildConflictNode at h
  dsimp only at h
  split_ifs at h
  all_goals
    cases h
    refine storeData (storeData ?_ _ _ _) _ _ _
  · exact splitNode _ _ _
  · exact withHeader _
  · exact splitNode _ _ _
  · exact withHeader _

theorem ofStarts {config : Config} {map : LearnedMap K V} {pairs : List (K × V)}
    (hs : Starts config map pairs) : map.root.Pristine ∧ map.len = pairs.length := by
  cases hs with
  | withConfig => exact ⟨withHeader _, rfl⟩
  | bulk h =>
    obtain ⟨built, hb, h⟩ := Option.bind_eq_some_iff.1 h
    cases built with
    | error e => cases h
    | ok root =>
      cases h
      exact ⟨bulkLoad hb, rfl⟩

end Pristine

end Node

/-- A node as it was built. -/
structure Cell.Pristine (c : Cell K V) : Prop where
  num : c.numTombstones = 0
  free (i : ℕ) : c.claimed i = false
  slot (i : ℕ) : c.slots i = .empty ∨ (c.slots i = .data ∧ (c.inline i).isSome) ∨
    (c.slots i = .child ∧ (c.children i).isSome)

theorem Cell.Pristine.blank : (Cell.blank : Cell K V).Pristine :=
  ⟨rfl, fun _ => rfl, fun _ => Or.inl rfl⟩

/-- The nodes of an allocated tree are as they were built. -/
theorem Node.Pristine.cellAt {n : Node K V} (hn : n.Pristine) :
    ∀ (path : List ℕ) (x : NodeId) (route : List (Edge K)), (n.cellAt x route path).Pristine := by
  induction hn with
  | @mk h st kv ch hst hch ih =>
    rintro (_ | ⟨i, path⟩) x route
    · refine ⟨rfl, fun _ => rfl, fun i => ?_⟩
      rcases hst i with hs | hs | ⟨hs, hne⟩
      · exact Or.inl hs
      · exact Or.inr (Or.inl hs)
      · refine Or.inr (Or.inr ⟨hs, ?_⟩)
        rw [Mem.cellAt_children _ hne]
        rfl
    · rw [Node.cellAt]
      by_cases hi : ch i = .null
      · rw [hi]
        exact .blank
      · exact ih i hi path _ _

/-! ## Slots -/

/-- The slot was buried, or a child took the place of what it held. -/
def Cell.Buried (c : Cell K V) (i : ℕ) : Prop := c.slots i = .tombstone ∨ (c.slots i).isChild

theorem Cell.not_buried {c : Cell K V} {i : ℕ} (h : c.slots i = .data) : ¬ c.Buried i := by
  rintro (hb | hb) <;> rw [h] at hb <;> cases hb

theorem Cell.Buried.update {c : Cell K V} {i j : ℕ} {st : SlotState} (h : c.Buried j)
    (hs : j = i → c.slots i ≠ st → st = .tombstone ∨ st.isChild) :
    Function.update c.slots i st j = .tombstone ∨ (Function.update c.slots i st j).isChild := by
  rw [Function.update_apply]
  split_ifs with hj
  · subst hj
    by_cases he : c.slots j = st
    · rw [← he]
      exact h
    · exact hs rfl he
  · exact h

variable [LinearOrder K] [Key K] {m m' : Mem K V} {th : Thread K V}

omit [LinearOrder K] [Key K] in
theorem Mem.modify_cases {x n : NodeId} {f : Cell K V → Cell K V} {P : Cell K V → Prop}
    (h : P (m.cells n)) (hf : n = x → P (m.cells x) → P (f (m.cells x))) :
    P ((m.modify x f).cells n) := by
  by_cases hn : n = x
  · subst hn
    rw [Mem.modify_cells_self]
    exact hf rfl h
  · rw [show (m.modify x f).cells n = m.cells n from Function.update_of_ne hn _ _]
    exact h

omit [LinearOrder K] [Key K] in
theorem Mem.placeChild_cases {x n : NodeId} {i : ℕ} {tree : Node K V}
    {set : Cell K V → NodeId → Cell K V} {P : Cell K V → Prop} (hx : x.alloc < m.next)
    (h : P ((m.place false ((m.cells x).route ++ [⟨x, (m.cells x).head, i⟩]) tree).cells n))
    (hf : n = x → P (m.cells x) → P (set (m.cells x) (m.fresh false))) :
    P ((m.placeChild x i tree set).cells n) := by
  refine Mem.modify_cases h fun hn hp => ?_
  rw [Mem.place_cells hx] at hp ⊢
  exact hf hn hp

/-- **A buried slot stays buried.** -/
theorem Effect.buried (he : Effect m th m') (hok : th.Ok m) (hl : th.Locks m) {n : NodeId} {i : ℕ}
    (hn : n.alloc < m.next) (h : (m.cells n).Buried i) : (m'.cells n).Buried i := by
  have hplace : ∀ {r : Bool} {route : List (Edge K)} {tree : Node K V},
      ((m.place r route tree).cells n).Buried i := by
    intro r route tree
    rw [Mem.place_cells hn]
    exact h
  cases he with
  | quiet _ hc => rw [hc]; exact h
  | claim => exact Mem.modify_cases (P := (Cell.Buried · i)) h fun _ h => h
  | bury =>
    exact Mem.modify_cases (P := (Cell.Buried · i)) h fun _ h => h.update fun _ _ => Or.inl rfl
  | publishData hpc hw =>
    simp only [Thread.Locks, hpc, hw] at hl
    refine Mem.modify_cases (P := (Cell.Buried · i)) h fun _ h => h.update fun hi _ => ?_
    subst hi
    rcases h with h | h <;> rw [hl.2] at h <;> cases h
  | publishChild hpc =>
    simp only [Thread.Ok, hpc] at hok
    obtain ⟨k, hat, -⟩ := hok
    exact Mem.placeChild_cases (P := (Cell.Buried · i)) hat.1.2.2.curWF.alloc hplace
      fun _ h => h.update fun _ _ => Or.inr rfl
  | count => exact Mem.modify_cases (P := (Cell.Buried · i)) h fun _ h => h
  | freeze => exact Mem.modify_cases (P := (Cell.Buried · i)) h fun _ h => h
  | unfreeze => exact Mem.modify_cases (P := (Cell.Buried · i)) h fun _ h => h
  | @swapChild p i c₀ c pairs tree hpc hf =>
    simp only [Thread.Ok, hpc] at hok
    obtain ⟨k, ⟨⟨⟨hat, -⟩, -⟩, -⟩, -⟩ := hok
    exact Mem.placeChild_cases (P := (Cell.Buried · _))
      ((hat.2.2.descent p i c₀ hf).parent ▸ hat.2.2.rootWF.alloc) hplace fun _ h => h
  | freezeRoot => exact h
  | unfreezeRoot => exact h
  | swapRoot => exact hplace
  | swapEmpty => exact hplace

/-! ## The counter of a node -/

/-- What an update is about to attach counts no tombstone. -/
def Thread.AttachesNone (th : Thread K V) : Prop :=
  ∀ prev child isNew, th.write = .attach prev child isNew → child.Pristine

/-- The nodes count what they counted; new nodes are as they were built. -/
def Mem.SameTombstones (m m' : Mem K V) : Prop :=
  ∀ n, (m'.cells n).numTombstones = (m.cells n).numTombstones ∧
      (m.next ≤ n.alloc → m'.next ≤ n.alloc) ∨
    m.next ≤ n.alloc ∧ (m'.cells n).Pristine

namespace Mem.SameTombstones
omit [LinearOrder K] [Key K]

theorem of_cells (h : m'.cells = m.cells) (hn : m'.next = m.next) : m.SameTombstones m' :=
  fun _ => Or.inl ⟨by rw [h], fun hle => hn.trans_le hle⟩

theorem modify {x : NodeId} {f : Cell K V → Cell K V}
    (hf : (f (m.cells x)).numTombstones = (m.cells x).numTombstones) :
    m.SameTombstones (m.modify x f) := by
  intro n
  refine Or.inl ⟨?_, id⟩
  refine Mem.modify_cases (P := fun c => c.numTombstones = (m.cells n).numTombstones) rfl
    fun _ h => ?_
  rw [hf]
  exact h

theorem place {r : Bool} {route : List (Edge K)} {tree : Node K V} (ht : tree.Pristine) :
    m.SameTombstones (m.place r route tree) := by
  intro n
  by_cases hn : n.alloc = m.next
  · rw [show (m.place r route tree).cells n = tree.cellAt (m.fresh r) route n.path from if_pos hn]
    exact Or.inr ⟨hn.ge, ht.cellAt _ _ _⟩
  · rw [show (m.place r route tree).cells n = m.cells n from if_neg hn]
    exact Or.inl ⟨rfl, fun hle => lt_of_le_of_ne hle (Ne.symm hn)⟩

theorem placeChild {x : NodeId} {i : ℕ} {tree : Node K V} {set : Cell K V → NodeId → Cell K V}
    (hx : x.alloc < m.next) (ht : tree.Pristine)
    (hs : (set (m.cells x) (m.fresh false)).numTombstones = (m.cells x).numTombstones) :
    m.SameTombstones (m.placeChild x i tree set) := by
  intro n
  refine Mem.placeChild_cases (P := fun c => c.numTombstones = (m.cells n).numTombstones ∧
    (m.next ≤ n.alloc → m.next + 1 ≤ n.alloc) ∨ m.next ≤ n.alloc ∧ c.Pristine) hx (place ht n)
    fun hn h => ?_
  subst hn
  exact Or.inl ⟨hs, fun hle => absurd hx (not_lt.2 hle)⟩

end Mem.SameTombstones

section Steps
variable {config : Config} {next : Next K V}

theorem subSwap_sameTombstones {c : NodeId} {pairs : List (K × V)}
    (hpc : th.pc = .subSwap c pairs) (hok : th.Ok m)
    (h : stepSubSwap config m th c pairs = some (m', next)) : m.SameTombstones m' := by
  simp only [Thread.Ok, hpc] at hok
  obtain ⟨k, ⟨⟨⟨hat, -⟩, -⟩, -⟩, -⟩ := hok
  unfold stepSubSwap at h
  split at h
  · cases h
    exact .of_cells rfl rfl
  · rename_i p i c₀ hf
    have hp : p.alloc < m.next := (hat.2.2.descent p i c₀ hf).parent ▸ hat.2.2.rootWF.alloc
    dsimp only at h
    split_ifs at h
    · cases h; exact .modify rfl
    · cases h; exact .of_cells rfl rfl
    · obtain ⟨tree, hb, h⟩ := Option.bind_eq_some_iff.1 h
      cases h
      exact .placeChild hp (.buildRecursive _ _ _ _ hb) rfl
    · obtain ⟨tree, hb, h⟩ := Option.bind_eq_some_iff.1 h
      cases h
      exact .of_cells rfl rfl

omit [LinearOrder K] [Key K] in
theorem swapEmpty_sameTombstones {r : NodeId} {pairs : List (K × V)} :
    m.SameTombstones (swapEmpty m th r pairs).1 := by
  unfold swapEmpty
  dsimp only
  split_ifs
  · exact .place (.withHeader _)
  · exact .of_cells rfl rfl

theorem rootSwap_sameTombstones {r : NodeId} {pairs : List (K × V)}
    (h : stepRootSwap config m th r pairs = some (m', next)) : m.SameTombstones m' := by
  have hun : m.SameTombstones (unfreezeRoot m r) := by
    unfold unfreezeRoot
    split_ifs <;> exact .of_cells rfl rfl
  unfold stepRootSwap at h
  split at h
  · rw [show m' = (swapEmpty m th r pairs).1 from (congrArg Prod.fst (Option.some.inj h)).symm]
    exact swapEmpty_sameTombstones
  · rw [show m' = (swapEmpty m th r pairs).1 from (congrArg Prod.fst (Option.some.inj h)).symm]
    exact swapEmpty_sameTombstones
  · unfold swapRebuilt at h
    by_cases hempty : pairs.isEmpty = true
    · rw [if_pos hempty] at h
      cases h
      exact hun
    · rw [if_neg hempty] at h
      obtain ⟨built, hb, h⟩ := Option.bind_eq_some_iff.1 h
      cases built with
      | error e => cases h; exact hun
      | ok tree =>
        dsimp only at h
        split_ifs at h
        · cases h; exact .place (.bulkLoad hb)
        · cases h; exact .of_cells rfl rfl

/-- **Only the step that counts a tombstone changes the counter of a node.** -/
theorem step_sameTombstones [LawfulKey K] (hc : 0 ≤ config.rangeHeadroom) (hok : th.Ok m) (hl : th.Locks m)
    (ha : th.AttachesNone) (hpc : th.pc ≠ .countTombstone)
    (h : th.step config m = some (m', next)) : m.SameTombstones m' := by
  have he := step_effect hc hok hl h
  cases he with
  | quiet _ hc hn => exact .of_cells hc hn
  | claim => exact .modify rfl
  | bury => exact .modify rfl
  | publishData => exact .modify rfl
  | publishChild hpc hw =>
    simp only [Thread.Ok, hpc] at hok
    obtain ⟨k, hat, -⟩ := hok
    exact .placeChild hat.1.2.2.curWF.alloc (ha _ _ _ hw) rfl
  | count d hp => exact absurd hp hpc
  | freeze => exact .modify rfl
  | unfreeze => exact .modify rfl
  | swapChild hp =>
    simp only [Thread.step, hp] at h
    exact subSwap_sameTombstones hp hok h
  | freezeRoot => exact .of_cells rfl rfl
  | unfreezeRoot => exact .of_cells rfl rfl
  | swapRoot hp =>
    simp only [Thread.step, hp] at h
    exact rootSwap_sameTombstones h
  | swapEmpty hp =>
    simp only [Thread.step, hp] at h
    exact rootSwap_sameTombstones h

end Steps

end Scry.Index
