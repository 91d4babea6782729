/-
  Traversals of the shared memory.

  A rebuild collects the pairs of a tree while other threads change it.  The keys that
  are collected lie below those that are still ahead on the stack (`WalkOk`), so each key
  is met once; what a traversal delivers for a key fulfils a property if the tree holds
  something with that property whenever the traversal comes to the key (`Delivers`).
-/
import Scry.Index.Proof.Change

namespace Scry.Index

variable {K V : Type} [LinearOrder K] [Key K]

/-- What a step of a traversal can do. -/
inductive Visits (m : Mem K V) (w : Walk K V) : Walk K V → Prop
  /-- the node on top is done -/
  | pop {n : NodeId} {i : ℕ} {rest : List (NodeId × ℕ)} (hs : w.stack = (n, i) :: rest)
      (hi : (m.cells n).head.capacity ≤ i) : Visits m w { w with stack := rest }
  /-- it descends into the child of the slot -/
  | descend {n : NodeId} {i : ℕ} {rest : List (NodeId × ℕ)} {p : Ptr}
      (hs : w.stack = (n, i) :: rest) (hl : w.loading = true)
      (hc : ((m.cells n).slots i).isChild) (hp : (m.cells n).children i = some p) :
      Visits m w { w with stack := (p.node, 0) :: (n, i + 1) :: rest, loading := false }
  /-- it collects the pair of the slot -/
  | item {n : NodeId} {i : ℕ} {rest : List (NodeId × ℕ)} {k : K} {v : V}
      (hs : w.stack = (n, i) :: rest) (hl : w.loading = false)
      (hd : (m.cells n).slots i = .data) (hp : (m.cells n).inline i = some (k, v)) :
      Visits m w { w with stack := (n, i + 1) :: rest, pairs := w.pairs ++ [(k, v)] }
  /-- it sees that the slot has a child -/
  | see {n : NodeId} {i : ℕ} {rest : List (NodeId × ℕ)} (hs : w.stack = (n, i) :: rest)
      (hi : i < (m.cells n).head.capacity) (hc : ((m.cells n).slots i).isChild) :
      Visits m w { w with loading := true }
  /-- it waits -/
  | wait : Visits m w w
  /-- it skips a slot that holds nothing -/
  | skip {n : NodeId} {i : ℕ} {rest : List (NodeId × ℕ)} (hs : w.stack = (n, i) :: rest)
      (hl : w.loading = false) (hc : ((m.cells n).slots i).isChild = false)
      (hd : (m.cells n).slots i ≠ .data) :
      Visits m w { w with stack := (n, i + 1) :: rest }

omit [LinearOrder K] [Key K] in
theorem Walk.stack_of_done {m : Mem K V} {w : Walk K V} (h : w.step m = none) : w.stack = [] := by
  unfold Walk.step at h
  split at h
  · assumption
  · exfalso
    revert h
    dsimp only
    split_ifs
    · nofun
    · split <;> nofun
    · split
      · split <;> nofun
      all_goals nofun

/-- The traversal of the tree at `c` is in order: the node of each frame lies below the
    slot that the frame beneath has just left, and the collected keys are below all keys
    that are ahead. -/
structure WalkOk (m : Mem K V) (c : NodeId) (w : Walk K V) : Prop where
  wf : ∀ f ∈ w.stack, m.NodeWF f.1
  nested : w.stack.Pairwise fun f g =>
    ∀ k, (m.cells f.1).Routes k → (m.cells g.1).Routes k ∧ (m.cells g.1).slotOf k < g.2
  loading : w.loading = true → ∃ n i rest, w.stack = (n, i) :: rest ∧
    i < (m.cells n).head.capacity ∧ ((m.cells n).slots i).isChild
  pairs : Ascending w.pairs
  behind : ∀ a ∈ w.pairs, ∀ f ∈ w.stack, ∀ k, (m.cells f.1).Routes k →
    f.2 ≤ (m.cells f.1).slotOf k → a.1 < k
  within : ∀ f ∈ w.stack, ∀ k, (m.cells f.1).Routes k → (m.cells c).Routes k
  routed : ∀ a ∈ w.pairs, (m.cells c).Routes a.1
  below : ∀ f ∈ w.stack, f.1 = c ∨ f.1.isRoot = false

/-- What the traversal collects for the key fulfils `P`. -/
structure Delivers (P : Option V → Prop) (m : Mem K V) (k : K) (w : Walk K V) : Prop where
  found : ∀ v, w.pairs.lookup k = some v → P (some v)
  ahead : ∀ f ∈ w.stack, (m.cells f.1).Routes k → f.2 ≤ (m.cells f.1).slotOf k →
    m.Sat P k f.1
  missed : w.pairs.lookup k = none →
    (∀ f ∈ w.stack, (m.cells f.1).Routes k → (m.cells f.1).slotOf k < f.2) → P none

variable {m m' : Mem K V} {c : NodeId} {w w' : Walk K V} {k : K} {P : Option V → Prop}

namespace WalkOk

theorem start (hc : m.NodeWF c) : WalkOk m c (.start c) where
  wf f hf := by rw [List.mem_singleton.1 hf]; exact hc
  nested := List.pairwise_singleton _ _
  loading h := by cases h
  pairs := ascending_nil
  behind a ha := by cases ha
  within f hf k hk := by rw [List.mem_singleton.1 hf] at hk; exact hk
  routed a ha := by cases ha
  below f hf := by rw [List.mem_singleton.1 hf]; exact Or.inl rfl

/-- **Step inversion** of a traversal. -/
theorem visits (h : WalkOk m c w) (hs : w.step m = some w') : Visits m w w' := by
  unfold Walk.step at hs
  split at hs
  · cases hs
  rename_i n i rest hstack
  have hn := h.wf (n, i) (by rw [hstack]; exact List.mem_cons_self)
  dsimp only at hs
  by_cases hcap : i ≥ (m.cells n).head.capacity
  · rw [if_pos hcap] at hs
    cases hs
    exact .pop hstack hcap
  rw [if_neg hcap] at hs
  by_cases hl : w.loading = true
  · rw [if_pos hl] at hs
    obtain ⟨n', i', rest', hstack', -, hc⟩ := h.loading hl
    rw [hstack] at hstack'
    cases hstack'
    obtain ⟨p, hp, -⟩ := hn.cell.child i hc
    rw [hp] at hs
    cases hs
    exact .descend hstack hl hc hp
  rw [if_neg hl] at hs
  have hl : w.loading = false := by simpa using hl
  split at hs
  · rename_i hst
    have hd := ((Cell.state_eq (by decide)).1 hst).2
    obtain ⟨k, v, hkv, -⟩ := hn.cell.data i hd
    rw [hkv] at hs
    cases hs
    exact .item hstack hl hd hkv
  · rename_i hst
    cases hs
    exact .see hstack (by omega) (by rw [((Cell.state_eq (by decide)).1 hst).2]; rfl)
  · rename_i hst
    cases hs
    exact .see hstack (by omega) (by rw [((Cell.state_eq (by decide)).1 hst).2]; rfl)
  · cases hs
    exact .wait
  · rename_i hdata hchild hstale hwriting
    cases hs
    have hcl : (m.cells n).claimed i = false := by
      by_contra hcl
      exact hwriting (Cell.state_of_claimed (by simpa using hcl))
    have hst : (m.cells n).state i = (m.cells n).slots i := by rw [Cell.state, hcl]; rfl
    rw [hst] at hdata hchild hstale hwriting
    refine .skip hstack hl ?_ hdata
    cases hsl : (m.cells n).slots i with
    | child => exact absurd hsl hchild
    | childStale => exact absurd hsl hstale
    | _ => rfl

/-- Below the frame on top nothing that the top holds is ahead. -/
theorem not_ahead (h : WalkOk m c w) {n : NodeId} {i : ℕ} {rest : List (NodeId × ℕ)}
    (hs : w.stack = (n, i) :: rest) (hk : (m.cells n).Routes k) :
    ∀ f ∈ rest, (m.cells f.1).Routes k ∧ (m.cells f.1).slotOf k < f.2 := by
  have := h.nested
  rw [hs] at this
  exact fun f hf => (List.pairwise_cons.1 this).1 f hf k hk

theorem evolve (h : WalkOk m c w) (hc : c.alloc < m.next) (he : m.Evolves m') : WalkOk m' c w := by
  have hr : ∀ f ∈ w.stack, ∀ k, (m'.cells f.1).Routes k ↔ (m.cells f.1).Routes k :=
    fun f hf => he.routes (h.wf f hf).alloc
  have hslot : ∀ f ∈ w.stack, ∀ k, (m'.cells f.1).slotOf k = (m.cells f.1).slotOf k :=
    fun f hf => he.slotOf (h.wf f hf).alloc
  refine ⟨fun f hf => he.wf _ (h.wf f hf), h.nested.imp_of_mem fun {f g} hf hg hfg k hk => ?_,
    fun hl => ?_, h.pairs, fun a ha f hf k hk hs => ?_, fun f hf k hk => ?_, fun a ha => ?_,
    h.below⟩
  · rw [hr f hf] at hk
    rw [hr g hg, hslot g hg]
    exact hfg k hk
  · obtain ⟨n, i, rest, hs, hcap, hch⟩ := h.loading hl
    have ha := (h.wf (n, i) (by rw [hs]; exact List.mem_cons_self)).alloc
    exact ⟨n, i, rest, hs, by rw [he.head n ha]; exact hcap, he.child n i ha hch⟩
  · rw [hr f hf] at hk
    rw [hslot f hf] at hs
    exact h.behind a ha f hf k hk hs
  · rw [hr f hf] at hk
    rw [he.routes hc]
    exact h.within f hf k hk
  · rw [he.routes hc]
    exact h.routed a ha

/-- The stack moves on without a new pair. -/
theorem advance (h : WalkOk m c w) {n : NodeId} {i : ℕ} {rest : List (NodeId × ℕ)}
    (hs : w.stack = (n, i) :: rest) : WalkOk m c ⟨(n, i + 1) :: rest, false, w.pairs⟩ := by
  have hmem : ∀ f ∈ (n, i + 1) :: rest, ∃ j, (f.1, j) ∈ w.stack ∧ j ≤ f.2 := by
    intro f hf
    rcases List.mem_cons.1 hf with rfl | hf
    · exact ⟨i, by rw [hs]; exact List.mem_cons_self, Nat.le_succ i⟩
    · exact ⟨f.2, by rw [hs]; exact List.mem_cons_of_mem _ hf, le_rfl⟩
  refine ⟨fun f hf => ?_, ?_, nofun, h.pairs, fun a ha f hf k hk hslot => ?_,
    fun f hf k hk => ?_, h.routed, fun f hf => ?_⟩
  · obtain ⟨j, hj, -⟩ := hmem f hf
    exact h.wf (f.1, j) hj
  · have := h.nested
    rw [hs] at this
    exact List.pairwise_cons.2 (List.pairwise_cons.1 this)
  · obtain ⟨j, hj, hle⟩ := hmem f hf
    exact h.behind a ha (f.1, j) hj k hk (hle.trans hslot)
  · obtain ⟨j, hj, -⟩ := hmem f hf
    exact h.within (f.1, j) hj k hk
  · obtain ⟨j, hj, -⟩ := hmem f hf
    exact h.below (f.1, j) hj

/-- The traversal goes on in the child of the slot on top, from its slot `j` on. -/
theorem enter (h : WalkOk m c w) {n : NodeId} {i : ℕ} {rest : List (NodeId × ℕ)} {p : Ptr}
    (hst : w.stack = (n, i) :: rest) (hc : ((m.cells n).slots i).isChild)
    (hp : (m.cells n).children i = some p) (j : ℕ) :
    WalkOk m c ⟨(p.node, j) :: (n, i + 1) :: rest, false, w.pairs⟩ := by
  have hn := h.wf (n, i) (by rw [hst]; exact List.mem_cons_self)
  have ha := h.advance hst
  have hbelow : ∀ k, (m.cells p.node).Routes k →
      (m.cells n).Routes k ∧ (m.cells n).slotOf k = i := fun k => (hn.routes_child hc hp k).1
  refine ⟨fun f hf => ?_, List.pairwise_cons.2 ⟨fun f hf k hk => ?_, ha.nested⟩,
    nofun, h.pairs, fun a hm f hf k hk hslot => ?_, fun f hf k hk => ?_, h.routed, fun f hf => ?_⟩
  · rcases List.mem_cons.1 hf with rfl | hf
    · exact hn.ofChild hc hp
    · exact ha.wf f hf
  · obtain ⟨hk, hki⟩ := hbelow k hk
    rcases List.mem_cons.1 hf with rfl | hf
    · exact ⟨hk, by rw [hki]; exact Nat.lt_succ_self i⟩
    · exact h.not_ahead hst hk f hf
  · rcases List.mem_cons.1 hf with rfl | hf
    · obtain ⟨hk, hki⟩ := hbelow k hk
      exact h.behind a hm (n, i) (by rw [hst]; exact List.mem_cons_self) k hk hki.ge
    · exact ha.behind a hm f hf k hk hslot
  · rcases List.mem_cons.1 hf with rfl | hf
    · exact h.within (n, i) (by rw [hst]; exact List.mem_cons_self) k (hbelow k hk).1
    · exact ha.within f hf k hk
  · rcases List.mem_cons.1 hf with rfl | hf
    · obtain ⟨q, hq, hr, -⟩ := hn.cell.child i hc
      exact Or.inr (Option.some.inj (hp.symm.trans hq) ▸ hr)
    · exact ha.below f hf

/-- **A step keeps a traversal in order.** -/
theorem step [LawfulKey K] (h : WalkOk m c w) (hs : w.step m = some w') : WalkOk m c w' := by
  cases h.visits hs with
  | wait => exact h
  | @pop n i rest hst hi =>
    have hsub : ∀ f ∈ rest, f ∈ w.stack := fun f hf => by
      rw [hst]; exact List.mem_cons_of_mem _ hf
    refine ⟨fun f hf => h.wf f (hsub f hf), ?_, fun hl => ?_, h.pairs,
      fun a ha f hf => h.behind a ha f (hsub f hf), fun f hf => h.within f (hsub f hf), h.routed,
      fun f hf => h.below f (hsub f hf)⟩
    · have := h.nested
      rw [hst] at this
      exact (List.pairwise_cons.1 this).2
    · -- a frame whose child is loaded next is not done
      obtain ⟨n', i', rest', hst', hcap, -⟩ := h.loading hl
      rw [hst] at hst'
      cases hst'
      omega
  | descend hst hl hc hp => exact h.enter hst hc hp 0
  | @item n i rest k₀ v hst hl hd hp =>
    have hn := h.wf (n, i) (by rw [hst]; exact List.mem_cons_self)
    have ha := h.advance hst
    obtain ⟨k₁, v₁, hkv, hslot, hroutes⟩ := hn.cell.data i hd
    obtain ⟨rfl, rfl⟩ := Prod.mk.inj (Option.some.inj (hp.symm.trans hkv))
    refine ⟨ha.wf, ha.nested, fun h' => absurd h' (by simp [hl]), ?_,
      fun a hm f hf k hk hs' => ?_, ha.within, fun a hm => ?_, ha.below⟩
    · refine ascending_append.2 ⟨h.pairs, List.pairwise_singleton _ _, fun a ha b hb => ?_⟩
      rw [List.mem_singleton.1 hb]
      exact h.behind a ha (n, i) (by rw [hst]; exact List.mem_cons_self) k₀ hroutes hslot.ge
    · rcases List.mem_append.1 hm with hm | hm
      · exact ha.behind a hm f hf k hk hs'
      · -- the collected key is below those of later slots
        rw [List.mem_singleton.1 hm]
        have hv := (ha.wf f hf).cell.head
        refine hv.lt_of_predictSlot_lt (lt_of_lt_of_le ?_ hs')
        rcases List.mem_cons.1 hf with rfl | hf
        · exact hslot.trans_lt (Nat.lt_succ_self i)
        · exact (h.not_ahead hst hroutes f hf).2
    · rcases List.mem_append.1 hm with hm | hm
      · exact h.routed a hm
      · rw [List.mem_singleton.1 hm]
        exact h.within (n, i) (by rw [hst]; exact List.mem_cons_self) k₀ hroutes
  | @see n i rest hst hi hc =>
    exact ⟨h.wf, h.nested, fun _ => ⟨n, i, rest, hst, hi, hc⟩, h.pairs, h.behind, h.within,
      h.routed, h.below⟩
  | @skip n i rest hst hl hc hd =>
    have ha := h.advance hst
    exact ⟨ha.wf, ha.nested, fun h' => absurd h' (by simp [hl]), ha.pairs, ha.behind, ha.within,
      ha.routed, ha.below⟩

end WalkOk

namespace Delivers

theorem start (hs : m.Sat P k c) (hr : (m.cells c).Routes k) : Delivers P m k (.start c) where
  found v h := by cases h
  ahead f hf _ _ := by rw [List.mem_singleton.1 hf]; exact hs
  missed _ h := absurd (h (c, 0) List.mem_cons_self hr) (Nat.not_lt_zero _)

/-- What a finished traversal collected. -/
theorem done (h : Delivers P m k w) (hs : w.stack = []) : P (w.pairs.lookup k) := by
  cases hk : w.pairs.lookup k with
  | some v => exact h.found v hk
  | none => exact h.missed hk fun f hf => by rw [hs] at hf; cases hf

theorem of_lookup {pairs : List (K × V)} (h : P (pairs.lookup k)) :
    Delivers P m k ⟨[], false, pairs⟩ where
  found v hk := by rwa [← hk]
  ahead f hf := by cases hf
  missed hk _ := by rwa [← hk]

theorem imp {Q : Option V → Prop} (h : Delivers P m k w) (hPQ : ∀ o, P o → Q o) :
    Delivers Q m k w where
  found v hv := hPQ _ (h.found v hv)
  ahead f hf hr hs := (h.ahead f hf hr hs).imp hPQ
  missed hk hp := hPQ _ (h.missed hk hp)

/-- Other steps that keep the property where the traversal has still to come to the key. -/
theorem mono_ahead (h : Delivers P m k w) (hw : ∀ f ∈ w.stack, m.NodeWF f.1) (he : m.Evolves m')
    (hsat : ∀ f ∈ w.stack, (m.cells f.1).Routes k → f.2 ≤ (m.cells f.1).slotOf k →
      m.Sat P k f.1 → m'.Sat P k f.1) : Delivers P m' k w where
  found := h.found
  ahead f hf hr hs := by
    rw [he.routes (hw f hf).alloc] at hr
    rw [he.slotOf (hw f hf).alloc] at hs
    exact hsat f hf hr hs (h.ahead f hf hr hs)
  missed hk hp := h.missed hk fun f hf hr => by
    rw [← he.slotOf (hw f hf).alloc]
    exact hp f hf ((he.routes (hw f hf).alloc k).2 hr)

/-- Other steps that keep the property on all nodes of the stack. -/
theorem mono (h : Delivers P m k w) (hw : ∀ f ∈ w.stack, m.NodeWF f.1) (he : m.Evolves m')
    (hsat : ∀ f ∈ w.stack, m.Sat P k f.1 → m'.Sat P k f.1) : Delivers P m' k w :=
  h.mono_ahead hw he fun f hf _ _ => hsat f hf

/-- The keys of a slot that has no child are met there. -/
theorem meet (h : Delivers P m k w) {n : NodeId} {i : ℕ}
    {rest : List (NodeId × ℕ)} (hst : w.stack = (n, i) :: rest)
    (hc : ((m.cells n).slots i).isChild = false) (hr : (m.cells n).Routes k)
    (hs : (m.cells n).slotOf k = i) : P ((m.cells n).leafGet i k) := by
  have := h.ahead (n, i) (by rw [hst]; exact List.mem_cons_self) hr hs.ge
  rw [Mem.sat_leaf (by rw [hs]; exact hc), hs] at this
  exact this

/-- **A step keeps what a traversal delivers.** -/
theorem step (hok : WalkOk m c w) (h : Delivers P m k w) (hs : w.step m = some w') :
    Delivers P m k w' := by
  -- frames that stay, or whose slot is passed
  have hadv : ∀ {n : NodeId} {i : ℕ} {rest : List (NodeId × ℕ)}, w.stack = (n, i) :: rest →
      ∀ f ∈ (n, i + 1) :: rest, (m.cells f.1).Routes k → f.2 ≤ (m.cells f.1).slotOf k →
        m.Sat P k f.1 := by
    intro n i rest hst f hf hr hle
    rcases List.mem_cons.1 hf with rfl | hf
    · exact h.ahead (n, i) (by rw [hst]; exact List.mem_cons_self) hr (Nat.le_of_succ_le hle)
    · exact h.ahead f (by rw [hst]; exact List.mem_cons_of_mem _ hf) hr hle
  -- a key that is passed now was passed before, unless its slot is the current one
  have hpass : ∀ {n : NodeId} {i : ℕ} {rest : List (NodeId × ℕ)}, w.stack = (n, i) :: rest →
      (∀ f ∈ (n, i + 1) :: rest, (m.cells f.1).Routes k → (m.cells f.1).slotOf k < f.2) →
      ((m.cells n).Routes k ∧ (m.cells n).slotOf k = i) ∨
        ∀ f ∈ w.stack, (m.cells f.1).Routes k → (m.cells f.1).slotOf k < f.2 := by
    intro n i rest hst hp
    by_cases hk : (m.cells n).Routes k ∧ (m.cells n).slotOf k = i
    · exact Or.inl hk
    refine Or.inr fun f hf hr => ?_
    rw [hst] at hf
    rcases List.mem_cons.1 hf with rfl | hf
    · have := hp (n, i + 1) List.mem_cons_self hr
      have hne : (m.cells n).slotOf k ≠ i := fun he => hk ⟨hr, he⟩
      dsimp only at this ⊢
      omega
    · exact hp f (List.mem_cons_of_mem _ hf) hr
  cases hok.visits hs with
  | wait => exact h
  | @pop n i rest hst hi =>
    refine ⟨h.found, fun f hf => h.ahead f (by rw [hst]; exact List.mem_cons_of_mem _ hf),
      fun hk hp => h.missed hk fun f hf hr => ?_⟩
    rw [hst] at hf
    rcases List.mem_cons.1 hf with rfl | hf
    · have hn := hok.wf (n, i) (by rw [hst]; exact List.mem_cons_self)
      exact (hn.cell.head.predictSlot_lt k).trans_le hi
    · exact hp f hf hr
  | @descend n i rest p hst hl hc hp =>
    have hn := hok.wf (n, i) (by rw [hst]; exact List.mem_cons_self)
    refine ⟨h.found, fun f hf hr hle => ?_, fun hk hpassed => ?_⟩
    · rcases List.mem_cons.1 hf with rfl | hf
      · obtain ⟨hr, hki⟩ := (hn.routes_child hc hp k).1 hr
        have := h.ahead (n, i) (by rw [hst]; exact List.mem_cons_self) hr hki.ge
        exact (Mem.sat_child (by rw [hki]; exact hc) (by rw [hki]; exact hp)).1 this
      · exact hadv hst f hf hr hle
    · rcases hpass hst fun f hf => hpassed f (List.mem_cons_of_mem _ hf) with hki | hold
      · exact absurd (hpassed (p.node, 0) List.mem_cons_self ((hn.routes_child hc hp k).2 hki))
          (Nat.not_lt_zero _)
      · exact h.missed hk hold
  | @item n i rest k₀ v hst hl hd hp =>
    have hc : ((m.cells n).slots i).isChild = false := by rw [hd]; rfl
    have hn := hok.wf (n, i) (by rw [hst]; exact List.mem_cons_self)
    obtain ⟨k₁, v₁, hkv, hslot, hroutes⟩ := hn.cell.data i hd
    obtain ⟨rfl, rfl⟩ := Prod.mk.inj (Option.some.inj (hp.symm.trans hkv))
    refine ⟨fun v' hk => ?_, hadv hst, fun hk hpassed => ?_⟩
    · rw [lookup_append] at hk
      cases hold : w.pairs.lookup k with
      | some v₂ =>
        rw [hold] at hk
        cases hk
        exact h.found _ hold
      | none =>
        rw [hold, Option.none_or, lookup_cons_ite] at hk
        split_ifs at hk with hkk
        · subst hkk
          have := h.meet hst hc hroutes hslot
          rw [Cell.leafGet_data hd hp, if_pos rfl] at this
          exact hk ▸ this
        · cases hk
    · rw [lookup_append] at hk
      obtain ⟨hk, hk₀⟩ := Option.or_eq_none_iff.1 hk
      rcases hpass hst hpassed with ⟨hr, hki⟩ | hold
      · have := h.meet hst hc hr hki
        rw [Cell.leafGet_data hd hp, if_neg] at this
        · exact this
        · rintro rfl
          simp at hk₀
      · exact h.missed hk hold
  | @see n i rest hst hi hc => exact ⟨h.found, h.ahead, h.missed⟩
  | @skip n i rest hst hl hc hd =>
    refine ⟨h.found, hadv hst, fun hk hpassed => ?_⟩
    rcases hpass hst hpassed with ⟨hr, hki⟩ | hold
    · have := h.meet hst hc hr hki
      rwa [Cell.leafGet_of_ne_data hd] at this
    · exact h.missed hk hold

end Delivers

end Scry.Index
