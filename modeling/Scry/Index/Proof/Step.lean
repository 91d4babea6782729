/-
  What a step of an operation does to the shared memory (`Effect`).

  Most steps only read.  The others claim, publish or bury a slot, tag a pointer, swap in
  a tree that was built, or change a counter; each is one of the changes of
  `Scry.Index.Proof.Change`.
-/
import Scry.Index.Proof.Thread

namespace Scry.Index

variable {K V : Type} [LinearOrder K] [Key K] {m m' : Mem K V} {th : Thread K V}

/-- **Step inversion**: the memory after a step. -/
inductive Effect (m : Mem K V) (th : Thread K V) : Mem K V → Prop
  | quiet {m' : Mem K V} (hpc : th.pc ≠ .publish) (hc : m'.cells = m.cells)
      (hn : m'.next = m.next) (hr : m'.root = m.root) : Effect m th m'
  | claim (hpc : th.pc = .claim) (hs : (m.cells th.cur).state th.idx = th.write.prev)
      (hw : th.write ≠ .bury) : Effect m th (m.modify th.cur fun c => c.claim th.idx)
  | bury (hpc : th.pc = .claim) (hs : (m.cells th.cur).state th.idx = .data)
      (hw : th.write = .bury) : Effect m th (m.modify th.cur fun c => c.bury th.idx)
  | publishData {key : K} {v : V} (hpc : th.pc = .publish) (hw : th.write = .inline key v) :
      Effect m th (m.modify th.cur fun c => c.publishData th.idx key v)
  | publishChild {prev : SlotState} {child : Node K V} {isNew : Bool} (hpc : th.pc = .publish)
      (hw : th.write = .attach prev child isNew) :
      Effect m th (m.placeChild th.cur th.idx child fun c n => c.publishChild th.idx n)
  | count (d : ℤ) (hpc : th.pc = .countTombstone) :
      Effect m th (m.modify th.cur fun c => c.addTombstones d)
  | freeze {p : NodeId} {i : ℕ} {c₀ c : NodeId} (hpc : th.pc = .subFreeze c)
      (hf : th.first = some (p, i, c₀)) (hp : (m.cells p).children i = some ⟨c, false⟩) :
      Effect m th (m.modify p fun cell => cell.setChild i ⟨c, true⟩)
  | unfreeze {p : NodeId} {i : ℕ} {c₀ c : NodeId} {pairs : List (K × V)}
      (hpc : th.pc = .subSwap c pairs) (hf : th.first = some (p, i, c₀))
      (hp : (m.cells p).children i = some ⟨c, true⟩) :
      Effect m th (m.modify p fun cell => cell.setChild i ⟨c, false⟩)
  | swapChild {p : NodeId} {i : ℕ} {c₀ c : NodeId} {pairs : List (K × V)} {tree : Node K V}
      (hpc : th.pc = .subSwap c pairs) (hf : th.first = some (p, i, c₀))
      (hp : (m.cells p).children i = some ⟨c, true⟩) (ht : tree.Holds pairs)
      (hlen : 1 < pairs.length) : Effect m th (m.placeChild p i tree fun cell n => cell.setChild i ⟨n, false⟩)
  | freezeRoot {r : NodeId} (hpc : th.pc = .rootFreeze r) (hr : m.root = ⟨r, false⟩) :
      Effect m th { m with root := ⟨r, true⟩ }
  | unfreezeRoot {r : NodeId} {pairs : List (K × V)} (hpc : th.pc = .rootSwap r pairs)
      (hr : m.root = ⟨r, true⟩) : Effect m th { m with root := ⟨r, false⟩ }
  | swapRoot {r : NodeId} {pairs : List (K × V)} {tree : Node K V}
      (hpc : th.pc = .rootSwap r pairs) (hr : m.root = ⟨r, true⟩) (hd : th.call ≠ .drain)
      (hcl : th.call ≠ .clear) (ht : tree.Holds pairs) (hne : pairs ≠ []) :
      Effect m th (m.placeRoot tree)
  | swapEmpty {r : NodeId} {pairs : List (K × V)} (hpc : th.pc = .rootSwap r pairs)
      (hr : m.root = ⟨r, true⟩) (hcall : th.call = .drain ∨ th.call = .clear) :
      Effect m th (m.placeRoot LearnedMap.emptyRoot)

section Inversion
variable [LawfulKey K] {config : Config} {next : Next K V}

theorem subSwap_effect (hc : 0 ≤ config.rangeHeadroom) {c : NodeId} {pairs : List (K × V)}
    (hpc : th.pc = .subSwap c pairs) (hok : th.Ok m) (hl : th.Locks m)
    (h : stepSubSwap config m th c pairs = some (m', next)) : Effect m th m' := by
  simp only [Thread.Ok, hpc] at hok
  simp only [Thread.Locks, hpc] at hl
  obtain ⟨k, ⟨-, hf, -⟩, hasc, -⟩ := hok
  obtain ⟨⟨p, i, c₀⟩, hf⟩ := Option.isSome_iff_exists.1 hf
  have hp := hl p i c₀ hf
  simp only [stepSubSwap, hf, hp, if_true] at h
  split_ifs at h with hlen
  · cases h
    exact .unfreeze hpc hf hp
  · obtain ⟨tree, hb, h⟩ := Option.bind_eq_some_iff.1 h
    cases h
    have hne : pairs ≠ [] := by rintro rfl; simp at hlen
    exact .swapChild hpc hf hp (holds_of_buildRecursive (by exact hc) hne le_rfl hasc hb)
      (not_le.1 hlen)

theorem rootSwap_effect {r : NodeId} {pairs : List (K × V)}
    (hpc : th.pc = .rootSwap r pairs) (hl : th.Locks m)
    (h : stepRootSwap config m th r pairs = some (m', next)) : Effect m th m' := by
  simp only [Thread.Locks, hpc] at hl
  unfold stepRootSwap at h
  split at h
  · rename_i hcall
    simp only [swapEmpty, hl, if_true] at h
    cases h
    exact .swapEmpty hpc hl (Or.inl hcall)
  · rename_i hcall
    simp only [swapEmpty, hl, if_true] at h
    cases h
    exact .swapEmpty hpc hl (Or.inr hcall)
  · rename_i hd hcl
    unfold swapRebuilt at h
    by_cases he : pairs.isEmpty = true
    · rw [if_pos he] at h
      cases h
      rw [unfreezeRoot, if_pos hl]
      exact .unfreezeRoot hpc hl
    · rw [if_neg he] at h
      obtain ⟨built, hb, h⟩ := Option.bind_eq_some_iff.1 h
      cases built with
      | error e =>
        cases h
        rw [unfreezeRoot, if_pos hl]
        exact .unfreezeRoot hpc hl
      | ok tree =>
        dsimp only at h
        rw [if_pos hl] at h
        cases h
        exact .swapRoot hpc hl hd hcl (holds_of_bulkLoad zero_le_one hb)
          fun hn => he (List.isEmpty_iff.2 hn)

/-- **Step inversion.** -/
theorem step_effect (hc : 0 ≤ config.rangeHeadroom) (hok : th.Ok m) (hl : th.Locks m)
    (h : th.step config m = some (m', next)) : Effect m th m' := by
  cases hpc : th.pc with
  | claim =>
    simp only [Thread.step, hpc, stepClaim, Option.some.injEq] at h
    split_ifs at h with hs
    · split at h <;> cases h
      · rename_i hw
        exact .bury hpc (by rw [hs, hw]; rfl) hw
      · rename_i hw
        exact .claim hpc hs fun he => hw he
    · cases h
      exact .quiet (by rw [hpc]; nofun) rfl rfl rfl
  | publish =>
    simp only [Thread.step, hpc, stepPublish] at h
    split at h <;> cases h
    · rename_i hw
      exact .publishData hpc hw
    · rename_i hw
      exact .publishChild hpc hw
  | countTombstone =>
    simp only [Thread.step, hpc] at h
    cases h
    exact .count _ hpc
  | subFreeze c =>
    simp only [Thread.step, hpc, stepSubFreeze, Option.some.injEq] at h
    split at h
    · cases h
      exact .quiet (by rw [hpc]; nofun) rfl rfl rfl
    · rename_i hf
      split_ifs at h with hp
      · cases h
        exact .freeze hpc hf hp
      · cases h
        exact .quiet (by rw [hpc]; nofun) rfl rfl rfl
  | subSwap c pairs =>
    simp only [Thread.step, hpc] at h
    exact subSwap_effect hc hpc hok hl h
  | count =>
    simp only [Thread.step, hpc, stepCount, Option.some.injEq] at h
    split at h <;> cases h <;> exact .quiet (by rw [hpc]; nofun) rfl rfl rfl
  | casThreshold threshold =>
    simp only [Thread.step, hpc, stepCasThreshold, Option.some.injEq] at h
    split_ifs at h <;> cases h <;> exact .quiet (by rw [hpc]; nofun) rfl rfl rfl
  | rootFreeze r =>
    simp only [Thread.step, hpc, stepRootFreeze, Option.some.injEq] at h
    split_ifs at h with hr
    · cases h
      exact .freezeRoot hpc hr
    · cases h
      exact .quiet (by rw [hpc]; nofun) rfl rfl rfl
  | rootSwap r pairs =>
    simp only [Thread.step, hpc] at h
    exact rootSwap_effect hpc hl h
  | readSlot =>
    simp only [Thread.step, hpc] at h
    obtain ⟨n, -, hn⟩ := Option.map_eq_some_iff.1 h
    cases hn
    exact .quiet (by rw [hpc]; nofun) rfl rfl rfl
  | look n =>
    simp only [Thread.step, hpc] at h
    obtain ⟨n, -, hn⟩ := Option.map_eq_some_iff.1 h
    cases hn
    exact .quiet (by rw [hpc]; nofun) rfl rfl rfl
  | lookChild n =>
    simp only [Thread.step, hpc] at h
    obtain ⟨n, -, hn⟩ := Option.map_eq_some_iff.1 h
    cases hn
    exact .quiet (by rw [hpc]; nofun) rfl rfl rfl
  | _ =>
    simp only [Thread.step, hpc] at h
    cases h
    exact .quiet (by rw [hpc]; nofun) rfl rfl rfl

end Inversion

/-! ## What the tree holds after a step -/

/-- Its next step changes the slot. -/
def Thread.Writes (m : Mem K V) (th : Thread K V) : Prop :=
  th.pc = .publish ∨
    (th.pc = .claim ∧ th.write = .bury ∧ (m.cells th.cur).state th.idx = .data)

/-- What a step changes in the trees: nothing, the pair of its key, or a rebuilt child. -/
inductive Content (m m' : Mem K V) (th : Thread K V) : Prop
  | keeps (h : m.Keeps m')
  | writes {k : K} {v : V} (hk : th.call.key = some k) (hv : th.call.value = some v)
      (hpc : th.pc = .publish) (h : m.Writes m' th.cur k (some v))
  | buries {k : K} (hc : th.call = .remove k) (hpc : th.pc = .claim) (hw : th.write = .bury)
      (h : m.Writes m' th.cur k none) (hs : (m.cells th.cur).state th.idx = .data)
  | swaps {p : NodeId} {i : ℕ} {c₀ c : NodeId} {pairs : List (K × V)}
      (hpc : th.pc = .subSwap c pairs) (hf : th.first = some (p, i, c₀))
      (hp : (m.cells p).children i = some ⟨c, true⟩) (h : m.Swaps m' p i pairs)
      (hlen : 1 < pairs.length)

theorem Content.evolves (h : Content m m' th) : m.Evolves m' := by
  cases h with
  | keeps h => exact h.toEvolves
  | writes _ _ _ h => exact h.toEvolves
  | buries _ _ _ h => exact h.toEvolves
  | swaps _ _ _ h => exact h.toEvolves

omit [LinearOrder K] [Key K] in
theorem Mem.placeRoot_cells {n : NodeId} (hn : n.alloc < m.next) (tree : Node K V) :
    (m.placeRoot tree).cells n = m.cells n := Mem.place_cells hn

/-- A new root. -/
theorem Mem.placeRoot_spec {tree : Node K V} (ht : tree.WF) :
    m.Keeps (m.placeRoot tree) ∧ (m.placeRoot tree).NodeWF (m.fresh true) ∧
      ∀ k, (m.placeRoot tree).Holds k (m.fresh true) (tree.get k) := by
  refine ⟨.of_same (Nat.le_succ _) fun n hn => Mem.placeRoot_cells hn tree, ?_⟩
  have hp : (m.place true [] tree).Placed (m.fresh true) [] tree := Mem.place_placed m tree fun _ => rfl
  have hp' : (m.placeRoot tree).Placed (m.fresh true) [] tree := ⟨hp.cells, hp.alloc, hp.root⟩
  obtain ⟨hwf, hholds, -⟩ := hp'.spec ht fun _ _ e he => nomatch he
  exact ⟨hwf, hholds⟩

theorem emptyRoot_holds : (LearnedMap.emptyRoot : Node K V).Holds [] :=
  (Node.withHeader_built ⟨Nat.succ_pos 63, zero_le_one⟩).toHolds

/-- **A publication** writes the pair of the operation. -/
theorem Effect.writes (he : Effect m th m') (hok : th.Ok m) (hl : th.Locks m)
    (hpc : th.pc = .publish) : ∃ k v, th.call.key = some k ∧ th.call.value = some v ∧
      m.Writes m' th.cur k (some v) := by
  cases he with
  | quiet h => exact absurd hpc h
  | @publishData key v hpc hw =>
    simp only [Thread.Ok, hpc] at hok
    simp only [Thread.Locks, hpc] at hl
    obtain ⟨k, ⟨hat, hidx⟩, hwr⟩ := hok
    rw [hw] at hwr hl
    cases hwr with
    | inline hv =>
      exact ⟨_, _, hat.1, hv, Mem.publishData_writes hat.2.2.curWF hl.2 v hidx.symm hat.2.2.routes⟩
  | @publishChild prev child isNew hpc hw =>
    simp only [Thread.Ok, hpc] at hok
    simp only [Thread.Locks, hpc] at hl
    obtain ⟨k, ⟨hat, hidx⟩, hwr⟩ := hok
    rw [hw] at hwr hl
    cases hwr with
    | tombstone hv hwf _ hget =>
      refine ⟨k, _, hat.1, hv, Mem.publishChild_writes hat.2.2.curWF (by rw [hl.2]; rfl) hwf
        (fun k' => ?_) hidx.symm hat.2.2.routes⟩
      rw [hget, Cell.leafGet_of_ne_data (by rw [hl.2]; simp [Write.prev])]
    | data hv hwf _ hi hget _ =>
      refine ⟨k, _, hat.1, hv, Mem.publishChild_writes hat.2.2.curWF (by rw [hl.2]; rfl) hwf
        (fun k' => ?_) hidx.symm hat.2.2.routes⟩
      rw [hget, Cell.leafGet_data hl.2 hi]
      simp only [eq_comm]
  | claim h | bury h | count _ h | freeze h | unfreeze h | swapChild h | freezeRoot h
  | unfreezeRoot h | swapRoot h | swapEmpty h => cases hpc.symm.trans h

/-- **Every step is one of the changes of the memory.** -/
theorem Effect.content (he : Effect m th m') (hok : th.Ok m) (hl : th.Locks m) :
    Content m m' th := by
  have hpub := he.writes hok hl
  cases he with
  | quiet _ hc hn hr => exact .keeps (.of_same hn.ge fun n _ => by rw [hc])
  | claim hpc hs hw =>
    simp only [Thread.Ok, hpc] at hok
    obtain ⟨k, ⟨hat, -⟩, hwr⟩ := hok
    have hprev := hwr.prev
    refine .keeps (Mem.claim_keeps hat.2.2.curWF ?_)
    rw [((Cell.state_eq hprev.1).1 hs).2]
    exact hprev.2
  | bury hpc hs hw =>
    simp only [Thread.Ok, hpc] at hok
    obtain ⟨k, ⟨hat, -⟩, hwr⟩ := hok
    rw [hw] at hwr
    cases hwr with
    | bury hc _ hi =>
      exact .buries hc hpc hw
        (Mem.bury_writes hat.2.2.curWF ((Cell.state_eq (by decide)).1 hs).2 hi) hs
  | publishData hpc =>
    obtain ⟨k, v, hk, hv, h⟩ := hpub hpc
    exact .writes hk hv hpc h
  | publishChild hpc =>
    obtain ⟨k, v, hk, hv, h⟩ := hpub hpc
    exact .writes hk hv hpc h
  | count d hpc =>
    simp only [Thread.Ok, hpc] at hok
    obtain ⟨k, ⟨⟨hat, -⟩, -⟩⟩ := hok
    exact .keeps (Mem.addTombstones_keeps hat.2.2.curWF d)
  | freeze hpc hf hp =>
    simp only [Thread.Ok, hpc] at hok
    obtain ⟨k, ⟨⟨hat, -⟩, -⟩⟩ := hok
    have hpar := (hat.2.2.descent _ _ _ hf).parent
    exact .keeps (Mem.setFrozen_keeps (hpar ▸ hat.2.2.rootWF) (hpar ▸ hat.2.2.isRoot) hp)
  | unfreeze hpc hf hp =>
    simp only [Thread.Ok, hpc] at hok
    obtain ⟨k, ⟨⟨⟨hat, -⟩, -⟩, -⟩, -⟩ := hok
    have hpar := (hat.2.2.descent _ _ _ hf).parent
    exact .keeps (Mem.setFrozen_keeps (hpar ▸ hat.2.2.rootWF) (hpar ▸ hat.2.2.isRoot) hp)
  | @swapChild p i c₀ c pairs tree hpc hf hp ht hlen =>
    simp only [Thread.Ok, hpc] at hok
    obtain ⟨k, ⟨⟨⟨hat, -⟩, -⟩, -, -, hslot⟩, -, hr⟩ := hok
    have hd := hat.2.2.descent _ _ _ hf
    exact .swaps hpc hf hp (Mem.swapChild_swaps (hd.parent ▸ hat.2.2.rootWF)
      (hd.parent ▸ hat.2.2.isRoot) hd.child ht.wf ht.get fun a ha => hslot p i c₀ hf a.1 (hr a ha))
      hlen
  | freezeRoot => exact .keeps (.of_same le_rfl fun _ _ => rfl)
  | unfreezeRoot => exact .keeps (.of_same le_rfl fun _ _ => rfl)
  | swapRoot hpc hr hd hcl ht => exact .keeps (Mem.placeRoot_spec ht.wf).1
  | swapEmpty => exact .keeps (Mem.placeRoot_spec emptyRoot_holds.wf).1

/-- The root pointer leads to a well-formed root. -/
def RootOk (m : Mem K V) : Prop := m.NodeWF m.root.node ∧ m.root.node.isRoot = true

theorem Effect.rootOk (he : Effect m th m') (hok : th.Ok m) (hl : th.Locks m) (hr : RootOk m) :
    RootOk m' := by
  have hev := (he.content hok hl).evolves
  have hkeep : m'.root.node = m.root.node → RootOk m' := fun h => by
    rw [RootOk, h]
    exact ⟨hev.wf _ hr.1, hr.2⟩
  cases he with
  | quiet _ _ _ hr => exact hkeep (by rw [hr])
  | freezeRoot _ hr => exact hkeep (by rw [hr])
  | unfreezeRoot _ hr => exact hkeep (by rw [hr])
  | swapRoot _ _ _ _ ht => exact ⟨(Mem.placeRoot_spec ht.wf).2.1, rfl⟩
  | swapEmpty => exact ⟨(Mem.placeRoot_spec emptyRoot_holds.wf).2.1, rfl⟩
  | _ => exact hkeep rfl

end Scry.Index
