/-
  Where an operation stands after its step (`Goes`).

  There is a lemma for each step of the source, from the current place of the operation
  to the next one; what it owns then it owned before, or no thread did.
-/
import Scry.Index.Proof.Step

namespace Scry.Index

variable {K V : Type} [LinearOrder K] [Key K] {m m' : Mem K V} {th : Thread K V}
  {next : Next K V} {k : K}

/-- How an operation comes to own what it owns after its step. -/
inductive Owns (m m' : Mem K V) (th th' : Thread K V) : Prop
  /-- it owns nothing -/
  | none (h : th'.lock = none)
  | claim (hpc : th.pc = .claim) (hf : (m.cells th.cur).claimed th.idx = false)
      (hn : th' = { th with pc := .publish })
  | freeze {p : NodeId} {i : ℕ} {c₀ c : NodeId} (hpc : th.pc = .subFreeze c)
      (hf : th.first = some (p, i, c₀)) (hp : (m.cells p).children i = some ⟨c, false⟩)
      (hn : th' = { th with pc := .subWalk c (.start c) })
  | walk {c : NodeId} {w w' : Walk K V} (hpc : th.pc = .subWalk c w) (hm : m' = m)
      (hw : w.step m = some w') (hn : th' = { th with pc := .subWalk c w' })
  | walked {c : NodeId} {w : Walk K V} (hpc : th.pc = .subWalk c w) (hm : m' = m)
      (hw : w.step m = Option.none) (hn : th' = { th with pc := .subSwap c w.pairs })
  | freezeRoot {r : NodeId} (hpc : th.pc = .rootFreeze r) (hr : m.root = ⟨r, false⟩)
      (hn : th' = { th with pc := .rootWalk r (.start r) })
  | walkRoot {r : NodeId} {w w' : Walk K V} (hpc : th.pc = .rootWalk r w) (hm : m' = m)
      (hw : w.step m = some w') (hn : th' = { th with pc := .rootWalk r w' })
  | walkedRoot {r : NodeId} {w : Walk K V} (hpc : th.pc = .rootWalk r w) (hm : m' = m)
      (hw : w.step m = Option.none) (hn : th' = { th with pc := .rootSwap r w.pairs })

omit [LinearOrder K] [Key K] in
/-- It owned that before, or no operation did. -/
theorem Owns.lock {th' : Thread K V} (h : Owns m m' th th') {l : Lock} (hl : th'.lock = some l) :
    th.lock = some l ∨ l.Free m := by
  cases h with
  | none h => rw [h] at hl; cases hl
  | claim hpc hf hn =>
    subst hn
    cases hl
    exact Or.inr hf
  | freeze hpc hf hp hn =>
    subst hn
    obtain ⟨f, hf', rfl⟩ := Option.map_eq_some_iff.1 hl
    cases hf.symm.trans hf'
    exact Or.inr fun c hc => nomatch hp.symm.trans hc
  | walk hpc _ _ hn =>
    subst hn
    exact Or.inl (by rw [Thread.lock, hpc]; exact hl)
  | walked hpc _ _ hn =>
    subst hn
    exact Or.inl (by rw [Thread.lock, hpc]; exact hl)
  | freezeRoot hpc hr hn =>
    subst hn
    cases hl
    exact Or.inr (by rw [Lock.Free, hr])
  | walkRoot hpc _ _ hn =>
    subst hn
    exact Or.inl (by rw [Thread.lock, hpc]; exact hl)
  | walkedRoot hpc _ _ hn =>
    subst hn
    exact Or.inl (by rw [Thread.lock, hpc]; exact hl)

/-- The operation goes on in good order. -/
structure Goes (m m' : Mem K V) (th th' : Thread K V) : Prop where
  call : th'.call = th.call
  ok : th'.Ok m'
  locks : th'.Locks m'
  owns : Owns m m' th th'

/-- The operation goes on in good order, or it is done. -/
def Next.Ok (m m' : Mem K V) (th : Thread K V) : Next K V → Prop
  | .goto th' => Goes m m' th th'
  | .ret _ => True

/-- An operation that owns nothing next. -/
theorem Goes.of_unlocked {th' : Thread K V} (hc : th'.call = th.call) (ho : th'.Ok m')
    (hl : th'.lock = none) (hk : th'.Locks m') : Goes m m' th th' :=
  ⟨hc, ho, hk, .none hl⟩

/-! ## Updates -/

theorem ok_retry (hk : th.call.key = some k) (hg : ∀ k', th.call ≠ .get k')
    (hr : m'.NodeWF th.root) (hi : th.root.isRoot = true) (again : Bool) :
    (th.retry again).Ok m m' th :=
  .of_unlocked rfl ⟨k, hk, hg, .ofRoot hr hi⟩ rfl trivial

theorem ok_validateRoot (hk : th.call.key = some k) (hg : ∀ k', th.call ≠ .get k') (isNew : Bool)
    (val : Option V) : (th.goto (.validateRoot isNew val)).Ok m m' th :=
  .of_unlocked rfl ⟨k, hk, hg⟩ rfl trivial

theorem ok_readSlot (h : th.At m' k) : (th.goto .readSlot).Ok m m' th :=
  .of_unlocked rfl ⟨k, h⟩ rfl trivial

/-- What `finish` leads to. -/
theorem ok_finish (h : th.Attached m' k) : th.finish.Ok m m' th := by
  obtain ⟨hat, hw, hch⟩ := h
  unfold Thread.finish
  split
  · exact ok_validateRoot hat.1.1 hat.1.2.1 _ _
  · rename_i hcall hwrite
    refine .of_unlocked rfl ⟨k, hat, ?_⟩ rfl trivial
    generalize th.write = w at hw hwrite hch
    cases hw with
    | inline => exact absurd rfl (hwrite _ _)
    | tombstone => exact hch _ _ _ rfl
    | data => exact hch _ _ _ rfl
    | bury hc => rw [hcall] at hc; cases hc
  · exact ok_validateRoot hat.1.1 hat.1.2.1 _ _

theorem ok_loadRoot (hr : RootOk m) (hok : th.call.key.isSome) :
    (stepLoadRoot m th).Ok m m th := by
  obtain ⟨k, hk⟩ := Option.isSome_iff_exists.1 hok
  unfold stepLoadRoot
  split
  · rename_i hc
    refine .of_unlocked rfl ⟨k, hk, hr.1, Cell.routes_root hr.1 hr.2 k, fun hg => ?_⟩ rfl trivial
    exact absurd hc (hg _)
  · rename_i hc
    split_ifs
    · exact .of_unlocked rfl hok rfl trivial
    · exact .of_unlocked rfl ⟨k, hk, hc, .ofRoot hr.1 hr.2⟩ rfl trivial

/-- The slot of the key, as the operation sees it. -/
theorem atSlot_set (h : th.At m k) :
    Thread.AtSlot m { th with idx := (m.cells th.cur).slotOf k } k := ⟨h, rfl⟩

theorem ok_claim {w : Write K V} (h : th.At m k)
    (hw : WriteOk m th.cur ((m.cells th.cur).slotOf k) th.call k w) :
    (Next.goto { th with idx := (m.cells th.cur).slotOf k, write := w, pc := .claim }).Ok m m th :=
  .of_unlocked rfl ⟨k, atSlot_set h, hw⟩ rfl trivial

theorem ok_loadChild (h : th.At m k)
    (hs : ((m.cells th.cur).slots ((m.cells th.cur).slotOf k)).isChild) :
    (Next.goto { th with idx := (m.cells th.cur).slotOf k, pc := .loadChild }).Ok m m th :=
  .of_unlocked rfl ⟨k, atSlot_set h, hs⟩ rfl trivial

theorem ok_reread (h : th.At m k) :
    (Next.goto { th with idx := (m.cells th.cur).slotOf k, pc := .readSlot }).Ok m m th :=
  .of_unlocked rfl ⟨k, h⟩ rfl trivial

theorem ok_absent (h : th.At m k) (isNew : Bool) (val : Option V) :
    (Next.goto { th with idx := (m.cells th.cur).slotOf k, pc := .validateRoot isNew val }).Ok
      m m th :=
  .of_unlocked rfl ⟨k, h.1, h.2.1⟩ rfl trivial

theorem writeOk_tombstone {n : NodeId} {i : ℕ} {call : Call K V} {v : V} (hv : call.value = some v)
    (hs : (m.cells n).slots i = .tombstone) :
    WriteOk m n i call k (.attach .tombstone (buildSingleEntryChild k v) true) := by
  have hb := buildSingleEntryChild_holds k v
  refine .tombstone hv hb.wf (by rw [hs]; nofun) fun k' => ?_
  rw [hb.get, lookup_cons_ite]
  simp only [eq_comm, List.lookup_nil]

theorem writeOk_conflict [LawfulKey K] {n : NodeId} {i : ℕ} {call : Call K V} {v v₁ : V} {k₁ : K}
    {child : Node K V} (hv : call.value = some v) (hs : (m.cells n).slots i = .data)
    (hi : (m.cells n).inline i = some (k₁, v₁)) (hne : k₁ ≠ k)
    (hb : buildConflictNode k₁ v₁ k v = some child) :
    WriteOk m n i call k (.attach .data child true) := by
  obtain ⟨n', h₁, h₂, h₃⟩ := buildConflictNode_get hne v₁ v
  obtain rfl : n' = child := Option.some.inj (h₁.symm.trans hb)
  have : WriteOk m n i call k (.attach .data n' (decide (k₁ ≠ k))) :=
    .data hv h₂ (by rw [hs]; nofun) hi h₃ fun _ => hne
  rwa [decide_eq_true hne] at this

theorem writeOk_update {n : NodeId} {i : ℕ} {call : Call K V} {v v₁ : V} (hv : call.value = some v)
    (hs : (m.cells n).slots i = .data) (hi : (m.cells n).inline i = some (k, v₁))
    (hc : ∀ v', call ≠ .getOrInsert k v') :
    WriteOk m n i call k (.attach .data (buildSingleEntryChild k v) false) := by
  have hb := buildSingleEntryChild_holds k v
  have : WriteOk m n i call k (.attach .data (buildSingleEntryChild k v) (decide (k ≠ k))) :=
    .data hv hb.wf (by rw [hs]; nofun) hi (fun k' => ?_) fun ⟨v', h⟩ => absurd h (hc v')
  · rwa [decide_eq_false (not_not_intro rfl)] at this
  · rw [hb.get, lookup_cons_ite]
    simp only [eq_comm, List.lookup_nil]
    split_ifs <;> rfl

/-- **The slot of an insert.** -/
theorem ok_readInsert [LawfulKey K] {v : V} (h : th.At m k) (hc : th.call = .insert k v)
    (hr : readInsert m th k v = some next) : next.Ok m m th := by
  have hv : th.call.value = some v := by rw [hc]; rfl
  have hslot : (m.cells th.cur).head.predictSlot k = (m.cells th.cur).slotOf k := rfl
  simp only [readInsert, hslot] at hr
  split at hr
  · cases hr
    exact ok_reread h
  · cases hr
    exact ok_claim h (.inline hv)
  · rename_i hs
    cases hr
    exact ok_claim h (writeOk_tombstone hv ((Cell.state_eq (by decide)).1 hs).2)
  · rename_i hs
    replace hs := ((Cell.state_eq (by decide)).1 hs).2
    obtain ⟨k₁, v₁, hi, -⟩ := h.2.2.curWF.cell.data _ hs
    simp only [hi] at hr
    split_ifs at hr with hk
    · subst hk
      cases hr
      exact ok_claim h (writeOk_update hv hs hi fun v' he => by rw [hc] at he; cases he)
    · obtain ⟨child, hb, hn⟩ := Option.bind_eq_some_iff.1 hr
      cases hn
      exact ok_claim h (writeOk_conflict hv hs hi hk hb)
  · rename_i hs
    cases hr
    exact ok_loadChild h (by rw [((Cell.state_eq (by decide)).1 hs).2]; rfl)
  · rename_i hs
    cases hr
    exact ok_loadChild h (by rw [((Cell.state_eq (by decide)).1 hs).2]; rfl)

/-- **The slot of a `get_or_insert`.** -/
theorem ok_readGetOrInsert [LawfulKey K] {v : V} (h : th.At m k)
    (hc : th.call = .getOrInsert k v) (hr : readGetOrInsert m th k v = some next) :
    next.Ok m m th := by
  have hv : th.call.value = some v := by rw [hc]; rfl
  have hslot : (m.cells th.cur).head.predictSlot k = (m.cells th.cur).slotOf k := rfl
  simp only [readGetOrInsert, hslot] at hr
  split at hr
  · cases hr
    exact ok_reread h
  · cases hr
    exact ok_claim h (.inline hv)
  · rename_i hs
    cases hr
    exact ok_claim h (writeOk_tombstone hv ((Cell.state_eq (by decide)).1 hs).2)
  · rename_i hs
    replace hs := ((Cell.state_eq (by decide)).1 hs).2
    obtain ⟨k₁, v₁, hi, -⟩ := h.2.2.curWF.cell.data _ hs
    simp only [hi] at hr
    split_ifs at hr with hk
    · cases hr
      exact ok_absent h _ _
    · obtain ⟨child, hb, hn⟩ := Option.bind_eq_some_iff.1 hr
      cases hn
      exact ok_claim h (writeOk_conflict hv hs hi hk hb)
  · rename_i hs
    cases hr
    exact ok_loadChild h (by rw [((Cell.state_eq (by decide)).1 hs).2]; rfl)
  · rename_i hs
    cases hr
    exact ok_loadChild h (by rw [((Cell.state_eq (by decide)).1 hs).2]; rfl)

/-- **The slot of a remove.** -/
theorem ok_readRemove (h : th.At m k) (hc : th.call = .remove k)
    (hr : readRemove m th k = some next) : next.Ok m m th := by
  have hslot : (m.cells th.cur).head.predictSlot k = (m.cells th.cur).slotOf k := rfl
  simp only [readRemove, hslot] at hr
  split at hr
  · cases hr
    exact ok_reread h
  · cases hr
    exact ok_absent h _ _
  · cases hr
    exact ok_absent h _ _
  · rename_i hs
    replace hs := ((Cell.state_eq (by decide)).1 hs).2
    obtain ⟨k₁, v₁, hi, -⟩ := h.2.2.curWF.cell.data _ hs
    simp only [hi] at hr
    split_ifs at hr with hk
    · subst hk
      cases hr
      exact ok_claim h (.bury hc (by rw [hs]; nofun) hi)
    · cases hr
      exact ok_absent h _ _
  · rename_i hs
    cases hr
    exact ok_loadChild h (by rw [((Cell.state_eq (by decide)).1 hs).2]; rfl)
  · rename_i hs
    cases hr
    exact ok_loadChild h (by rw [((Cell.state_eq (by decide)).1 hs).2]; rfl)

theorem ok_stepReadSlot [LawfulKey K] (h : th.At m k) (hr : stepReadSlot m th = some next) :
    next.Ok m m th := by
  unfold stepReadSlot at hr
  split at hr
  · rename_i hc
    obtain rfl := Option.some.inj ((congrArg Call.key hc).symm.trans h.1)
    exact ok_readInsert h hc hr
  · rename_i hc
    obtain rfl := Option.some.inj ((congrArg Call.key hc).symm.trans h.1)
    exact ok_readGetOrInsert h hc hr
  · rename_i hc
    obtain rfl := Option.some.inj ((congrArg Call.key hc).symm.trans h.1)
    exact ok_readRemove h hc hr
  · cases hr

/-- **The descent.** -/
theorem ok_stepLoadChild (h : th.AtSlot m k) (hs : ((m.cells th.cur).slots th.idx).isChild) :
    (stepLoadChild m th).Ok m m th := by
  obtain ⟨hat, hidx⟩ := h
  obtain ⟨p, hp, -⟩ := hat.2.2.curWF.cell.child _ hs
  unfold stepLoadChild
  simp only [hp]
  split_ifs
  · exact ok_readSlot hat
  · rw [hidx] at hs hp ⊢
    exact .of_unlocked rfl ⟨k, hat.1, hat.2.1, hat.2.2.descend hs hp⟩ rfl trivial

/-- **The CAS.** -/
theorem ok_stepClaim (hpc : th.pc = .claim) (h : th.AtSlot m k) (hw : WriteOk m th.cur th.idx th.call k th.write)
    (he : m.Evolves (stepClaim m th).1) : (stepClaim m th).2.Ok m (stepClaim m th).1 th := by
  have ha : th.cur.alloc < m.next := h.1.2.2.curWF.alloc
  unfold stepClaim at he ⊢
  split_ifs at he ⊢ with hs
  · split at he
    · rename_i hwr
      simp only [hwr] at hw ⊢
      refine .of_unlocked rfl ⟨k, h.evolve he, ?_, fun _ _ _ hb => ?_⟩ rfl trivial
      · show WriteOk _ _ _ _ _ th.write
        rw [hwr]
        exact hw.evolve ha he
      · cases hwr.symm.trans hb
    · refine ⟨rfl, ⟨k, h.evolve he, hw.evolve ha he⟩, ⟨?_, ?_⟩,
        .claim hpc ((Cell.state_eq hw.prev.1).1 hs).1 rfl⟩
      · show ((m.modify th.cur fun c => c.claim th.idx).cells th.cur).claimed th.idx = true
        rw [Mem.modify_cells_self]
        exact Function.update_self _ _ _
      · show ((m.modify th.cur fun c => c.claim th.idx).cells th.cur).slots th.idx = th.write.prev
        rw [Mem.modify_cells_self]
        exact ((Cell.state_eq hw.prev.1).1 hs).2
  · exact ok_readSlot h.1

/-- **The publication.** -/
theorem ok_stepPublish (h : th.AtSlot m k) (hw : WriteOk m th.cur th.idx th.call k th.write)
    (he : m.Evolves m') (hs : stepPublish m th = some (m', next)) : next.Ok m m' th := by
  have ha : th.cur.alloc < m.next := h.1.2.2.curWF.alloc
  unfold stepPublish at hs
  split at hs
  · rename_i hwr
    cases hs
    exact .of_unlocked rfl ⟨k, h.evolve he, hw.evolve ha he, fun _ _ _ hb =>
      nomatch hwr.symm.trans hb⟩ rfl trivial
  · rename_i prev child isNew hwr
    cases hs
    have hat : th.Attached (m.placeChild th.cur th.idx child fun c n => c.publishChild th.idx n) k := by
      refine ⟨h.evolve he, hw.evolve ha he, fun _ _ _ _ => ?_⟩
      rw [Mem.placeChild_cells_self ha]
      show (Function.update (m.cells th.cur).slots th.idx .childStale th.idx).isChild
      rw [Function.update_self]
      rfl
    split_ifs
    · exact .of_unlocked rfl ⟨k, hat⟩ rfl trivial
    · exact .of_unlocked rfl ⟨k, hat⟩ rfl trivial
  · cases hs

omit [LinearOrder K] [Key K] in
/-- The first descent is in place and the update goes on, or it starts again. -/
theorem stepValidateChild_next (config : Config) (m : Mem K V) (th : Thread K V) :
    ((∀ p i c, th.first = some (p, i, c) → (m.cells p).children i = some ⟨c, false⟩) ∧
      (stepValidateChild config m th = th.goto .checkRatio ∨
        stepValidateChild config m th = th.afterInsert config ∨
        stepValidateChild config m th = th.goto (.validateRoot th.again none))) ∨
    ∃ again, stepValidateChild config m th = th.retry again := by
  unfold stepValidateChild
  dsimp only
  split
  · rename_i hf
    refine Or.inl ⟨fun p i c h => ?_, ?_⟩
    · cases hf.symm.trans h
    · split
      · exact Or.inl rfl
      · split_ifs
        · exact Or.inr (Or.inl rfl)
        · exact Or.inr (Or.inr rfl)
  · rename_i p i c hf
    split_ifs with hp
    · refine Or.inl ⟨fun p' i' c' h => ?_, ?_⟩
      · cases hf.symm.trans h
        exact hp
      · split
        · exact Or.inl rfl
        · split_ifs
          · exact Or.inr (Or.inl rfl)
          · exact Or.inr (Or.inr rfl)
    · exact Or.inr ⟨_, rfl⟩

/-- **The first descent is compared.** -/
theorem ok_stepValidateChild {config : Config} (h : th.Attached m k) :
    (stepValidateChild config m th).Ok m m th := by
  have hroot := h.1.1.2.2
  rcases stepValidateChild_next config m th with
    ⟨-, he | he | he⟩ | ⟨again, he⟩ <;> rw [he]
  · exact .of_unlocked rfl ⟨k, h⟩ rfl trivial
  · unfold Thread.afterInsert
    split_ifs
    · exact .of_unlocked rfl ⟨k, h⟩ rfl trivial
    · exact ok_finish h
  · exact ok_validateRoot h.1.1.1 h.1.1.2.1 _ _
  · exact ok_retry h.1.1.1 h.1.1.2.1 hroot.rootWF hroot.isRoot _

theorem ok_stepCheckRatio {config : Config} (h : th.Attached m k) :
    (stepCheckRatio config m th).Ok m m th := by
  unfold stepCheckRatio
  dsimp only
  split_ifs
  · exact .of_unlocked rfl ⟨k, h⟩ rfl trivial
  · exact ok_finish h

/-! ## Subtree rebuilds -/

theorem ok_stepSubState (h : th.Attached m k) : (stepSubState m th).Ok m m th := by
  unfold stepSubState
  split
  · exact ok_finish h
  · split_ifs
    · exact .of_unlocked rfl ⟨k, h⟩ rfl trivial
    · exact ok_finish h

theorem ok_stepSubLoad (h : th.Attached m k) : (stepSubLoad m th).Ok m m th := by
  unfold stepSubLoad
  split
  · exact ok_finish h
  · split
    · exact ok_finish h
    · split_ifs
      · exact ok_finish h
      · exact .of_unlocked rfl ⟨k, h⟩ rfl trivial

/-- **The child is frozen.** -/
theorem ok_stepSubFreeze {c : NodeId} (hpc : th.pc = .subFreeze c) (h : th.Attached m k) (he : m.Evolves (stepSubFreeze m th c).1) :
    (stepSubFreeze m th c).2.Ok m (stepSubFreeze m th c).1 th := by
  unfold stepSubFreeze at he ⊢
  split
  · exact ok_finish h
  · rename_i p i c₀ hf
    have hd := h.1.1.2.2.descent p i c₀ hf
    have hwf : m.NodeWF p := hd.parent ▸ h.1.1.2.2.rootWF
    simp only [hf] at he
    split_ifs at he ⊢ with hp
    · have hc : m.NodeWF c := hwf.ofChild hd.child hp
      have hat := h.evolve he
      refine ⟨rfl, ⟨k, ⟨hat, ?_, he.wf c hc, fun p' i' c' hf' k' hk' => ?_⟩, .start (he.wf c hc)⟩,
        fun p' i' c' hf' => ?_, .freeze hpc hf hp rfl⟩
      · show th.first.isSome
        rw [hf]
        rfl
      · cases hf.symm.trans hf'
        rw [he.routes hc.alloc] at hk'
        rw [he.slotOf hwf.alloc]
        exact ((hwf.routes_child hd.child hp k').1 hk').2
      · cases hf.symm.trans hf'
        rw [Mem.modify_cells_self]
        exact Function.update_self _ _ _
    · exact ok_finish h

/-- **The traversal of the child.** -/
theorem ok_stepSubWalk [LawfulKey K] {c : NodeId} {w : Walk K V} (hpc : th.pc = .subWalk c w)
    (h : th.Rebuilds m k c) (hw : WalkOk m c w) (hl : th.Locks m) :
    (stepSubWalk m th c w).Ok m m th := by
  simp only [Thread.Locks, hpc] at hl
  unfold stepSubWalk
  split
  · rename_i hs
    exact ⟨rfl, ⟨k, h, hw.pairs, hw.routed⟩, hl, .walked hpc rfl hs rfl⟩
  · rename_i w' hs
    exact ⟨rfl, ⟨k, h, hw.step hs⟩, hl, .walk hpc rfl hs rfl⟩

theorem ok_stepSubSwap {config : Config} {c : NodeId} {pairs : List (K × V)}
    (h : th.Attached m k) (he : m.Evolves m')
    (hs : stepSubSwap config m th c pairs = some (m', next)) : next.Ok m m' th := by
  have hfin := ok_finish (m := m) (h.evolve he)
  unfold stepSubSwap at hs
  split at hs
  · cases hs
    exact hfin
  · dsimp only at hs
    split_ifs at hs
    · cases hs; exact hfin
    · cases hs; exact hfin
    · obtain ⟨tree, -, ht⟩ := Option.bind_eq_some_iff.1 hs
      cases ht
      exact hfin
    · obtain ⟨tree, -, ht⟩ := Option.bind_eq_some_iff.1 hs
      cases ht
      exact hfin

/-! ## Lookups -/

theorem ok_found {n : NodeId} (h : th.Looks m k n) (val : Option V) :
    (th.found val).Ok m m th := by
  unfold Thread.found
  split
  · rename_i hc
    obtain ⟨hat, -⟩ := h.2.2.2 fun k' he => nomatch hc.symm.trans he
    split
    · exact ok_validateRoot hat.1 hat.2.1 _ _
    · exact ok_readSlot hat
  · trivial

theorem ok_lookSlot {n : NodeId} (h : th.Looks m k n) : (lookSlot m th n k).Ok m m th := by
  have hslot : (m.cells n).head.predictSlot k = (m.cells n).slotOf k := rfl
  unfold lookSlot
  simp only [hslot]
  split
  · split
    · split_ifs
      · exact ok_found h _
      · exact ok_found h _
    · exact ok_found h _
  · rename_i hs
    exact .of_unlocked rfl ⟨k, h, by rw [((Cell.state_eq (by decide)).1 hs).2]; rfl⟩ rfl trivial
  · rename_i hs
    exact .of_unlocked rfl ⟨k, h, by rw [((Cell.state_eq (by decide)).1 hs).2]; rfl⟩ rfl trivial
  · exact ok_found h _

theorem ok_lookChild {n : NodeId} (h : th.Looks m k n)
    (hs : ((m.cells n).slots ((m.cells n).slotOf k)).isChild) : (lookChild m th n k).Ok m m th := by
  obtain ⟨p, hp, hpr, -⟩ := h.2.1.cell.child _ hs
  have hslot : (m.cells n).head.predictSlot k = (m.cells n).slotOf k := rfl
  unfold lookChild
  simp only [hslot, hp]
  exact .of_unlocked rfl ⟨k, h.1, h.2.1.ofChild hs hp,
    (h.2.1.routes_child hs hp k).2 ⟨h.2.2.1, rfl⟩, fun hg => ⟨(h.2.2.2 hg).1, hpr⟩⟩ rfl trivial

theorem ok_stepLook {n : NodeId} (h : th.Looks m k n) (hs : stepLook m th n = some next) :
    next.Ok m m th := by
  unfold stepLook at hs
  split at hs
  · rename_i hc
    obtain rfl := Option.some.inj ((congrArg Call.key hc).symm.trans h.1)
    cases hs
    exact ok_lookSlot h
  · rename_i hc
    obtain rfl := Option.some.inj ((congrArg Call.key hc).symm.trans h.1)
    cases hs
    exact ok_lookSlot h
  · cases hs

theorem ok_stepLookChild {n : NodeId} (h : th.Looks m k n)
    (hch : ((m.cells n).slots ((m.cells n).slotOf k)).isChild)
    (hs : stepLookChild m th n = some next) : next.Ok m m th := by
  unfold stepLookChild at hs
  split at hs
  · rename_i hc
    obtain rfl := Option.some.inj ((congrArg Call.key hc).symm.trans h.1)
    cases hs
    exact ok_lookChild h hch
  · rename_i hc
    obtain rfl := Option.some.inj ((congrArg Call.key hc).symm.trans h.1)
    cases hs
    exact ok_lookChild h hch
  · cases hs

theorem ok_stepOwnChild (h : th.AtSlot m k) (hs : ((m.cells th.cur).slots th.idx).isChild) :
    (stepOwnChild m th).Ok m m th := by
  obtain ⟨hat, hidx⟩ := h
  rw [hidx] at hs
  obtain ⟨p, hp, hpr, -⟩ := hat.2.2.curWF.cell.child _ hs
  unfold stepOwnChild
  simp only [hidx, hp]
  exact .of_unlocked rfl ⟨k, hat.1, hat.2.2.curWF.ofChild hs hp,
    (hat.2.2.curWF.routes_child hs hp k).2 ⟨hat.2.2.routes, rfl⟩, fun _ => ⟨hat, hpr⟩⟩ rfl trivial

/-! ## The map -/

theorem ok_stepValidateRoot (hk : th.call.key = some k) (isNew : Bool) (val : Option V) :
    (stepValidateRoot m th isNew val).Ok m m th := by
  have hkey : th.call.key.isSome := by rw [hk]; rfl
  unfold stepValidateRoot
  dsimp only
  split_ifs
  · exact .of_unlocked rfl trivial rfl trivial
  · trivial
  · exact .of_unlocked rfl hkey rfl trivial

theorem ok_stepCount {config : Config} (m' : Mem K V) :
    (stepCount config m th).2.Ok m m' th := by
  unfold stepCount
  split
  · trivial
  · dsimp only
    split_ifs
    · exact .of_unlocked rfl trivial rfl trivial
    · trivial

theorem ok_stepRootFreeze {r : NodeId} (hpc : th.pc = .rootFreeze r) (hr : RootOk m) :
    (stepRootFreeze m th r).2.Ok m (stepRootFreeze m th r).1 th := by
  unfold stepRootFreeze
  split_ifs with h
  · have hwf : m.NodeWF r := by
      have := hr.1
      rwa [h] at this
    have he : m.Evolves { m with root := ⟨r, true⟩ } := .of_same le_rfl fun _ _ => rfl
    exact ⟨rfl, ⟨he.wf r hwf, .start (he.wf r hwf)⟩, rfl, .freezeRoot hpc h rfl⟩
  · trivial

theorem ok_stepRootWalk [LawfulKey K] {r : NodeId} {w : Walk K V} (hpc : th.pc = .rootWalk r w)
    (hr : m.NodeWF r) (hw : WalkOk m r w) (hl : th.Locks m) : (stepRootWalk m th r w).Ok m m th := by
  simp only [Thread.Locks, hpc] at hl
  unfold stepRootWalk
  split
  · rename_i hs
    exact ⟨rfl, hw.pairs, hl, .walkedRoot hpc rfl hs rfl⟩
  · rename_i w' hs
    exact ⟨rfl, ⟨hr, hw.step hs⟩, hl, .walkRoot hpc rfl hs rfl⟩

theorem ok_stepRootSwap {config : Config} {r : NodeId} {pairs : List (K × V)}
    (hs : stepRootSwap config m th r pairs = some (m', next)) : next.Ok m m' th := by
  have hempty : ∀ {x : Mem K V × Next K V}, swapEmpty m th r pairs = x → x.2.Ok m x.1 th := by
    rintro _ rfl
    unfold swapEmpty
    dsimp only
    split_ifs
    · exact .of_unlocked rfl trivial rfl trivial
    · trivial
  unfold stepRootSwap at hs
  split at hs
  · exact hempty (Option.some.inj hs)
  · exact hempty (Option.some.inj hs)
  · unfold swapRebuilt at hs
    by_cases he : pairs.isEmpty = true
    · rw [if_pos he] at hs
      cases hs
      trivial
    · rw [if_neg he] at hs
      obtain ⟨built, -, hb⟩ := Option.bind_eq_some_iff.1 hs
      split at hb
      · cases hb; trivial
      · split_ifs at hb
        · cases hb
          exact .of_unlocked rfl trivial rfl trivial
        · cases hb; trivial

/-- **An operation goes on in good order.** -/
theorem step_next [LawfulKey K] {config : Config} (hc : 0 ≤ config.rangeHeadroom) (hr : RootOk m)
    (hok : th.Ok m) (hl : th.Locks m) (h : th.step config m = some (m', next)) :
    next.Ok m m' th := by
  have he := ((step_effect hc hok hl h).content hok hl).evolves
  cases hpc : th.pc <;> simp only [Thread.Ok, hpc] at hok <;> simp only [Thread.step, hpc] at h
  case loadRoot => cases h; exact ok_loadRoot hr hok
  case readSlot =>
    obtain ⟨k, hat⟩ := hok
    obtain ⟨n, hn, hm⟩ := Option.map_eq_some_iff.1 h
    cases hm
    exact ok_stepReadSlot hat hn
  case loadChild => cases h; obtain ⟨k, hat, hs⟩ := hok; exact ok_stepLoadChild hat hs
  case claim =>
    obtain ⟨rfl, rfl⟩ := Prod.ext_iff.1 (Option.some.inj h)
    obtain ⟨k, hat, hw⟩ := hok
    exact ok_stepClaim hpc hat hw he
  case publish => obtain ⟨k, hat, hw⟩ := hok; exact ok_stepPublish hat hw he h
  case countTombstone =>
    cases h
    obtain ⟨k, hat⟩ := hok
    exact .of_unlocked rfl ⟨k, hat.evolve he⟩ rfl trivial
  case validateChild => cases h; obtain ⟨k, hat⟩ := hok; exact ok_stepValidateChild hat
  case checkRatio => cases h; obtain ⟨k, hat⟩ := hok; exact ok_stepCheckRatio hat
  case subState => cases h; obtain ⟨k, hat⟩ := hok; exact ok_stepSubState hat
  case subLoad => cases h; obtain ⟨k, hat⟩ := hok; exact ok_stepSubLoad hat
  case subFreeze =>
    obtain ⟨rfl, rfl⟩ := Prod.ext_iff.1 (Option.some.inj h)
    obtain ⟨k, hat⟩ := hok
    exact ok_stepSubFreeze hpc hat he
  case subWalk => cases h; obtain ⟨k, hb, hw⟩ := hok; exact ok_stepSubWalk hpc hb hw hl
  case subSwap => obtain ⟨k, hb, -⟩ := hok; exact ok_stepSubSwap hb.1 he h
  case ownChild => cases h; obtain ⟨k, hat, hs⟩ := hok; exact ok_stepOwnChild hat hs
  case look =>
    obtain ⟨k, hlk⟩ := hok
    obtain ⟨n, hn, hm⟩ := Option.map_eq_some_iff.1 h
    cases hm
    exact ok_stepLook hlk hn
  case lookChild =>
    obtain ⟨k, hlk, hs⟩ := hok
    obtain ⟨n, hn, hm⟩ := Option.map_eq_some_iff.1 h
    cases hm
    exact ok_stepLookChild hlk hs hn
  case validateRoot => cases h; obtain ⟨k, hk, -⟩ := hok; exact ok_stepValidateRoot hk _ _
  case count =>
    obtain ⟨rfl, rfl⟩ := Prod.ext_iff.1 (Option.some.inj h)
    exact ok_stepCount _
  case loadThreshold =>
    cases h
    unfold stepLoadThreshold
    split_ifs
    · trivial
    · exact .of_unlocked rfl trivial rfl trivial
  case casThreshold =>
    obtain ⟨rfl, rfl⟩ := Prod.ext_iff.1 (Option.some.inj h)
    unfold stepCasThreshold
    split_ifs
    · exact .of_unlocked rfl trivial rfl trivial
    · trivial
  case rootLoad =>
    cases h
    unfold stepRootLoad
    split_ifs
    · trivial
    · exact .of_unlocked rfl trivial rfl trivial
  case rootFreeze =>
    obtain ⟨rfl, rfl⟩ := Prod.ext_iff.1 (Option.some.inj h)
    exact ok_stepRootFreeze hpc hr
  case rootWalk => cases h; exact ok_stepRootWalk hpc hok.1 hok.2 hl
  case rootSwap => exact ok_stepRootSwap h
  case subtract => cases h; exact .of_unlocked rfl trivial rfl trivial
  case storeThreshold => cases h; trivial

end Scry.Index
