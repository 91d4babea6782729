/-
  No operation gets stuck, and nothing is left behind.

  A slot stays `WRITING`, and a pointer frozen, only while the operation that claimed or
  froze it is at work (`Sys.Tended`).  A running operation always has a next step
  (`step_isSome`): the slots hold what their states say, and what it has to build can be
  built.
-/
import Scry.Index.Proof.Unwind
import Scry.Index.Proof.Settle
import Scry.Index.Proof.Moves

namespace Scry.Index

variable {K V : Type} [LinearOrder K] [Key K] {m m' : Mem K V} {th th' : Thread K V}

/-! ## Pointers that are frozen -/

omit [LinearOrder K] [Key K] in
theorem cellAt_unfrozen (tree : Node K V) (n c : NodeId) (route : List (Edge K)) (path : List ℕ)
    (i : ℕ) : (tree.cellAt n route path).children i ≠ some ⟨c, true⟩ := by
  induction path generalizing tree n route with
  | nil =>
    cases tree with
    | null => rintro ⟨⟩
    | mk h st kv ch t =>
      rw [Node.cellAt]
      dsimp only
      cases ch i <;> rintro ⟨⟩
  | cons j path ih =>
    cases tree with
    | null => rintro ⟨⟩
    | mk h st kv ch t => exact ih (ch j) _ _

omit [LinearOrder K] [Key K] in
theorem place_frozen {r : Bool} {route : List (Edge K)} {tree : Node K V} {n c : NodeId} {i : ℕ}
    (hn : n.alloc < m.next + 1)
    (h : ((m.place r route tree).cells n).children i = some ⟨c, true⟩) :
    n.alloc < m.next ∧ (m.cells n).children i = some ⟨c, true⟩ := by
  rcases Nat.lt_succ_iff_lt_or_eq.1 hn with hn | hn
  · rw [Mem.place_cells hn] at h
    exact ⟨hn, h⟩
  · have hc : (m.place r route tree).cells n = tree.cellAt (m.fresh r) route n.path := if_pos hn
    rw [hc] at h
    exact absurd h (cellAt_unfrozen _ _ _ _ _ _)

omit [LinearOrder K] [Key K] in
theorem modify_frozen {x n c : NodeId} {f : Cell K V → Cell K V} {i : ℕ}
    (hf : n = x → (f (m.cells x)).children i = some ⟨c, true⟩ →
      (m.cells x).children i = some ⟨c, true⟩)
    (h : ((m.modify x f).cells n).children i = some ⟨c, true⟩) :
    (m.cells n).children i = some ⟨c, true⟩ := by
  by_cases hn : n = x
  · subst hn
    rw [Mem.modify_cells_self] at h
    exact hf rfl h
  · have hc : (m.modify x f).cells n = m.cells n := Function.update_of_ne hn _ _
    rwa [hc] at h

omit [LinearOrder K] [Key K] in
theorem placeChild_frozen {x n c : NodeId} {i j : ℕ} {tree : Node K V}
    {set : Cell K V → NodeId → Cell K V} (hx : x.alloc < m.next) (hn : n.alloc < m.next + 1)
    (hs : n = x → (set (m.cells x) (m.fresh false)).children i = some ⟨c, true⟩ →
      (m.cells x).children i = some ⟨c, true⟩)
    (h : ((m.placeChild x j tree set).cells n).children i = some ⟨c, true⟩) :
    n.alloc < m.next ∧ (m.cells n).children i = some ⟨c, true⟩ :=
  place_frozen hn (modify_frozen (by rw [Mem.place_cells hx]; exact hs) h)

omit [LinearOrder K] [Key K] in
/-- Storing an unfrozen pointer freezes none. -/
theorem update_unfrozen {f : ℕ → Option Ptr} {i j : ℕ} {n c : NodeId}
    (h : Function.update f j (some ⟨n, false⟩) i = some ⟨c, true⟩) : f i = some ⟨c, true⟩ := by
  by_cases hi : i = j
  · subst hi
    cases (Function.update_self i _ _).symm.trans h
  · rwa [Function.update_of_ne hi] at h

/-- **A child pointer is frozen by the CAS of a subtree rebuild.** -/
theorem Effect.frozen (he : Effect m th m') (hok : th.Ok m) {p c : NodeId} {i : ℕ}
    (hp : p.alloc < m'.next) (h : (m'.cells p).children i = some ⟨c, true⟩) :
    (p.alloc < m.next ∧ (m.cells p).children i = some ⟨c, true⟩) ∨
      (th.pc = .subFreeze c ∧ (∃ c₀, th.first = some (p, i, c₀)) ∧
        (m.cells p).children i = some ⟨c, false⟩) := by
  cases he with
  | quiet hpc hc hn => rw [hn] at hp; rw [hc] at h; exact Or.inl ⟨hp, h⟩
  | claim | bury | publishData | count => exact Or.inl ⟨hp, modify_frozen (fun _ => id) h⟩
  | publishChild hpc =>
    simp only [Thread.Ok, hpc] at hok
    obtain ⟨k, hat, -⟩ := hok
    exact Or.inl (placeChild_frozen hat.1.2.2.curWF.alloc hp (fun _ => update_unfrozen) h)
  | @freeze q j c₀ c₁ hpc hf hq =>
    by_cases hx : p = q ∧ i = j
    · obtain ⟨rfl, rfl⟩ := hx
      rw [Mem.modify_cells_self] at h
      cases (Function.update_self i _ _).symm.trans h
      exact Or.inr ⟨hpc, ⟨c₀, hf⟩, hq⟩
    · refine Or.inl ⟨hp, modify_frozen (fun hpq h' => ?_) h⟩
      exact (Function.update_of_ne (fun hij => hx ⟨hpq, hij⟩) _ _).symm.trans h'
  | unfreeze => exact Or.inl ⟨hp, modify_frozen (fun _ => update_unfrozen) h⟩
  | @swapChild q j c₀ c₁ pairs tree hpc hf =>
    simp only [Thread.Ok, hpc] at hok
    obtain ⟨k, ⟨⟨⟨hat, -⟩, -⟩, -⟩, -⟩ := hok
    have hqa : q.alloc < m.next := (hat.2.2.descent q j c₀ hf).parent ▸ hat.2.2.rootWF.alloc
    exact Or.inl (placeChild_frozen hqa hp (fun _ => update_unfrozen) h)
  | freezeRoot | unfreezeRoot => exact Or.inl ⟨hp, h⟩
  | swapRoot | swapEmpty => exact Or.inl (place_frozen hp h)

/-- **The root is frozen by the CAS of an operation on the root.** -/
theorem Effect.rootFrozen (he : Effect m th m') (h : m'.root.frozen = true) :
    m.root.frozen = true ∨ ∃ r, th.pc = .rootFreeze r ∧ m.root = ⟨r, false⟩ := by
  cases he with
  | quiet _ _ _ hr => rw [hr] at h; exact Or.inl h
  | freezeRoot hpc hr => exact Or.inr ⟨_, hpc, hr⟩
  | unfreezeRoot | swapRoot | swapEmpty => cases h
  | _ => exact Or.inl h

namespace Sys
variable {s s' : Sys K V} {t : ℕ}

/-- Every frozen pointer has an owner. -/
structure Tended (s : Sys K V) : Prop where
  edge {p c : NodeId} {i : ℕ} : p.alloc < s.mem.next →
    (s.mem.cells p).children i = some ⟨c, true⟩ →
      ∃ t th, s.threads t = some th ∧ th.lock = some (.edge p i)
  root : s.mem.root.frozen = true → ∃ t th, s.threads t = some th ∧ th.lock = some .root

namespace Tended

omit [LinearOrder K] [Key K] in
theorem init (map : LearnedMap K V) : (Sys.init map).Tended where
  edge hp h := absurd (place_frozen hp h).1 (Nat.not_lt_zero _)
  root h := by cases h

omit [LinearOrder K] [Key K] in
theorem invoke {call : Call K V} (h : s.Tended) (hs : s.invoke t call = some s') : s'.Tended := by
  obtain ⟨hnone, rfl⟩ := invoke_eq_some hs
  have hkeep : ∀ {l : Lock}, (∃ t th, s.threads t = some th ∧ th.lock = some l) →
      ∃ t' th, Function.update s.threads t (some (Thread.start call)) t' = some th ∧
        th.lock = some l := by
    rintro l ⟨t', th, hth, hl⟩
    refine ⟨t', th, (Function.update_of_ne ?_ _ _).trans hth, hl⟩
    rintro rfl
    cases hnone.symm.trans hth
  exact ⟨fun hp hc => hkeep (h.edge hp hc), fun hr => hkeep (h.root hr)⟩

theorem step [LawfulKey K] (h : s.Tended) (hinv : s.Inv) (hs : s.step t = some s') :
    s'.Tended := by
  obtain ⟨th, m', next, hth, hstep, rfl⟩ := step_eq_some hs
  have he := step_effect hinv.headroom (hinv.ok hth) (hinv.locks hth) hstep
  -- an owner stays one until the step that frees the pointer
  have hkeep : ∀ {l : Lock}, l.IsPointer → ¬ l.Free m' →
      (∃ t th, s.threads t = some th ∧ th.lock = some l) →
      ∃ t' th', (s.proceed t th.call m' next).threads t' = some th' ∧ th'.lock = some l := by
    rintro l hptr hfree ⟨t', th₁, hth₁, hl⟩
    by_cases ht : t' = t
    · subst ht
      obtain rfl := Option.some.inj (hth.symm.trans hth₁)
      by_contra hno
      refine hfree (step_unfreezes (hinv.ok hth) (hinv.locks hth) hl hptr hstep fun th' hn hl' => ?_)
      subst hn
      exact hno ⟨t', th', Function.update_self _ _ _, hl'⟩
    · exact ⟨t', th₁, (proceed_threads_of_ne ht _ _ _).trans hth₁, hl⟩
  constructor
  · intro p c i hp hc
    rw [proceed_mem] at hp hc
    rcases he.frozen (hinv.ok hth) hp hc with ⟨hp₀, hc₀⟩ | ⟨hpc, ⟨c₀, hf⟩, hc₀⟩
    · exact hkeep trivial (fun hfree => hfree c hc) (h.edge hp₀ hc₀)
    · simp only [Thread.step, hpc, stepSubFreeze, hf, hc₀, if_true, Option.some.injEq] at hstep
      cases hstep
      exact ⟨t, _, Function.update_self _ _ _, by rw [Thread.lock, hf]; rfl⟩
  · intro hr
    rw [proceed_mem] at hr
    rcases he.rootFrozen hr with hr₀ | ⟨r, hpc, hr₀⟩
    · refine hkeep trivial (fun hfree => ?_) (h.root hr₀)
      rw [Lock.Free, hr] at hfree
      cases hfree
    · simp only [Thread.step, hpc, stepRootFreeze, hr₀, if_true, Option.some.injEq] at hstep
      cases hstep
      exact ⟨t, _, Function.update_self _ _ _, rfl⟩

theorem act [LawfulKey K] (h : s.Tended) (hinv : s.Inv) {a : Act K V} (ha : s.act a = some s') :
    s'.Tended := by
  cases a with
  | call t c => exact h.invoke ha
  | step t => exact h.step hinv ha

end Tended

end Sys

/-! ## The next step -/

/-- The step fits the operation: it publishes no removal, and only operations that return a
    value look one up. -/
structure Thread.Suited (th : Thread K V) : Prop where
  writes : th.pc = .publish → th.write ≠ .bury
  asks : th.pc.isLook = true → (∃ k, th.call = .get k) ∨ ∃ k v, th.call = .getOrInsert k v

namespace Thread.Suited

omit [LinearOrder K] [Key K] in
theorem start (call : Call K V) : (Thread.start call).Suited := by
  constructor <;> intro h <;> cases call <;> cases h

omit [LinearOrder K] [Key K] in
theorem of_pc (hp : th.pc ≠ .publish) (hl : th.pc.isLook = false) : th.Suited :=
  ⟨fun h => absurd h hp, fun h => by rw [hl] at h; cases h⟩

omit [LinearOrder K] [Key K] in
theorem finish (h : th.finish = .goto th') : th'.Suited := by
  unfold Thread.finish at h
  split at h <;> cases h
  · exact of_pc (by rintro ⟨⟩) rfl
  · rename_i hc _
    exact ⟨(by rintro ⟨⟩), fun _ => Or.inr ⟨_, _, hc⟩⟩
  · exact of_pc (by rintro ⟨⟩) rfl

omit [LinearOrder K] [Key K] in
theorem finishes {next : Next K V} (h : next.Finishes th) (hn : next = .goto th') :
    th'.Suited := by
  rcases h with rfl | ⟨pc, rfl, hpc⟩
  · exact finish hn
  · cases hn
    cases pc with
    | subState | subLoad | subFreeze | subWalk | subSwap => exact of_pc (by rintro ⟨⟩) rfl
    | _ => cases hpc

omit [LinearOrder K] [Key K] in
theorem found {val : Option V} (h : th.found val = .goto th') : th'.Suited := by
  unfold Thread.found at h
  split at h
  · split at h <;> cases h <;> exact of_pc (by rintro ⟨⟩) rfl
  · cases h

theorem lookSlot {n : NodeId} {key : K} (h : lookSlot m th n key = .goto th')
    (hc : (∃ k, th.call = .get k) ∨ ∃ k v, th.call = .getOrInsert k v) : th'.Suited := by
  unfold Scry.Index.lookSlot at h
  dsimp only at h
  split at h
  · split at h
    · split_ifs at h <;> exact found h
    · exact found h
  · cases h; exact ⟨(by rintro ⟨⟩), fun _ => hc⟩
  · cases h; exact ⟨(by rintro ⟨⟩), fun _ => hc⟩
  · exact found h

theorem lookChild {n : NodeId} {key : K} (h : lookChild m th n key = .goto th')
    (hc : (∃ k, th.call = .get k) ∨ ∃ k v, th.call = .getOrInsert k v) : th'.Suited := by
  unfold Scry.Index.lookChild at h
  dsimp only at h
  split at h
  · exact found h
  · cases h; exact ⟨(by rintro ⟨⟩), fun _ => hc⟩

/-- A read of the slot leads to no publication and to no lookup. -/
theorem readSlot {next : Next K V} (h : stepReadSlot m th = some next) (hn : next = .goto th') :
    th'.Suited := by
  subst hn
  have hp : th'.pc ≠ .publish ∧ th'.pc.isLook = false := by
    unfold stepReadSlot at h
    split at h
    · unfold readInsert at h
      dsimp only at h
      split at h
      case h_4 =>
        split at h
        · cases h
        · split_ifs at h
          · cases h; exact ⟨by rintro ⟨⟩, rfl⟩
          · obtain ⟨c, -, h⟩ := Option.bind_eq_some_iff.1 h
            cases h
            exact ⟨by rintro ⟨⟩, rfl⟩
      all_goals cases h; exact ⟨by rintro ⟨⟩, rfl⟩
    · unfold readGetOrInsert at h
      dsimp only at h
      split at h
      case h_4 =>
        split at h
        · cases h
        · split_ifs at h
          · cases h; exact ⟨by rintro ⟨⟩, rfl⟩
          · obtain ⟨c, -, h⟩ := Option.bind_eq_some_iff.1 h
            cases h
            exact ⟨by rintro ⟨⟩, rfl⟩
      all_goals cases h; exact ⟨by rintro ⟨⟩, rfl⟩
    · unfold readRemove at h
      dsimp only at h
      split at h
      case h_4 =>
        split at h
        · cases h
        · split_ifs at h <;> cases h <;> exact ⟨by rintro ⟨⟩, rfl⟩
      all_goals cases h; exact ⟨by rintro ⟨⟩, rfl⟩
    · cases h
  exact of_pc hp.1 hp.2

/-- **The step that comes next fits the operation.** -/
theorem step {config : Config} (hs : th.Suited) (h : th.step config m = some (m', .goto th')) :
    th'.Suited := by
  cases hpc : th.pc <;> simp only [Thread.step, hpc] at h
  case loadRoot =>
    have hn := (Prod.mk.inj (Option.some.inj h)).2
    unfold stepLoadRoot at hn
    split at hn
    · rename_i hc
      cases hn
      exact ⟨(by rintro ⟨⟩), fun _ => Or.inl ⟨_, hc⟩⟩
    · split_ifs at hn <;> cases hn <;> exact of_pc (by rintro ⟨⟩) rfl
  case readSlot =>
    obtain ⟨n, hn, he⟩ := Option.map_eq_some_iff.1 h
    exact readSlot hn (Prod.mk.inj he).2
  case loadChild =>
    have hn := (Prod.mk.inj (Option.some.inj h)).2
    unfold stepLoadChild at hn
    split at hn
    · split at hn <;> cases hn <;> exact of_pc (by rintro ⟨⟩) rfl
    · split_ifs at hn <;> cases hn <;> exact of_pc (by rintro ⟨⟩) rfl
  case claim =>
    have hn := congrArg Prod.snd (Option.some.inj h)
    unfold stepClaim at hn
    split_ifs at hn
    · split at hn
      · cases hn; exact of_pc (by rintro ⟨⟩) rfl
      · rename_i hw
        cases hn
        exact ⟨fun _ => hw, fun h => by cases h⟩
    · cases hn; exact of_pc (by rintro ⟨⟩) rfl
  case publish =>
    unfold stepPublish at h
    split at h
    · cases h; exact of_pc (by rintro ⟨⟩) rfl
    · split_ifs at h <;> cases h <;> exact of_pc (by rintro ⟨⟩) rfl
    · cases h
  case countTombstone => cases h; exact of_pc (by rintro ⟨⟩) rfl
  case validateChild =>
    have hn := (Prod.mk.inj (Option.some.inj h)).2
    rcases stepValidateChild_next config m th with ⟨-, he | he | he⟩ | ⟨again, he⟩ <;>
      rw [he] at hn
    · cases hn; exact of_pc (by rintro ⟨⟩) rfl
    · exact finishes finishes_afterInsert hn
    · cases hn; exact of_pc (by rintro ⟨⟩) rfl
    · cases hn; exact of_pc (by rintro ⟨⟩) rfl
  case checkRatio => exact finishes finishes_stepCheckRatio (Prod.mk.inj (Option.some.inj h)).2
  case subState => exact finishes finishes_stepSubState (Prod.mk.inj (Option.some.inj h)).2
  case subLoad => exact finishes finishes_stepSubLoad (Prod.mk.inj (Option.some.inj h)).2
  case subFreeze c => exact finishes (finishes_stepSubFreeze c) (congrArg Prod.snd (Option.some.inj h))
  case subWalk c w => exact finishes (finishes_stepSubWalk c w) (Prod.mk.inj (Option.some.inj h)).2
  case subSwap => exact finishes (finishes_stepSubSwap h) rfl
  case ownChild =>
    have hn := (Prod.mk.inj (Option.some.inj h)).2
    unfold stepOwnChild at hn
    split at hn <;> cases hn
    · exact of_pc (by rintro ⟨⟩) rfl
    · exact ⟨(by rintro ⟨⟩), fun _ => hs.asks (by rw [hpc]; rfl)⟩
  case look n =>
    obtain ⟨n', hn, he⟩ := Option.map_eq_some_iff.1 h
    obtain rfl := (Prod.mk.inj he).2
    unfold stepLook at hn
    split at hn
    · exact lookSlot (Option.some.inj hn) (hs.asks (by rw [hpc]; rfl))
    · exact lookSlot (Option.some.inj hn) (hs.asks (by rw [hpc]; rfl))
    · cases hn
  case lookChild n =>
    obtain ⟨n', hn, he⟩ := Option.map_eq_some_iff.1 h
    obtain rfl := (Prod.mk.inj he).2
    unfold stepLookChild at hn
    split at hn
    · exact lookChild (Option.some.inj hn) (hs.asks (by rw [hpc]; rfl))
    · exact lookChild (Option.some.inj hn) (hs.asks (by rw [hpc]; rfl))
    · cases hn
  case validateRoot =>
    have hn := (Prod.mk.inj (Option.some.inj h)).2
    unfold stepValidateRoot at hn
    dsimp only at hn
    split_ifs at hn <;> cases hn <;> exact of_pc (by rintro ⟨⟩) rfl
  case count =>
    have hn := congrArg Prod.snd (Option.some.inj h)
    unfold stepCount at hn
    split at hn
    · cases hn
    · dsimp only at hn
      split_ifs at hn
      cases hn
      exact of_pc (by rintro ⟨⟩) rfl
  case loadThreshold =>
    have hn := (Prod.mk.inj (Option.some.inj h)).2
    unfold stepLoadThreshold at hn
    split_ifs at hn
    cases hn
    exact of_pc (by rintro ⟨⟩) rfl
  case casThreshold =>
    have hn := congrArg Prod.snd (Option.some.inj h)
    unfold stepCasThreshold at hn
    split_ifs at hn
    cases hn
    exact of_pc (by rintro ⟨⟩) rfl
  case rootLoad =>
    have hn := (Prod.mk.inj (Option.some.inj h)).2
    unfold stepRootLoad at hn
    split_ifs at hn
    cases hn
    exact of_pc (by rintro ⟨⟩) rfl
  case rootFreeze =>
    have hn := congrArg Prod.snd (Option.some.inj h)
    unfold stepRootFreeze at hn
    split_ifs at hn
    cases hn
    exact of_pc (by rintro ⟨⟩) rfl
  case rootWalk =>
    have hn := (Prod.mk.inj (Option.some.inj h)).2
    unfold stepRootWalk at hn
    split at hn <;> cases hn <;> exact of_pc (by rintro ⟨⟩) rfl
  case rootSwap =>
    obtain ⟨n, hn | hn⟩ := stepRootSwap_pc h <;> exact of_pc (by rw [hn]; rintro ⟨⟩) (by rw [hn]; rfl)
  case subtract => cases h; exact of_pc (by rintro ⟨⟩) rfl
  case storeThreshold => cases h

end Thread.Suited

/-- The slot of an update can be read: a conflict node separates the two keys. -/
theorem stepReadSlot_isSome [LawfulKey K] (h : ∃ k, th.At m k) : (stepReadSlot m th).isSome := by
  obtain ⟨k, hkey, hg, htree⟩ := h
  -- what a slot in state `DATA` holds
  have hdata : ∀ {k' : K}, (m.cells th.cur).state ((m.cells th.cur).head.predictSlot k') = .data →
      ∃ k₁ v₁, (m.cells th.cur).inline ((m.cells th.cur).head.predictSlot k') = some (k₁, v₁) := by
    intro k' hst
    obtain ⟨k₁, v₁, hi, -⟩ := htree.curWF.cell.data _ ((Cell.state_eq (by decide)).1 hst).2
    exact ⟨k₁, v₁, hi⟩
  unfold stepReadSlot
  split
  · rename_i key value hc
    unfold readInsert
    dsimp only
    split
    case h_4 hst =>
      obtain ⟨k₁, v₁, hi⟩ := hdata hst
      simp only [hi]
      split_ifs with hk
      · rfl
      · obtain ⟨n, hn, -⟩ := buildConflictNode_get hk v₁ value
        rw [hn]
        rfl
    all_goals rfl
  · rename_i key value hc
    unfold readGetOrInsert
    dsimp only
    split
    case h_4 hst =>
      obtain ⟨k₁, v₁, hi⟩ := hdata hst
      simp only [hi]
      split_ifs with hk
      · rfl
      · obtain ⟨n, hn, -⟩ := buildConflictNode_get hk v₁ value
        rw [hn]
        rfl
    all_goals rfl
  · unfold readRemove
    dsimp only
    split
    case h_4 hst =>
      obtain ⟨k₁, v₁, hi⟩ := hdata hst
      simp only [hi]
      split_ifs <;> rfl
    all_goals rfl
  · rename_i h₁ h₂ h₃
    exfalso
    cases hc : th.call with
    | get k' => exact hg k' hc
    | insert k' v => exact h₁ k' v hc
    | getOrInsert k' v => exact h₂ k' v hc
    | remove k' => exact h₃ k' hc
    | rebuild | drain | clear => rw [hc] at hkey; cases hkey

/-- A subtree is rebuilt from pairs that ascend. -/
theorem stepSubSwap_isSome [LawfulKey K] {config : Config} (hc : config.Valid) {c : NodeId}
    {pairs : List (K × V)} (hasc : Ascending pairs) :
    (stepSubSwap config m th c pairs).isSome := by
  unfold stepSubSwap
  split
  · rfl
  dsimp only
  by_cases hlen : pairs.length ≤ 1
  · rw [if_pos hlen]
    split_ifs <;> rfl
  · rw [if_neg hlen]
    have hne : pairs ≠ [] := by
      rintro rfl
      exact hlen (Nat.zero_le _)
    obtain ⟨n, hn, -⟩ := buildRecursive_holds (V := V) hc.boosted pairs.length pairs hne le_rfl hasc
    rw [hn, Option.bind_eq_bind, Option.bind_some]
    split_ifs <;> rfl

/-- A root is rebuilt from pairs that ascend. -/
theorem stepRootSwap_isSome [LawfulKey K] {config : Config} (hc : config.Valid) {r : NodeId}
    {pairs : List (K × V)} (hasc : Ascending pairs) :
    (stepRootSwap config m th r pairs).isSome := by
  unfold stepRootSwap
  split
  · rfl
  · rfl
  unfold swapRebuilt
  by_cases he : pairs.isEmpty = true
  · rw [if_pos he]
    rfl
  · have hc₁ : ({ config with rangeHeadroom := 1 } : Config).Valid := ⟨hc.expansion, zero_le_one⟩
    obtain ⟨n, hn, -⟩ := bulkLoad_holds (V := V) hc₁ (by simpa using he) hasc
    rw [if_neg he, hn, Option.bind_eq_bind, Option.bind_some]
    dsimp only
    split_ifs <;> rfl

/-- **A running operation has a next step.** -/
theorem step_isSome [LawfulKey K] {config : Config} (hc : config.Valid) (hok : th.Ok m)
    (hs : th.Suited) : (th.step config m).isSome := by
  cases hpc : th.pc <;> simp only [Thread.Ok, hpc] at hok <;> simp only [Thread.step, hpc]
  case readSlot => exact Option.isSome_map.trans (stepReadSlot_isSome hok)
  case publish =>
    have hw := hs.writes hpc
    unfold stepPublish
    split
    · rfl
    · rfl
    · exact absurd ‹_› hw
  case subSwap c pairs =>
    obtain ⟨k, -, hasc, -⟩ := hok
    exact stepSubSwap_isSome hc hasc
  case look n =>
    rcases hs.asks (by rw [hpc]; rfl) with ⟨k, hcall⟩ | ⟨k, v, hcall⟩ <;>
      (rw [stepLook, hcall]; rfl)
  case lookChild n =>
    rcases hs.asks (by rw [hpc]; rfl) with ⟨k, hcall⟩ | ⟨k, v, hcall⟩ <;>
      (rw [stepLookChild, hcall]; rfl)
  case rootSwap r pairs => exact stepRootSwap_isSome hc hok
  all_goals rfl

/-! ## Runs -/

/-- It has been allocated. -/
def Lock.Allocated (m : Mem K V) : Lock → Prop
  | .slot n _ => n.alloc < m.next
  | .edge p _ => p.alloc < m.next
  | .root => True

namespace Sys
variable {s s' : Sys K V} {t : ℕ}

/-- What holds in every state of a run in which no operation panics. -/
structure Sound (s : Sys K V) : Prop where
  valid : s.config.Valid
  inv : s.Inv
  tended : s.Tended
  suited {t : ℕ} {th : Thread K V} : s.threads t = some th → th.Suited

namespace Sound

theorem init [LawfulKey K] {config : Config} (hc : config.Valid) {map : LearnedMap K V}
    {pairs : List (K × V)} (hs : Starts config map pairs) : (Sys.init map).Sound where
  valid := by
    obtain ⟨hcfg, -⟩ := hs.root_wf
    rw [← hcfg] at hc
    exact hc
  inv := .init hc hs
  tended := .init map
  suited hth := by cases hth

/-- A running operation takes its next step. -/
theorem step_isSome [LawfulKey K] (h : s.Sound) (hth : s.threads t = some th) :
    (s.step t).isSome := by
  rw [Sys.step, hth]
  exact Option.isSome_map.trans (Scry.Index.step_isSome h.valid (h.inv.ok hth) (h.suited hth))

theorem act [LawfulKey K] {a : Act K V} (h : s.Sound) (ha : s.act a = some s') : s'.Sound := by
  refine ⟨?_, h.inv.act ha, h.tended.act h.inv ha, fun {t' th'} hth' => ?_⟩
  · cases a with
    | call t c =>
      obtain ⟨-, rfl⟩ := invoke_eq_some ha
      exact h.valid
    | step t =>
      obtain ⟨th, m', next, -, -, rfl⟩ := step_eq_some ha
      rw [proceed_config]
      exact h.valid
  · cases a with
    | call t c =>
      rcases threads_of_invoke ha hth' with ⟨-, rfl⟩ | hth
      · exact .start c
      · exact h.suited hth
    | step t =>
      obtain ⟨th, m', next, hth, hstep, rfl⟩ := step_eq_some ha
      by_cases ht : t' = t
      · subst ht
        obtain rfl := proceed_threads_self hth'
        exact (h.suited hth).step hstep
      · rw [proceed_threads_of_ne ht] at hth'
        exact h.suited hth'

theorem run [LawfulKey K] (h : s.Sound) {sched : List (Act K V)} (hs : s.run sched = some s') :
    s'.Sound :=
  Run.run_induct (C := fun _ _ => True) (fun h _ ha => h.act ha) h (.of_forall fun _ _ => trivial) hs

/-- What is not free has an owner. -/
theorem owner (h : s.Sound) {l : Lock} (ha : l.Allocated s.mem) (hf : ¬ l.Free s.mem) :
    ∃ t th, s.threads t = some th ∧ th.lock = some l := by
  cases l with
  | slot n i => exact h.inv.owned ha (by simpa [Lock.Free] using hf)
  | edge p i =>
    rw [Lock.Free] at hf
    push Not at hf
    obtain ⟨c, hc⟩ := hf
    exact h.tended.edge ha hc
  | root => exact h.tended.root (by simpa [Lock.Free] using hf)

end Sound

/-- The thread is free to take the action. -/
def Apt (s : Sys K V) : Act K V → Prop
  | .call t _ => (s.threads t).isNone
  | .step t => (s.threads t).isSome

instance (s : Sys K V) (a : Act K V) : Decidable (s.Apt a) :=
  match a with
  | .call t _ => inferInstanceAs (Decidable ((s.threads t).isNone = true))
  | .step t => inferInstanceAs (Decidable ((s.threads t).isSome = true))

theorem Sound.act_isSome [LawfulKey K] (h : s.Sound) (a : Act K V) :
    (s.act a).isSome ↔ s.Apt a := by
  cases a with
  | call t c =>
    rw [Sys.act, invoke, Apt]
    cases s.threads t with
    | none => exact iff_of_true rfl rfl
    | some th => exact iff_of_false (by rintro ⟨⟩) (by rintro ⟨⟩)
  | step t =>
    constructor
    · intro hs
      obtain ⟨s', hs'⟩ := Option.isSome_iff_exists.1 hs
      obtain ⟨th, -, -, hth, -⟩ := step_eq_some hs'
      exact Option.isSome_iff_exists.2 ⟨th, hth⟩
    · intro ht
      obtain ⟨th, hth⟩ := Option.isSome_iff_exists.1 ht
      exact h.step_isSome hth

/-- **No schedule gets stuck**: each action is taken unless it lets a thread that runs no
    operation take a step, or calls a thread that runs one. -/
theorem run_isSome_iff [LawfulKey K] {config : Config} (hc : config.Valid) {map : LearnedMap K V}
    {pairs : List (K × V)} (hs : Starts config map pairs) (sched : List (Act K V)) :
    ((Sys.init map).run sched).isSome ↔ Run.Meets act Apt (Sys.init map) sched :=
  Run.foldlM_isSome_iff (I := Sound) (fun h ha => h.act ha) (fun h => h.act_isSome _)
    (.init hc hs)

/-- An insert that a rebuild overtakes before its pair is published. -/
def overtaken (k : K) (v : V) : List (Act K V) :=
  .call 0 (.insert k v) :: List.replicate 3 (Act.step 0) ++ Act.call 1 .rebuild :: List.replicate 60 (Act.step 1)

/-- A rebuild waits for the slot that the insert has claimed; the schedule goes through. -/
theorem run_isSome_iff_overtaken :
    ((Sys.init (.withConfig {} : LearnedMap (Fin (2 ^ 8)) ℕ)).run
      (overtaken ⟨100, by decide⟩ 1)).isSome := by
  have := lawfulKey_unsigned (show 8 ≤ 64 by decide)
  have hconf : ({} : Config).Valid := ⟨one_le_two, le_rfl⟩
  have hmeets : Run.Meets act Apt (Sys.init (.withConfig {} : LearnedMap (Fin (2 ^ 8)) ℕ))
      (overtaken ⟨100, by decide⟩ 1) := by
    decide +kernel
  exact (run_isSome_iff hconf .withConfig _).2 hmeets

/-- **A slot is `WRITING`, and a pointer frozen, while one operation owns it**, and at no other
    time. -/
theorem run_owned [LawfulKey K] {config : Config} (hc : config.Valid) {map : LearnedMap K V}
    {pairs : List (K × V)} (hs : Starts config map pairs) {sched : List (Act K V)}
    (hrun : (Sys.init map).run sched = some s) {l : Lock} (ha : l.Allocated s.mem) :
    ¬ l.Free s.mem ↔ ∃! t, ∃ th, s.threads t = some th ∧ th.lock = some l := by
  have hsound := (Sound.init hc hs).run hrun
  constructor
  · intro hf
    obtain ⟨t, th, hth, hl⟩ := hsound.owner ha hf
    refine ⟨t, ⟨th, hth, hl⟩, ?_⟩
    rintro t' ⟨th', hth', hl'⟩
    exact hsound.inv.excl hth' hth hl' hl
  · rintro ⟨t, ⟨th, hth, hl⟩, -⟩
    exact (hsound.inv.locks hth).not_free hl

/-- The root while it is rebuilt. -/
theorem run_owned_overtaken : ∃ s : Sys (Fin (2 ^ 8)) ℕ,
    (Sys.init (.withConfig {})).run (overtaken ⟨100, by decide⟩ 1) = some s ∧
      ∃! t, ∃ th, s.threads t = some th ∧ th.lock = some .root := by
  have := lawfulKey_unsigned (show 8 ≤ 64 by decide)
  have he : ((Sys.init (.withConfig {} : LearnedMap (Fin (2 ^ 8)) ℕ)).run
      (overtaken ⟨100, by decide⟩ 1)).map (fun s => s.mem.root.frozen) = some true := by
    decide +kernel
  have hconf : ({} : Config).Valid := ⟨one_le_two, le_rfl⟩
  obtain ⟨s, hs, hf⟩ := Option.map_eq_some_iff.1 he
  refine ⟨s, hs, (run_owned hconf .withConfig hs (l := .root) trivial).1 fun hfree => ?_⟩
  rw [Lock.Free, hf] at hfree
  cases hfree

end Sys

end Scry.Index
