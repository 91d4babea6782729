/-
  Where an update of a key stands that no other operation uses meanwhile.

  An attempt of such an update starts at the root, and once it has found its first descent
  in place, its node and its tree hold the same of the key (`ExactAt`): what it reads there
  is what its tree is sure of.  What it returns it has collected in its flags (`marked`).
-/
import Scry.Index.Proof.Agree

namespace Scry.Index

variable {K V : Type} [LinearOrder K] [Key K] {m m' : Mem K V} {th th' : Thread K V} {k : K}
  {P : Option V → Prop} {next : Next K V}

/-! ## The flags of an update -/

/-- The lookup at the end of a `get_or_insert`. -/
def Pc.isLook : Pc K V → Bool
  | .ownChild => true
  | .look _ => true
  | .lookChild _ => true
  | _ => false

/-- The update has added or removed its key, in this attempt or in an earlier one. -/
def Thread.marked (th : Thread K V) : Bool :=
  th.was || match th.pc with
    | .loadRoot => false
    | .readSlot => th.again
    | .loadChild => th.again
    | .claim => th.again
    | .publish => th.again
    | .countTombstone => th.again || th.write.isNew
    | .validateChild => th.again || th.write.isNew
    | .validateRoot isNew _ => isNew
    | _ => true

omit [LinearOrder K] [Key K] in
theorem Next.Finishes.marked (h : next.Finishes th) (hn : next = .goto th') : th'.marked = true := by
  rcases h with rfl | ⟨pc, rfl, hpc⟩
  · unfold Thread.finish at hn
    split at hn <;> cases hn <;> simp [Thread.marked]
  · cases hn
    cases pc with
    | subState | subLoad | subFreeze | subWalk | subSwap => simp [Thread.marked]
    | _ => cases hpc

omit [LinearOrder K] [Key K] in
/-- The comparison of the first descent keeps the flag. -/
theorem stepValidateChild_marked {config : Config} (hpc : th.pc = .validateChild)
    (h : stepValidateChild config m th = .goto th') : th'.marked = th.marked := by
  have hth : th.marked = (th.was || (th.again || th.write.isNew)) := by
    simp only [Thread.marked, hpc]
  unfold stepValidateChild at h
  extract_lets done at h
  have hdone : done = .goto th' → th'.marked = th.marked := by
    intro hn
    rw [hth]
    simp only [done] at hn
    split at hn
    · rename_i hw
      cases hn
      simp [Thread.marked, hw, Write.isNew]
    · by_cases hnew : th.write.isNew = true
      · rw [if_pos hnew] at hn
        rw [finishes_afterInsert.marked hn, hnew]
        simp
      · rw [if_neg hnew] at hn
        cases hn
        simp [Thread.marked, hnew]
  split at h
  · exact hdone h
  · split_ifs at h
    · exact hdone h
    · cases h
      rw [hth]
      simp [Thread.marked]

/-- A look at a slot changes nothing but what the update is about to do there. -/
theorem stepReadSlot_same (h : stepReadSlot m th = some (.goto th')) :
    ∃ i w pc, th' = { th with idx := i, write := w, pc := pc } := by
  unfold stepReadSlot at h
  split at h
  · simp only [readInsert] at h
    split at h
    case h_4 =>
      split at h
      · cases h
      · split_ifs at h
        · cases h; exact ⟨_, _, _, rfl⟩
        · obtain ⟨child, -, hn⟩ := Option.bind_eq_some_iff.1 h
          cases hn
          exact ⟨_, _, _, rfl⟩
    all_goals cases h; exact ⟨_, _, _, rfl⟩
  · simp only [readGetOrInsert] at h
    split at h
    case h_4 =>
      split at h
      · cases h
      · split_ifs at h
        · cases h; exact ⟨_, _, _, rfl⟩
        · obtain ⟨child, -, hn⟩ := Option.bind_eq_some_iff.1 h
          cases hn
          exact ⟨_, _, _, rfl⟩
    all_goals cases h; exact ⟨_, _, _, rfl⟩
  · simp only [readRemove] at h
    split at h
    case h_4 =>
      split at h
      · cases h
      · split_ifs at h <;> cases h <;> exact ⟨_, _, _, rfl⟩
    all_goals cases h; exact ⟨_, _, _, rfl⟩
  · cases h

/-- What the slot of an update leads to. -/
theorem stepReadSlot_cases (hcur : m.NodeWF th.cur) (hkey : th.call.key = some k)
    (h : stepReadSlot m th = some (.goto th')) :
    (th'.pc = .readSlot ∨ th'.pc = .loadChild) ∨
      ((m.cells th.cur).slots ((m.cells th.cur).slotOf k)).isChild = false ∧
        (th'.pc = .claim ∨
          (th'.pc = .validateRoot th.again ((m.cells th.cur).leafGet ((m.cells th.cur).slotOf k) k) ∧
          ((th.call = .remove k ∧ (m.cells th.cur).leafGet ((m.cells th.cur).slotOf k) k = none) ∨
            ∃ v v', th.call = .getOrInsert k v ∧
              (m.cells th.cur).leafGet ((m.cells th.cur).slotOf k) k = some v'))) := by
  have hslot : ∀ k', (m.cells th.cur).head.predictSlot k' = (m.cells th.cur).slotOf k' :=
    fun _ => rfl
  have hleaf : ∀ {st : SlotState}, st ≠ .writing → st.isChild = false →
      (m.cells th.cur).state ((m.cells th.cur).slotOf k) = st →
      ((m.cells th.cur).slots ((m.cells th.cur).slotOf k)).isChild = false := by
    intro st hw hc hs
    rw [((Cell.state_eq hw).1 hs).2, hc]
  have habsent : ∀ {st : SlotState}, st ≠ .writing → st ≠ .data →
      (m.cells th.cur).state ((m.cells th.cur).slotOf k) = st →
      (m.cells th.cur).leafGet ((m.cells th.cur).slotOf k) k = none := by
    intro st hw hd hs
    exact Cell.leafGet_of_ne_data (by rw [((Cell.state_eq hw).1 hs).2]; exact hd) k
  unfold stepReadSlot at h
  split at h
  · rename_i key value hc
    obtain rfl : key = k := by rw [hc] at hkey; exact Option.some.inj hkey
    simp only [readInsert, hslot] at h
    split at h
    · cases h; exact Or.inl (Or.inl rfl)
    · rename_i hs
      cases h
      exact Or.inr ⟨hleaf (by decide) rfl hs, Or.inl rfl⟩
    · rename_i hs
      cases h
      exact Or.inr ⟨hleaf (by decide) rfl hs, Or.inl rfl⟩
    · rename_i hs
      obtain ⟨k₁, v₁, hi, -⟩ := hcur.cell.data _ ((Cell.state_eq (by decide)).1 hs).2
      simp only [hi] at h
      split_ifs at h
      · cases h
        exact Or.inr ⟨hleaf (by decide) rfl hs, Or.inl rfl⟩
      · obtain ⟨child, -, hn⟩ := Option.bind_eq_some_iff.1 h
        cases hn
        exact Or.inr ⟨hleaf (by decide) rfl hs, Or.inl rfl⟩
    · cases h; exact Or.inl (Or.inr rfl)
    · cases h; exact Or.inl (Or.inr rfl)
  · rename_i key value hc
    obtain rfl : key = k := by rw [hc] at hkey; exact Option.some.inj hkey
    simp only [readGetOrInsert, hslot] at h
    split at h
    · cases h; exact Or.inl (Or.inl rfl)
    · rename_i hs
      cases h
      exact Or.inr ⟨hleaf (by decide) rfl hs, Or.inl rfl⟩
    · rename_i hs
      cases h
      exact Or.inr ⟨hleaf (by decide) rfl hs, Or.inl rfl⟩
    · rename_i hs
      have hd := ((Cell.state_eq (by decide)).1 hs).2
      obtain ⟨k₁, v₁, hi, -⟩ := hcur.cell.data _ hd
      simp only [hi] at h
      split_ifs at h with hk
      · cases h
        have hget := Cell.leafGet_data hd hi key
        rw [if_pos hk] at hget
        exact Or.inr ⟨hleaf (by decide) rfl hs, Or.inr ⟨by rw [hget], Or.inr ⟨_, _, hc, hget⟩⟩⟩
      · obtain ⟨child, -, hn⟩ := Option.bind_eq_some_iff.1 h
        cases hn
        exact Or.inr ⟨hleaf (by decide) rfl hs, Or.inl rfl⟩
    · cases h; exact Or.inl (Or.inr rfl)
    · cases h; exact Or.inl (Or.inr rfl)
  · rename_i key hc
    obtain rfl : key = k := by rw [hc] at hkey; exact Option.some.inj hkey
    simp only [readRemove, hslot] at h
    split at h
    · cases h; exact Or.inl (Or.inl rfl)
    · rename_i hs
      cases h
      have hget := habsent (by decide) (by decide) hs
      exact Or.inr ⟨hleaf (by decide) rfl hs, Or.inr ⟨by rw [hget], Or.inl ⟨hc, hget⟩⟩⟩
    · rename_i hs
      cases h
      have hget := habsent (by decide) (by decide) hs
      exact Or.inr ⟨hleaf (by decide) rfl hs, Or.inr ⟨by rw [hget], Or.inl ⟨hc, hget⟩⟩⟩
    · rename_i hs
      have hd := ((Cell.state_eq (by decide)).1 hs).2
      obtain ⟨k₁, v₁, hi, -⟩ := hcur.cell.data _ hd
      simp only [hi] at h
      split_ifs at h with hk
      · cases h
        exact Or.inr ⟨hleaf (by decide) rfl hs, Or.inl rfl⟩
      · cases h
        have hget := Cell.leafGet_data hd hi key
        rw [if_neg hk] at hget
        exact Or.inr ⟨hleaf (by decide) rfl hs, Or.inr ⟨by rw [hget], Or.inl ⟨hc, hget⟩⟩⟩
    · cases h; exact Or.inl (Or.inr rfl)
    · cases h; exact Or.inl (Or.inr rfl)
  · cases h

omit [LinearOrder K] [Key K] in
theorem marked_of_isLook (h : th.pc.isLook = true) : th.marked = true := by
  cases hpc : th.pc with
  | ownChild | look | lookChild => simp [Thread.marked, hpc]
  | _ => rw [hpc] at h; cases h

omit [LinearOrder K] [Key K] in
/-- A lookup that goes on or finds its key keeps the flag. -/
theorem marked_of_looks (h : th.pc.isLook = true ∨ ∃ v, th.pc = .validateRoot true (some v)) :
    th.marked = true := by
  rcases h with hl | ⟨v, hv⟩
  · exact marked_of_isLook hl
  · simp [Thread.marked, hv]

omit [LinearOrder K] [Key K] in
theorem not_writes (h₁ : th.pc ≠ .publish) (h₂ : th.pc ≠ .claim) : ¬ th.Writes m := by
  rintro (h | ⟨h, -⟩)
  · exact h₁ h
  · exact h₂ h

/-- **The flag of an update**: a step keeps it, but for the step that changes the slot. -/
theorem step_marked {config : Config} (hok : th.Ok m) (hg : ∀ k', th.call ≠ .get k')
    (hnd : th.pc.isDone = false)
    (hlook : th.pc.isLook = true → th'.marked = true)
    (h : th.step config m = some (m', .goto th')) (hnd' : th'.pc.isDone = false) :
    (¬ th.Writes m ∧ th'.marked = th.marked) ∨
      (th.Writes m ∧ th'.marked = (th.marked || th.write.isNew)) := by
  have hkeep : th'.marked = th.marked → th.pc ≠ .publish → th.pc ≠ .claim →
      (¬ th.Writes m ∧ th'.marked = th.marked) ∨
      (th.Writes m ∧ th'.marked = (th.marked || th.write.isNew)) := fun hm h₁ h₂ =>
    Or.inl ⟨not_writes h₁ h₂, hm⟩
  have hfinish : ∀ {next : Next K V}, next.Finishes th → next = .goto th' → th.marked = true →
      th'.marked = th.marked := fun hf hn hm => (hf.marked hn).trans hm.symm
  cases hpc : th.pc <;> simp only [Thread.step, hpc] at h
  case claim =>
    simp only [stepClaim] at h
    split_ifs at h with hs
    · split at h
      · rename_i hw
        cases h
        rw [hw] at hs
        exact Or.inr ⟨Or.inr ⟨hpc, hw, hs⟩, by simp [Thread.marked, hpc, Bool.or_assoc]⟩
      · rename_i hw
        cases h
        refine Or.inl ⟨?_, by simp [Thread.marked, hpc]⟩
        rintro (he | ⟨-, hb, -⟩)
        · cases hpc.symm.trans he
        · exact hw hb
    · cases h
      refine Or.inl ⟨?_, by simp [Thread.marked, hpc]⟩
      rintro (he | ⟨-, hb, hd⟩)
      · cases hpc.symm.trans he
      · rw [hb] at hs
        exact hs hd
  case publish =>
    refine Or.inr ⟨Or.inl hpc, ?_⟩
    simp only [stepPublish] at h
    split at h
    · cases h
      simp [Thread.marked, hpc, Bool.or_assoc]
    · cases h
      split_ifs <;> simp [Thread.marked, hpc, Bool.or_assoc]
    · cases h
  all_goals refine hkeep ?_ (by rw [hpc]; rintro ⟨⟩) (by rw [hpc]; rintro ⟨⟩)
  case loadRoot =>
    have hn := (Prod.mk.inj (Option.some.inj h)).2
    unfold stepLoadRoot at hn
    split at hn
    · exact absurd ‹_› (hg _)
    · split_ifs at hn <;> cases hn <;> simp [Thread.marked, hpc]
  case readSlot =>
    obtain ⟨n, hn, hm⟩ := Option.map_eq_some_iff.1 h
    cases hm
    simp only [Thread.Ok, hpc] at hok
    obtain ⟨k, hat⟩ := hok
    obtain ⟨i, w, pc, rfl⟩ := stepReadSlot_same hn
    rcases stepReadSlot_cases hat.2.2.curWF hat.1 hn with (rfl | rfl) | ⟨-, rfl | ⟨rfl, -⟩⟩ <;>
      simp [Thread.marked, hpc]
  case loadChild =>
    have hn := (Prod.mk.inj (Option.some.inj h)).2
    unfold stepLoadChild at hn
    split at hn
    · split at hn <;> cases hn <;> simp [Thread.marked, hpc]
    · split_ifs at hn <;> cases hn <;> simp [Thread.marked, hpc]
  case countTombstone => cases h; simp [Thread.marked, hpc]
  case validateChild => exact stepValidateChild_marked hpc (Prod.mk.inj (Option.some.inj h)).2
  case checkRatio =>
    exact hfinish finishes_stepCheckRatio (Prod.mk.inj (Option.some.inj h)).2
      (by simp [Thread.marked, hpc])
  case subState =>
    exact hfinish finishes_stepSubState (Prod.mk.inj (Option.some.inj h)).2
      (by simp [Thread.marked, hpc])
  case subLoad =>
    exact hfinish finishes_stepSubLoad (Prod.mk.inj (Option.some.inj h)).2
      (by simp [Thread.marked, hpc])
  case subFreeze c =>
    exact hfinish (finishes_stepSubFreeze c) (congrArg Prod.snd (Option.some.inj h))
      (by simp [Thread.marked, hpc])
  case subWalk c w =>
    exact hfinish (finishes_stepSubWalk c w) (Prod.mk.inj (Option.some.inj h)).2
      (by simp [Thread.marked, hpc])
  case subSwap => exact hfinish (finishes_stepSubSwap h) rfl (by simp [Thread.marked, hpc])
  case validateRoot isNew val =>
    have hn := (Prod.mk.inj (Option.some.inj h)).2
    unfold stepValidateRoot at hn
    dsimp only at hn
    split_ifs at hn
    · cases hn
      cases hnd'
    · cases hn
      simp [Thread.marked, hpc]
  case ownChild | look | lookChild =>
    have hl : th.pc.isLook = true := by rw [hpc]; rfl
    rw [marked_of_isLook hl, hlook hl]
  all_goals rw [hpc] at hnd; cases hnd

omit [LinearOrder K] [Key K] in
theorem Next.Passes.root (h : next.Passes th) (hn : next = .goto th') : th'.root = th.root := by
  obtain ⟨pc, rfl, -⟩ := h
  cases hn
  rfl

omit [LinearOrder K] [Key K] in
theorem found_root {val : Option V} (h : th.found val = .goto th') : th'.root = th.root := by
  unfold Thread.found at h
  split at h
  · split at h <;> cases h <;> rfl
  · cases h

theorem stepLook_root {n : NodeId} (h : stepLook m th n = some (.goto th')) :
    th'.root = th.root := by
  have hslot : ∀ key, lookSlot m th n key = .goto th' → th'.root = th.root := by
    intro key h
    unfold lookSlot at h
    dsimp only at h
    split at h
    · split at h
      · split_ifs at h <;> exact found_root h
      · exact found_root h
    · cases h; rfl
    · cases h; rfl
    · exact found_root h
  unfold stepLook at h
  split at h
  · exact hslot _ (Option.some.inj h)
  · exact hslot _ (Option.some.inj h)
  · cases h

theorem stepLookChild_root {n : NodeId} (h : stepLookChild m th n = some (.goto th')) :
    th'.root = th.root := by
  have hchild : ∀ key, lookChild m th n key = .goto th' → th'.root = th.root := by
    intro key h
    unfold lookChild at h
    dsimp only at h
    split at h
    · exact found_root h
    · cases h; rfl
  unfold stepLookChild at h
  split at h
  · exact hchild _ (Option.some.inj h)
  · exact hchild _ (Option.some.inj h)
  · cases h

/-- An attempt keeps its root. -/
theorem step_root {config : Config} (hnd : th.pc.isDone = false) (hpc : th.pc ≠ .loadRoot)
    (h : th.step config m = some (m', .goto th')) : th'.root = th.root := by
  cases hpc' : th.pc <;> simp only [Thread.step, hpc'] at h
  case loadRoot => exact absurd hpc' hpc
  case readSlot =>
    obtain ⟨n, hn, hm⟩ := Option.map_eq_some_iff.1 h
    cases hm
    obtain ⟨i, w, pc, rfl⟩ := stepReadSlot_same hn
    rfl
  case loadChild =>
    have hn := (Prod.mk.inj (Option.some.inj h)).2
    unfold stepLoadChild at hn
    split at hn
    · split at hn <;> cases hn <;> rfl
    · split_ifs at hn <;> cases hn <;> rfl
  case claim =>
    have hn := congrArg Prod.snd (Option.some.inj h)
    unfold stepClaim at hn
    split_ifs at hn
    · split at hn <;> cases hn <;> rfl
    · cases hn; rfl
  case publish =>
    unfold stepPublish at h
    split at h <;> cases h <;> rfl
  case countTombstone => cases h; rfl
  case validateChild =>
    have hn := (Prod.mk.inj (Option.some.inj h)).2
    rcases (stepValidateChild_cases : _ ∨ ∃ again, stepValidateChild config m th = th.retry again)
      with ⟨-, hp⟩ | ⟨again, he⟩
    · exact hp.root hn
    · rw [he] at hn
      cases hn
      rfl
  case checkRatio => exact finishes_stepCheckRatio.passes.root (Prod.mk.inj (Option.some.inj h)).2
  case subState => exact finishes_stepSubState.passes.root (Prod.mk.inj (Option.some.inj h)).2
  case subLoad => exact finishes_stepSubLoad.passes.root (Prod.mk.inj (Option.some.inj h)).2
  case subFreeze c =>
    exact (finishes_stepSubFreeze c).passes.root (congrArg Prod.snd (Option.some.inj h))
  case subWalk c w =>
    exact (finishes_stepSubWalk c w).passes.root (Prod.mk.inj (Option.some.inj h)).2
  case subSwap => exact (finishes_stepSubSwap h).passes.root rfl
  case ownChild =>
    have hn := (Prod.mk.inj (Option.some.inj h)).2
    unfold stepOwnChild at hn
    split at hn <;> cases hn <;> rfl
  case look =>
    obtain ⟨n, hn, hm⟩ := Option.map_eq_some_iff.1 h
    cases hm
    exact stepLook_root hn
  case lookChild =>
    obtain ⟨n, hn, hm⟩ := Option.map_eq_some_iff.1 h
    cases hm
    exact stepLookChild_root hn
  case validateRoot =>
    have hn := (Prod.mk.inj (Option.some.inj h)).2
    unfold stepValidateRoot at hn
    dsimp only at hn
    split_ifs at hn <;> cases hn <;> rfl
  all_goals rw [hpc'] at hnd; cases hnd

/-! ## Exact places -/

/-- Operations that do not use the key respect everything that holds of it. -/
theorem respects_of_key (h : th.call.key ≠ some k) : Respects P m k th where
  publish _ _ hk := absurd hk h
  bury _ _ hc := absurd (by rw [hc]; rfl) h

namespace Sys
variable {s s' : Sys K V} {t t' : ℕ} {r : NodeId} {x : Option V}

/-- A step that does not touch the memory and leads to where nothing is owned. -/
theorem SureTree.goto (h : SureTree P s k r) (hown : th'.lock = none) (call : Call K V) :
    SureTree P (s.proceed t call s.mem (.goto th')) k r where
  wf := h.wf
  sat := h.sat
  walks {t₁ th₁ i w} h₁ hw hi := by
    by_cases ht : t₁ = t
    · subst ht
      cases proceed_threads_self h₁
      cases hown.symm.trans (Thread.subWalker_lock hw)
    · rw [proceed_threads_of_ne ht] at h₁
      exact h.walks h₁ hw hi

theorem SureRoot.goto (h : SureRoot P s k) (hown : th'.lock = none) (call : Call K V) :
    SureRoot P (s.proceed t call s.mem (.goto th')) k where
  tree := h.tree.goto hown call
  walks {t₁ th₁ w} h₁ hw := by
    by_cases ht : t₁ = t
    · subst ht
      cases proceed_threads_self h₁
      cases hown.symm.trans (Thread.rootWalker_lock hw)
    · rw [proceed_threads_of_ne ht] at h₁
      exact h.walks h₁ hw

/-- The node and the tree of an attempt hold the same of the key. -/
def ExactAt (s : Sys K V) (k : K) (th : Thread K V) (x : Option V) : Prop :=
  SureTree (· = x) s k th.root ∧ s.mem.Sat (· = x) k th.cur

/-- The attempt is at its root, or at an exact place. -/
def Settled (s : Sys K V) (k : K) (th : Thread K V) : Prop :=
  match th.pc with
  | .readSlot => th.first = none ∨ ∃ x, ExactAt s k th x
  | .loadChild => th.first = none ∨ ∃ x, ExactAt s k th x
  | .claim => ∃ x, ExactAt s k th x
  | .publish => ∃ x, ExactAt s k th x
  | _ => True

theorem ExactAt.invoke {call : Call K V} (h : ExactAt s k th x) (hs : s.invoke t call = some s') :
    ExactAt s' k th x := by
  have hm : s'.mem = s.mem := by
    obtain ⟨-, rfl⟩ := invoke_eq_some hs
    rfl
  exact ⟨h.1.invoke hs, hm ▸ h.2⟩

theorem Settled.invoke {call : Call K V} (h : Settled s k th) (hs : s.invoke t call = some s') :
    Settled s' k th := by
  have hex : (∃ x, ExactAt s k th x) → ∃ x, ExactAt s' k th x :=
    Exists.imp fun x hx => hx.invoke hs
  obtain ⟨call, pc, was, again, root, cur, idx, depth, first, write, reply⟩ := th
  cases pc with
  | readSlot | loadChild => exact Or.imp_right hex h
  | claim | publish => exact hex h
  | _ => trivial

/-- A step leaves an exact place exact if it does not change the key. -/
theorem ExactAt.step [LawfulKey K] (hinv : s.Inv) (h : ExactAt s k th' x) {k' : K}
    (hat : th'.At s.mem k') (hth : s.threads t = some th)
    (hstep : th.step s.config s.mem = some (m', next)) (hr : Respects (· = x) s.mem k th) :
    ExactAt (s.proceed t th.call m' next) k th' x := by
  have hc := (step_effect hinv.headroom (hinv.ok hth) (hinv.locks hth) hstep).content
    (hinv.ok hth) (hinv.locks hth)
  refine ⟨h.1.step hinv hth hstep hr, ?_⟩
  rw [proceed_mem]
  exact hinv.sat_cur hth hc hr hat h.2 fun _ => h.1

theorem Settled.other [LawfulKey K] (hinv : s.Inv) (h : Settled s k th')
    (hth' : s.threads t' = some th') (hth : s.threads t = some th)
    (hstep : th.step s.config s.mem = some (m', next)) (hne : th.call.key ≠ some k) :
    Settled (s.proceed t th.call m' next) k th' := by
  have hex : ∀ {k'}, th'.At s.mem k' → (∃ x, ExactAt s k th' x) →
      ∃ x, ExactAt (s.proceed t th.call m' next) k th' x := fun hat ⟨x, hx⟩ =>
    ⟨x, hx.step hinv hat hth hstep (respects_of_key hne)⟩
  have hok := hinv.ok hth'
  obtain ⟨call, pc, was, again, root, cur, idx, depth, first, write, reply⟩ := th'
  cases pc with
  | readSlot =>
    obtain ⟨k', hat⟩ := hok
    exact Or.imp_right (hex hat) h
  | loadChild =>
    obtain ⟨k', hat, -⟩ := hok
    exact Or.imp_right (hex hat.1) h
  | claim | publish =>
    obtain ⟨k', hat, -⟩ := hok
    exact hex hat.1 h
  | _ => trivial

/-- **What an attempt reads in a slot without a child**, its tree is sure of. -/
theorem ExactAt.of_leaf (hinv : s.Inv) (h : th.first = none ∨ ∃ x, ExactAt s k th x) {k' : K}
    (hat : th.At s.mem k')
    (hs : ((s.mem.cells th.cur).slots ((s.mem.cells th.cur).slotOf k)).isChild = false) :
    ExactAt s k th ((s.mem.cells th.cur).leafGet ((s.mem.cells th.cur).slotOf k) k) := by
  have hsat : s.mem.Sat (· = (s.mem.cells th.cur).leafGet ((s.mem.cells th.cur).slotOf k) k) k
      th.cur := (Mem.sat_leaf hs).2 rfl
  refine ⟨?_, hsat⟩
  rcases h with hf | ⟨x, htree, hx⟩
  · have hcur := hat.2.2.start hf
    rw [hcur] at hs hsat ⊢
    exact .of_leaf hinv hat.2.2.rootWF hs hsat
  · rw [(Mem.sat_leaf hs).1 hx]
    exact htree

/-- **A step of the update itself** that goes on; what it looks for it finds. -/
theorem Settled.own [LawfulKey K] (hinv : s.Inv) (h : Settled s k th) (hth : s.threads t = some th)
    (hkey : th.call.key = some k) (hg : ∀ k', th.call ≠ .get k') (hnd : th.pc.isDone = false)
    (hlook : th.pc.isLook = true → th'.pc.isLook = true ∨ ∃ v, th'.pc = .validateRoot true (some v))
    (hstep : th.step s.config s.mem = some (m', .goto th')) :
    Settled (s.proceed t th.call m' (.goto th')) k th' := by
  have hok := hinv.ok hth
  have hexact : ∀ {x k'}, ExactAt s k th x → th.At s.mem k' → Respects (· = x) s.mem k th →
      ExactAt (s.proceed t th.call m' (.goto th')) k th x := fun hx hat hr =>
    hx.step hinv hat hth hstep hr
  have htree : ∀ {P : Option V → Prop} {r}, SureTree P s k r → Respects P s.mem k th →
      SureTree P (s.proceed t th.call m' (.goto th')) k r := fun h hr => h.step hinv hth hstep hr
  have hpass : ∀ {next : Next K V}, next.Passes th → next = .goto th' →
      Settled (s.proceed t th.call m' (.goto th')) k th' := by
    rintro next ⟨pc, rfl, hpc⟩ hn
    cases hn
    cases pc <;> trivial
  have hlooks : th.pc.isLook = true → Settled (s.proceed t th.call m' (.goto th')) k th' := by
    intro hl
    rcases hlook hl with hl | ⟨v, hv⟩
    · unfold Settled
      cases hpc : th'.pc <;> first | trivial | (rw [hpc] at hl; cases hl)
    · simp only [Settled, hv]
  have hquiet : ∀ {P}, th.pc ≠ .publish → th.pc ≠ .claim → Respects P s.mem k th :=
    respects_of_pc
  cases hpc : th.pc <;> simp only [Thread.Ok, hpc] at hok <;> simp only [Settled, hpc] at h <;>
    simp only [Thread.step, hpc] at hstep
  case loadRoot =>
    have hn := (Prod.mk.inj (Option.some.inj hstep)).2
    unfold stepLoadRoot at hn
    split at hn
    · exact absurd ‹_› (hg _)
    · split_ifs at hn <;> cases hn
      · trivial
      · exact Or.inl rfl
  case readSlot =>
    obtain ⟨k', hat⟩ := hok
    obtain ⟨n, hn, hm⟩ := Option.map_eq_some_iff.1 hstep
    cases hm
    have hr : ∀ {P}, Respects P s.mem k th := hquiet (by rw [hpc]; rintro ⟨⟩) (by rw [hpc]; rintro ⟨⟩)
    obtain ⟨i, w, pc, rfl⟩ := stepReadSlot_same hn
    rcases stepReadSlot_cases hat.2.2.curWF hkey hn with (rfl | rfl) | ⟨hs, rfl | ⟨rfl, -⟩⟩
    · exact h.imp_right (Exists.imp fun x hx => hexact hx hat hr)
    · exact h.imp_right (Exists.imp fun x hx => hexact hx hat hr)
    · exact ⟨_, hexact (.of_leaf hinv h hat hs) hat hr⟩
    · trivial
  case loadChild =>
    obtain ⟨k', ⟨hat, hidx⟩, hs⟩ := hok
    obtain rfl := Option.some.inj (hat.1.symm.trans hkey)
    have hr : ∀ {P}, Respects P s.mem k' th :=
      hquiet (by rw [hpc]; rintro ⟨⟩) (by rw [hpc]; rintro ⟨⟩)
    obtain ⟨p, hp, hpr, -⟩ := hat.2.2.curWF.cell.child _ hs
    simp only [stepLoadChild, hp] at hstep
    rw [hidx] at hs hp
    split_ifs at hstep with hfr
    · cases hstep
      exact h.imp_right (Exists.imp fun x hx => hexact hx hat hr)
    · cases hstep
      have hwf : s.mem.NodeWF p.node := hat.2.2.curWF.ofChild hs hp
      right
      rcases h with hf | ⟨x, hx⟩
      · -- the first descent: the child is in place
        obtain ⟨o, ho⟩ := hwf.holds k'
        have hcur := hat.2.2.start hf
        have hpf : p = ⟨p.node, false⟩ := by
          cases p
          simp only [Bool.not_eq_true] at hfr
          rw [hfr]
        rw [hcur] at hs hp
        rw [hpf] at hp
        refine ⟨o, htree (.of_child hinv hat.2.2.rootWF ⟨rfl, rfl, hs, hwf, .refl _, hpr⟩ hp
          ⟨_, ho, rfl⟩) hr, ?_⟩
        rw [proceed_mem]
        exact ⟨_, ho, rfl⟩
      · refine ⟨x, htree hx.1 hr, ?_⟩
        rw [proceed_mem]
        exact (Mem.sat_child hs hp).1 hx.2
  case claim =>
    obtain ⟨k', hat, -⟩ := hok
    obtain ⟨x, hx⟩ := h
    simp only [stepClaim] at hstep
    split_ifs at hstep
    · split at hstep
      · cases hstep
        trivial
      · rename_i hb
        cases hstep
        exact ⟨x, hexact hx hat.1 ⟨fun _ h => (by cases hpc.symm.trans h), fun _ h => absurd h hb⟩⟩
    · cases hstep
      exact Or.inr ⟨x, hx.1.goto rfl _, hx.2⟩
  case publish =>
    simp only [stepPublish] at hstep
    split at hstep
    · cases hstep
      trivial
    · cases hstep
      split_ifs <;> trivial
    · cases hstep
  case countTombstone => cases hstep; trivial
  case validateChild =>
    have hn := (Prod.mk.inj (Option.some.inj hstep)).2
    rcases (stepValidateChild_cases :
      _ ∨ ∃ again, stepValidateChild s.config s.mem th = th.retry again)
      with ⟨-, hp⟩ | ⟨again, hre⟩
    · exact hpass hp hn
    · rw [hre] at hn
      cases hn
      exact Or.inl rfl
  case checkRatio =>
    exact hpass finishes_stepCheckRatio.passes (Prod.mk.inj (Option.some.inj hstep)).2
  case subState => exact hpass finishes_stepSubState.passes (Prod.mk.inj (Option.some.inj hstep)).2
  case subLoad => exact hpass finishes_stepSubLoad.passes (Prod.mk.inj (Option.some.inj hstep)).2
  case subFreeze c =>
    exact hpass (finishes_stepSubFreeze c).passes (congrArg Prod.snd (Option.some.inj hstep))
  case subWalk c w =>
    exact hpass (finishes_stepSubWalk c w).passes (Prod.mk.inj (Option.some.inj hstep)).2
  case subSwap c pairs => exact hpass (finishes_stepSubSwap hstep).passes rfl
  case ownChild => exact hlooks (by rw [hpc]; rfl)
  case look n => exact hlooks (by rw [hpc]; rfl)
  case lookChild n => exact hlooks (by rw [hpc]; rfl)
  case validateRoot isNew val =>
    have hn := (Prod.mk.inj (Option.some.inj hstep)).2
    unfold stepValidateRoot at hn
    dsimp only at hn
    split_ifs at hn <;> cases hn <;> trivial
  all_goals rw [hpc] at hnd; cases hnd

/-! ## What a write adds -/

end Sys

/-- **A publication adds the key** if the node did not hold it. -/
theorem isNew_of_publish {x : Option V} (hok : th.Ok m) (hl : th.Locks m)
    (hpc : th.pc = .publish) (hkey : th.call.key = some k) (hb : th.write ≠ .bury)
    (hs : m.Sat (· = x) k th.cur) : th.write.isNew = x.isNone := by
  simp only [Thread.Ok, hpc] at hok
  simp only [Thread.Locks, hpc] at hl
  obtain ⟨k', hat, hw⟩ := hok
  obtain rfl := Option.some.inj (hat.1.1.symm.trans hkey)
  have hleaf : ((m.cells th.cur).slots ((m.cells th.cur).slotOf k')).isChild = false := by
    rw [← hat.2, hl.2]
    exact hw.prev.2
  have hget := (Mem.sat_leaf hleaf).1 hs
  rw [← hat.2] at hget
  generalize th.write = w at hw hl hb
  cases hw with
  | inline =>
    rw [Cell.leafGet_of_ne_data (by rw [hl.2]; rintro ⟨⟩)] at hget
    rw [← hget]
    rfl
  | tombstone =>
    rw [Cell.leafGet_of_ne_data (by rw [hl.2]; rintro ⟨⟩)] at hget
    rw [← hget]
    rfl
  | @data _ _ k₁ v₁ _ _ _ hi =>
    rw [Cell.leafGet_data hl.2 hi] at hget
    rw [← hget]
    by_cases hk : k₁ = k' <;> simp [Write.isNew, hk]
  | bury => exact absurd rfl hb

/-- A remove buries a key that its node holds. -/
theorem isSome_of_bury {x : Option V} (hok : th.Ok m) (hpc : th.pc = .claim)
    (hkey : th.call.key = some k) (hb : th.write = .bury)
    (hd : (m.cells th.cur).state th.idx = .data) (hs : m.Sat (· = x) k th.cur) :
    x.isSome = true := by
  simp only [Thread.Ok, hpc, hb] at hok
  obtain ⟨k', hat, hw⟩ := hok
  obtain rfl := Option.some.inj (hat.1.1.symm.trans hkey)
  have hd := ((Cell.state_eq (by decide)).1 hd).2
  have hleaf : ((m.cells th.cur).slots ((m.cells th.cur).slotOf k')).isChild = false := by
    rw [← hat.2, hd]
    rfl
  have hget := (Mem.sat_leaf hleaf).1 hs
  rw [← hat.2] at hget
  cases hw with
  | bury _ _ hi =>
    rw [Cell.leafGet_data hd hi, if_pos rfl] at hget
    rw [← hget]
    rfl

end Scry.Index
