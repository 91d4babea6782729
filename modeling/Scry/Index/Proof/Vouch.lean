/-
  What an update vouches for.

  Once an update has changed the slot of its key, its node holds what it wrote; once the
  first descent was found in place, its tree is sure of it (`Vouches`), and once the root
  was found in place, so is the map.
-/
import Scry.Index.Proof.Sure

namespace Scry.Index

variable {K V : Type} [LinearOrder K] [Key K] {m m' : Mem K V} {th th' : Thread K V} {k : K}
  {P : Option V → Prop} {next : Next K V}

/-- The update has compared its first descent, and not yet its root. -/
def Pc.isCompared : Pc K V → Bool
  | .checkRatio => true
  | .subState => true
  | .subLoad => true
  | .subFreeze _ => true
  | .subWalk _ _ => true
  | .subSwap _ _ => true
  | .ownChild => true
  | .validateRoot _ _ => true
  | _ => false

/-- The update has found its root in place; what follows is bookkeeping. -/
def Pc.isDone : Pc K V → Bool
  | .count => true
  | .loadThreshold _ => true
  | .casThreshold _ => true
  | .rootLoad => true
  | .rootFreeze _ => true
  | .rootWalk _ _ => true
  | .rootSwap _ _ => true
  | .subtract _ => true
  | .storeThreshold _ => true
  | _ => false

/-- The steps of a subtree rebuild. -/
def Pc.isSub : Pc K V → Bool
  | .subState => true
  | .subLoad => true
  | .subFreeze _ => true
  | .subWalk _ _ => true
  | .subSwap _ _ => true
  | _ => false

/-- The update goes on without another look at the tree. -/
def Next.Passes (th : Thread K V) (next : Next K V) : Prop :=
  ∃ pc, next = .goto { th with pc := pc } ∧ pc.isCompared = true

/-- The tree operation is done, but for a rebuild of the subtree. -/
def Next.Finishes (th : Thread K V) (next : Next K V) : Prop :=
  next = th.finish ∨ ∃ pc, next = th.goto pc ∧ pc.isSub = true

section Passes
variable {config : Config}

omit [LinearOrder K] [Key K] in
theorem passes_finish : th.finish.Passes th := by
  unfold Thread.finish
  split <;> exact ⟨_, rfl, rfl⟩

omit [LinearOrder K] [Key K] in
theorem Next.Finishes.passes (h : next.Finishes th) : next.Passes th := by
  rcases h with rfl | ⟨pc, rfl, hpc⟩
  · exact passes_finish
  · refine ⟨pc, rfl, ?_⟩
    cases pc <;> first | rfl | cases hpc

omit [LinearOrder K] [Key K] in
theorem finishes_afterInsert : (th.afterInsert config).Finishes th := by
  unfold Thread.afterInsert
  split_ifs
  · exact Or.inr ⟨_, rfl, rfl⟩
  · exact Or.inl rfl

omit [LinearOrder K] [Key K] in
theorem finishes_stepCheckRatio : (stepCheckRatio config m th).Finishes th := by
  unfold stepCheckRatio
  dsimp only
  split_ifs
  · exact Or.inr ⟨_, rfl, rfl⟩
  · exact Or.inl rfl

omit [LinearOrder K] [Key K] in
theorem finishes_stepSubState : (stepSubState m th).Finishes th := by
  unfold stepSubState
  split
  · exact Or.inl rfl
  · split_ifs
    · exact Or.inr ⟨_, rfl, rfl⟩
    · exact Or.inl rfl

omit [LinearOrder K] [Key K] in
theorem finishes_stepSubLoad : (stepSubLoad m th).Finishes th := by
  unfold stepSubLoad
  split
  · exact Or.inl rfl
  · split
    · exact Or.inl rfl
    · split_ifs
      · exact Or.inl rfl
      · exact Or.inr ⟨_, rfl, rfl⟩

omit [LinearOrder K] [Key K] in
theorem finishes_stepSubFreeze (c : NodeId) : (stepSubFreeze m th c).2.Finishes th := by
  unfold stepSubFreeze
  split
  · exact Or.inl rfl
  · split_ifs
    · exact Or.inr ⟨_, rfl, rfl⟩
    · exact Or.inl rfl

omit [LinearOrder K] [Key K] in
theorem finishes_stepSubWalk (c : NodeId) (w : Walk K V) :
    (stepSubWalk m th c w).Finishes th := by
  unfold stepSubWalk
  split <;> exact Or.inr ⟨_, rfl, rfl⟩

theorem finishes_stepSubSwap {c : NodeId} {pairs : List (K × V)}
    (h : stepSubSwap config m th c pairs = some (m', next)) : next.Finishes th := by
  unfold stepSubSwap at h
  split at h
  · cases h
    exact Or.inl rfl
  · dsimp only at h
    split_ifs at h
    · cases h; exact Or.inl rfl
    · cases h; exact Or.inl rfl
    all_goals
      obtain ⟨tree, -, ht⟩ := Option.bind_eq_some_iff.1 h
      cases ht
      exact Or.inl rfl

omit [LinearOrder K] [Key K] in
/-- The first descent is in place, or the update starts again. -/
theorem stepValidateChild_cases : ((∀ p i c, th.first = some (p, i, c) →
      (m.cells p).children i = some ⟨c, false⟩) ∧ (stepValidateChild config m th).Passes th) ∨
    ∃ again, stepValidateChild config m th = th.retry again := by
  rcases stepValidateChild_next config m th with ⟨hfirst, he⟩ | hagain
  · refine Or.inl ⟨hfirst, ?_⟩
    rcases he with he | he | he <;> rw [he]
    · exact ⟨_, rfl, rfl⟩
    · exact finishes_afterInsert.passes
    · exact ⟨_, rfl, rfl⟩
  · exact Or.inr hagain

/-- After a swap only the counters are left. -/
theorem stepRootSwap_pc {r : NodeId} {pairs : List (K × V)}
    (h : stepRootSwap config m th r pairs = some (m', .goto th')) :
    ∃ n, th'.pc = .subtract n ∨ th'.pc = .storeThreshold n := by
  have hempty : swapEmpty m th r pairs = (m', .goto th') → ∃ n, th'.pc = .subtract n := by
    intro h
    unfold swapEmpty at h
    dsimp only at h
    split_ifs at h <;> cases h
    exact ⟨_, rfl⟩
  unfold stepRootSwap at h
  split at h
  · exact (hempty (Option.some.inj h)).imp fun _ => Or.inl
  · exact (hempty (Option.some.inj h)).imp fun _ => Or.inl
  · unfold swapRebuilt at h
    by_cases he : pairs.isEmpty = true
    · rw [if_pos he] at h
      cases h
    · rw [if_neg he] at h
      obtain ⟨built, -, hb⟩ := Option.bind_eq_some_iff.1 h
      split at hb
      · cases hb
      · split_ifs at hb <;> cases hb
        exact ⟨_, Or.inr rfl⟩

omit [LinearOrder K] [Key K] in
theorem Next.Passes.not_done (h : next.Passes th) :
    ∃ th', next = .goto th' ∧ th'.pc.isDone = false := by
  obtain ⟨pc, rfl, hpc⟩ := h
  refine ⟨_, rfl, ?_⟩
  cases pc <;> first | rfl | cases hpc

omit [LinearOrder K] [Key K] in
theorem found_not_done {k : K} {v : V} (hc : th.call = .getOrInsert k v) (val : Option V) :
    ∃ th', th.found val = .goto th' ∧ th'.pc.isDone = false := by
  simp only [Thread.found, hc]
  cases val <;> exact ⟨_, rfl, rfl⟩

/-- What the slot of an update leads to. -/
theorem stepReadSlot_not_done (h : stepReadSlot m th = some next) :
    ∃ th', next = .goto th' ∧ th'.pc.isDone = false := by
  unfold stepReadSlot at h
  split at h
  · simp only [readInsert] at h
    split at h
    case h_4 =>
      split at h
      · cases h
      · split_ifs at h
        · cases h; exact ⟨_, rfl, rfl⟩
        · obtain ⟨child, -, hn⟩ := Option.bind_eq_some_iff.1 h
          cases hn
          exact ⟨_, rfl, rfl⟩
    all_goals cases h; exact ⟨_, rfl, rfl⟩
  · simp only [readGetOrInsert] at h
    split at h
    case h_4 =>
      split at h
      · cases h
      · split_ifs at h
        · cases h; exact ⟨_, rfl, rfl⟩
        · obtain ⟨child, -, hn⟩ := Option.bind_eq_some_iff.1 h
          cases hn
          exact ⟨_, rfl, rfl⟩
    all_goals cases h; exact ⟨_, rfl, rfl⟩
  · simp only [readRemove] at h
    split at h
    case h_4 =>
      split at h
      · cases h
      · split_ifs at h <;> cases h <;> exact ⟨_, rfl, rfl⟩
    all_goals cases h; exact ⟨_, rfl, rfl⟩
  · cases h

theorem stepLook_not_done {n : NodeId} (hg : ∀ k', th.call ≠ .get k')
    (h : stepLook m th n = some next) : ∃ th', next = .goto th' ∧ th'.pc.isDone = false := by
  unfold stepLook at h
  split at h
  · exact absurd ‹_› (hg _)
  · rename_i hc
    cases h
    unfold lookSlot
    dsimp only
    split
    · split
      · split_ifs <;> exact found_not_done hc _
      · exact found_not_done hc _
    · exact ⟨_, rfl, rfl⟩
    · exact ⟨_, rfl, rfl⟩
    · exact found_not_done hc _
  · cases h

theorem stepLookChild_not_done {n : NodeId} (hg : ∀ k', th.call ≠ .get k')
    (h : stepLookChild m th n = some next) : ∃ th', next = .goto th' ∧ th'.pc.isDone = false := by
  unfold stepLookChild at h
  split at h
  · exact absurd ‹_› (hg _)
  · rename_i hc
    cases h
    unfold lookChild
    dsimp only
    split
    · exact found_not_done hc _
    · exact ⟨_, rfl, rfl⟩
  · cases h

/-- **An update is done once it has found its root in place**, and not before. -/
theorem step_update (hg : ∀ k', th.call ≠ .get k') (hnd : th.pc.isDone = false)
    (h : th.step config m = some (m', next)) :
    (∃ th', next = .goto th' ∧ th'.pc.isDone = false) ∨
      ∃ isNew val, th.pc = .validateRoot isNew val ∧ m.root = ⟨th.root, false⟩ ∧ m' = m := by
  cases hpc : th.pc <;> simp only [Thread.step, hpc] at h
  case validateRoot isNew val =>
    obtain ⟨rfl, hn⟩ := Prod.mk.inj (Option.some.inj h)
    unfold stepValidateRoot at hn
    by_cases hr : m.root = ⟨th.root, false⟩
    · exact Or.inr ⟨isNew, val, rfl, hr, rfl⟩
    · rw [if_neg hr] at hn
      exact Or.inl ⟨_, hn.symm, rfl⟩
  all_goals left
  case loadRoot =>
    cases h
    unfold stepLoadRoot
    split
    · exact absurd ‹_› (hg _)
    · split_ifs <;> exact ⟨_, rfl, rfl⟩
  case readSlot =>
    obtain ⟨n, hn, hm⟩ := Option.map_eq_some_iff.1 h
    cases hm
    exact stepReadSlot_not_done hn
  case loadChild =>
    cases h
    unfold stepLoadChild
    split
    · split <;> exact ⟨_, rfl, rfl⟩
    · split_ifs <;> exact ⟨_, rfl, rfl⟩
  case claim =>
    obtain rfl : (stepClaim m th).2 = next := congrArg Prod.snd (Option.some.inj h)
    unfold stepClaim
    split_ifs
    · split <;> exact ⟨_, rfl, rfl⟩
    · exact ⟨_, rfl, rfl⟩
  case publish =>
    unfold stepPublish at h
    split at h
    · cases h; exact ⟨_, rfl, rfl⟩
    · cases h
      split_ifs <;> exact ⟨_, rfl, rfl⟩
    · cases h
  case countTombstone => cases h; exact ⟨_, rfl, rfl⟩
  case validateChild =>
    cases h
    rcases (stepValidateChild_cases : _ ∨ ∃ again, stepValidateChild config m th = th.retry again)
      with ⟨-, hp⟩ | ⟨again, he⟩
    · exact hp.not_done
    · rw [he]
      exact ⟨_, rfl, rfl⟩
  case checkRatio => cases h; exact finishes_stepCheckRatio.passes.not_done
  case subState => cases h; exact finishes_stepSubState.passes.not_done
  case subLoad => cases h; exact finishes_stepSubLoad.passes.not_done
  case subFreeze c =>
    obtain rfl : (stepSubFreeze m th c).2 = next := congrArg Prod.snd (Option.some.inj h)
    exact (finishes_stepSubFreeze c).passes.not_done
  case subWalk c w => cases h; exact (finishes_stepSubWalk c w).passes.not_done
  case subSwap => exact (finishes_stepSubSwap h).passes.not_done
  case ownChild =>
    cases h
    unfold stepOwnChild
    split <;> exact ⟨_, rfl, rfl⟩
  case look n =>
    obtain ⟨n', hn, hm⟩ := Option.map_eq_some_iff.1 h
    cases hm
    exact stepLook_not_done hg hn
  case lookChild n =>
    obtain ⟨n', hn, hm⟩ := Option.map_eq_some_iff.1 h
    cases hm
    exact stepLookChild_not_done hg hn
  all_goals rw [hpc] at hnd; cases hnd

/-- An update that finds its root in place is done. -/
theorem isDone_of_inPlace {isNew : Bool} {val : Option V} (hpc : th.pc = .validateRoot isNew val)
    (hroot : m.root = ⟨th.root, false⟩) (h : th.step config m = some (m', .goto th')) :
    th'.pc.isDone = true := by
  simp only [Thread.step, hpc, stepValidateRoot, hroot, if_true] at h
  split_ifs at h <;> cases h
  rfl

/-- **An operation that is done keeps its reply.** -/
theorem done_step
    (hd : ∀ r pairs, th.pc = .rootSwap r pairs → th.call ≠ .drain ∧ th.call ≠ .clear)
    (hdone : th.pc.isDone = true) (hstep : th.step config m = some (m', next)) :
    (∃ pc, next = th.goto pc ∧ pc.isDone = true) ∨ next = .ret th.reply := by
  cases hpc : th.pc <;> simp only [Thread.step, hpc] at hstep
  case count =>
    obtain rfl := congrArg Prod.snd (Option.some.inj hstep)
    unfold stepCount
    split
    · exact Or.inr rfl
    · dsimp only
      split_ifs
      · exact Or.inl ⟨_, rfl, rfl⟩
      · exact Or.inr rfl
  case loadThreshold =>
    obtain rfl := (Prod.mk.inj (Option.some.inj hstep)).2
    unfold stepLoadThreshold
    split_ifs
    · exact Or.inr rfl
    · exact Or.inl ⟨_, rfl, rfl⟩
  case casThreshold =>
    obtain rfl := congrArg Prod.snd (Option.some.inj hstep)
    unfold stepCasThreshold
    split_ifs
    · exact Or.inl ⟨_, rfl, rfl⟩
    · exact Or.inr rfl
  case rootLoad =>
    obtain rfl := (Prod.mk.inj (Option.some.inj hstep)).2
    unfold stepRootLoad
    split_ifs
    · exact Or.inr rfl
    · exact Or.inl ⟨_, rfl, rfl⟩
  case rootFreeze =>
    obtain rfl := congrArg Prod.snd (Option.some.inj hstep)
    unfold stepRootFreeze
    split_ifs
    · exact Or.inl ⟨_, rfl, rfl⟩
    · exact Or.inr rfl
  case rootWalk r w =>
    obtain rfl := (Prod.mk.inj (Option.some.inj hstep)).2
    unfold stepRootWalk
    split <;> exact Or.inl ⟨_, rfl, rfl⟩
  case rootSwap r pairs =>
    unfold stepRootSwap at hstep
    split at hstep
    · exact absurd ‹_› (hd r pairs hpc).1
    · exact absurd ‹_› (hd r pairs hpc).2
    · unfold swapRebuilt at hstep
      by_cases he : pairs.isEmpty = true
      · rw [if_pos he] at hstep
        cases hstep
        exact Or.inr rfl
      · rw [if_neg he] at hstep
        obtain ⟨built, -, hb⟩ := Option.bind_eq_some_iff.1 hstep
        split at hb
        · cases hb
          exact Or.inr rfl
        · split_ifs at hb <;> cases hb
          · exact Or.inl ⟨_, rfl, rfl⟩
          · exact Or.inr rfl
  case subtract => cases hstep; exact Or.inl ⟨_, rfl, rfl⟩
  case storeThreshold => cases hstep; exact Or.inr rfl
  all_goals rw [hpc] at hdone; cases hdone

end Passes

namespace Sys
variable {s s' : Sys K V} {t t' : ℕ}

/-- What an update of the key stands for. -/
def Vouches (P : Option V → Prop) (s : Sys K V) (k : K) (th : Thread K V) : Prop :=
  match th.pc with
  | .countTombstone => s.mem.Sat P k th.cur ∧ (th.first = none → SureTree P s k th.root)
  | .validateChild => s.mem.Sat P k th.cur ∧ (th.first = none → SureTree P s k th.root)
  | .checkRatio => s.mem.Sat P k th.cur ∧ SureTree P s k th.root
  | .subState => s.mem.Sat P k th.cur ∧ SureTree P s k th.root
  | .subLoad => s.mem.Sat P k th.cur ∧ SureTree P s k th.root
  | .subFreeze _ => s.mem.Sat P k th.cur ∧ SureTree P s k th.root
  | .subWalk _ _ => s.mem.Sat P k th.cur ∧ SureTree P s k th.root
  | .subSwap _ _ => s.mem.Sat P k th.cur ∧ SureTree P s k th.root
  | .ownChild => s.mem.Sat P k th.cur ∧ SureTree P s k th.root
  | .look n => s.mem.Sat P k n ∧ SureTree P s k th.root
  | .lookChild n => s.mem.Sat P k n ∧ SureTree P s k th.root
  | .validateRoot _ _ => SureTree P s k th.root
  | _ => True

/-- What an update of the key that has compared its first descent stands for. -/
theorem Vouches.of_compared {pc : Pc K V} (hpc : pc.isCompared = true)
    (hs : s.mem.Sat P k th.cur) (ht : SureTree P s k th.root) :
    Vouches P s k { th with pc := pc } := by
  cases pc with
  | checkRatio | subState | subLoad | subFreeze | subWalk | subSwap | ownChild => exact ⟨hs, ht⟩
  | validateRoot => exact ht
  | _ => cases hpc

/-- The node of an update goes on to hold what it did. -/
theorem Inv.sat_cur (hinv : s.Inv) (hth : s.threads t = some th) (hc : Content s.mem m' th)
    (hr : Respects P s.mem k th) {k' : K} (hat : th'.At s.mem k') (hs : s.mem.Sat P k th'.cur)
    (hroot : th'.first = none → SureTree P s k th'.root) : m'.Sat P k th'.cur := by
  cases hf : th'.first with
  | none => exact (hroot hf).sat_step hinv hth hc hr hat.2.2.curWF (Or.inl (hat.2.2.start hf)) hs
  | some f => exact hinv.sat_below hth hc hr hat.2.2.curWF (hat.2.2.descent _ _ _ hf).below hs

/-- **Steps of other operations** take nothing back. -/
theorem Vouches.other [LawfulKey K] (hinv : s.Inv) (h : Vouches P s k th')
    (hth' : s.threads t' = some th') (hg : ∀ k', th'.call ≠ .get k') (hth : s.threads t = some th)
    (hstep : th.step s.config s.mem = some (m', next)) (hr : Respects P s.mem k th) :
    Vouches P (s.proceed t th.call m' next) k th' := by
  have hc := (step_effect hinv.headroom (hinv.ok hth) (hinv.locks hth) hstep).content
    (hinv.ok hth) (hinv.locks hth)
  have htree : SureTree P s k th'.root → SureTree P (s.proceed t th.call m' next) k th'.root :=
    fun h => h.step hinv hth hstep hr
  have hcur : ∀ {k'}, th'.At s.mem k' → s.mem.Sat P k th'.cur →
      (th'.first = none → SureTree P s k th'.root) →
      (s.proceed t th.call m' next).mem.Sat P k th'.cur := fun hat hs hroot => by
    rw [proceed_mem]
    exact hinv.sat_cur hth hc hr hat hs hroot
  have hok := hinv.ok hth'
  obtain ⟨call, pc, was, again, root, cur, idx, depth, first, write, reply⟩ := th'
  cases pc with
  | countTombstone | validateChild =>
    obtain ⟨k', hat, -⟩ := hok
    exact ⟨hcur hat.1 h.1 h.2, fun hf => htree (h.2 hf)⟩
  | checkRatio | subState | subLoad | subFreeze =>
    obtain ⟨k', hat, -⟩ := hok
    exact ⟨hcur hat.1 h.1 fun _ => h.2, htree h.2⟩
  | subWalk | subSwap =>
    obtain ⟨k', ⟨⟨hat, -⟩, -⟩, -⟩ := hok
    exact ⟨hcur hat.1 h.1 fun _ => h.2, htree h.2⟩
  | ownChild =>
    obtain ⟨k', hat, -⟩ := hok
    exact ⟨hcur hat.1 h.1 fun _ => h.2, htree h.2⟩
  | look n =>
    obtain ⟨k', -, hn, -, hat⟩ := hok
    refine ⟨?_, htree h.2⟩
    rw [proceed_mem]
    exact hinv.sat_below hth hc hr hn (hat hg).2 h.1
  | lookChild n =>
    obtain ⟨k', ⟨-, hn, -, hat⟩, -⟩ := hok
    refine ⟨?_, htree h.2⟩
    rw [proceed_mem]
    exact hinv.sat_below hth hc hr hn (hat hg).2 h.1
  | validateRoot => exact htree h
  | _ => trivial

theorem Vouches.imp {Q : Option V → Prop} (h : Vouches P s k th) (hPQ : ∀ o, P o → Q o) :
    Vouches Q s k th := by
  obtain ⟨call, pc, was, again, root, cur, idx, depth, first, write, reply⟩ := th
  cases pc with
  | countTombstone | validateChild => exact ⟨h.1.imp hPQ, fun hf => (h.2 hf).imp hPQ⟩
  | checkRatio | subState | subLoad | subFreeze | subWalk | subSwap | ownChild | look
  | lookChild => exact ⟨h.1.imp hPQ, h.2.imp hPQ⟩
  | validateRoot => exact SureTree.imp h hPQ
  | _ => trivial

theorem Vouches.invoke {call : Call K V} (h : Vouches P s k th) (hs : s.invoke t call = some s') :
    Vouches P s' k th := by
  have htree : ∀ {r : NodeId}, SureTree P s k r → SureTree P s' k r := fun h => h.invoke hs
  have hm : s'.mem = s.mem := by
    obtain ⟨-, rfl⟩ := invoke_eq_some hs
    rfl
  obtain ⟨call, pc, was, again, root, cur, idx, depth, first, write, reply⟩ := th
  cases pc with
  | countTombstone | validateChild => exact ⟨hm ▸ h.1, fun hf => htree (h.2 hf)⟩
  | checkRatio | subState | subLoad | subFreeze | subWalk | subSwap | ownChild | look
  | lookChild => exact ⟨hm ▸ h.1, htree h.2⟩
  | validateRoot => exact htree h
  | _ => trivial

/-- Operations that are not at a CAS or a publication respect every property. -/
theorem respects_of_pc (h₁ : th.pc ≠ .publish) (h₂ : th.pc ≠ .claim) : Respects P m k th where
  publish _ h := absurd h h₁
  bury h := absurd h h₂

/-- An update that has compared its first descent goes on. -/
theorem Vouches.passes [LawfulKey K] (hinv : s.Inv) (hth : s.threads t = some th)
    (hstep : th.step s.config s.mem = some (m', next)) (hr : Respects P s.mem k th)
    (hat : ∃ k', th.At s.mem k') (hs : s.mem.Sat P k th.cur) (ht : SureTree P s k th.root)
    (hp : next.Passes th) (hn : next = .goto th') :
    Vouches P (s.proceed t th.call m' next) k th' := by
  have hc := (step_effect hinv.headroom (hinv.ok hth) (hinv.locks hth) hstep).content
    (hinv.ok hth) (hinv.locks hth)
  obtain ⟨pc, rfl, hpc⟩ := hp
  cases hn
  obtain ⟨k', hat⟩ := hat
  refine .of_compared hpc ?_ (ht.step hinv hth hstep hr)
  rw [proceed_mem]
  exact hinv.sat_cur hth hc hr hat hs fun _ => ht

theorem Vouches.found {val : Option V} (ht : SureTree P s' k th.root)
    (hn : th.found val = .goto th') : Vouches P s' k th' := by
  unfold Thread.found at hn
  split at hn
  · split at hn
    · cases hn; exact ht
    · cases hn; trivial
  · cases hn

theorem Vouches.lookSlot {n : NodeId} (hs : s.mem.Sat P k n) (hs' : s'.mem = s.mem) (ht' : SureTree P s' k th.root)
    (hn : lookSlot s.mem th n k = .goto th') : Vouches P s' k th' := by
  unfold Scry.Index.lookSlot at hn
  dsimp only at hn
  rw [← hs'] at hs
  split at hn
  · split at hn
    · split_ifs at hn
      · exact .found ht' hn
      · exact .found ht' hn
    · exact .found ht' hn
  · cases hn; exact ⟨hs, ht'⟩
  · cases hn; exact ⟨hs, ht'⟩
  · exact .found ht' hn

theorem Vouches.lookChild {n : NodeId} (hs : s.mem.Sat P k n)
    (hch : ((s.mem.cells n).slots ((s.mem.cells n).slotOf k)).isChild) (hs' : s'.mem = s.mem)
    (ht' : SureTree P s' k th.root)
    (hn : lookChild s.mem th n k = .goto th') : Vouches P s' k th' := by
  unfold Scry.Index.lookChild at hn
  dsimp only at hn
  split at hn
  · exact .found ht' hn
  · rename_i p hp
    cases hn
    refine ⟨?_, ht'⟩
    rw [hs']
    exact (Mem.sat_child hch hp).1 hs

/-- **The steps of the update itself**, once it has changed its slot. -/
theorem Vouches.own [LawfulKey K] (hinv : s.Inv) (h : Vouches P s k th)
    (hth : s.threads t = some th) (hkey : th.call.key = some k) (hg : ∀ k', th.call ≠ .get k')
    (hstep : th.step s.config s.mem = some (m', .goto th')) (hpub : th.pc ≠ .publish)
    (hclaim : th.pc ≠ .claim) (hread : th.pc ≠ .readSlot) :
    Vouches P (s.proceed t th.call m' (.goto th')) k th' := by
  have hr : Respects P s.mem k th := respects_of_pc hpub hclaim
  have hc := (step_effect hinv.headroom (hinv.ok hth) (hinv.locks hth) hstep).content
    (hinv.ok hth) (hinv.locks hth)
  have hok := hinv.ok hth
  have hpass : ∀ {next : Next K V}, next.Passes th → next = .goto th' →
      (∃ k', th.At s.mem k') → s.mem.Sat P k th.cur → SureTree P s k th.root →
      Vouches P (s.proceed t th.call m' (.goto th')) k th' :=
    fun hp he hat hs ht => .passes hinv hth hstep hr hat hs ht (he ▸ hp) rfl
  have htree : SureTree P s k th.root →
      SureTree P (s.proceed t th.call m' (.goto th')) k th.root :=
    fun h => h.step hinv hth hstep hr
  cases hpc : th.pc <;> simp only [Thread.Ok, hpc] at hok <;>
    simp only [Vouches, hpc] at h <;> simp only [Thread.step, hpc] at hstep
  case publish => exact absurd hpc hpub
  case claim => exact absurd hpc hclaim
  case readSlot => exact absurd hpc hread
  case loadRoot =>
    unfold stepLoadRoot at hstep
    split at hstep
    · exact absurd ‹_› (hg _)
    · split_ifs at hstep <;> cases hstep <;> trivial
  case loadChild =>
    obtain ⟨k', hat, hs⟩ := hok
    obtain ⟨p, hp, -⟩ := hat.1.2.2.curWF.cell.child _ hs
    simp only [stepLoadChild, hp] at hstep
    split_ifs at hstep <;> cases hstep <;> trivial
  case countTombstone =>
    obtain ⟨k', hat⟩ := hok
    have hn := congrArg Prod.snd (Option.some.inj hstep)
    cases hn
    refine ⟨?_, fun hf => htree (h.2 hf)⟩
    rw [proceed_mem]
    exact hinv.sat_cur hth hc hr hat.1.1 h.1 h.2
  case validateChild =>
    obtain ⟨k', hat⟩ := hok
    obtain rfl := Option.some.inj (hat.1.1.1.symm.trans hkey)
    have hn := (Prod.mk.inj (Option.some.inj hstep)).2
    rcases (stepValidateChild_cases :
      _ ∨ ∃ again, stepValidateChild s.config s.mem th = th.retry again)
      with ⟨hptr, hp⟩ | ⟨again, hre⟩
    · refine hpass hp hn ⟨_, hat.1.1⟩ h.1 ?_
      cases hf : th.first with
      | none => exact h.2 hf
      | some f =>
        have hd := hat.1.1.2.2.descent _ _ _ hf
        have hpar : f.1 = th.root := hd.parent
        rw [← hpar] at hd ⊢
        exact .of_child hinv (hpar ▸ hat.1.1.2.2.rootWF) hd (hptr _ _ _ hf) h.1
    · rw [hre] at hn
      cases hn
      trivial
  case checkRatio =>
    obtain ⟨k', hat⟩ := hok
    have hn := (Prod.mk.inj (Option.some.inj hstep)).2
    exact hpass finishes_stepCheckRatio.passes hn ⟨k', hat.1.1⟩ h.1 h.2
  case subState =>
    obtain ⟨k', hat⟩ := hok
    have hn := (Prod.mk.inj (Option.some.inj hstep)).2
    exact hpass finishes_stepSubState.passes hn ⟨k', hat.1.1⟩ h.1 h.2
  case subLoad =>
    obtain ⟨k', hat⟩ := hok
    have hn := (Prod.mk.inj (Option.some.inj hstep)).2
    exact hpass finishes_stepSubLoad.passes hn ⟨k', hat.1.1⟩ h.1 h.2
  case subFreeze c =>
    obtain ⟨k', hat⟩ := hok
    have hn := congrArg Prod.snd (Option.some.inj hstep)
    exact hpass (finishes_stepSubFreeze c).passes hn ⟨k', hat.1.1⟩ h.1 h.2
  case subWalk c w =>
    obtain ⟨k', ⟨hat, -⟩, -⟩ := hok
    have hn := (Prod.mk.inj (Option.some.inj hstep)).2
    exact hpass (finishes_stepSubWalk c w).passes hn ⟨k', hat.1.1⟩ h.1 h.2
  case subSwap c pairs =>
    obtain ⟨k', ⟨hat, -⟩, -⟩ := hok
    exact hpass (finishes_stepSubSwap hstep).passes rfl ⟨k', hat.1.1⟩ h.1 h.2
  case ownChild =>
    obtain ⟨k', hat, hs⟩ := hok
    obtain rfl := Option.some.inj (hat.1.1.symm.trans hkey)
    obtain ⟨p, hp, -⟩ := hat.1.2.2.curWF.cell.child _ hs
    simp only [stepOwnChild, hp] at hstep
    cases hstep
    refine ⟨?_, htree h.2⟩
    rw [hat.2] at hs hp
    exact (Mem.sat_child hs hp).1 h.1
  case look n =>
    obtain ⟨n', hl, hm⟩ := Option.map_eq_some_iff.1 hstep
    cases hm
    unfold stepLook at hl
    split at hl
    · exact absurd ‹_› (hg _)
    · rename_i hcall
      obtain rfl := Option.some.inj ((congrArg Call.key hcall).symm.trans hkey)
      exact .lookSlot h.1 rfl (htree h.2) (Option.some.inj hl)
    · cases hl
  case lookChild n =>
    obtain ⟨k', hlk, hch⟩ := hok
    obtain rfl := Option.some.inj (hlk.1.symm.trans hkey)
    obtain ⟨n', hl, hm⟩ := Option.map_eq_some_iff.1 hstep
    cases hm
    unfold stepLookChild at hl
    split at hl
    · exact absurd ‹_› (hg _)
    · rename_i hcall
      obtain rfl := Option.some.inj ((congrArg Call.key hcall).symm.trans hkey)
      exact .lookChild h.1 hch rfl (htree h.2) (Option.some.inj hl)
    · cases hl
  case validateRoot isNew val =>
    simp only [stepValidateRoot] at hstep
    split_ifs at hstep <;> cases hstep <;> trivial
  case count =>
    simp only [stepCount] at hstep
    split at hstep
    · cases hstep
    · split_ifs at hstep <;> cases hstep
      trivial
  case loadThreshold =>
    simp only [stepLoadThreshold] at hstep
    split_ifs at hstep <;> cases hstep
    trivial
  case casThreshold =>
    simp only [stepCasThreshold] at hstep
    split_ifs at hstep <;> cases hstep
    trivial
  case rootLoad =>
    simp only [stepRootLoad] at hstep
    split_ifs at hstep <;> cases hstep
    trivial
  case rootFreeze =>
    simp only [stepRootFreeze] at hstep
    split_ifs at hstep <;> cases hstep
    trivial
  case rootWalk =>
    simp only [stepRootWalk] at hstep
    split at hstep <;> cases hstep <;> trivial
  case rootSwap r pairs =>
    obtain ⟨n, hn | hn⟩ := stepRootSwap_pc hstep <;> simp only [Vouches, hn]
  case subtract => cases hstep; trivial
  case storeThreshold => cases hstep

/-- The slot of the key had no child before the step, so that no rebuild is at work there. -/
theorem SureTree.of_changed (hinv : s.Inv) (hev : s.mem.Evolves m') {r : NodeId}
    (hr : s.mem.NodeWF r)
    (hs : ((s.mem.cells r).slots ((s.mem.cells r).slotOf k)).isChild = false)
    (hsat : m'.Sat P k r) (hown : th'.lock = none) :
    SureTree P (s.proceed t th.call m' (.goto th')) k r where
  wf := hev.wf r hr
  sat := hsat
  walks {t₁ th₁ i w} h₁ hw hi := by
    exfalso
    by_cases ht : t₁ = t
    · subst ht
      cases proceed_threads_self h₁
      cases hown.symm.trans (Thread.subWalker_lock hw)
    · rw [proceed_threads_of_ne ht] at h₁
      have hp : (Lock.edge r i).Placed s.mem := (hinv.ok h₁).placed (Thread.subWalker_lock hw)
      rw [proceed_mem, hev.slotOf hr.alloc] at hi
      rw [← hi, Lock.Placed, hs] at hp
      cases hp.2

/-- **The publication of the update itself.** -/
theorem Vouches.publish [LawfulKey K] (hinv : s.Inv) (hth : s.threads t = some th) (hpc : th.pc = .publish)
    (hkey : th.call.key = some k) (hP : ∀ v, th.call.value = some v → P (some v))
    (hstep : th.step s.config s.mem = some (m', .goto th')) :
    Vouches P (s.proceed t th.call m' (.goto th')) k th' := by
  have hok := hinv.ok hth
  have hl := hinv.locks hth
  obtain ⟨k', v, hk', hv, hw⟩ := (step_effect hinv.headroom hok hl hstep).writes hok hl hpc
  obtain rfl := Option.some.inj (hk'.symm.trans hkey)
  simp only [Thread.Ok, hpc] at hok
  simp only [Thread.Locks, hpc] at hl
  obtain ⟨k₁, hat, hwr⟩ := hok
  obtain rfl := Option.some.inj (hat.1.1.symm.trans hkey)
  have hsat : m'.Sat P k₁ th.cur := ⟨_, hw.self, hP v hv⟩
  have htree : th'.lock = none → th.first = none →
      SureTree P (s.proceed t th.call m' (.goto th')) k₁ th.root := by
    intro hown hf
    have hcur := hat.1.2.2.start hf
    rw [hcur] at hsat
    refine .of_changed hinv hw.toEvolves hat.1.2.2.rootWF ?_ hsat hown
    rw [← hcur, ← hat.2, hl.2]
    exact hwr.prev.2
  simp only [Thread.step, hpc, stepPublish] at hstep
  split at hstep
  · cases hstep
    exact ⟨hsat, htree rfl⟩
  · cases hstep
    split_ifs at htree ⊢
    · exact ⟨hsat, htree rfl⟩
    · exact ⟨hsat, htree rfl⟩
  · cases hstep

/-- **The CAS of the update itself**, which may bury its key. -/
theorem Vouches.claim [LawfulKey K] (hinv : s.Inv) (hth : s.threads t = some th)
    (hpc : th.pc = .claim) (hkey : th.call.key = some k) (hP : th.call = .remove k → P none)
    (hstep : th.step s.config s.mem = some (m', .goto th')) :
    Vouches P (s.proceed t th.call m' (.goto th')) k th' := by
  have hok := hinv.ok hth
  have hev := ((step_effect hinv.headroom hok (hinv.locks hth) hstep).content hok
    (hinv.locks hth)).evolves
  simp only [Thread.Ok, hpc] at hok
  obtain ⟨k₁, hat, hwr⟩ := hok
  obtain rfl := Option.some.inj (hat.1.1.symm.trans hkey)
  simp only [Thread.step, hpc, stepClaim, Option.some.injEq] at hstep
  split_ifs at hstep with hs
  · split at hstep
    · rename_i hb
      cases hstep
      rw [hb] at hwr hs
      cases hwr with
      | bury hcall hne hi =>
        have hdata : (s.mem.cells th.cur).slots th.idx = .data :=
          ((Cell.state_eq (s := .data) (by decide)).1 hs).2
        have hsat : (s.mem.modify th.cur fun c => c.bury th.idx).Sat P k₁ th.cur :=
          ⟨_, (Mem.bury_writes hat.1.2.2.curWF hdata hi).self, hP hcall⟩
        refine ⟨hsat, fun hf => ?_⟩
        have hcur := hat.1.2.2.start hf
        rw [hcur] at hsat
        refine .of_changed hinv hev hat.1.2.2.rootWF ?_ (hcur ▸ hsat) rfl
        rw [← hcur, ← hat.2, hdata]
        rfl
    · cases hstep
      trivial
  · cases hstep
    trivial

/-- **A step of an update that is not done**, given what its look at the slot leads to. -/
theorem Vouches.step [LawfulKey K] (hinv : s.Inv) (h : Vouches P s k th)
    (hth : s.threads t = some th) (hkey : th.call.key = some k) (hg : ∀ k', th.call ≠ .get k')
    (hv : ∀ v, th.call.value = some v → P (some v)) (hb : th.call = .remove k → P none)
    (hstep : th.step s.config s.mem = some (m', .goto th'))
    (hread : th.pc = .readSlot → Vouches P (s.proceed t th.call m' (.goto th')) k th') :
    Vouches P (s.proceed t th.call m' (.goto th')) k th' := by
  by_cases h₁ : th.pc = .publish
  · exact .publish hinv hth h₁ hkey hv hstep
  by_cases h₂ : th.pc = .claim
  · exact .claim hinv hth h₂ hkey hb hstep
  by_cases h₃ : th.pc = .readSlot
  · exact hread h₃
  · exact h.own hinv hth hkey hg hstep h₁ h₂ h₃

/-- **The root is in place**: now the map is sure of what the update vouches for. -/
theorem Vouches.root [LawfulKey K] (hinv : s.Inv) (h : Vouches P s k th)
    (hth : s.threads t = some th) (hstep : th.step s.config s.mem = some (m', next))
    {isNew : Bool} {val : Option V} (hpc : th.pc = .validateRoot isNew val)
    (hroot : s.mem.root = ⟨th.root, false⟩) : SureRoot P (s.proceed t th.call m' next) k := by
  simp only [Vouches, hpc] at h
  exact (h.root hinv hroot).step hinv hth hstep
    (respects_of_pc (by rw [hpc]; nofun) (by rw [hpc]; nofun))
    fun r pairs he => by rw [hpc] at he; cases he

/-- An insert does not stop at its look at the slot. -/
theorem Vouches.readInsert {v : V} (h : readInsert m th k v = some (.goto th')) :
    Vouches P s k th' := by
  simp only [Scry.Index.readInsert] at h
  split at h
  case h_4 =>
    split at h
    · cases h
    · split_ifs at h
      · cases h; trivial
      · obtain ⟨child, -, hn⟩ := Option.bind_eq_some_iff.1 h
        cases hn
        trivial
  all_goals cases h; trivial

/-- **A step of an insert**: it goes on to vouch for its value, or the map is sure of it. -/
theorem Vouches.insert [LawfulKey K] (hinv : s.Inv) (h : Vouches P s k th)
    (hth : s.threads t = some th) {v : V} (hcall : th.call = .insert k v) (hP : P (some v))
    (hnd : th.pc.isDone = false) (hstep : th.step s.config s.mem = some (m', next)) :
    (∃ th', next = .goto th' ∧ th'.pc.isDone = false ∧ th'.call = th.call ∧
      Vouches P (s.proceed t th.call m' next) k th') ∨
      ((∀ th', next = .goto th' → th'.pc.isDone = true) ∧
        SureRoot P (s.proceed t th.call m' next) k) := by
  have hg : ∀ k', th.call ≠ .get k' := fun k' he => nomatch hcall.symm.trans he
  have hkey : th.call.key = some k := by rw [hcall]; rfl
  rcases step_update hg hnd hstep with ⟨th', rfl, hnd'⟩ | ⟨isNew, val, hpc, hroot, rfl⟩
  · have hnext := step_next hinv.headroom hinv.root (hinv.ok hth) (hinv.locks hth) hstep
    refine Or.inl ⟨th', rfl, hnd', hnext.call, h.step hinv hth hkey hg (fun v' hv' => ?_)
      (fun hr => nomatch hcall.symm.trans hr) hstep fun hpc => ?_⟩
    · rw [hcall] at hv'
      cases hv'
      exact hP
    · simp only [Thread.step, hpc] at hstep
      obtain ⟨n, hn, hm⟩ := Option.map_eq_some_iff.1 hstep
      cases hm
      simp only [stepReadSlot, hcall] at hn
      exact .readInsert hn
  · refine Or.inr ⟨?_, h.root hinv hth hstep hpc hroot⟩
    rintro th' rfl
    exact isDone_of_inPlace hpc hroot hstep

end Sys

end Scry.Index
