/-
  Which steps prepare, make and count a change (`Thread.Regular`).

  Most steps leave an operation with the write that it has and before a step that marks
  nothing (`Next.Plain`).  A slot is claimed right after it was read, a tombstone counted
  right after it was made, a key after the root was validated, and no operation counts its
  key twice.
-/
import Scry.Index.Proof.Tombstones

namespace Scry.Index

variable {K V : Type}

/-- The steps that change a slot or a counter. -/
def Pc.marks : Pc K V → Bool
  | .claim => true
  | .publish => true
  | .countTombstone => true
  | .count => true
  | .subtract _ => true
  | _ => false

/-- The steps that come after an operation has counted its key. -/
def Pc.counted : Pc K V → Bool
  | .loadThreshold _ => true
  | .casThreshold _ => true
  | .rootLoad => true
  | .rootFreeze _ => true
  | .rootWalk _ _ => true
  | .rootSwap _ _ => true
  | .subtract _ => true
  | .storeThreshold _ => true
  | _ => false

/-- The operation goes on with the write that it has, and its next step marks nothing, or
    it is done. -/
def Next.Plain (th : Thread K V) : Next K V → Prop
  | .goto th' => th'.write = th.write ∧ th'.pc.marks = false
  | .ret _ => True

section Moves
variable {config : Config} {m m' : Mem K V} {th th' : Thread K V} {next : Next K V}

theorem plain_goto {pc : Pc K V} (h : pc.marks = false) : (th.goto pc).Plain th := ⟨rfl, h⟩

theorem plain_finish : th.finish.Plain th := by
  unfold Thread.finish
  split <;> exact plain_goto rfl

theorem plain_afterInsert : (th.afterInsert config).Plain th := by
  unfold Thread.afterInsert
  split_ifs
  · exact plain_goto rfl
  · exact plain_finish

theorem plain_found (val : Option V) : (th.found val).Plain th := by
  unfold Thread.found
  split
  · split <;> exact plain_goto rfl
  · trivial

theorem plain_loadRoot : (stepLoadRoot m th).Plain th := by
  unfold stepLoadRoot
  split
  · exact plain_goto rfl
  · split_ifs
    · exact plain_goto rfl
    · exact ⟨rfl, rfl⟩

theorem plain_loadChild : (stepLoadChild m th).Plain th := by
  unfold stepLoadChild
  split
  · split <;> exact plain_goto rfl
  · split_ifs
    · exact plain_goto rfl
    · exact ⟨rfl, rfl⟩

theorem plain_validateChild : (stepValidateChild config m th).Plain th := by
  rcases stepValidateChild_next config m th with ⟨-, he | he | he⟩ | ⟨again, he⟩ <;> rw [he]
  · exact plain_goto rfl
  · exact plain_afterInsert
  · exact plain_goto rfl
  · exact ⟨rfl, rfl⟩

theorem plain_checkRatio : (stepCheckRatio config m th).Plain th := by
  unfold stepCheckRatio
  dsimp only
  split_ifs
  · exact plain_goto rfl
  · exact plain_finish

theorem plain_subState : (stepSubState m th).Plain th := by
  unfold stepSubState
  split
  · exact plain_finish
  · split_ifs
    · exact plain_goto rfl
    · exact plain_finish

theorem plain_subLoad : (stepSubLoad m th).Plain th := by
  unfold stepSubLoad
  split
  · exact plain_finish
  · split
    · exact plain_finish
    · split_ifs
      · exact plain_finish
      · exact plain_goto rfl

theorem plain_subFreeze {c : NodeId} : (stepSubFreeze m th c).2.Plain th := by
  unfold stepSubFreeze
  split
  · exact plain_finish
  · split_ifs
    · exact plain_goto rfl
    · exact plain_finish

theorem plain_subWalk {c : NodeId} {w : Walk K V} : (stepSubWalk m th c w).Plain th := by
  unfold stepSubWalk
  split <;> exact plain_goto rfl

theorem plain_ownChild : (stepOwnChild m th).Plain th := by
  unfold stepOwnChild
  split <;> exact plain_goto rfl

theorem plain_rootWalk {r : NodeId} {w : Walk K V} : (stepRootWalk m th r w).Plain th := by
  unfold stepRootWalk
  split <;> exact plain_goto rfl

theorem plain_validateRoot {isNew : Bool} {val : Option V}
    (h : stepValidateRoot m th isNew val = .goto th') :
    th'.write = th.write ∧ th'.call = th.call ∧ (th'.pc = .loadRoot ∨ th'.pc = .count) := by
  unfold stepValidateRoot at h
  dsimp only at h
  split_ifs at h
  · cases h
    exact ⟨rfl, rfl, Or.inr rfl⟩
  · cases h
    exact ⟨rfl, rfl, Or.inl rfl⟩

variable [LinearOrder K] [Key K]

theorem plain_lookSlot {n : NodeId} {key : K} : (lookSlot m th n key).Plain th := by
  unfold lookSlot
  dsimp only
  split
  · split
    · split_ifs <;> exact plain_found _
    · exact plain_found _
  · exact plain_goto rfl
  · exact plain_goto rfl
  · exact plain_found _

theorem plain_lookChild {n : NodeId} {key : K} : (lookChild m th n key).Plain th := by
  unfold lookChild
  dsimp only
  split
  · exact plain_found _
  · exact plain_goto rfl

theorem plain_subSwap {c : NodeId} {pairs : List (K × V)}
    (h : stepSubSwap config m th c pairs = some (m', next)) : next.Plain th := by
  unfold stepSubSwap at h
  split at h
  · cases h
    exact plain_finish
  · dsimp only at h
    split_ifs at h
    · cases h; exact plain_finish
    · cases h; exact plain_finish
    · obtain ⟨tree, -, ht⟩ := Option.bind_eq_some_iff.1 h
      cases ht
      exact plain_finish
    · obtain ⟨tree, -, ht⟩ := Option.bind_eq_some_iff.1 h
      cases ht
      exact plain_finish

theorem plain_rootSwap {r : NodeId} {pairs : List (K × V)} (hd : th.call ≠ .drain)
    (hcl : th.call ≠ .clear) (h : stepRootSwap config m th r pairs = some (m', next)) :
    next.Plain th := by
  unfold stepRootSwap at h
  split at h
  · rename_i hcall
    exact absurd hcall hd
  · rename_i hcall
    exact absurd hcall hcl
  · unfold swapRebuilt at h
    by_cases hempty : pairs.isEmpty = true
    · rw [if_pos hempty] at h
      cases h
      trivial
    · rw [if_neg hempty] at h
      obtain ⟨built, -, h⟩ := Option.bind_eq_some_iff.1 h
      cases built with
      | error e => cases h; trivial
      | ok tree =>
        dsimp only at h
        split_ifs at h
        · cases h; exact plain_goto rfl
        · cases h; trivial

theorem swapEmpty_goes {r : NodeId} {pairs : List (K × V)} (hc : th.call = .drain ∨ th.call = .clear)
    (h : stepRootSwap config m th r pairs = some (m', .goto th')) :
    th'.write = th.write ∧ ∃ n, th'.pc = .subtract n := by
  have hempty : swapEmpty m th r pairs = (m', .goto th') := by
    unfold stepRootSwap at h
    rcases hc with hc | hc <;> rw [hc] at h <;> exact Option.some.inj h
  unfold swapEmpty at hempty
  dsimp only at hempty
  split_ifs at hempty <;> cases hempty
  exact ⟨rfl, _, rfl⟩

/-- What an update is about to attach was just built. -/
theorem attachesNone_read (ha : th.AttachesNone) (h : stepReadSlot m th = some (.goto th')) :
    th'.AttachesNone ∧ (th'.pc.marks = false ∨ th'.pc = .claim) := by
  have hinline : ∀ {i : ℕ} {k : K} {v : V},
      ({ th with idx := i, write := .inline k v, pc := .claim } : Thread K V).AttachesNone :=
    fun _ _ _ hw => by cases hw
  have hattach : ∀ {i : ℕ} {prev : SlotState} {isNew : Bool} {c : Node K V}, c.Pristine →
      ({ th with idx := i, write := .attach prev c isNew, pc := .claim } : Thread K V).AttachesNone :=
    fun hc _ _ _ hw => by cases hw; exact hc
  unfold stepReadSlot at h
  split at h
  · unfold readInsert at h
    dsimp only at h
    split at h
    · cases h; exact ⟨ha, Or.inl rfl⟩
    · cases h; exact ⟨hinline, Or.inr rfl⟩
    · cases h; exact ⟨hattach (.buildSingleEntryChild _ _), Or.inr rfl⟩
    · split at h
      · cases h
      · split_ifs at h
        · cases h; exact ⟨hattach (.buildSingleEntryChild _ _), Or.inr rfl⟩
        · obtain ⟨c, hc, h⟩ := Option.bind_eq_some_iff.1 h
          cases h
          exact ⟨hattach (.buildConflictNode hc), Or.inr rfl⟩
    · cases h; exact ⟨ha, Or.inl rfl⟩
    · cases h; exact ⟨ha, Or.inl rfl⟩
  · unfold readGetOrInsert at h
    dsimp only at h
    split at h
    · cases h; exact ⟨ha, Or.inl rfl⟩
    · cases h; exact ⟨hinline, Or.inr rfl⟩
    · cases h; exact ⟨hattach (.buildSingleEntryChild _ _), Or.inr rfl⟩
    · split at h
      · cases h
      · split_ifs at h
        · cases h; exact ⟨ha, Or.inl rfl⟩
        · obtain ⟨c, hc, h⟩ := Option.bind_eq_some_iff.1 h
          cases h
          exact ⟨hattach (.buildConflictNode hc), Or.inr rfl⟩
    · cases h; exact ⟨ha, Or.inl rfl⟩
    · cases h; exact ⟨ha, Or.inl rfl⟩
  · unfold readRemove at h
    dsimp only at h
    split at h
    · cases h; exact ⟨ha, Or.inl rfl⟩
    · cases h; exact ⟨ha, Or.inl rfl⟩
    · cases h; exact ⟨ha, Or.inl rfl⟩
    · split at h
      · cases h
      · split_ifs at h
        · cases h
          exact ⟨fun _ _ _ hw => (by cases hw), Or.inr rfl⟩
        · cases h; exact ⟨ha, Or.inl rfl⟩
    · cases h; exact ⟨ha, Or.inl rfl⟩
    · cases h; exact ⟨ha, Or.inl rfl⟩
  · cases h

/-- What holds of a running operation wherever it is: what it is about to attach was just
    built, only drain and clear subtract what they swapped out, and only an update counts
    its key. -/
structure Thread.Regular (th : Thread K V) : Prop where
  attaches : th.AttachesNone
  subtract (n : ℕ) : th.pc = .subtract n → th.call = .drain ∨ th.call = .clear
  counting : th.pc = .count → ∃ k, th.call.key = some k ∧ ∀ k', th.call ≠ .get k'

omit [LinearOrder K] [Key K] in
theorem Thread.Regular.not_subtract (h : th.Regular) (hd : th.call ≠ .drain)
    (hcl : th.call ≠ .clear) (n : ℕ) : th.pc ≠ .subtract n := fun hpc =>
  (h.subtract n hpc).elim hd hcl

omit [LinearOrder K] [Key K] in
theorem Thread.Regular.start (call : Call K V) : (Thread.start call).Regular where
  attaches _ _ _ hw := by cases hw
  subtract n h := by cases call <;> cases h
  counting h := by cases call <;> cases h

omit [LinearOrder K] [Key K] in
theorem Thread.Regular.plain (h : th.Regular) (hp : (Next.goto th').Plain th) : th'.Regular where
  attaches _ _ _ hw := h.attaches _ _ _ (hp.1.symm.trans hw)
  subtract n he := by
    have := hp.2
    rw [he] at this
    cases this
  counting he := by
    have := hp.2
    rw [he] at this
    cases this

/-- The operation has buried a slot and is about to count that. -/
def Thread.Burying (th : Thread K V) : Prop := th.pc = .countTombstone ∧ th.write = .bury

omit [LinearOrder K] [Key K] in
theorem not_burying (hp : (Next.goto th').Plain th) : ¬ th'.Burying := by
  rintro ⟨hpc, -⟩
  have := hp.2
  rw [hpc] at this
  cases this

/-- The operation has just buried its slot. -/
structure Buries (m m' : Mem K V) (th th' : Thread K V) : Prop where
  state : (m.cells th.cur).slots th.idx = .data
  mem : m' = m.modify th.cur fun c => c.bury th.idx
  goes : th' = { th with pc := .countTombstone }

omit [LinearOrder K] [Key K] in
theorem claim_goes (h : stepClaim m th = (m', .goto th')) :
    th'.call = th.call ∧ th'.write = th.write ∧
      (th'.pc = .readSlot ∨ th'.pc = .publish ∨ th'.pc = .countTombstone) ∧
      (th'.Burying → Buries m m' th th') := by
  unfold stepClaim at h
  split_ifs at h with hs
  · split at h
    · rename_i hw
      cases h
      refine ⟨rfl, rfl, Or.inr (Or.inr rfl), fun _ => ⟨?_, rfl, rfl⟩⟩
      rw [hw] at hs
      exact ((Cell.state_eq (s := .data) (by decide)).1 hs).2
    · cases h
      exact ⟨rfl, rfl, Or.inr (Or.inl rfl), fun hb => (by cases hb.1)⟩
  · cases h
    exact ⟨rfl, rfl, Or.inl rfl, fun hb => (by cases hb.1)⟩

omit [LinearOrder K] [Key K] in
theorem publish_goes (h : stepPublish m th = some (m', .goto th')) :
    th'.call = th.call ∧ th'.write = th.write ∧
      (th'.pc = .countTombstone ∨ th'.pc = .validateChild) ∧ ¬ th'.Burying := by
  unfold stepPublish at h
  split at h
  · cases h
    exact ⟨rfl, rfl, Or.inr rfl, fun hb => (by cases hb.1)⟩
  · rename_i hw
    cases h
    refine ⟨rfl, rfl, ?_, fun hb => (by cases hw.symm.trans hb.2)⟩
    show (if _ then _ else _) = _ ∨ (if _ then _ else _) = _
    split_ifs
    · exact Or.inl rfl
    · exact Or.inr rfl
  · cases h

/-- **An operation stays regular**, and counts a tombstone next only if it has just made
    it. -/
theorem Thread.Regular.step (hr : th.Regular) (hok : th.Ok m) (hcall : th'.call = th.call)
    (h : th.step config m = some (m', .goto th')) :
    th'.Regular ∧ (th'.Burying → Buries m m' th th') := by
  have plain : ∀ {r : Mem K V × Next K V}, some r = some (m', .goto th') → r.2.Plain th →
      th'.Regular ∧ (th'.Burying → Buries m m' th th') := by
    rintro _ he hp
    cases Option.some.inj he
    exact ⟨hr.plain hp, fun hb => absurd hb (not_burying hp)⟩
  have other : th'.write = th.write → (∀ n, th'.pc ≠ .subtract n) → th'.pc ≠ .count →
      th'.Regular := fun hw hs hc =>
    ⟨fun _ _ _ he => hr.attaches _ _ _ (hw.symm.trans he), fun n he => absurd he (hs n),
      fun he => absurd he hc⟩
  cases hpc : th.pc with
  | loadRoot => simp only [Thread.step, hpc] at h; exact plain h plain_loadRoot
  | readSlot =>
    simp only [Thread.step, hpc] at h
    obtain ⟨n, hn, he⟩ := Option.map_eq_some_iff.1 h
    cases he
    obtain ⟨ha, hm | hm⟩ := attachesNone_read hr.attaches hn
    · have hne : ∀ {pc : Pc K V}, pc.marks = true → th'.pc ≠ pc := by
        rintro _ hmk rfl
        rw [hm] at hmk
        cases hmk
      exact ⟨⟨ha, fun n he => absurd he (hne rfl), fun he => absurd he (hne rfl)⟩,
        fun hb => absurd hb.1 (hne rfl)⟩
    · refine ⟨⟨ha, fun n he => ?_, fun he => ?_⟩, fun hb => ?_⟩
      · rw [hm] at he; cases he
      · rw [hm] at he; cases he
      · rw [Burying, hm] at hb; cases hb.1
  | loadChild => simp only [Thread.step, hpc] at h; exact plain h plain_loadChild
  | claim =>
    simp only [Thread.step, hpc, Option.some.injEq] at h
    obtain ⟨-, hw, hpc', hb⟩ := claim_goes h
    refine ⟨other hw (fun n he => ?_) fun he => ?_, hb⟩
    · rcases hpc' with h | h | h <;> cases h.symm.trans he
    · rcases hpc' with h | h | h <;> cases h.symm.trans he
  | publish =>
    simp only [Thread.step, hpc] at h
    obtain ⟨-, hw, hpc', hb⟩ := publish_goes h
    refine ⟨other hw (fun n he => ?_) fun he => ?_, fun h => absurd h hb⟩
    · rcases hpc' with h | h <;> cases h.symm.trans he
    · rcases hpc' with h | h <;> cases h.symm.trans he
  | countTombstone =>
    simp only [Thread.step, hpc] at h; exact plain h (plain_goto rfl)
  | validateChild => simp only [Thread.step, hpc] at h; exact plain h plain_validateChild
  | checkRatio => simp only [Thread.step, hpc] at h; exact plain h plain_checkRatio
  | subState => simp only [Thread.step, hpc] at h; exact plain h plain_subState
  | subLoad => simp only [Thread.step, hpc] at h; exact plain h plain_subLoad
  | subFreeze => simp only [Thread.step, hpc] at h; exact plain h plain_subFreeze
  | subWalk => simp only [Thread.step, hpc] at h; exact plain h plain_subWalk
  | subSwap => simp only [Thread.step, hpc] at h; exact plain rfl (plain_subSwap h)
  | ownChild => simp only [Thread.step, hpc] at h; exact plain h plain_ownChild
  | look =>
    simp only [Thread.step, hpc] at h
    obtain ⟨n, hn, he⟩ := Option.map_eq_some_iff.1 h
    have hp : n.Plain th := by
      unfold stepLook at hn
      split at hn <;> cases hn <;> exact plain_lookSlot
    exact plain (congrArg some he) hp
  | lookChild =>
    simp only [Thread.step, hpc] at h
    obtain ⟨n, hn, he⟩ := Option.map_eq_some_iff.1 h
    have hp : n.Plain th := by
      unfold stepLookChild at hn
      split at hn <;> cases hn <;> exact plain_lookChild
    exact plain (congrArg some he) hp
  | validateRoot =>
    simp only [Thread.Ok, hpc] at hok
    simp only [Thread.step, hpc, Option.some.injEq, Prod.mk.injEq] at h
    obtain ⟨hw, -, hpc'⟩ := plain_validateRoot h.2
    refine ⟨⟨fun _ _ _ he => hr.attaches _ _ _ (hw.symm.trans he), fun n he => ?_,
      fun _ => hcall ▸ hok⟩, fun hb => ?_⟩
    · rcases hpc' with h | h <;> cases h.symm.trans he
    · rcases hpc' with h | h <;> cases h.symm.trans hb.1
  | count =>
    simp only [Thread.step, hpc, stepCount] at h
    split at h
    · cases h
    · split_ifs at h
      · cases h; exact plain rfl (plain_goto rfl)
      · cases h
  | loadThreshold =>
    simp only [Thread.step, hpc, stepLoadThreshold] at h
    split_ifs at h <;> cases h
    exact plain rfl (plain_goto rfl)
  | casThreshold =>
    simp only [Thread.step, hpc, stepCasThreshold] at h
    split_ifs at h <;> cases h
    exact plain rfl (plain_goto rfl)
  | rootLoad =>
    simp only [Thread.step, hpc, stepRootLoad] at h
    split_ifs at h <;> cases h
    exact plain rfl (plain_goto rfl)
  | rootFreeze =>
    simp only [Thread.step, hpc, stepRootFreeze] at h
    split_ifs at h <;> cases h
    exact plain rfl (plain_goto rfl)
  | rootWalk => simp only [Thread.step, hpc] at h; exact plain h plain_rootWalk
  | rootSwap =>
    simp only [Thread.step, hpc] at h
    by_cases hc : th.call = .drain ∨ th.call = .clear
    · obtain ⟨hw, n, hn⟩ := swapEmpty_goes hc h
      refine ⟨⟨fun _ _ _ he => hr.attaches _ _ _ (hw.symm.trans he), fun _ _ => hcall ▸ hc,
        fun he => ?_⟩, fun hb => ?_⟩
      · cases hn.symm.trans he
      · cases hn.symm.trans hb.1
    · exact plain rfl (plain_rootSwap (fun hd => hc (Or.inl hd)) (fun hcl => hc (Or.inr hcl)) h)
  | subtract n =>
    simp only [Thread.step, hpc] at h
    cases h
    exact plain rfl (plain_goto rfl)
  | storeThreshold =>
    simp only [Thread.step, hpc] at h
    cases h

/-- Only two steps change the number of keys. -/
theorem step_len (hpc : th.pc ≠ .count) (hsub : ∀ n, th.pc ≠ .subtract n)
    (h : th.step config m = some (m', next)) : m'.len = m.len := by
  have swap : ∀ {r : Mem K V × Next K V}, r.1.len = m.len → some r = some (m', next) →
      m'.len = m.len := by
    rintro _ hr he
    rw [← hr, Option.some.inj he]
  cases hp : th.pc <;> simp only [Thread.step, hp] at h
  case count => exact absurd hp hpc
  case subtract n => exact absurd hp (hsub n)
  case claim =>
    refine swap ?_ h
    unfold stepClaim
    split_ifs
    · split <;> rfl
    · rfl
  case publish =>
    unfold stepPublish at h
    split at h <;> cases h <;> rfl
  case subFreeze =>
    refine swap ?_ h
    unfold stepSubFreeze
    split
    · rfl
    · split_ifs <;> rfl
  case subSwap =>
    unfold stepSubSwap at h
    split at h
    · cases h; rfl
    · dsimp only at h
      split_ifs at h
      · cases h; rfl
      · cases h; rfl
      · obtain ⟨tree, -, ht⟩ := Option.bind_eq_some_iff.1 h
        cases ht; rfl
      · obtain ⟨tree, -, ht⟩ := Option.bind_eq_some_iff.1 h
        cases ht; rfl
  case casThreshold =>
    refine swap ?_ h
    unfold stepCasThreshold
    split_ifs <;> rfl
  case rootFreeze =>
    refine swap ?_ h
    unfold stepRootFreeze
    split_ifs <;> rfl
  case rootSwap r pairs =>
    have hun : (unfreezeRoot m r).len = m.len := by
      unfold unfreezeRoot
      split_ifs <;> rfl
    have hempty : (swapEmpty m th r pairs).1.len = m.len := by
      unfold swapEmpty
      dsimp only
      split_ifs <;> rfl
    unfold stepRootSwap at h
    split at h
    · exact swap hempty h
    · exact swap hempty h
    · unfold swapRebuilt at h
      by_cases hempty : pairs.isEmpty = true
      · rw [if_pos hempty] at h
        exact swap hun h
      · rw [if_neg hempty] at h
        obtain ⟨built, -, h⟩ := Option.bind_eq_some_iff.1 h
        cases built with
        | error e => exact swap hun h
        | ok tree =>
          dsimp only at h
          split_ifs at h
          · cases h; rfl
          · cases h; rfl
  case readSlot | look | lookChild =>
    obtain ⟨n, -, he⟩ := Option.map_eq_some_iff.1 h
    cases he; rfl
  all_goals exact swap rfl h

/-- An operation that has counted its key does not come to count it again. -/
theorem counted_step (hp : th.pc.counted = true) (h : th.step config m = some (m', .goto th')) :
    th'.pc.counted = true := by
  cases hpc : th.pc <;> rw [hpc] at hp <;> simp only [Thread.step, hpc] at h
  case loadThreshold =>
    unfold stepLoadThreshold at h
    split_ifs at h <;> cases h
    rfl
  case casThreshold =>
    unfold stepCasThreshold at h
    split_ifs at h <;> cases h
    rfl
  case rootLoad =>
    unfold stepRootLoad at h
    split_ifs at h <;> cases h
    rfl
  case rootFreeze =>
    unfold stepRootFreeze at h
    split_ifs at h <;> cases h
    rfl
  case rootWalk =>
    unfold stepRootWalk at h
    split at h <;> cases h <;> rfl
  case rootSwap r pairs =>
    unfold stepRootSwap swapEmpty swapRebuilt at h
    dsimp only at h
    split at h
    · split_ifs at h <;> cases h
      rfl
    · split_ifs at h <;> cases h
      rfl
    · by_cases hempty : pairs.isEmpty = true
      · rw [if_pos hempty] at h
        cases h
      · rw [if_neg hempty] at h
        obtain ⟨built, -, h⟩ := Option.bind_eq_some_iff.1 h
        cases built with
        | error e => cases h
        | ok tree =>
          dsimp only at h
          split_ifs at h <;> cases h
          rfl
  case subtract => cases h; rfl
  case storeThreshold => cases h
  all_goals cases hp

end Moves

/-! ## Runs -/

namespace Sys
variable {s s' : Sys K V}

theorem threads_of_invoke {t : ℕ} {call : Call K V} (hs : s.invoke t call = some s') {t' : ℕ}
    {th : Thread K V} (hth : s'.threads t' = some th) :
    (t' = t ∧ th = .start call) ∨ s.threads t' = some th := by
  obtain ⟨-, rfl⟩ := invoke_eq_some hs
  replace hth : Function.update s.threads t (some (Thread.start call)) t' = some th := hth
  by_cases ht : t' = t
  · rw [ht, Function.update_self] at hth
    exact Or.inl ⟨ht, (Option.some.inj hth).symm⟩
  · rw [Function.update_of_ne ht] at hth
    exact Or.inr hth

/-- All operations are regular. -/
def Regular (s : Sys K V) : Prop := ∀ ⦃t : ℕ⦄ ⦃th : Thread K V⦄, s.threads t = some th → th.Regular

/-- **All operations stay regular.** -/
theorem Regular.act [LinearOrder K] [Key K] [LawfulKey K] (h : s.Regular) (hinv : s.Inv)
    {a : Act K V} (ha : s.act a = some s') : s'.Regular := by
  intro t' th' h'
  cases a with
  | call t call =>
    rcases threads_of_invoke ha h' with ⟨-, rfl⟩ | hth
    · exact .start call
    · exact h hth
  | step t =>
    obtain ⟨th, m', next, hth, hstep, rfl⟩ := step_eq_some ha
    by_cases ht : t' = t
    · subst ht
      obtain rfl := proceed_threads_self h'
      have hgo := step_next hinv.headroom hinv.root (hinv.ok hth) (hinv.locks hth) hstep
      exact ((h hth).step (hinv.ok hth) (Goes.call hgo) hstep).1
    · exact h (by rwa [proceed_threads_of_ne ht] at h')

end Sys

end Scry.Index
