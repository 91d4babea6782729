/-
  The steps of an operation that runs alone (`Sys.Alone`).

  No other operation owns anything then, so that it finds no slot claimed and no pointer
  frozen but its own.  A traversal comes to its end (`WalkOk.ends`), and so does the
  bookkeeping of an update; what the update has found in place stays there.
-/
import Scry.Index.Proof.Tended

namespace Scry.Index

variable {K V : Type} [LinearOrder K] [Key K] {m m' : Mem K V} {th th' : Thread K V} {k : K}

/-! ## Traversals -/

/-- The steps of the traversal come to an end while the memory stays as it is. -/
inductive Walk.Ends (m : Mem K V) : Walk K V → Prop
  | done {w : Walk K V} (h : w.step m = none) : Walk.Ends m w
  | step {w w' : Walk K V} (h : w.step m = some w') (hr : Walk.Ends m w') : Walk.Ends m w

/-- No slot is `WRITING`. -/
def Mem.Idle (m : Mem K V) : Prop :=
  ∀ (n : NodeId) i, n.alloc < m.next → (m.cells n).claimed i = false

/-- A traversal leaves each node behind: the slots of a node are finitely many, and so are the
    nodes below. -/
theorem Mem.NodeWF.walk_ends (hidle : m.Idle) {n : NodeId} (hn : m.NodeWF n) :
    ∀ {rest : List (NodeId × ℕ)}, (∀ pairs, Walk.Ends m ⟨rest, false, pairs⟩) →
      ∀ i pairs, Walk.Ends m ⟨(n, i) :: rest, false, pairs⟩ := by
  induction hn with
  | @mk n alloc cell below ih =>
    intro rest hrest i
    -- from the slot `i` on, by induction on the number of slots left
    generalize hd : (m.cells n).head.capacity - i = d
    induction d generalizing i with
    | zero =>
      intro pairs
      have hi : i ≥ (m.cells n).head.capacity := Nat.sub_eq_zero_iff_le.1 hd
      have hpop : Walk.step m ⟨(n, i) :: rest, false, pairs⟩ = some ⟨rest, false, pairs⟩ := by
        simp only [Walk.step, if_pos hi]
      exact .step hpop (hrest pairs)
    | succ d ihd =>
      intro pairs
      have hi : ¬ i ≥ (m.cells n).head.capacity := by omega
      have hnext : ∀ pairs, Walk.Ends m ⟨(n, i + 1) :: rest, false, pairs⟩ :=
        ihd (i + 1) (by omega)
      have hst : (m.cells n).state i = (m.cells n).slots i := by
        rw [Cell.state, hidle n i alloc]
        rfl
      have hchild : ((m.cells n).slots i).isChild →
          Walk.Ends m ⟨(n, i) :: rest, true, pairs⟩ := by
        intro hc
        obtain ⟨p, hp, -⟩ := cell.child i hc
        have hdescend : Walk.step m ⟨(n, i) :: rest, true, pairs⟩ =
            some ⟨(p.node, 0) :: (n, i + 1) :: rest, false, pairs⟩ := by
          simp only [Walk.step, if_neg hi, hp, if_true]
        exact .step hdescend (ih i p hc hp hnext 0 pairs)
      cases hs : (m.cells n).slots i with
      | empty | tombstone =>
        have hskip : Walk.step m ⟨(n, i) :: rest, false, pairs⟩ =
            some ⟨(n, i + 1) :: rest, false, pairs⟩ := by
          simp [Walk.step, hi, hst, hs]
        exact .step hskip (hnext pairs)
      | writing => exact absurd hs (cell.idle i)
      | data =>
        obtain ⟨k, v, hkv, -⟩ := cell.data i hs
        have hitem : Walk.step m ⟨(n, i) :: rest, false, pairs⟩ =
            some ⟨(n, i + 1) :: rest, false, pairs ++ [(k, v)]⟩ := by
          simp [Walk.step, hi, hst, hs, hkv]
        exact .step hitem (hnext _)
      | child | childStale =>
        have hsee : Walk.step m ⟨(n, i) :: rest, false, pairs⟩ =
            some ⟨(n, i) :: rest, true, pairs⟩ := by
          simp [Walk.step, hi, hst, hs]
        exact .step hsee (hchild (by rw [hs]; rfl))

/-- **A traversal ends** unless it waits for a slot. -/
theorem WalkOk.ends (hidle : m.Idle) {c : NodeId} {w : Walk K V} (h : WalkOk m c w) : w.Ends m := by
  have hstack : ∀ stack : List (NodeId × ℕ), (∀ f ∈ stack, m.NodeWF f.1) →
      ∀ pairs, Walk.Ends m ⟨stack, false, pairs⟩ := by
    intro stack
    induction stack with
    | nil => exact fun _ pairs => .done rfl
    | cons f rest ih =>
      intro hwf pairs
      exact (hwf f List.mem_cons_self).walk_ends hidle
        (ih fun g hg => hwf g (List.mem_cons_of_mem _ hg)) f.2 pairs
  obtain ⟨stack, loading, pairs⟩ := w
  cases loading with
  | false => exact hstack stack h.wf pairs
  | true =>
    obtain ⟨n, i, rest, hs, hi, hc⟩ := h.loading rfl
    obtain rfl : stack = (n, i) :: rest := hs
    obtain ⟨p, hp, -⟩ := (h.wf (n, i) List.mem_cons_self).cell.child i hc
    have hstep : Walk.step m ⟨(n, i) :: rest, true, pairs⟩ =
        some ⟨(p.node, 0) :: (n, i + 1) :: rest, false, pairs⟩ := by
      simp only [Walk.step, if_neg (Nat.not_le.2 hi), hp, if_true]
    refine .step hstep (hstack _ (fun f hf => ?_) pairs)
    rcases List.mem_cons.1 hf with rfl | hf
    · exact (h.wf (n, i) List.mem_cons_self).ofChild hc hp
    · rcases List.mem_cons.1 hf with rfl | hf
      · exact h.wf (n, i) List.mem_cons_self
      · exact h.wf f (List.mem_cons_of_mem _ hf)

namespace Sys
variable {s s' : Sys K V} {t : ℕ}

/-! ## Steps of one operation -/

/-- The steps of thread `t`, one after another, lead to the reply of its operation. -/
inductive Completes (t : ℕ) : Sys K V → Prop
  | done {s : Sys K V} (h : s.threads t = none) : Completes t s
  | step {s s' : Sys K V} (h : s.step t = some s') (hr : Completes t s') : Completes t s

theorem Completes.run (h : s.Completes t) : ∃ n s', s.run (List.replicate n (.step t)) = some s' ∧
    s'.threads t = none := by
  induction h with
  | done h => exact ⟨0, _, rfl, h⟩
  | step h _ ih =>
    obtain ⟨n, s', hrun, hs'⟩ := ih
    refine ⟨n + 1, s', ?_, hs'⟩
    rw [List.replicate_succ, run_cons, act, h]
    exact hrun

/-- No other operation owns anything. -/
structure Alone (t : ℕ) (s : Sys K V) (th : Thread K V) : Prop where
  sound : s.Sound
  thread : s.threads t = some th
  others (t' : ℕ) (th' : Thread K V) : t' ≠ t → s.threads t' = some th' → th'.lock = none

namespace Alone

/-- What is not free belongs to the operation itself. -/
theorem owns (h : s.Alone t th) {l : Lock} (ha : l.Allocated s.mem) (hf : ¬ l.Free s.mem) :
    th.lock = some l := by
  obtain ⟨t', th', hth', hl⟩ := h.sound.owner ha hf
  by_cases ht : t' = t
  · subst ht
    obtain rfl := Option.some.inj (h.thread.symm.trans hth')
    exact hl
  · rw [h.others t' th' ht hth'] at hl
    cases hl

theorem free (h : s.Alone t th) {l : Lock} (ha : l.Allocated s.mem) (hl : th.lock ≠ some l) :
    l.Free s.mem := by
  by_contra hf
  exact hl (h.owns ha hf)

/-- An operation that owns no slot finds none claimed. -/
theorem idle (h : s.Alone t th) (hpc : th.pc ≠ .publish) : s.mem.Idle := fun _ _ hn =>
  h.free (l := .slot _ _) hn fun hl => hpc (Thread.lock_slot hl).1

/-- It goes on alone. -/
theorem proceed [LawfulKey K] (h : s.Alone t th)
    (hstep : th.step s.config s.mem = some (m', .goto th')) :
    (s.proceed t th.call m' (.goto th')).Alone t th' where
  sound := h.sound.act (a := .step t) (step_of h.thread hstep)
  thread := Function.update_self _ _ _
  others t' th₁ ht hth₁ := h.others t' th₁ ht (by rwa [proceed_threads_of_ne ht] at hth₁)

/-- **Step rule**: it is enough that the operation returns from wherever its next step leads. -/
theorem goes [LawfulKey K] (h : s.Alone t th)
    (hr : ∀ {s' : Sys K V} {m' : Mem K V} {th' : Thread K V},
      th.step s.config s.mem = some (m', .goto th') → s'.mem = m' → s'.Alone t th' →
        s'.Completes t) : s.Completes t := by
  obtain ⟨s', hs'⟩ := Option.isSome_iff_exists.1 (h.sound.step_isSome h.thread)
  obtain ⟨th₁, m', next, hth, hstep, rfl⟩ := step_eq_some hs'
  obtain rfl := Option.some.inj (h.thread.symm.trans hth)
  cases next with
  | ret reply => exact .step hs' (.done (Function.update_self _ _ _))
  | goto th' => exact .step hs' (hr hstep rfl (h.proceed hstep))

/-! ## The bookkeeping at the end -/

section
variable [LawfulKey K]

theorem completes_storeThreshold (h : s.Alone t th) {n : ℕ} (hpc : th.pc = .storeThreshold n) :
    s.Completes t :=
  h.goes fun hstep _ _ => by
    simp only [Thread.step, hpc] at hstep
    cases hstep

theorem completes_subtract (h : s.Alone t th) {n : ℕ} (hpc : th.pc = .subtract n) : s.Completes t :=
  h.goes fun hstep _ h' => by
    simp only [Thread.step, hpc] at hstep
    cases hstep
    exact h'.completes_storeThreshold rfl

theorem completes_rootSwap (h : s.Alone t th) {r : NodeId} {pairs : List (K × V)}
    (hpc : th.pc = .rootSwap r pairs) : s.Completes t :=
  h.goes fun hstep _ h' => by
    simp only [Thread.step, hpc] at hstep
    obtain ⟨n, hn | hn⟩ := stepRootSwap_pc hstep
    · exact h'.completes_subtract hn
    · exact h'.completes_storeThreshold hn

theorem completes_rootWalk (h : s.Alone t th) {r : NodeId} {w : Walk K V}
    (hpc : th.pc = .rootWalk r w) : s.Completes t := by
  have hok := h.sound.inv.ok h.thread
  simp only [Thread.Ok, hpc] at hok
  have hends := hok.2.ends (h.idle (by rw [hpc]; rintro ⟨⟩))
  generalize hm : s.mem = m at hends
  clear hok
  induction hends generalizing s th with
  | done hw =>
    refine h.goes fun hstep _ h' => ?_
    simp only [Thread.step, hpc, stepRootWalk, hm, hw] at hstep
    cases hstep
    exact h'.completes_rootSwap rfl
  | step hw _ ih =>
    refine h.goes fun hstep hm' h' => ?_
    simp only [Thread.step, hpc, stepRootWalk, hm, hw] at hstep
    cases hstep
    exact ih h' rfl hm'

theorem completes_rootFreeze (h : s.Alone t th) {r : NodeId} (hpc : th.pc = .rootFreeze r) :
    s.Completes t :=
  h.goes fun hstep _ h' => by
    simp only [Thread.step, hpc, stepRootFreeze] at hstep
    split_ifs at hstep
    · cases hstep
      exact h'.completes_rootWalk rfl
    · cases hstep

theorem completes_rootLoad (h : s.Alone t th) (hpc : th.pc = .rootLoad) : s.Completes t :=
  h.goes fun hstep _ h' => by
    simp only [Thread.step, hpc, stepRootLoad] at hstep
    split_ifs at hstep
    · cases hstep
    · cases hstep
      exact h'.completes_rootFreeze rfl

theorem completes_casThreshold (h : s.Alone t th) {n : ℕ} (hpc : th.pc = .casThreshold n) :
    s.Completes t :=
  h.goes fun hstep _ h' => by
    simp only [Thread.step, hpc, stepCasThreshold] at hstep
    split_ifs at hstep
    · cases hstep
      exact h'.completes_rootLoad rfl
    · cases hstep

theorem completes_loadThreshold (h : s.Alone t th) {n : ℕ} (hpc : th.pc = .loadThreshold n) :
    s.Completes t :=
  h.goes fun hstep _ h' => by
    simp only [Thread.step, hpc, stepLoadThreshold] at hstep
    split_ifs at hstep
    · cases hstep
    · cases hstep
      exact h'.completes_casThreshold rfl

theorem completes_count (h : s.Alone t th) (hpc : th.pc = .count) : s.Completes t :=
  h.goes fun hstep _ h' => by
    simp only [Thread.step, hpc, stepCount] at hstep
    split at hstep
    · cases hstep
    · split_ifs at hstep
      · cases hstep
        exact h'.completes_loadThreshold rfl
      · cases hstep

end

end Alone

end Sys

/-! ## What the steps of an update leave in place -/

/-- **The slot of an update**, read while no other operation changes it. -/
theorem stepReadSlot_fresh (h : stepReadSlot m th = some (.goto th')) :
    th'.cur = th.cur ∧ th'.first = th.first ∧
      ((th'.pc = .readSlot ∧ ∃ i, (m.cells th.cur).state i = .writing) ∨ th'.pc = .loadChild ∨
        (∃ isNew val, th'.pc = .validateRoot isNew val) ∨
        (th'.pc = .claim ∧ (m.cells th'.cur).state th'.idx = th'.write.prev)) := by
  unfold stepReadSlot at h
  split at h
  · unfold readInsert at h
    dsimp only at h
    split at h
    · cases h; exact ⟨rfl, rfl, Or.inl ⟨rfl, _, ‹_›⟩⟩
    · cases h; exact ⟨rfl, rfl, Or.inr (Or.inr (Or.inr ⟨rfl, ‹_›⟩))⟩
    · cases h; exact ⟨rfl, rfl, Or.inr (Or.inr (Or.inr ⟨rfl, ‹_›⟩))⟩
    · rename_i hs
      split at h
      · cases h
      · split_ifs at h
        · cases h; exact ⟨rfl, rfl, Or.inr (Or.inr (Or.inr ⟨rfl, hs⟩))⟩
        · obtain ⟨c, -, h⟩ := Option.bind_eq_some_iff.1 h
          cases h
          exact ⟨rfl, rfl, Or.inr (Or.inr (Or.inr ⟨rfl, hs⟩))⟩
    · cases h; exact ⟨rfl, rfl, Or.inr (Or.inl rfl)⟩
    · cases h; exact ⟨rfl, rfl, Or.inr (Or.inl rfl)⟩
  · unfold readGetOrInsert at h
    dsimp only at h
    split at h
    · cases h; exact ⟨rfl, rfl, Or.inl ⟨rfl, _, ‹_›⟩⟩
    · cases h; exact ⟨rfl, rfl, Or.inr (Or.inr (Or.inr ⟨rfl, ‹_›⟩))⟩
    · cases h; exact ⟨rfl, rfl, Or.inr (Or.inr (Or.inr ⟨rfl, ‹_›⟩))⟩
    · rename_i hs
      split at h
      · cases h
      · split_ifs at h
        · cases h; exact ⟨rfl, rfl, Or.inr (Or.inr (Or.inl ⟨_, _, rfl⟩))⟩
        · obtain ⟨c, -, h⟩ := Option.bind_eq_some_iff.1 h
          cases h
          exact ⟨rfl, rfl, Or.inr (Or.inr (Or.inr ⟨rfl, hs⟩))⟩
    · cases h; exact ⟨rfl, rfl, Or.inr (Or.inl rfl)⟩
    · cases h; exact ⟨rfl, rfl, Or.inr (Or.inl rfl)⟩
  · unfold readRemove at h
    dsimp only at h
    split at h
    · cases h; exact ⟨rfl, rfl, Or.inl ⟨rfl, _, ‹_›⟩⟩
    · cases h; exact ⟨rfl, rfl, Or.inr (Or.inr (Or.inl ⟨_, _, rfl⟩))⟩
    · cases h; exact ⟨rfl, rfl, Or.inr (Or.inr (Or.inl ⟨_, _, rfl⟩))⟩
    · rename_i hs
      split at h
      · cases h
      · split_ifs at h
        · cases h; exact ⟨rfl, rfl, Or.inr (Or.inr (Or.inr ⟨rfl, hs⟩))⟩
        · cases h; exact ⟨rfl, rfl, Or.inr (Or.inr (Or.inl ⟨_, _, rfl⟩))⟩
    · cases h; exact ⟨rfl, rfl, Or.inr (Or.inl rfl)⟩
    · cases h; exact ⟨rfl, rfl, Or.inr (Or.inl rfl)⟩
  · cases h

omit [LinearOrder K] [Key K] in
/-- A first descent that is in place is found in place. -/
theorem stepValidateChild_firm {config : Config} (hf : ∀ p i c, th.first = some (p, i, c) →
    (m.cells p).children i = some ⟨c, false⟩) :
    stepValidateChild config m th = th.goto .checkRatio ∨
      stepValidateChild config m th = th.afterInsert config ∨
      stepValidateChild config m th = th.goto (.validateRoot th.again none) := by
  unfold stepValidateChild
  extract_lets done
  have hdone : done = th.goto .checkRatio ∨ done = th.afterInsert config ∨
      done = th.goto (.validateRoot th.again none) := by
    simp only [done]
    split
    · exact Or.inl rfl
    · split_ifs
      · exact Or.inr (Or.inl rfl)
      · exact Or.inr (Or.inr rfl)
  split
  · exact hdone
  · rw [if_pos (hf _ _ _ ‹_›)]
    exact hdone

theorem stepSubSwap_finish {config : Config} {c : NodeId} {pairs : List (K × V)} {next : Next K V}
    (h : stepSubSwap config m th c pairs = some (m', next)) : next = th.finish := by
  unfold stepSubSwap at h
  split at h
  · cases h; rfl
  · dsimp only at h
    split_ifs at h
    · cases h; rfl
    · cases h; rfl
    all_goals
      obtain ⟨tree, -, ht⟩ := Option.bind_eq_some_iff.1 h
      cases ht
      rfl

omit [LinearOrder K] [Key K] in
theorem Thread.finish_cur (h : th.finish = .goto th') : th'.cur = th.cur := by
  unfold Thread.finish at h
  split at h <;> cases h <;> rfl

/-- Only a subtree rebuild changes the pointer of the first descent. -/
theorem Effect.first_kept (he : Effect m th m') (hsub : th.pc.isSub = false)
    (hat : th.At m k) {p c : NodeId} {i : ℕ} (hf : th.first = some (p, i, c)) :
    (m'.cells p).children i = (m.cells p).children i := by
  have hd := hat.2.2.descent p i c hf
  have hpa : p.alloc < m.next := hd.parent ▸ hat.2.2.rootWF.alloc
  -- the descent led below the root
  have hne : p ≠ th.cur := by
    rintro rfl
    have := hd.below
    rw [hd.parent, hat.2.2.isRoot] at this
    cases this
  have hmod : ∀ {f : Cell K V → Cell K V},
      ((m.modify th.cur f).cells p).children i = (m.cells p).children i := fun {f} => by
    rw [show (m.modify th.cur f).cells p = m.cells p from Function.update_of_ne hne _ _]
  cases he with
  | quiet _ hc => rw [hc]
  | claim | bury | publishData | count => exact hmod
  | publishChild hpc =>
    exact congrFun (congrArg Cell.children ((Function.update_of_ne hne _ _).trans
      (Mem.place_cells hpa))) i
  | freeze hpc | unfreeze hpc | swapChild hpc => rw [hpc] at hsub; cases hsub
  | freezeRoot | unfreezeRoot => rfl
  | swapRoot | swapEmpty => rw [Mem.placeRoot_cells hpa]

/-- Only an operation on the root changes the root pointer. -/
theorem Effect.root_kept (he : Effect m th m') (hnd : th.pc.isDone = false) : m'.root = m.root := by
  cases he with
  | quiet _ _ _ hr => exact hr
  | freezeRoot hpc | unfreezeRoot hpc | swapRoot hpc | swapEmpty hpc =>
    rw [hpc] at hnd
    cases hnd
  | _ => rfl

/-- A step of an update keeps what its node holds, but for a write of its own. -/
theorem Effect.sat_own {P : Option V → Prop} (he : Effect m th m') (hok : th.Ok m)
    (hl : th.Locks m) {k' : K} (hat : th.At m k') (hr : Respects P m k th)
    (hs : m.Sat P k th.cur) : m'.Sat P k th.cur := by
  refine (he.content hok hl).sat hr (fun i c₀ c pairs _ hf _ => ?_) hat.2.2.curWF hs
  have hd := hat.2.2.descent _ _ _ hf
  have := hd.below
  rw [hd.parent, hat.2.2.isRoot] at this
  cases this

end Scry.Index
