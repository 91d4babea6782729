/-
  Which ways to end leave a pointer frozen.

  An operation owns the pointer that it froze, so that the CAS which ends this part of it
  succeeds.  Only a panic of an operation on the root leaves the pointer tagged
  (`unfrozen_iff`).
-/
import Scry.Index.Unwind
import Scry.Index.Proof.Quiescent

namespace Scry.Index

variable {K V : Type} [LinearOrder K] [Key K] {m m' : Mem K V} {th : Thread K V} {l : Lock}

/-- A pointer that is frozen, not a slot that is claimed. -/
def Lock.IsPointer : Lock → Prop
  | .slot _ _ => False
  | .edge _ _ => True
  | .root => True

namespace Thread

omit [LinearOrder K] [Key K] in
/-- The guard of a subtree rebuild. -/
theorem dropFreezeGuard_eq {p c₀ c : NodeId} {i : ℕ} (hf : th.first = some (p, i, c₀))
    (hp : (m.cells p).children i = some ⟨c, true⟩) :
    th.dropFreezeGuard m c = m.modify p fun cell => cell.setChild i ⟨c, false⟩ := by
  simp only [dropFreezeGuard, hf, hp, if_true]

/-- A panic between freeze and swap of a subtree rebuild. -/
theorem dropFreezeGuard_effect {c : NodeId} (h : ∃ k, th.Rebuilds m k c)
    (hl : ∀ p i c₀, th.first = some (p, i, c₀) → (m.cells p).children i = some ⟨c, true⟩) :
    ∃ p i c₀, th.first = some (p, i, c₀) ∧
      th.dropFreezeGuard m c = m.modify p (fun cell => cell.setChild i ⟨c, false⟩) ∧
      Effect m { th with pc := .subSwap c [] } (th.dropFreezeGuard m c) := by
  obtain ⟨k, hb⟩ := h
  obtain ⟨⟨p, i, c₀⟩, hf⟩ := Option.isSome_iff_exists.1 hb.2.1
  have hp := hl p i c₀ hf
  refine ⟨p, i, c₀, hf, dropFreezeGuard_eq hf hp, ?_⟩
  rw [dropFreezeGuard_eq hf hp]
  exact .unfreeze rfl hf hp

/-- What a panic leaves behind: the root as it is, or an unfrozen child pointer. -/
theorem unwind_cases (hok : th.Ok m) (hl : th.Locks m) (h : th.unwind m = some m') :
    (th.lock = some .root ∧ m.root.frozen = true ∧ m' = m) ∨
      ∃ p i c, th.lock = some (.edge p i) ∧
        m' = m.modify p (fun cell => cell.setChild i ⟨c, false⟩) ∧
        ∃ th₁ : Thread K V, th₁.lock = th.lock ∧ th₁.pc ≠ .claim ∧ th₁.Ok m ∧ th₁.Locks m ∧
          Effect m th₁ m' := by
  unfold unwind at h
  split_ifs at h with hp
  have hsub : ∀ {c : NodeId}, (∃ k, th.Rebuilds m k c) →
      (∀ p i c₀, th.first = some (p, i, c₀) → (m.cells p).children i = some ⟨c, true⟩) →
      th.lock = th.first.map (fun f => .edge f.1 f.2.1) → m' = th.dropFreezeGuard m c →
      ∃ p i c, th.lock = some (.edge p i) ∧
        m' = m.modify p (fun cell => cell.setChild i ⟨c, false⟩) ∧
        ∃ th₁ : Thread K V, th₁.lock = th.lock ∧ th₁.pc ≠ .claim ∧ th₁.Ok m ∧ th₁.Locks m ∧
          Effect m th₁ m' := by
    rintro c hb hc hlock rfl
    obtain ⟨p, i, c₀, hf, he, heff⟩ := dropFreezeGuard_effect hb hc
    refine ⟨p, i, c, by rw [hlock, hf]; rfl, he, { th with pc := .subSwap c [] }, ?_, ?_, ?_, hc,
      heff⟩
    · rw [hlock]
      rfl
    · show Pc.subSwap c [] ≠ .claim
      nofun
    · obtain ⟨k, hb⟩ := hb
      exact ⟨k, hb, ascending_nil, nofun⟩
  cases hpc : th.pc <;> simp only [mayPanic, hpc, Bool.false_eq_true] at hp <;>
    simp only [Thread.Ok, hpc] at hok <;> simp only [Thread.Locks, hpc] at hl <;>
    simp only [hpc, Option.some.injEq] at h
  case pos.subWalk c w =>
    exact Or.inr (hsub (hok.imp fun _ h => h.1) hl (by rw [lock, hpc]) h.symm)
  case pos.subSwap c pairs =>
    exact Or.inr (hsub (hok.imp fun _ h => h.1) hl (by rw [lock, hpc]) h.symm)
  case pos.rootWalk r w => exact Or.inl ⟨by rw [lock, hpc], by rw [hl], h.symm⟩
  case pos.rootSwap r pairs => exact Or.inl ⟨by rw [lock, hpc], by rw [hl], h.symm⟩

end Thread

omit [LinearOrder K] [Key K] in
theorem modify_setChild_free (p c : NodeId) (i : ℕ) :
    (Lock.edge p i).Free (m.modify p fun cell => cell.setChild i ⟨c, false⟩) := by
  intro c' hc'
  rw [Mem.modify_cells_self] at hc'
  cases (Function.update_self i _ _).symm.trans hc'

omit [LinearOrder K] [Key K] in
theorem placeChild_setChild_free {p : NodeId} (i : ℕ) (tree : Node K V) (hp : p.alloc < m.next) :
    (Lock.edge p i).Free (m.placeChild p i tree fun cell n => cell.setChild i ⟨n, false⟩) := by
  intro c' hc'
  rw [Mem.placeChild_cells_self hp] at hc'
  cases (Function.update_self i _ _).symm.trans hc'

/-! ## Normal ends -/

/-- **A step that ends the part of an operation in which a pointer is frozen unfreezes it.** -/
theorem step_unfreezes {config : Config} {next : Next K V} (hok : th.Ok m) (hl : th.Locks m)
    (hlock : th.lock = some l) (hptr : l.IsPointer) (h : th.step config m = some (m', next))
    (hend : ∀ th', next = .goto th' → th'.lock ≠ some l) : l.Free m' := by
  cases hpc : th.pc <;> simp only [Thread.lock, hpc] at hlock <;> try cases hlock
  case publish => exact hptr.elim
  case subWalk c w =>
    -- the traversal keeps the pointer frozen
    simp only [Thread.step, hpc, Option.some.injEq] at h
    exfalso
    obtain ⟨-, rfl⟩ := Prod.mk.inj h
    unfold stepSubWalk at hend
    split at hend <;> exact hend _ rfl hlock
  case rootWalk r w =>
    simp only [Thread.step, hpc, Option.some.injEq] at h
    exfalso
    obtain ⟨-, rfl⟩ := Prod.mk.inj h
    unfold stepRootWalk at hend
    split at hend <;> exact hend _ rfl rfl
  case subSwap c pairs =>
    obtain ⟨⟨p, i, c₀⟩, hf, rfl⟩ := Option.map_eq_some_iff.1 hlock
    simp only [Thread.Ok, hpc] at hok
    simp only [Thread.Locks, hpc] at hl
    obtain ⟨k, hb, -⟩ := hok
    have hd := hb.1.1.1.2.2.descent p i c₀ hf
    have hpa : p.alloc < m.next := hd.parent ▸ hb.1.1.1.2.2.rootWF.alloc
    simp only [Thread.step, hpc, stepSubSwap, hf, hl p i c₀ hf, if_true] at h
    split_ifs at h with hlen
    · cases h
      exact modify_setChild_free p c i
    · obtain ⟨tree, -, h⟩ := Option.bind_eq_some_iff.1 h
      cases h
      exact placeChild_setChild_free i tree hpa
  case rootSwap r pairs =>
    simp only [Thread.Locks, hpc] at hl
    simp only [Thread.step, hpc, stepRootSwap] at h
    split at h
    · simp only [swapEmpty, hl, if_true, Option.some.injEq] at h
      obtain ⟨rfl, -⟩ := Prod.mk.inj h
      rfl
    · simp only [swapEmpty, hl, if_true, Option.some.injEq] at h
      obtain ⟨rfl, -⟩ := Prod.mk.inj h
      rfl
    · simp only [swapRebuilt, unfreezeRoot, hl, if_true] at h
      split_ifs at h
      · cases h; rfl
      · obtain ⟨built, -, h⟩ := Option.bind_eq_some_iff.1 h
        cases built <;> cases h <;> rfl

/-! ## Runs -/

namespace Sys
variable {s s' : Sys K V} {t : ℕ}

omit [LinearOrder K] [Key K] in
theorem unwind_eq_some (h : s.unwind t = some s') : ∃ th m', s.threads t = some th ∧
    th.unwind s.mem = some m' ∧
    s' = { s with mem := m', threads := Function.update s.threads t none } := by
  unfold unwind at h
  split at h
  · cases h
  · rename_i th hth
    obtain ⟨m', hm, rfl⟩ := Option.map_eq_some_iff.1 h
    exact ⟨th, m', hth, hm, rfl⟩

/-- **A panic keeps the invariant.** -/
theorem Inv.unwind (h : s.Inv) (hs : s.unwind t = some s') : s'.Inv := by
  obtain ⟨th, m', hth, hm, rfl⟩ := unwind_eq_some hs
  have hother : ∀ {t' : ℕ} {th' : Thread K V},
      Function.update s.threads t none t' = some th' → t' ≠ t ∧ s.threads t' = some th' := by
    intro t' th' h'
    have ht : t' ≠ t := by
      rintro rfl
      cases (Function.update_self _ _ _).symm.trans h'
    exact ⟨ht, (Function.update_of_ne ht _ _).symm.trans h'⟩
  have hkeep : ∀ {n : NodeId} {i : ℕ} {t' : ℕ} {th' : Thread K V},
      th.lock ≠ some (.slot n i) → s.threads t' = some th' → th'.lock = some (.slot n i) →
      Function.update s.threads t none t' = some th' := by
    intro n i t' th' hne hth' hl'
    refine (Function.update_of_ne ?_ _ _).trans hth'
    rintro rfl
    cases hth.symm.trans hth'
    exact hne hl'
  rcases Thread.unwind_cases (h.ok hth) (h.locks hth) hm with
    ⟨hl, -, rfl⟩ | ⟨p, i, c, hl, he, th₁, hl₁, hpc₁, hok₁, hlk₁, heff⟩
  · refine ⟨h.headroom, h.root, fun h' => h.ok (hother h').2, fun h' => h.locks (hother h').2,
      fun h₁ h₂ => h.excl (hother h₁).2 (hother h₂).2, fun {n i} hn hcl => ?_⟩
    obtain ⟨t', th', hth', hl'⟩ := h.owned hn hcl
    exact ⟨t', th', hkeep (by rw [hl]; nofun) hth' hl', hl'⟩
  · have hev := (heff.content hok₁ hlk₁).evolves
    refine ⟨h.headroom, heff.rootOk hok₁ hlk₁ h.root, fun h' => (h.ok (hother h').2).evolve hev,
      fun {t' th'} h' => ?_, fun h₁ h₂ => h.excl (hother h₁).2 (hother h₂).2,
      fun {n j} hn hcl => ?_⟩
    · obtain ⟨ht, h'⟩ := hother h'
      refine (h.locks h').of_same fun l hl' => ?_
      rcases heff.same hok₁ hlk₁ ((h.ok h').placed hl') with h₁ | h₁ | h₁
      · exact absurd (h.excl h' hth hl' (hl₁ ▸ h₁)) ht
      · exact absurd h₁ ((h.locks h').not_free hl')
      · exact h₁
    · rcases heff.claimed hok₁ hn hcl with ⟨hn', hcl', hne⟩ | ⟨-, -, hpc, -⟩
      · obtain ⟨t', th', hth', hl'⟩ := h.owned hn' hcl'
        exact ⟨t', th', hkeep (hl₁ ▸ hne) hth' hl', hl'⟩
      · exact absurd hpc hpc₁

/-- **The invariant holds throughout a run with panics.** -/
theorem Inv.runPanics [LawfulKey K] (h : s.Inv) {sched : List (PanicAct K V)}
    (hs : s.runPanics sched = some s') : s'.Inv := by
  refine Run.run_induct (C := fun _ _ => True) (fun {s a s'} h _ ha => ?_) h
    (.of_forall fun _ _ => trivial) hs
  cases a with
  | act a => exact h.act ha
  | panic t => exact h.unwind ha

/-- The ways to end the part of an operation of thread `t` in which it has the pointer `l`
    frozen: a step after which it owns the pointer no more, or a panic. -/
inductive Exits (s : Sys K V) (t : ℕ) (l : Lock) : Bool → Sys K V → Prop
  | returns {s' : Sys K V} (h : s.step t = some s')
      (hl : ∀ th', s'.threads t = some th' → th'.lock ≠ some l) : Exits s t l false s'
  | panics {s' : Sys K V} (h : s.unwind t = some s') : Exits s t l true s'

/-- **Only a panic of an operation on the root leaves the pointer frozen.** -/
theorem unfrozen_iff [LawfulKey K] {config : Config} (hc : 0 ≤ config.rangeHeadroom)
    {map : LearnedMap K V} {pairs : List (K × V)} (hs : Starts config map pairs)
    {sched : List (PanicAct K V)} (hrun : (Sys.init map).runPanics sched = some s)
    {th : Thread K V} {l : Lock} (hth : s.threads t = some th) (hl : th.lock = some l)
    (hptr : l.IsPointer) {panicked : Bool} (he : Exits s t l panicked s') :
    l.Free s'.mem ↔ ¬ (l = .root ∧ panicked = true) := by
  have hinv := (Inv.ofStarts hc hs).runPanics hrun
  cases he with
  | returns h hend =>
    obtain ⟨th', m', next, hth', hstep, rfl⟩ := step_eq_some h
    cases hth.symm.trans hth'
    refine iff_of_true ?_ (by simp)
    rw [proceed_mem]
    refine step_unfreezes (hinv.ok hth) (hinv.locks hth) hl hptr hstep fun th₁ hn => ?_
    subst hn
    exact hend th₁ (Function.update_self _ _ _)
  | panics h =>
    obtain ⟨th', m', hth', hm, rfl⟩ := unwind_eq_some h
    cases hth.symm.trans hth'
    rcases Thread.unwind_cases (hinv.ok hth) (hinv.locks hth) hm with
      ⟨hr, hf, rfl⟩ | ⟨p, i, c, hedge, rfl, -⟩
    · cases hl.symm.trans hr
      refine iff_of_false (fun hfree => ?_) (by simp)
      cases hf.symm.trans hfree
    · cases hl.symm.trans hedge
      exact iff_of_true (modify_setChild_free p c i) (by simp)

/-- An update of a map whose root stays frozen spins. -/
theorem run_spins {th : Thread K V} (hf : s.mem.root.frozen = true) (hth : s.threads t = some th)
    (hpc : th.pc = .loadRoot) (hg : ∀ k, th.call ≠ .get k) (n : ℕ) :
    s.run (List.replicate n (.step t)) = some s := by
  have hgo : stepLoadRoot s.mem th = .goto th := by
    have : th.goto .loadRoot = .goto th := by rw [Thread.goto, ← hpc]
    unfold stepLoadRoot
    split
    · rename_i k hk
      exact absurd hk (hg k)
    · rw [if_pos hf, this]
  have hstep : s.step t = some s := by
    rw [step_of hth (by simp only [Thread.step, hpc]; rfl), hgo]
    show some { s with threads := Function.update s.threads t (some th) } = some s
    rw [← hth, Function.update_eq_self]
  induction n with
  | zero => rfl
  | succ n ih => rw [List.replicate_succ, run_cons, act, hstep]; exact ih

/-- An insert, and a rebuild up to its swap. -/
def untilSwap : List (PanicAct (Fin (2 ^ 8)) ℕ) :=
  (.call 0 (.insert ⟨6, by decide⟩ 1) :: (List.replicate 8 (.step 0) ++
    .call 0 .rebuild :: List.replicate 68 (.step 0))).map .act

/-- Thread 0 owns the root. -/
def ownsRoot (s : Sys (Fin (2 ^ 8)) ℕ) : Bool :=
  match (s.threads 0).bind Thread.lock with
  | some .root => true
  | _ => false

theorem ownsRoot_spec {s : Sys (Fin (2 ^ 8)) ℕ} (h : ownsRoot s = true) :
    ∃ th, s.threads 0 = some th ∧ th.lock = some .root := by
  unfold ownsRoot at h
  split at h
  · rename_i hl
    exact Option.bind_eq_some_iff.1 hl
  · cases h

/-- A rebuild of a map with one byte unfreezes the root when it swaps in the new one. -/
theorem unfrozen_iff_rebuild : ∃ s s' : Sys (Fin (2 ^ 8)) ℕ,
    (Sys.init (.withConfig {})).runPanics untilSwap = some s ∧ s.step 0 = some s' ∧
      Lock.root.Free s'.mem := by
  have := lawfulKey_unsigned (show 8 ≤ 64 by decide)
  have he : ((Sys.init (.withConfig {} : LearnedMap (Fin (2 ^ 8)) ℕ)).runPanics untilSwap).bind
      (fun s => (s.step 0).map fun s' => (ownsRoot s, ownsRoot s')) = some (true, false) := by
    decide +kernel
  obtain ⟨s, hs, he⟩ := Option.bind_eq_some_iff.1 he
  obtain ⟨s', hs', he⟩ := Option.map_eq_some_iff.1 he
  obtain ⟨h₁, h₂⟩ := Prod.mk.inj he
  obtain ⟨th, hth, hl⟩ := ownsRoot_spec h₁
  have hexit : Exits s 0 .root false s' := .returns hs' fun th' hth' hl' => by
    have : ownsRoot s' = true := by rw [ownsRoot, hth', Option.bind_some, hl']
    rw [h₂] at this
    cases this
  exact ⟨s, s', hs, hs', (unfrozen_iff (show 0 ≤ ({} : Config).rangeHeadroom from le_rfl)
    .withConfig hs hth hl trivial hexit).2 (by simp)⟩

/-- **A rebuild that panics leaves the root frozen**: with an expansion factor of one half
    the model cannot be fitted, and from then on every insert spins. -/
theorem rebuild_panics : ∃ s s' : Sys (Fin (2 ^ 8)) ℕ,
    (Sys.init (.withConfig { expansionFactor := 1 / 2 })).runPanics untilSwap = some s ∧
      s.step 0 = none ∧ Exits s 0 .root true s' ∧ ¬ Lock.root.Free s'.mem ∧
      ∀ n, ∃ s'', s'.run (.call 1 (.insert ⟨7, by decide⟩ 2) :: List.replicate n (.step 1)) =
          some s'' ∧ (s''.threads 1).isSome := by
  have he : ((Sys.init (.withConfig { expansionFactor := 1 / 2 } :
      LearnedMap (Fin (2 ^ 8)) ℕ)).runPanics untilSwap).bind (fun s => (s.unwind 0).map fun s' =>
        ((s.step 0).isNone, s'.mem.root.frozen, (s'.threads 1).isNone)) =
      some (true, true, true) := by
    decide +kernel
  obtain ⟨s, hs, he⟩ := Option.bind_eq_some_iff.1 he
  obtain ⟨s', hs', he⟩ := Option.map_eq_some_iff.1 he
  obtain ⟨h₁, h₂⟩ := Prod.mk.inj he
  obtain ⟨hf, h₃⟩ := Prod.mk.inj h₂
  refine ⟨s, s', hs, Option.isNone_iff_eq_none.1 h₁, .panics hs', fun hfree => ?_, fun n => ?_⟩
  · cases hf.symm.trans hfree
  · obtain ⟨s₁, hs₁, hf₁, hth₁⟩ : ∃ s₁, s'.act (.call 1 (.insert ⟨7, by decide⟩ 2)) = some s₁ ∧
        s₁.mem.root.frozen = true ∧
        s₁.threads 1 = some (Thread.start (.insert ⟨7, by decide⟩ 2)) := by
      rw [act, Sys.invoke, Option.isNone_iff_eq_none.1 h₃]
      exact ⟨_, rfl, hf, rfl⟩
    refine ⟨s₁, ?_, by rw [hth₁]; rfl⟩
    rw [run_cons, hs₁]
    exact run_spins hf₁ hth₁ rfl (fun k hk => by cases hk) n

end Sys

end Scry.Index
