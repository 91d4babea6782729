/-
  Clear and drain.

  A call that swaps in an empty root leaves none of the keys behind that were there when
  it began.  A call that is turned away, since the root is frozen or its CAS fails, does
  so only if another call has swapped in an empty root meanwhile (`run_cleared`): what
  turns it away may as well be a rebuild, which keeps everything.
-/
import Scry.Index.Proof.Quiescent

namespace Scry.Index

variable {K V : Type} [LinearOrder K] [Key K] {m m' : Mem K V} {th th' : Thread K V} {k : K}
  {next : Next K V}

namespace Thread

/-- The operation empties the map. -/
def empties (th : Thread K V) : Bool :=
  match th.call with
  | .drain => true
  | .clear => true
  | _ => false

/-- Its next step finds the root frozen, or fails to freeze it. -/
def turnedAway (m : Mem K V) (th : Thread K V) : Bool :=
  match th.pc with
  | .rootLoad => m.root.frozen
  | .rootFreeze r => m.root ≠ ⟨r, false⟩
  | _ => false

/-- Its next step swaps in an empty root. -/
def swapsEmpty (m : Mem K V) (th : Thread K V) : Bool :=
  match th.pc with
  | .rootSwap r _ => th.empties && m.root = ⟨r, true⟩
  | _ => false

/-- It has not swapped in an empty root yet. -/
def isEmptying (th : Thread K V) : Bool :=
  th.empties &&
    match th.pc with
    | .rootLoad => true
    | .rootFreeze _ => true
    | .rootWalk _ _ => true
    | .rootSwap _ _ => true
    | _ => false

omit [LinearOrder K] [Key K] in
theorem empties_iff : th.empties = true ↔ th.call = .drain ∨ th.call = .clear := by
  unfold empties
  cases th.call <;> simp

end Thread

namespace Sys
variable {s s' : Sys K V} {t t' : ℕ} {older : List (Event K V)}

/-- The record of a run: whether an empty root was swapped in. -/
def noteEmptied (s : Sys K V) (emptied : Bool) : Act K V → Bool
  | .call _ _ => emptied
  | .step t =>
    match s.threads t with
    | none => emptied
    | some th => emptied || th.swapsEmpty s.mem

/-- The clear or drain of thread `t` is turned away only if an empty root was swapped in
    since. -/
def TurnedAwayEmptied (t : ℕ) (p : Sys K V × Bool) (a : Act K V) : Prop :=
  match a with
  | .call _ _ => True
  | .step t' =>
    match p.1.threads t' with
    | none => True
    | some th => t' = t → th.empties = true → th.turnedAway p.1.mem = true → p.2 = true

instance (t : ℕ) (p : Sys K V × Bool) (a : Act K V) : Decidable (TurnedAwayEmptied t p a) := by
  unfold TurnedAwayEmptied
  cases a with
  | call => exact inferInstanceAs (Decidable True)
  | step t' =>
    dsimp only
    cases p.1.threads t' with
    | none => exact inferInstanceAs (Decidable True)
    | some th => exact inferInstanceAs (Decidable (_ → _ → _ → _))

/-- The calls of a run that does not insert the key. -/
def NoInsert (k : K) (c : Call K V) : Prop := c.key = some k → c.value = none

theorem NoInsert.respects (h : NoInsert k th.call) : Respects (· = none) m k th where
  publish v _ hkey hv := by
    rw [h hkey] at hv
    cases hv
  bury _ _ _ _ := rfl

/-- The step that swaps in an empty root. -/
theorem swapsEmpty_step {config : Config} (hs : th.swapsEmpty m = true)
    (hstep : th.step config m = some (m', next)) : ∃ r pairs reply, th.pc = .rootSwap r pairs ∧
      m' = m.placeRoot LearnedMap.emptyRoot ∧
      next = .goto { th with pc := .subtract pairs.length, reply := reply } := by
  unfold Thread.swapsEmpty at hs
  split at hs
  · rename_i r pairs hpc
    simp only [Bool.and_eq_true, Thread.empties_iff, decide_eq_true_eq] at hs
    simp only [Thread.step, hpc, stepRootSwap] at hstep
    rcases hs.1 with hc | hc <;> simp only [hc, swapEmpty, hs.2, if_true] at hstep <;>
      cases hstep <;> exact ⟨r, pairs, _, hpc, rfl, by rw [hc]⟩
  · cases hs

/-- **A swapped-in empty root holds nothing.** -/
theorem sureRoot_of_empty [LawfulKey K] (hinv : s.Inv) (hth : s.threads t = some th)
    (hs : th.swapsEmpty s.mem = true) (hstep : th.step s.config s.mem = some (m', next)) :
    SureRoot (· = none) (s.proceed t th.call m' next) k := by
  obtain ⟨r, pairs, reply, hpc, rfl, -⟩ := swapsEmpty_step hs hstep
  exact sureRoot_of_swap hinv hth hpc hstep emptyRoot_holds rfl

/-- The clear or drain of thread `t` is still at work, or the map is rid of the key. -/
structure Emptying (t : ℕ) (older : List (Event K V)) (k : K) (p : Sys K V × Bool) : Prop where
  emptied : p.2 = true → SureRoot (· = none) p.1 k
  works : SureRoot (· = none) p.1 k ∨ ∃ th newer, p.1.threads t = some th ∧ th.isEmptying = true ∧
    p.1.history = newer ++ older ∧ ∀ call reply, .ret t call reply ∉ newer

/-- **A call that empties the map goes on**, swaps in an empty root, or is turned away. -/
theorem isEmptying_step (hl : th.Locks m) {config : Config} (he : th.isEmptying = true)
    (hstep : th.step config m = some (m', next)) : th.turnedAway m = true ∨
      th.swapsEmpty m = true ∨ ∃ th', next = .goto th' ∧ th'.isEmptying = true := by
  unfold Thread.isEmptying at he
  rw [Bool.and_eq_true] at he
  obtain ⟨hemp, hpc⟩ := he
  split at hpc
  · -- `rootLoad`
    rename_i hp
    simp only [Thread.step, hp, Option.some.injEq] at hstep
    cases hstep
    by_cases hf : m.root.frozen = true
    · exact Or.inl (by rw [Thread.turnedAway, hp]; exact hf)
    · refine Or.inr (Or.inr ⟨_, if_neg hf, ?_⟩)
      rw [Thread.isEmptying, Bool.and_eq_true]
      exact ⟨hemp, rfl⟩
  · -- `rootFreeze`
    rename_i r hp
    simp only [Thread.step, hp, Option.some.injEq, stepRootFreeze] at hstep
    by_cases hr : m.root = ⟨r, false⟩
    · rw [if_pos hr] at hstep
      cases hstep
      refine Or.inr (Or.inr ⟨_, rfl, ?_⟩)
      rw [Thread.isEmptying, Bool.and_eq_true]
      exact ⟨hemp, rfl⟩
    · exact Or.inl (by simp only [Thread.turnedAway, hp, ne_eq, hr, not_false_eq_true, decide_true])
  · -- `rootWalk`
    rename_i r w hp
    simp only [Thread.step, hp, Option.some.injEq, stepRootWalk] at hstep
    refine Or.inr (Or.inr ?_)
    cases hw : w.step m with
    | none =>
      simp only [hw] at hstep
      cases hstep
      refine ⟨_, rfl, ?_⟩
      rw [Thread.isEmptying, Bool.and_eq_true]
      exact ⟨hemp, rfl⟩
    | some w' =>
      simp only [hw] at hstep
      cases hstep
      refine ⟨_, rfl, ?_⟩
      rw [Thread.isEmptying, Bool.and_eq_true]
      exact ⟨hemp, rfl⟩
  · -- `rootSwap`
    rename_i r pairs hp
    simp only [Thread.Locks, hp] at hl
    refine Or.inr (Or.inl ?_)
    simp only [Thread.swapsEmpty, hp, hemp, hl, decide_true, Bool.and_self]
  · cases hpc

/-- **An action keeps a call at work**, until the map is rid of the key. -/
theorem Emptying.act [LawfulKey K] {p p' : Sys K V × Bool} {a : Act K V} (hinv : p.1.Inv)
    (h : Emptying t older k p) (hno : ∀ t th, p.1.threads t = some th → NoInsert k th.call)
    (hc : TurnedAwayEmptied t p a) (ha : Run.recording act noteEmptied p a = some p') :
    Emptying t older k p' := by
  obtain ⟨hact, hnote⟩ := Run.recording_eq_some.1 ha
  cases a with
  | call t' c =>
    have hsure : SureRoot (· = none) p.1 k → SureRoot (· = none) p'.1 k := fun hs => hs.invoke hact
    refine ⟨fun he => hsure (h.emptied (by rw [hnote] at he; exact he)), ?_⟩
    rcases h.works with hs | ⟨th, newer, hth, he, hh, hnew⟩
    · exact Or.inl (hsure hs)
    obtain ⟨hnone, hp'⟩ := invoke_eq_some hact
    have ht : t ≠ t' := by
      rintro rfl
      cases hnone.symm.trans hth
    refine Or.inr ⟨th, .inv t' c :: newer, ?_, he, ?_, fun call reply hm => ?_⟩
    · rw [hp']
      exact (Function.update_of_ne ht _ _).trans hth
    · rw [hp', hh]
      rfl
    · rcases List.mem_cons.1 hm with hm | hm
      · cases hm
      · exact hnew call reply hm
  | step t' =>
    obtain ⟨th', m', next, hth', hstep, hp'⟩ := step_eq_some hact
    have hsure : SureRoot (· = none) p.1 k → SureRoot (· = none) p'.1 k := fun hs => by
      rw [hp']
      exact hs.step hinv hth' hstep (hno _ _ hth').respects fun _ _ _ _ => rfl
    have hswap : th'.swapsEmpty p.1.mem = true → SureRoot (· = none) p'.1 k := fun hs => by
      rw [hp']
      exact sureRoot_of_empty hinv hth' hs hstep
    refine ⟨fun he => ?_, ?_⟩
    · simp only [hnote, noteEmptied, hth', Bool.or_eq_true] at he
      exact he.elim (fun he => hsure (h.emptied he)) hswap
    rcases h.works with hs | ⟨th, newer, hth, he, hh, hnew⟩
    · exact Or.inl (hsure hs)
    by_cases ht : t = t'
    · subst ht
      obtain rfl := Option.some.inj (hth.symm.trans hth')
      rcases isEmptying_step (hinv.locks hth) he hstep with haway | hs | ⟨th₁, rfl, he₁⟩
      · have hemp : th.empties = true := by
          rw [Thread.isEmptying, Bool.and_eq_true] at he
          exact he.1
        simp only [TurnedAwayEmptied, hth] at hc
        exact Or.inl (hsure (h.emptied (hc trivial hemp haway)))
      · exact Or.inl (hswap hs)
      · refine Or.inr ⟨th₁, newer, ?_, he₁, ?_, hnew⟩
        · rw [hp']
          exact Function.update_self _ _ _
        · rw [hp']
          exact hh
    · have hth₁ : p'.1.threads t = some th := by
        rw [hp', proceed_threads_of_ne ht]
        exact hth
      cases next with
      | goto th₁ => exact Or.inr ⟨th, newer, hth₁, he, by rw [hp']; exact hh, hnew⟩
      | ret reply =>
        refine Or.inr ⟨th, .ret t' th'.call reply :: newer, hth₁, he, ?_, fun call reply hm => ?_⟩
        · rw [hp', List.cons_append, ← hh]
          rfl
        · rcases List.mem_cons.1 hm with hm | hm
          · cases hm
            exact ht rfl
          · exact hnew call reply hm

/-- **Clear and drain are effective**: what is not inserted again is gone when a call
    returns that is turned away only after an empty root was swapped in. -/
theorem run_cleared [LawfulKey K] {config : Config} (hc : config.Valid) {map : LearnedMap K V}
    {pairs : List (K × V)} (hs : Starts config map pairs) {sched₀ sched : List (Act K V)}
    {s₀ s₁ : Sys K V} (h₀ : (Sys.init map).run sched₀ = some s₀) {call : Call K V}
    (hcall : call = .drain ∨ call = .clear) (h₁ : s₀.invoke t call = some s₁)
    (hrun : s₁.run sched = some s)
    (hmeets : Run.Meets (Run.recording act noteEmptied) (TurnedAwayEmptied t) (s₁, false) sched)
    {newer : List (Event K V)} (hh : s.history = newer ++ s₁.history) {reply : Reply K V}
    (hret : .ret t call reply ∈ newer) (hno₀ : ∀ t th, s₀.threads t = some th → NoInsert k th.call)
    (hno : ∀ t c, .call t c ∈ sched → NoInsert k c) :
    s.mem.Holds k s.mem.root.node none ∧ s.Answers k none := by
  have hinv₀ := (Inv.init hc hs).run h₀
  have hcallNo : NoInsert k call := by
    rcases hcall with rfl | rfl <;> exact fun _ => rfl
  have hno₁ : ∀ t th, s₁.threads t = some th → NoInsert k th.call :=
    running_act (a := .call t call) hinv₀ hno₀ (fun _ _ he => by cases he; exact hcallNo) h₁
  have hstart : Emptying t s₁.history k (s₁, false) := by
    refine ⟨fun he => absurd he Bool.false_ne_true, Or.inr ⟨.start call, [], ?_, ?_, rfl,
      fun _ _ => List.not_mem_nil⟩⟩
    · obtain ⟨-, rfl⟩ := invoke_eq_some h₁
      exact Function.update_self _ _ _
    · rcases hcall with rfl | rfl <;> rfl
  obtain ⟨⟨s', emptied⟩, hrec, hs'⟩ := Option.map_eq_some_iff.1
    ((Run.recording_run act noteEmptied sched s₁ false).trans hrun)
  obtain rfl : s' = s := hs'
  have hend : s'.Inv ∧ (∀ t th, s'.threads t = some th → NoInsert k th.call) ∧
      Emptying t s₁.history k (s', emptied) := by
    refine Run.run_induct (I := fun p => p.1.Inv ∧
      (∀ t th, p.1.threads t = some th → NoInsert k th.call) ∧ Emptying t s₁.history k p)
      (fun {p a p'} h hm ha => ?_) ⟨hinv₀.invoke h₁, hno₁, hstart⟩
      (hmeets.and (Run.Meets.mem sched)) hrec
    obtain ⟨hinv, hrunning, hemp⟩ := h
    have hact := (Run.recording_eq_some.1 ha).1
    exact ⟨hinv.act hact, running_act hinv hrunning (fun t c he => hno t c (he ▸ hm.2)) hact,
      hemp.act hinv hrunning hm.1 ha⟩
  obtain ⟨hinv, -, hemp⟩ := hend
  have hsure : SureRoot (· = none) s' k := by
    rcases hemp.works with hsure | ⟨th, newer', -, -, hh', hnew⟩
    · exact hsure
    · obtain rfl := List.append_cancel_right (hh.symm.trans hh')
      exact absurd hret (hnew call reply)
  obtain ⟨o, ho, rfl⟩ := hsure.tree.sat
  exact ⟨ho, answers_of_unclaimed hinv (fun _ _ _ _ => rfl) ho⟩

/-- After its first step, a clear by thread 1 is overtaken by an insert of another key and a
    drain: it loses the CAS, but only after the drain has swapped in an empty root. -/
def overtakenClear : List (Act (Fin (2 ^ 8)) ℕ) :=
  .step 1 :: .call 2 (.insert ⟨7, by decide⟩ 2) :: List.replicate 4 (Act.step 2) ++
    Act.call 3 .drain :: List.replicate 71 (Act.step 3) ++ Act.step 1 :: List.replicate 10 (Act.step 2)

theorem run_cleared_overtaken : ∃ s : Sys (Fin (2 ^ 8)) ℕ,
    s.mem.Holds ⟨5, by decide⟩ s.mem.root.node none ∧ s.Answers ⟨5, by decide⟩ none := by
  have := lawfulKey_unsigned (show 8 ≤ 64 by decide)
  have he : ((Sys.init (.withConfig {} : LearnedMap (Fin (2 ^ 8)) ℕ)).outcome 1
      (.call 0 (.insert ⟨5, by decide⟩ 1) :: List.replicate 8 (.step 0))).isSome ∧
      ((Sys.init (.withConfig {} : LearnedMap (Fin (2 ^ 8)) ℕ)).run
        (.call 0 (.insert ⟨5, by decide⟩ 1) :: List.replicate 8 (.step 0))).bind (fun s₀ =>
          (s₀.invoke 1 .clear).bind fun s₁ => (s₁.run overtakenClear).map fun s => decide
            (Run.Meets (Run.recording act noteEmptied) (TurnedAwayEmptied 1) (s₁, false)
                overtakenClear ∧
              s.history = [.ret 2 (.insert ⟨7, by decide⟩ 2) (.bool true), .ret 1 .clear .unit,
                .ret 3 .drain (.pairs [(⟨5, by decide⟩, 1), (⟨7, by decide⟩, 2)]), .inv 3 .drain,
                .inv 2 (.insert ⟨7, by decide⟩ 2)] ++ s₁.history)) = some true := by
    decide +kernel
  obtain ⟨h, ho⟩ := Option.isSome_iff_exists.1 he.1
  obtain ⟨s₀, hs₀, hq, -⟩ := outcome_eq_some ho fun t c hm => by
    simp at hm
    omega
  obtain ⟨-, he⟩ := he
  rw [hs₀, Option.bind_some] at he
  obtain ⟨s₁, hs₁, he⟩ := Option.bind_eq_some_iff.1 he
  obtain ⟨s, hs, he⟩ := Option.map_eq_some_iff.1 he
  obtain ⟨hm, hh⟩ := of_decide_eq_true he
  refine ⟨s, run_cleared (show ({} : Config).Valid from ⟨one_le_two, le_rfl⟩) .withConfig hs₀
    (Or.inr rfl) hs₁ hs hm hh (List.mem_cons_of_mem _ List.mem_cons_self) (fun t th hth => ?_)
    fun t c hc => ?_⟩
  · rw [hq t] at hth
    cases hth
  · simp [overtakenClear] at hc
    rcases hc with ⟨-, rfl⟩ | ⟨-, rfl⟩
    · rintro ⟨⟩
    · rintro ⟨⟩

/-- A clear and a drain that come while a rebuild has frozen the root. -/
def turnedAwayCalls : List (Act (Fin (2 ^ 8)) ℕ) :=
  .call 0 (.insert ⟨5, by decide⟩ 1) :: List.replicate 8 (Act.step 0) ++
    Act.call 0 .rebuild :: List.replicate 2 (Act.step 0) ++
    [Act.call 1 .clear, .step 1, .call 2 .drain, .step 2] ++ List.replicate 68 (Act.step 0) ++
    Act.call 1 (.get ⟨5, by decide⟩) :: List.replicate 2 (Act.step 1)

/-- **Turned away by a rebuild**: clear and drain return and the key is still there. -/
theorem cleared_turnedAway :
    (Sys.init (.withConfig {} : LearnedMap (Fin (2 ^ 8)) ℕ)).outcome 3 turnedAwayCalls =
      some [.ret 1 (.get ⟨5, by decide⟩) (.option (some 1)), .inv 1 (.get ⟨5, by decide⟩),
        .ret 0 .rebuild .unit, .ret 2 .drain (.pairs []), .inv 2 .drain, .ret 1 .clear .unit,
        .inv 1 .clear, .inv 0 .rebuild, .ret 0 (.insert ⟨5, by decide⟩ 1) (.bool true),
        .inv 0 (.insert ⟨5, by decide⟩ 1)] := by
  decide +kernel

end Sys

end Scry.Index
