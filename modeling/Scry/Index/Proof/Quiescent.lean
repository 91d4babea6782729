/-
  What a lookup returns while no other operation is in flight.

  No slot is claimed then, so that a lookup finds what the tree holds (`answers_of_holds`).
-/
import Scry.Index.Proof.Vouch

namespace Scry.Index

variable {K V : Type} [LinearOrder K] [Key K] {m : Mem K V} {th : Thread K V} {k : K} {n : NodeId}

/-- A claimed slot looks empty. -/
theorem lookSlot_leaf (hn : m.NodeWF n)
    (hcl : (m.cells n).claimed ((m.cells n).slotOf k) = true →
      (m.cells n).leafGet ((m.cells n).slotOf k) k = none)
    (hs : ((m.cells n).slots ((m.cells n).slotOf k)).isChild = false) :
    lookSlot m th n k = th.found ((m.cells n).leafGet ((m.cells n).slotOf k) k) := by
  by_cases hc : (m.cells n).claimed ((m.cells n).slotOf k) = true
  · have hst : (m.cells n).state ((m.cells n).head.predictSlot k) = .writing := if_pos hc
    rw [hcl hc]
    simp only [lookSlot, hst]
  rw [Bool.not_eq_true] at hc
  have hst : (m.cells n).state ((m.cells n).head.predictSlot k) =
      (m.cells n).slots ((m.cells n).slotOf k) := by
    show (if (m.cells n).claimed ((m.cells n).slotOf k) then _ else _) = _
    rw [hc]
    rfl
  by_cases hd : (m.cells n).slots ((m.cells n).slotOf k) = .data
  · obtain ⟨k₁, v, hi, -⟩ := hn.cell.data _ hd
    have hi' : (m.cells n).inline ((m.cells n).head.predictSlot k) = some (k₁, v) := hi
    rw [Cell.leafGet_data hd hi]
    simp only [lookSlot, hst, hd, hi']
    split_ifs <;> rfl
  · rw [Cell.leafGet_of_ne_data hd]
    simp only [lookSlot, hst]
    cases hsl : (m.cells n).slots ((m.cells n).slotOf k) with
    | data => exact absurd hsl hd
    | child | childStale => rw [hsl] at hs; cases hs
    | _ => rfl

theorem lookSlot_child (hcl : (m.cells n).claimed ((m.cells n).slotOf k) = false)
    (hs : ((m.cells n).slots ((m.cells n).slotOf k)).isChild) :
    lookSlot m th n k = th.goto (.lookChild n) := by
  have hst : (m.cells n).state ((m.cells n).head.predictSlot k) =
      (m.cells n).slots ((m.cells n).slotOf k) := by
    show (if (m.cells n).claimed ((m.cells n).slotOf k) then _ else _) = _
    rw [hcl]
    rfl
  simp only [lookSlot, hst]
  cases hsl : (m.cells n).slots ((m.cells n).slotOf k) with
  | child | childStale => rfl
  | _ => rw [hsl] at hs; cases hs

/-- A lookup looks for the key of its operation. -/
theorem stepLook_eq {n : NodeId} {next : Next K V} (hkey : th.call.key = some k)
    (h : stepLook m th n = some next) : next = lookSlot m th n k := by
  unfold stepLook at h
  split at h
  · rename_i key hc
    obtain rfl : key = k := by rw [hc] at hkey; exact Option.some.inj hkey
    exact (Option.some.inj h).symm
  · rename_i key v hc
    obtain rfl : key = k := by rw [hc] at hkey; exact Option.some.inj hkey
    exact (Option.some.inj h).symm
  · cases h

theorem stepLookChild_eq {n : NodeId} {next : Next K V} {p : Ptr} (hkey : th.call.key = some k)
    (hp : (m.cells n).children ((m.cells n).slotOf k) = some p)
    (h : stepLookChild m th n = some next) : next = th.goto (.look p.node) := by
  have hp' : (m.cells n).children ((m.cells n).head.predictSlot k) = some p := hp
  unfold stepLookChild at h
  split at h
  · rename_i key hc
    obtain rfl : key = k := by rw [hc] at hkey; exact Option.some.inj hkey
    simp only [lookChild, hp'] at h
    exact (Option.some.inj h).symm
  · rename_i key v hc
    obtain rfl : key = k := by rw [hc] at hkey; exact Option.some.inj hkey
    simp only [lookChild, hp'] at h
    exact (Option.some.inj h).symm
  · cases h

namespace Sys
variable {s s' : Sys K V} {t : ℕ}

theorem run_cons (a : Act K V) (sched : List (Act K V)) :
    s.run (a :: sched) = (s.act a).bind fun s' => s'.run sched := rfl

theorem run_append (sched sched' : List (Act K V)) :
    s.run (sched ++ sched') = (s.run sched).bind fun s' => s'.run sched' := List.foldlM_append

/-- A lookup of the key that runs alone returns `o`. -/
def Answers (s : Sys K V) (k : K) (o : Option V) : Prop :=
  ∀ t, s.threads t = none → ∃ n s', s.run (.call t (.get k) :: List.replicate n (.step t)) = some s' ∧
    s'.history = .ret t (.get k) (.option o) :: .inv t (.get k) :: s.history

theorem step_of {m' : Mem K V} {next : Next K V} (hth : s.threads t = some th)
    (h : th.step s.config s.mem = some (m', next)) :
    s.step t = some (s.proceed t th.call m' next) := by
  simp only [step, hth, h, Option.map_some]

/-- A lookup that goes on alone finds what the tree holds. -/
theorem look_run {o : Option V} (ho : m.Holds k n o)
    (hcl : ∀ (n : NodeId) i, n.alloc < m.next → (m.cells n).claimed i = true → o = none)
    (hn : m.NodeWF n) :
    ∀ {s : Sys K V} {th : Thread K V}, s.mem = m → s.threads t = some th → th.call = .get k →
      th.pc = .look n → ∃ j s', s.run (List.replicate j (.step t)) = some s' ∧
        s'.history = .ret t (.get k) (.option o) :: s.history := by
  induction ho with
  | @leaf n hs =>
    intro s th hm hth hcall hpc
    have hstep : th.step s.config s.mem = some (s.mem,
        .ret (.option ((m.cells n).leafGet ((m.cells n).slotOf k) k))) := by
      simp only [Thread.step, hpc, stepLook, hcall, hm, lookSlot_leaf hn (hcl n _ hn.alloc) hs,
        Thread.found, Option.map_some]
    refine ⟨1, s.proceed t th.call s.mem (.ret (.option ((m.cells n).leafGet
      ((m.cells n).slotOf k) k))), ?_, ?_⟩
    · rw [List.replicate_one, run_cons, act, step_of hth hstep]
      rfl
    · rw [hcall]
      rfl
  | @child n p o hs hp ho ih =>
    intro s th hm hth hcall hpc
    have hidle : (m.cells n).claimed ((m.cells n).slotOf k) = false := by
      by_contra hc
      rw [hn.cell.claimed _ (by simpa using hc)] at hs
      cases hs
    have hstep : th.step s.config s.mem = some (s.mem, th.goto (.lookChild n)) := by
      simp only [Thread.step, hpc, stepLook, hcall, hm, lookSlot_child hidle hs, Option.map_some]
    generalize hs₁ : s.proceed t th.call s.mem (th.goto (.lookChild n)) = s₁
    have hm₁ : s₁.mem = m := by rw [← hs₁, proceed_mem, hm]
    obtain ⟨th₁, hth₁, hcall₁, hpc₁⟩ : ∃ th₁, s₁.threads t = some th₁ ∧ th₁.call = .get k ∧
        th₁.pc = .lookChild n := by
      rw [← hs₁]
      exact ⟨_, Function.update_self _ _ _, hcall, rfl⟩
    have hp' : (m.cells n).children ((m.cells n).head.predictSlot k) = some p := hp
    have hstep₁ : th₁.step s₁.config s₁.mem = some (s₁.mem, th₁.goto (.look p.node)) := by
      simp only [Thread.step, hpc₁, stepLookChild, hcall₁, lookChild, hm₁, hp', Option.map_some]
    have hth₂ : (s₁.proceed t th₁.call s₁.mem (th₁.goto (.look p.node))).threads t =
        some { th₁ with pc := .look p.node } := Function.update_self _ _ _
    obtain ⟨j, s', hrun, hh⟩ := ih hcl (hn.ofChild hs hp) (by rw [proceed_mem, hm₁]) hth₂ hcall₁ rfl
    refine ⟨j + 2, s', ?_, ?_⟩
    · rw [List.replicate_succ, List.replicate_succ, run_cons, act, step_of hth hstep, hs₁,
        Option.bind_some, run_cons, act, step_of hth₁ hstep₁]
      exact hrun
    · rw [hh, ← hs₁]
      rfl

/-- **A lookup that runs alone finds what the tree holds**, if claimed slots do not matter. -/
theorem answers_of_unclaimed (hinv : s.Inv) {o : Option V}
    (hcl : ∀ (n : NodeId) i, n.alloc < s.mem.next → (s.mem.cells n).claimed i = true → o = none)
    (ho : s.mem.Holds k s.mem.root.node o) : s.Answers k o := by
  intro t ht
  have hinvoke : s.act (.call t (.get k)) = some { s with
      threads := Function.update s.threads t (some (Thread.start (.get k)))
      history := .inv t (.get k) :: s.history } := by
    rw [act, Sys.invoke, ht]
  generalize hs₁ : ({ s with
      threads := Function.update s.threads t (some (Thread.start (.get k)))
      history := .inv t (.get k) :: s.history } : Sys K V) = s₁ at hinvoke
  have hm : s₁.mem = s.mem := by rw [← hs₁]
  have hth₁ : s₁.threads t = some (Thread.start (.get k)) := by
    rw [← hs₁]
    exact Function.update_self _ _ _
  have hstep : (Thread.start (.get k)).step s₁.config s₁.mem =
      some (s.mem, (Thread.start (.get k)).goto (.look s.mem.root.node)) := by
    rw [hm]
    rfl
  have hth₂ : (s₁.proceed t (.get k) s.mem
      ((Thread.start (.get k)).goto (.look s.mem.root.node))).threads t =
      some { Thread.start (.get k) with pc := .look s.mem.root.node } := Function.update_self _ _ _
  obtain ⟨j, s', hrun, hh⟩ := look_run ho hcl hinv.root.1 (proceed_mem _ _ _ _) hth₂ rfl rfl
  refine ⟨j + 1, s', ?_, ?_⟩
  · rw [run_cons, hinvoke, Option.bind_some, List.replicate_succ, run_cons, act,
      step_of hth₁ hstep]
    exact hrun
  · rw [hh, ← hs₁]
    rfl

/-- No slot is claimed if no operation is in flight. -/
theorem answers_of_holds (hinv : s.Inv) (hq : s.Quiescent) {o : Option V}
    (ho : s.mem.Holds k s.mem.root.node o) : s.Answers k o := by
  refine answers_of_unclaimed hinv (fun n i hn hc => ?_) ho
  obtain ⟨t', th, hth, -⟩ := hinv.owned hn hc
  rw [hq t'] at hth
  cases hth

/-- What the map is sure of, a lookup that runs alone returns. -/
theorem SureRoot.answers {P : Option V → Prop} (h : SureRoot P s k) (hinv : s.Inv)
    (hq : s.Quiescent) : ∃ o, P o ∧ s.Answers k o := by
  obtain ⟨o, ho, hP⟩ := h.tree.sat
  exact ⟨o, hP, answers_of_holds hinv hq ho⟩

/-! ## The calls of a run -/

/-- What holds of all calls that are invoked holds of all that run and of all that have
    returned. -/
structure Calls (C : Call K V → Prop) (s : Sys K V) : Prop where
  running {t : ℕ} {th : Thread K V} : s.threads t = some th → C th.call
  returned {t : ℕ} {call : Call K V} {reply : Reply K V} : .ret t call reply ∈ s.history → C call

/-- What holds of all calls that are invoked holds of all that run. -/
theorem running_act [LawfulKey K] {C : Call K V → Prop} {a : Act K V} (hinv : s.Inv)
    (h : ∀ t th, s.threads t = some th → C th.call)
    (hC : ∀ t call, a = .call t call → C call) (ha : s.act a = some s') :
    ∀ t th, s'.threads t = some th → C th.call := by
  intro t' th' hth'
  cases a with
  | call t call =>
    obtain ⟨-, rfl⟩ := invoke_eq_some ha
    by_cases ht : t' = t
    · subst ht
      cases (Function.update_self _ _ _).symm.trans hth'
      exact hC _ _ rfl
    · exact h _ _ ((Function.update_of_ne ht _ _).symm.trans hth')
  | step t =>
    obtain ⟨th, m', next, hth, hstep, rfl⟩ := step_eq_some ha
    have hnext := step_next hinv.headroom hinv.root (hinv.ok hth) (hinv.locks hth) hstep
    by_cases ht : t' = t
    · subst ht
      rw [proceed_threads_self hth'] at hnext
      rw [hnext.call]
      exact h _ _ hth
    · rw [proceed_threads_of_ne ht] at hth'
      exact h _ _ hth'

theorem Calls.act [LawfulKey K] {C : Call K V → Prop} {a : Act K V} (hinv : s.Inv)
    (h : Calls C s) (hC : ∀ t call, a = .call t call → C call) (ha : s.act a = some s') :
    Calls C s' := by
  refine ⟨fun {t th} hth => running_act hinv (fun _ _ => h.running) hC ha t th hth,
    fun {t' call' reply} hr => ?_⟩
  cases a with
  | call t call =>
    obtain ⟨-, rfl⟩ := invoke_eq_some ha
    rcases List.mem_cons.1 hr with hr | hr
    · cases hr
    · exact h.returned hr
  | step t =>
    obtain ⟨th, m', next, hth, hstep, rfl⟩ := step_eq_some ha
    cases next with
    | goto th' => exact h.returned hr
    | ret reply' =>
      rcases List.mem_cons.1 hr with hr | hr
      · cases hr
        exact h.running hth
      · exact h.returned hr

theorem Calls.run [LawfulKey K] {C : Call K V → Prop} {sched : List (Act K V)} (hinv : s.Inv)
    (h : Calls C s) (hC : ∀ t call, .call t call ∈ sched → C call) (hs : s.run sched = some s') :
    Calls C s' := by
  induction sched generalizing s with
  | nil => cases hs; exact h
  | cons a as ih =>
    rw [run_cons, Option.bind_eq_some_iff] at hs
    obtain ⟨s₁, ha, hs⟩ := hs
    exact ih (hinv.act ha)
      (h.act hinv (fun t call he => hC t call (he ▸ List.mem_cons_self)) ha)
      (fun t call hm => hC t call (List.mem_cons_of_mem _ hm)) hs

omit [LinearOrder K] [Key K] in
theorem Calls.init {C : Call K V → Prop} (map : LearnedMap K V) : Calls C (Sys.init map) :=
  ⟨nofun, nofun⟩

/-- **The last call of a kind**, if one of the kind has returned. -/
theorem exists_last_call [LawfulKey K] {p : Call K V → Prop} {map : LearnedMap K V}
    (hinv : (Sys.init map).Inv) {sched : List (Act K V)} (hrun : (Sys.init map).run sched = some s)
    {t : ℕ} {call : Call K V} {reply : Reply K V} (hr : .ret t call reply ∈ s.history)
    (hp : p call) : ∃ sched₁ B c sched₂ s₁ s₂, sched = sched₁ ++ .call B c :: sched₂ ∧ p c ∧
      (∀ t c, .call t c ∈ sched₂ → ¬ p c) ∧ (Sys.init map).run sched₁ = some s₁ ∧
      s₁.invoke B c = some s₂ ∧ s₂.run sched₂ = some s := by
  have hex : ∃ a ∈ sched, ∃ t c, a = .call t c ∧ p c := by
    by_contra hno
    push Not at hno
    have := (Calls.init (C := fun c => ¬ p c) map).run hinv
      (fun t c hm hc => hno _ hm t c rfl hc) hrun
    exact this.returned hr hp
  obtain ⟨sched₁, _, sched₂, rfl, ⟨B, c, rfl, hc⟩, hlast⟩ := Run.exists_last hex
  rw [run_append, Option.bind_eq_some_iff] at hrun
  obtain ⟨s₁, h₁, hrun⟩ := hrun
  rw [run_cons, Option.bind_eq_some_iff] at hrun
  obtain ⟨s₂, h₂, hrun⟩ := hrun
  exact ⟨sched₁, B, c, sched₂, s₁, s₂, rfl, hc, fun t c hm hc => hlast _ hm ⟨t, c, rfl, hc⟩, h₁, h₂,
    hrun⟩

/-- A thread that is never called runs nothing. -/
theorem threads_none {sched : List (Act K V)} (ht : s.threads t = none)
    (hrun : s.run sched = some s') (hc : ∀ c, .call t c ∉ sched) : s'.threads t = none := by
  induction sched generalizing s with
  | nil => cases hrun; exact ht
  | cons a as ih =>
    rw [run_cons, Option.bind_eq_some_iff] at hrun
    obtain ⟨s₁, ha, hrun⟩ := hrun
    refine ih ?_ hrun fun c hm => hc c (List.mem_cons_of_mem _ hm)
    cases a with
    | call t' call =>
      obtain ⟨-, rfl⟩ := invoke_eq_some ha
      have hne : t ≠ t' := by
        rintro rfl
        exact hc call List.mem_cons_self
      exact (Function.update_of_ne hne _ _).trans ht
    | step t' =>
      obtain ⟨th, m', next, hth, -, rfl⟩ := step_eq_some ha
      have hne : t ≠ t' := by
        rintro rfl
        cases ht.symm.trans hth
      exact (proceed_threads_of_ne hne _ _ _).trans ht

/-- What a run on the threads below `n` ends with, if they all have returned. -/
def outcome (s : Sys K V) (n : ℕ) (sched : List (Act K V)) : Option (List (Event K V)) :=
  (s.run sched).bind fun s' =>
    if ∀ t < n, (s'.threads t).isNone then some s'.history else none

theorem outcome_eq_some {n : ℕ} {map : LearnedMap K V} {sched : List (Act K V)}
    {h : List (Event K V)} (ho : (Sys.init map).outcome n sched = some h)
    (hn : ∀ t c, .call t c ∈ sched → t < n) :
    ∃ s, (Sys.init map).run sched = some s ∧ s.Quiescent ∧ s.history = h := by
  obtain ⟨s, hrun, hs⟩ := Option.bind_eq_some_iff.1 ho
  split_ifs at hs with hq
  cases hs
  refine ⟨s, hrun, fun t => ?_, rfl⟩
  by_cases ht : t < n
  · exact Option.isNone_iff_eq_none.1 (hq t ht)
  · exact threads_none rfl hrun fun c hm => ht (hn t c hm)

end Sys

end Scry.Index
