/-
  Linearizability of the operations on one key.

  An update has its point where it first changes the slot of its key; whoever was the last
  to change it has to see to it that the map comes to hold the key like that (`Pursued`).
  A lookup, or a remove that finds nothing, has its point where the key was as it read it,
  which need not be the case any more when it returns.
-/
import Scry.Lib.Linear
import Scry.Index.Proof.Effects
import Mathlib.Data.List.Permutation

namespace Scry.Index

variable {K V : Type} [LinearOrder K] [Key K] {m m' : Mem K V} {th th' : Thread K V} {k : K}
  {P : Option V → Prop} {next : Next K V}

/-- The events of the operations on the key. -/
def keyEvents (k : K) : List (Event K V) → List (Linear.Event ℕ (Call K V) (Reply K V))
  | [] => []
  | .inv t c :: h => if c.key = some k then .inv t c :: keyEvents k h else keyEvents k h
  | .ret t c reply :: h =>
    if c.key = some k then .ret t c reply :: keyEvents k h else keyEvents k h

namespace Sys
variable {s s' : Sys K V} {t t' : ℕ} {o : Option V} {R R' : Effects V}

/-! ## The points of the operations -/

/-- A history with its points. -/
abbrev Marks (K V : Type) : Type := List (Linear.Mark ℕ (Call K V) (Reply K V))

/-- The key was like this since the operation of the thread was invoked, going by the updates
    that have taken effect. -/
def Saw (o : Option V) (M : Marks K V) (t : ℕ) (y : Option V) : Prop :=
  Linear.Met Call.keyStep o t y M

/-- Where the operation of the thread on the key is: it has not taken effect, and what it may
    read the key was since it was invoked; or its reply is settled. -/
inductive Attends (k : K) (o : Option V) (p : Sys K V × Effects V) (M : Marks K V) (t : ℕ) :
    Linear.Status (Call K V) (Reply K V) → Prop
  | idle (h : ∀ th, p.1.threads t = some th → th.call.key ≠ some k) : Attends k o p M t .idle
  | looks {th : Thread K V} (hth : p.1.threads t = some th) (hc : th.call = .get k)
      (hs : SureRoot (Saw o M t) p.1 k) (hf : Finds (Saw o M t) p.1 k th) :
      Attends k o p M t (.called th.call)
  | seeks {th : Thread K V} (hth : p.1.threads t = some th) (hc : th.call.IsUpdate k)
      (ht : p.2.took t = none) (hm : th.marked = false)
      (hs : SureRoot (fun y => th.call = .remove k → Saw o M t y) p.1 k)
      (hf : Seeks (fun y => th.call = .remove k → Saw o M t y) p.1 k th) :
      Attends k o p M t (.called th.call)
  | effective {th : Thread K V} {b : Bool} (hth : p.1.threads t = some th)
      (hc : th.call.IsUpdate k) (ht : p.2.took t = some b) (hr : WillReturn th b)
      (hv : p.2.last = some t → ∀ y, (th.call.keyStep y).1 = p.2.value) :
      Attends k o p M t (.done th.call (.bool b))

/-- **The operations on the key have their points.** -/
structure Pointed (k : K) (o : Option V) (p : Sys K V × Effects V)
    (M : Marks K V)
    (st : ℕ → Linear.Status (Call K V) (Reply K V)) : Prop where
  replays : Linear.Replays Call.keyStep o M p.2.value st
  events : Linear.events M = keyEvents k p.1.history
  pursued : Pursued (· = p.2.value) p.1 k
  attends (t : ℕ) : Attends k o p M t (st t)

variable {M M' : Marks K V} {x : Linear.Status (Call K V) (Reply K V)}
  {st : ℕ → Linear.Status (Call K V) (Reply K V)}

theorem Attends.invoke {call : Call K V} (h : Attends k o (s, R) M t' x)
    (hs : s.invoke t call = some s') (ht : t' ≠ t) (htook : R'.took t' = R.took t')
    (hlast : R'.last = R.last) (hvalue : R'.value = R.value)
    (hsaw : ∀ y, Saw o M t' y → Saw o M' t' y) : Attends k o (s', R') M' t' x := by
  have hthreads : s'.threads t' = s.threads t' := by
    obtain ⟨-, rfl⟩ := invoke_eq_some hs
    exact Function.update_of_ne ht _ _
  cases h with
  | idle h => exact .idle fun th hth => h th (hthreads.symm.trans hth)
  | looks hth hc hsure hf =>
    exact .looks (hthreads.trans hth) hc ((hsure.imp hsaw).invoke hs) ((hf.imp hsaw).invoke hs)
  | seeks hth hc hno hm hsure hf =>
    exact .seeks (hthreads.trans hth) hc (htook.trans hno) hm
      ((hsure.imp fun y hy hr => hsaw y (hy hr)).invoke hs)
      ((hf.imp fun y hy hr => hsaw y (hy hr)).invoke hs)
  | effective hth hc hyes hr hv =>
    exact .effective (hthreads.trans hth) hc (htook.trans hyes) hr fun hl y =>
      (hv (hlast.symm.trans hl) y).trans hvalue.symm

/-- A step respects what the operation makes of its key. -/
theorem respects_of_made (hc : th.call.key = some k → th.call = .get k ∨ th.call.IsUpdate k)
    (hP : th.call.key = some k → P (th.call.keyStep o).1) : Respects P m k th where
  publish v _ hk hv _ := by
    have hP := hP hk
    rcases hc hk with hc | ⟨v', hc⟩ | hc <;> rw [hc] at hv hP <;> cases hv
    exact hP
  bury _ _ hc _ := by
    have hP := hP (by rw [hc]; rfl)
    rw [hc] at hP
    exact hP

/-- **Steps of other operations.** -/
theorem Attends.other [LawfulKey K] (hinv : s.Inv) (h : Attends k o (s, R) M t' x)
    (hth : s.threads t = some th) (hd : th.call ≠ .drain) (hcl : th.call ≠ .clear)
    (hc : th.call.key = some k → th.call = .get k ∨ th.call.IsUpdate k)
    (hstep : th.step s.config s.mem = some (m', next)) (ht : t' ≠ t)
    (htook : R'.took t' = R.took t')
    (hlast : R'.last = some t' → R.last = some t' ∧ R'.value = R.value)
    (hsaw : ∀ y, Saw o M t' y → Saw o M' t' y)
    (hmade : ∀ op, x = .called op → th.Writes s.mem → th.call.key = some k →
      Saw o M' t' (th.call.keyStep R.value).1) :
    Attends k o (s.proceed t th.call m' next, R') M' t' x := by
  have hthreads := proceed_threads_of_ne (s := s) ht th.call m' next
  cases h with
  | idle h => exact .idle fun th' hth' => h th' (hthreads.symm.trans hth')
  | looks hth' hc' hsure hf =>
    have hr : th.Writes s.mem → Respects (Saw o M' t') s.mem k th := fun hw =>
      respects_of_made hc (hmade _ rfl hw)
    exact .looks (hthreads.trans hth') hc' ((hsure.imp hsaw).kept hinv hth hd hcl hr hstep)
      ((hf.imp hsaw).other hinv hth' hth hr hstep)
  | @seeks th' hth' hc' hno hm hsure hf =>
    have hr : th.Writes s.mem →
        Respects (fun y => th'.call = .remove k → Saw o M' t' y) s.mem k th := fun hw =>
      respects_of_made hc fun hk _ => hmade _ rfl hw hk
    exact .seeks (hthreads.trans hth') hc' (htook.trans hno) hm
      ((hsure.imp fun y hy hrem => hsaw y (hy hrem)).kept hinv hth hd hcl hr hstep)
      ((hf.imp fun y hy hrem => hsaw y (hy hrem)).other hinv hth' hth hr hstep)
  | effective hth' hc' hyes hr hv =>
    refine .effective (hthreads.trans hth') hc' (htook.trans hyes) hr fun hl y => ?_
    obtain ⟨hl, he⟩ := hlast hl
    exact (hv hl y).trans he.symm

/-! ## Steps -/

omit [Key K] in
theorem keyEvents_other {call : Call K V} (hne : call.key ≠ some k) :
    keyEvents k (s.proceed t call m' next).history = keyEvents k s.history := by
  cases next with
  | goto => rfl
  | ret => exact if_neg hne

omit [Key K] in
theorem keyEvents_ret {call : Call K V} (hkey : call.key = some k) {reply : Reply K V} :
    keyEvents k (s.proceed t call m' (.ret reply)).history =
      .ret t call reply :: keyEvents k s.history := if_pos hkey

omit [Key K] in
theorem noteEffect_invoke {c : Call K V} :
    noteEffect k s R (.call t c) =
      if c.key = some k then { R with took := Function.update R.took t none } else R := rfl

/-- A thread that runs nothing has no status. -/
theorem Attends.of_none (h : Attends k o (s, R) M t x) (ht : s.threads t = none) : x = .idle := by
  cases h with
  | idle => rfl
  | looks hth | seeks hth | effective hth => cases ht.symm.trans hth

/-- **The call of an operation.** -/
theorem Pointed.invoke {c : Call K V} (hinv : s.Inv) (h : Pointed k o (s, R) M st)
    (hs : s.invoke t c = some s') (hkind : c.key = some k → c = .get k ∨ c.IsUpdate k)
    (hsure : c.key = some k → c.isInsert = false → SureRoot (· = R.value) s k) :
    ∃ M' st', Pointed k o (s', noteEffect k s R (.call t c)) M' st' := by
  have hpursued := h.pursued.invoke hs
  obtain ⟨hnone, hs'⟩ := invoke_eq_some hs
  have hidle : st t = .idle := (h.attends t).of_none hnone
  have hself : s'.threads t = some (Thread.start c) := by rw [hs']; exact Function.update_self _ _ _
  by_cases hk : c.key = some k
  · have hR : Linear.Replays Call.keyStep o (.event (.inv t c) :: M) R.value
        (Function.update st t (.called c)) := h.replays.cons (.inv hidle)
    have hnow : ∀ y, y = R.value → Saw o (.event (.inv t c) :: M) t y := by
      rintro y rfl
      exact .now hR (Function.update_self _ _ _)
    rw [noteEffect_invoke, if_pos hk]
    refine ⟨.event (.inv t c) :: M, Function.update st t (.called c), hR, ?_, hpursued,
      fun t' => ?_⟩
    · rw [Linear.events_event, h.events, hs']
      exact (if_pos hk).symm
    by_cases ht : t' = t
    · subst ht
      rw [Function.update_self]
      show Attends k o (s', _) _ t' (.called (Thread.start c).call)
      rcases hkind hk with hc | hc
      · refine .looks hself hc (((hsure hk (by rw [hc]; rfl)).imp hnow).invoke hs) ?_
        rw [hc]
        trivial
      · refine .seeks hself hc (Function.update_self _ _ _) ?_ (SureRoot.invoke ?_ hs) ?_
        · rcases hc with ⟨v, rfl⟩ | rfl <;> rfl
        · by_cases hi : c.isInsert = false
          · exact (hsure hk hi).imp fun y hy _ => hnow y hy
          · refine hinv.sureRoot fun y hrem => absurd ?_ hi
            rw [show c = .remove k from hrem]
            rfl
        · rcases hc with ⟨v, rfl⟩ | rfl <;> trivial
    · rw [Function.update_of_ne ht]
      exact (h.attends t').invoke hs ht (Function.update_of_ne ht _ _) rfl rfl
        fun y hy => hy.later (Ne.symm ht)
  · rw [noteEffect_invoke, if_neg hk]
    refine ⟨M, st, h.replays, ?_, hpursued, fun t' => ?_⟩
    · rw [h.events, hs']
      exact (if_neg hk).symm
    by_cases ht : t' = t
    · subst ht
      rw [hidle]
      refine .idle fun th hth => ?_
      cases hself.symm.trans hth
      exact hk
    · exact (h.attends t').invoke hs ht rfl rfl rfl fun _ hy => hy

/-- The point of an operation that changes nothing, and its reply. -/
theorem Pointed.replied (h : Pointed k o (s, R) M st) {call : Call K V} (ht : st t = .called call)
    {y : Option V} (hy : Saw o M t y) (hsame : (call.keyStep y).1 = y) :
    ∃ M', Linear.events M' = .ret t call (call.keyStep y).2 :: keyEvents k s.history ∧
      Linear.Replays Call.keyStep o M' R.value (Function.update st t .idle) ∧
      ∀ t' z, t' ≠ t → Saw o M t' z → Saw o M' t' z := by
  obtain ⟨M', he, hM, hsaw⟩ := h.replays.hindsight ht hy hsame
  refine ⟨.event (.ret t call (call.keyStep y).2) :: M', ?_, ?_, fun t' z ht' hz => ?_⟩
  · rw [Linear.events_event, he, h.events]
  · have hret := hM.cons (.ret (Function.update_self _ _ _))
    rwa [Function.update_idem] at hret
  · exact (hsaw t' z ht' hz).later (Ne.symm ht')

/-- A step of an operation that does not change the slot of the key. -/
structure QuietStep (k : K) (s : Sys K V) (t : ℕ) (th : Thread K V) (m' : Mem K V)
    (next : Next K V) : Prop where
  running : s.threads t = some th
  step : th.step s.config s.mem = some (m', next)
  not_drain : th.call ≠ .drain
  not_clear : th.call ≠ .clear
  kind : th.call.key = some k → th.call = .get k ∨ th.call.IsUpdate k
  quiet : th.call.key = some k → ¬ th.Writes s.mem

theorem QuietStep.pursued [LawfulKey K] (hinv : s.Inv) (hq : QuietStep k s t th m' next)
    (h : Pursued P s k) : Pursued P (s.proceed t th.call m' next) k :=
  h.step hinv hq.running (fun hw hk => absurd hw (hq.quiet hk))
    (fun _ _ _ hc => (hc.elim (absurd · hq.not_drain) (absurd · hq.not_clear))) hq.step

theorem QuietStep.sure [LawfulKey K] (hinv : s.Inv) (hq : QuietStep k s t th m' next)
    (hk : th.call.key = some k) (h : SureRoot P s k) :
    SureRoot P (s.proceed t th.call m' next) k :=
  h.kept hinv hq.running hq.not_drain hq.not_clear (fun hw => absurd hw (hq.quiet hk)) hq.step

theorem QuietStep.call [LawfulKey K] (hinv : s.Inv) (hq : QuietStep k s t th m' (.goto th')) :
    th'.call = th.call :=
  (step_next hinv.headroom hinv.root (hinv.ok hq.running) (hinv.locks hq.running) hq.step).call

/-- Beside it, the operations of other threads stay where they are. -/
theorem QuietStep.other [LawfulKey K] (hinv : s.Inv) (hq : QuietStep k s t th m' next)
    (h : Attends k o (s, R) M t' x) (ht : t' ≠ t) (hsaw : ∀ y, Saw o M t' y → Saw o M' t' y) :
    Attends k o (s.proceed t th.call m' next, R) M' t' x :=
  h.other hinv hq.running hq.not_drain hq.not_clear hq.kind hq.step ht rfl (fun hl => ⟨hl, rfl⟩)
    hsaw fun _ _ hw hk => absurd hw (hq.quiet hk)

/-- The operation goes on, or it is one on another key. -/
theorem Pointed.goes [LawfulKey K] (hinv : s.Inv) (h : Pointed k o (s, R) M st)
    (hq : QuietStep k s t th m' next) (hgo : th.call.key = some k → ∃ th', next = .goto th')
    (hown : Attends k o (s.proceed t th.call m' next, R) M t (st t)) :
    ∃ M' st', Pointed k o (s.proceed t th.call m' next, R) M' st' := by
  refine ⟨M, st, h.replays, ?_, hq.pursued hinv h.pursued, fun t' => ?_⟩
  · rw [h.events]
    by_cases hk : th.call.key = some k
    · obtain ⟨th', rfl⟩ := hgo hk
      rfl
    · exact (keyEvents_other hk).symm
  · by_cases ht : t' = t
    · exact ht ▸ hown
    · exact hq.other hinv (h.attends t') ht fun _ hy => hy

/-- The operation on the key returns. -/
theorem Pointed.returns [LawfulKey K] (hinv : s.Inv) (h : Pointed k o (s, R) M st)
    {reply : Reply K V} (hq : QuietStep k s t th m' (.ret reply)) (hk : th.call.key = some k)
    (he : Linear.events M' = .ret t th.call reply :: keyEvents k s.history)
    (hM : Linear.Replays Call.keyStep o M' R.value (Function.update st t .idle))
    (hsaw : ∀ t' z, t' ≠ t → Saw o M t' z → Saw o M' t' z) :
    ∃ M' st', Pointed k o (s.proceed t th.call m' (.ret reply), R) M' st' := by
  refine ⟨M', _, hM, he.trans (keyEvents_ret hk).symm, hq.pursued hinv h.pursued, fun t' => ?_⟩
  by_cases ht : t' = t
  · subst ht
    rw [Function.update_self]
    refine .idle fun th' hth' => ?_
    cases (Function.update_self _ _ _).symm.trans hth'
  · rw [Function.update_of_ne ht]
    exact hq.other hinv (h.attends t') ht fun y hy => hsaw t' y ht hy

/-- **A step that does not change the slot of the key.** -/
theorem Pointed.quiet [LawfulKey K] (hinv : s.Inv) (h : Pointed k o (s, R) M st)
    (hq : QuietStep k s t th m' next)
    (hover : th.call.key = some k → th.overlooks s.mem k = false) :
    ∃ M' st', Pointed k o (s.proceed t th.call m' next, R) M' st' := by
  have hth := hq.running
  have hat := h.attends t
  cases hst : st t with
  | idle =>
    rw [hst] at hat
    cases hat with
    | idle hno =>
      refine h.goes hinv hq (fun hk => absurd hk (hno _ hth)) (hst ▸ .idle fun th' hth' => ?_)
      obtain ⟨th₀, hth₀, hc⟩ := hinv.call_of_step hth hq.step hth'
      exact hc ▸ hno _ hth₀
  | called op =>
    rw [hst] at hat
    cases hat with
    | looks hth₀ hget hs hf =>
      obtain rfl := Option.some.inj (hth.symm.trans hth₀)
      have hk : th.call.key = some k := by rw [hget]; rfl
      rcases hf.own hinv hs hth hget (hf.unclaimed hinv hth (hover hk)) hq.step with
        ⟨th', rfl, hf'⟩ | ⟨y, rfl, hy⟩
      · have hown : Attends k o (s.proceed t th.call m' (.goto th'), R) M t (.called th'.call) :=
          .looks (Function.update_self _ _ _) ((hq.call hinv).trans hget) (hq.sure hinv hk hs) hf'
        rw [hq.call hinv] at hown
        exact h.goes hinv hq (fun _ => ⟨th', rfl⟩) (hst ▸ hown)
      · rw [hget] at hst
        obtain ⟨M', he, hM, hsaw⟩ := h.replied hst hy rfl
        exact h.returns hinv hq hk (hget ▸ he) hM hsaw
    | seeks hth₀ hu hno hm hs hf =>
      obtain rfl := Option.some.inj (hth.symm.trans hth₀)
      rcases hf.own hinv hs hth hu hm (hq.quiet hu.key) hq.step with
        ⟨th', rfl, hm', hf'⟩ | ⟨rfl, hrem, hy⟩
      · have hce := hq.call hinv
        have hown : Attends k o (s.proceed t th.call m' (.goto th'), R) M t (.called th'.call) :=
          .seeks (Function.update_self _ _ _) (hce ▸ hu) hno hm'
            ((hq.sure hinv hu.key hs).imp fun _ hy hr => hy (hce ▸ hr))
            (hf'.imp fun _ hy hr => hy (hce ▸ hr))
        rw [hce] at hown
        exact h.goes hinv hq (fun _ => ⟨th', rfl⟩) (hst ▸ hown)
      · rw [hrem] at hst
        obtain ⟨M', he, hM, hsaw⟩ := h.replied hst (hy hrem) rfl
        exact h.returns hinv hq hu.key (hrem ▸ he) hM hsaw
  | done op reply =>
    rw [hst] at hat
    cases hat with
    | effective hth₀ hu hyes hr hv =>
      obtain rfl := Option.some.inj (hth.symm.trans hth₀)
      rcases hr.step hinv hth hu (fun hw => absurd hw (hq.quiet hu.key)) hq.step with
        ⟨th', rfl, hr'⟩ | rfl
      · have hce := hq.call hinv
        have hown : Attends k o (s.proceed t th.call m' (.goto th'), R) M t (.done th'.call _) :=
          .effective (Function.update_self _ _ _) (hce ▸ hu) hyes hr' fun hl y => hce ▸ hv hl y
        rw [hce] at hown
        exact h.goes hinv hq (fun _ => ⟨th', rfl⟩) (hst ▸ hown)
      · refine h.returns hinv hq hu.key ?_ (h.replays.cons (.ret hst)) fun t' z ht' hz =>
          hz.later (Ne.symm ht')
        rw [Linear.events_event, h.events]

omit [LinearOrder K] [Key K] in
/-- What an update makes of its key does not depend on what it was. -/
theorem keyStep_of_update {call : Call K V} (hc : call.IsUpdate k) (x y : Option V) :
    (call.keyStep x).1 = (call.keyStep y).1 := by
  rcases hc with ⟨v, rfl⟩ | rfl <;> rfl

omit [LinearOrder K] [Key K] in
theorem reply_of_update {call : Call K V} (hc : call.IsUpdate k) (x : Option V) :
    (call.keyStep x).2 = .bool (x.isSome != call.isInsert) := by
  rcases hc with ⟨v, rfl⟩ | rfl <;> cases x <;> rfl

/-- **The change of the slot of the key**: the update takes effect, or has done so before. -/
theorem Pointed.write [LawfulKey K] (hinv : s.Inv) (h : Pointed k o (s, R) M st)
    (hth : s.threads t = some th) (hu : th.call.IsUpdate k) (hw : th.Writes s.mem)
    (heff : th.inEffect s.mem k t R = true) (hstep : th.step s.config s.mem = some (m', next)) :
    ∃ M' st', Pointed k o (s.proceed t th.call m' next, R.change t th.call) M' st' := by
  obtain ⟨hd, hcl⟩ := hu.not_empties
  have haims : th.call.Aims (· = (th.call.keyStep R.value).1) := by
    rcases hu with ⟨v, hc⟩ | hc <;> rw [hc] <;> rfl
  have hpursued := Pursued.of_writes hinv hth hu.key haims hw hstep
  obtain ⟨th', rfl⟩ := goto_of_writes hw hstep
  have hself : (s.proceed t th.call m' (.goto th')).threads t = some th' :=
    Function.update_self _ _ _
  have hcall := (step_next hinv.headroom hinv.root (hinv.ok hth) (hinv.locks hth) hstep).call
  have hwrites : th.writes s.mem = true := Thread.writes_iff.2 hw
  have hisNew := isNew_of_held hinv hth hu hw hstep
  -- the update itself
  have hown : ∀ {M' b}, (R.took t).getD (R.value.isSome != th.call.isInsert) = b →
      WillReturn th' b → Attends k o (s.proceed t th.call m' (.goto th'), R.change t th.call) M' t
        (.done th.call (.bool b)) := by
    intro M' b hb hr
    have hdone : Attends k o (s.proceed t th.call m' (.goto th'), R.change t th.call) M' t
        (.done th'.call (.bool b)) :=
      .effective hself (hcall ▸ hu) ((Function.update_self _ _ _).trans (congrArg some hb)) hr
        fun _ y => hcall ▸ keyStep_of_update hu y R.value
    rwa [hcall] at hdone
  -- the other threads
  have hothers : ∀ {M' st' t'}, Linear.Replays Call.keyStep o M' (th.call.keyStep R.value).1 st' →
      t' ≠ t → st' t' = st t' → (∀ y, Saw o M t' y → Saw o M' t' y) →
      Attends k o (s.proceed t th.call m' (.goto th'), R.change t th.call) M' t' (st' t') := by
    intro M' st' t' hM ht hst hsaw
    rw [hst]
    refine (h.attends t').other hinv hth hd hcl (fun _ => Or.inr hu) hstep ht
      (Function.update_of_ne ht _ _) (fun hl => absurd (Option.some.inj hl) (Ne.symm ht)) hsaw ?_
    intro op hop _ _
    exact .now hM (hst.trans hop)
  simp only [Thread.inEffect, hwrites, Bool.not_true, Bool.false_or] at heff
  have hat := h.attends t
  cases hst : st t with
  | idle =>
    rw [hst] at hat
    cases hat with
    | idle hno => exact absurd hu.key (hno _ hth)
  | called op =>
    rw [hst] at hat
    cases hat with
    | looks hth₀ hget =>
      obtain rfl := Option.some.inj (hth.symm.trans hth₀)
      exact absurd hget (hu.not_get k)
    | seeks hth₀ _ hno hm =>
      obtain rfl := Option.some.inj (hth.symm.trans hth₀)
      replace hno : R.took t = none := hno
      simp only [hno, beq_iff_eq] at heff
      rw [heff] at hisNew
      obtain ⟨_, he, hr⟩ := WillReturn.start hinv hth hu hm hw hstep
      cases he
      have hpoint : th.call.keyStep R.value =
          ((th.call.keyStep R.value).1, .bool th.write.isNew) :=
        Prod.ext rfl (by rw [reply_of_update hu, hisNew])
      have hM := h.replays.cons (.point hst hpoint)
      refine ⟨_, _, hM, h.events, hpursued, fun t' => ?_⟩
      by_cases ht : t' = t
      · subst ht
        rw [Function.update_self]
        exact hown (by rw [hno, hisNew]; rfl) hr
      · exact hothers hM ht (Function.update_of_ne ht _ _) fun y hy => hy.later (Ne.symm ht)
  | done op reply =>
    rw [hst] at hat
    cases hat with
    | effective hth₀ _ hyes hr hv =>
      obtain rfl := Option.some.inj (hth.symm.trans hth₀)
      replace hyes : R.took t = some _ := hyes
      simp only [hyes, Bool.and_eq_true, Bool.or_eq_true, beq_iff_eq] at heff
      obtain ⟨hlast, hfresh⟩ := heff
      have hnew : th.write.isNew = true → th.marked = true := by
        intro hn
        rw [hr.marked hw.not_done]
        -- or the node holds the key or not like after the first change
        refine hfresh.resolve_right fun hheld => ?_
        have hvalue : (th.call.keyStep R.value).1 = R.value := hv hlast R.value
        rw [hisNew, hheld, ← hvalue] at hn
        rcases hu with ⟨v, hc⟩ | hc <;> rw [hc] at hn <;> cases hn
      have hM : Linear.Replays Call.keyStep o M (th.call.keyStep R.value).1 st :=
        (hv hlast R.value).symm ▸ h.replays
      refine ⟨M, st, hM, h.events, hpursued, fun t' => ?_⟩
      by_cases ht : t' = t
      · subst ht
        rcases hr.step hinv hth hu (fun _ => hnew) hstep with ⟨_, he, hr'⟩ | he
        · cases he
          exact hst ▸ hown (by rw [hyes]; rfl) hr'
        · cases he
      · exact hothers hM ht rfl fun _ hy => hy

/-! ## Runs -/

omit [LinearOrder K] [Key K] in
theorem get_or_update {call : Call K V} (hc : ∀ v, call ≠ .getOrInsert k v)
    (hkey : call.key = some k) : call = .get k ∨ call.IsUpdate k := by
  cases call with
  | get k' =>
    obtain rfl := Option.some.inj hkey
    exact Or.inl rfl
  | insert k' v =>
    obtain rfl := Option.some.inj hkey
    exact Or.inr (Or.inl ⟨v, rfl⟩)
  | getOrInsert k' v =>
    obtain rfl := Option.some.inj hkey
    exact absurd rfl (hc v)
  | remove k' =>
    obtain rfl := Option.some.inj hkey
    exact Or.inr (Or.inr rfl)
  | _ => cases hkey

/-- **Step lemma**. -/
theorem Pointed.act [LawfulKey K] {p p' : Sys K V × Effects V} {a : Act K V}
    (hinv : p.1.Inv) (h : ∃ M st, Pointed k o p M st) (heff : TakesEffectOnce k p a)
    (hrunning : ∀ t th, p.1.threads t = some th →
      th.call ≠ .drain ∧ th.call ≠ .clear ∧ ∀ v, th.call ≠ .getOrInsert k v)
    (hcalls : ∀ t c, a = .call t c → ∀ v, c ≠ .getOrInsert k v)
    (ha : Run.recording Sys.act (noteEffect k) p a = some p') :
    ∃ M st, Pointed k o p' M st := by
  obtain ⟨s, R⟩ := p
  obtain ⟨s', R'⟩ := p'
  obtain ⟨hact, rfl⟩ := Run.recording_eq_some.1 ha
  obtain ⟨M, st, h⟩ := h
  cases a with
  | call t c => exact h.invoke hinv hact (get_or_update (hcalls t c rfl)) heff
  | step t =>
    obtain ⟨th, m', next, hth, hstep, rfl⟩ := step_eq_some hact
    obtain ⟨hd, hcl, hg⟩ := hrunning t th hth
    have hnote : noteEffect k s R (.step t) = th.noteEffect s.mem k t R := by
      rw [noteEffect, hth]
      rfl
    show ∃ M st, Pointed k o (_, noteEffect k s R (.step t)) M st
    rw [hnote, Thread.noteEffect]
    split_ifs with hw
    · have hwrites := Thread.writes_iff.1 hw.2
      refine h.write hinv hth ?_ hwrites (heff th hth hw.1).1 hstep
      exact (get_or_update hg hw.1).resolve_left (hinv.not_get hth hwrites k)
    · exact h.quiet hinv ⟨hth, hstep, hd, hcl, get_or_update hg,
        fun hk hwrites => hw ⟨hk, Thread.writes_iff.2 hwrites⟩⟩ fun hk => (heff th hth hk).2

/-- **The operations on a key take effect at a point each**, if its updates take effect once: what
    they return, and what the map holds of the key in the end, is what they return and make of it
    one after the other. -/
theorem run_linearizable [LawfulKey K] {config : Config} (hc : config.Valid)
    {map : LearnedMap K V} {pairs : List (K × V)} (hs : Starts config map pairs)
    {sched : List (Act K V)}
    (hops : ∀ t c, .call t c ∈ sched → c ≠ .drain ∧ c ≠ .clear ∧ ∀ v, c ≠ .getOrInsert k v)
    (hmeets : Run.Meets (Run.recording Sys.act (noteEffect k)) (TakesEffectOnce k)
      (Sys.init map, ⟨pairs.lookup k, none, fun _ => none⟩) sched)
    (hrun : (Sys.init map).run sched = some s) :
    ∃ x, Linear.Linearizable Call.keyStep (pairs.lookup k) (keyEvents k s.history) x ∧
      (s.Quiescent → s.mem.Holds k s.mem.root.node x ∧ s.Answers k x) := by
  obtain ⟨⟨s', R⟩, hrec, hs'⟩ := Option.map_eq_some_iff.1
    ((Run.recording_run Sys.act (noteEffect k) sched (Sys.init map)
      ⟨pairs.lookup k, none, fun _ => none⟩).trans hrun)
  obtain rfl : s' = s := hs'
  have hstart : Pointed k (pairs.lookup k)
      (Sys.init map, ⟨pairs.lookup k, none, fun _ => none⟩) [] fun _ => .idle :=
    ⟨.nil, rfl, Or.inr (.init hc hs rfl), fun t => .idle fun th hth => by cases hth⟩
  obtain ⟨hinv, -, M, st, hend⟩ := Run.run_induct (I := fun p => p.1.Inv ∧
    (∀ t th, p.1.threads t = some th →
      th.call ≠ .drain ∧ th.call ≠ .clear ∧ ∀ v, th.call ≠ .getOrInsert k v) ∧
    ∃ M st, Pointed k (pairs.lookup k) p M st)
    (fun {p a p'} h hca ha => by
      obtain ⟨hinv, hrunning, hpointed⟩ := h
      have hact := (Run.recording_eq_some.1 ha).1
      refine ⟨hinv.act hact,
        running_act hinv hrunning (fun t c he => hops t c (he ▸ hca.2)) hact, ?_⟩
      exact Pointed.act hinv hpointed hca.1 hrunning (fun t c he => (hops t c (he ▸ hca.2)).2.2) ha)
    ⟨.init hc hs, fun t th hth => (by cases hth), [], _, hstart⟩
    (hmeets.and (Run.Meets.mem sched)) hrec
  refine ⟨R.value, ⟨M, st, hend.replays, hend.events⟩, fun hq => ?_⟩
  have hsure := hend.pursued.quiescent hq
  obtain ⟨_, hx, rfl⟩ := hsure.tree.sat
  exact ⟨hx, answers_of_holds hinv hq hx⟩

/-- The root is not frozen, and it holds `x` in the slot of the key. -/
def RootReads (s : Sys K V) (k : K) (x : Option V) : Prop :=
  let c := s.mem.cells s.mem.root.node
  s.mem.root.frozen = false ∧ (c.slots (c.slotOf k)).isChild = false ∧
    c.leafGet (c.slotOf k) k = x

instance [DecidableEq V] (s : Sys K V) (x : Option V) : Decidable (s.RootReads k x) :=
  inferInstanceAs (Decidable (_ ∧ _ ∧ _))

theorem RootReads.sureRoot (hinv : s.Inv) (h : s.RootReads k o) : SureRoot (· = o) s k := by
  obtain ⟨hfr, hleaf, hget⟩ := h
  have ht : SureTree (· = o) s k s.mem.root.node :=
    .of_leaf hinv hinv.root.1 hleaf ((Mem.sat_leaf hleaf).2 hget)
  exact ht.root hinv (by rw [← hfr])

/-- What reads the key is called while the root holds what is recorded. -/
def CalledAtRoot (k : K) (p : Sys K V × Effects V) : Act K V → Prop
  | .call _ c => c.key = some k → c.isInsert = false → p.1.RootReads k p.2.value
  | .step t => ∀ th ∈ p.1.threads t, th.call.key = some k →
      th.inEffect p.1.mem k t p.2 = true ∧ th.overlooks p.1.mem k = false

instance [DecidableEq V] (p : Sys K V × Effects V) : ∀ a : Act K V, Decidable (CalledAtRoot k p a)
  | .call _ c => inferInstanceAs
      (Decidable (c.key = some k → c.isInsert = false → p.1.RootReads k p.2.value))
  | .step t => inferInstanceAs (Decidable (∀ th ∈ p.1.threads t, th.call.key = some k →
      th.inEffect p.1.mem k t p.2 = true ∧ th.overlooks p.1.mem k = false))

/-- So the map is sure of it. -/
theorem meets_takesEffectOnce [LawfulKey K] {sched : List (Act K V)} (hinv : s.Inv)
    (h : Run.Meets (Run.recording Sys.act (noteEffect k)) (CalledAtRoot k) (s, R) sched) :
    Run.Meets (Run.recording Sys.act (noteEffect k)) (TakesEffectOnce k) (s, R) sched := by
  refine Run.Meets.of_invariant (I := fun p => p.1.Inv)
    (fun hinv _ ha => hinv.act (Run.recording_eq_some.1 ha).1) (fun {p a} hinv hc => ?_) hinv h
  cases a with
  | call t c => exact fun hk hi => (hc hk hi).sureRoot hinv
  | step t => exact hc

/-- An insert that a rebuild overtakes after it has stored its pair. -/
def insertOvertaken (k : K) (v : V) : List (Act K V) :=
  .call 0 (.insert k v) :: List.replicate 4 (Act.step 0) ++ .call 2 .rebuild ::
    List.replicate 70 (Act.step 2)

/-- It stores the pair again beside a lookup and a remove. -/
def storedBeside (k : K) (v : V) : List (Act K V) :=
  insertOvertaken k v ++ .call 3 (.get k) :: .step 3 :: .call 1 (.remove k) ::
    List.replicate 10 (Act.step 0) ++ List.replicate 10 (Act.step 1) ++
    List.replicate 3 (Act.step 3)

theorem run_linearizable_storedBeside : ∃ (s : Sys (Fin (2 ^ 8)) ℕ) (x : Option ℕ),
    (Sys.init (.withConfig {})).run (storedBeside ⟨100, by decide⟩ 1) = some s ∧
    Linear.Linearizable Call.keyStep none (keyEvents ⟨100, by decide⟩ s.history) x ∧
      (s.Quiescent → s.mem.Holds ⟨100, by decide⟩ s.mem.root.node x ∧
        s.Answers ⟨100, by decide⟩ x) := by
  have := lawfulKey_unsigned (show 8 ≤ 64 by decide)
  have hc : ({} : Config).Valid := ⟨one_le_two, le_rfl⟩
  have hrun : ((Sys.init (.withConfig {} : LearnedMap (Fin (2 ^ 8)) ℕ)).run
      (storedBeside ⟨100, by decide⟩ 1)).isSome := by
    decide +kernel
  obtain ⟨s, hrun⟩ := Option.isSome_iff_exists.1 hrun
  have hmeets : Run.Meets (Run.recording Sys.act (noteEffect (⟨100, by decide⟩ : Fin (2 ^ 8))))
      (CalledAtRoot ⟨100, by decide⟩)
      (Sys.init (.withConfig {} : LearnedMap (Fin (2 ^ 8)) ℕ), ⟨none, none, fun _ => none⟩)
      (storedBeside ⟨100, by decide⟩ 1) := by
    decide +kernel
  have hops : ∀ t c, Act.call t c ∈ storedBeside (⟨100, by decide⟩ : Fin (2 ^ 8)) 1 →
      c ≠ .drain ∧ c ≠ .clear ∧ ∀ v, c ≠ .getOrInsert (⟨100, by decide⟩ : Fin (2 ^ 8)) v := by
    intro t c hm
    simp [storedBeside, insertOvertaken] at hm
    rcases hm with ⟨-, rfl⟩ | ⟨-, rfl⟩ | ⟨-, rfl⟩ | ⟨-, rfl⟩ <;>
      exact ⟨by rintro ⟨⟩, by rintro ⟨⟩, by rintro _ ⟨⟩⟩
  obtain ⟨x, hx⟩ := run_linearizable hc .withConfig hops
    (meets_takesEffectOnce (.init hc .withConfig) hmeets) hrun
  exact ⟨s, x, hrun, hx⟩

/-- It stores the pair again when a remove has returned. -/
def storedAfter (k : K) (v : V) : List (Act K V) :=
  insertOvertaken k v ++ .call 1 (.remove k) :: List.replicate 8 (Act.step 1) ++
    List.replicate 11 (Act.step 0)

/-- What the child in the slot of the key holds. -/
def inChild (s : Sys K V) (k : K) : Option V :=
  let c := s.mem.cells s.mem.root.node
  (c.children (c.slotOf k)).elim none fun p =>
    let d := s.mem.cells p.node
    if (c.slots (c.slotOf k)).isChild ∧ (d.slots (d.slotOf k)).isChild = false then
      d.leafGet (d.slotOf k) k
    else none

theorem holds_of_inChild {v : V} (h : s.inChild k = some v) :
    s.mem.Holds k s.mem.root.node (some v) := by
  unfold inChild at h
  dsimp only at h
  cases hp : (s.mem.cells s.mem.root.node).children
      ((s.mem.cells s.mem.root.node).slotOf k) with
  | none => rw [hp] at h; cases h
  | some p =>
    rw [hp] at h
    simp only [Option.elim_some] at h
    split_ifs at h with hc
    exact .child hc.1 hp (h ▸ .leaf hc.2)

/-- **An insert that takes effect twice**: the pair that it has stored is in the rebuilt tree, and
    another thread has removed it there, when the insert stores it once more. -/
theorem removed_comes_back : ∃ s : Sys (Fin (2 ^ 8)) ℕ,
    (Sys.init (.withConfig {})).run (storedAfter ⟨100, by decide⟩ 1) = some s ∧ s.Quiescent ∧
      ¬ ∃ x, Linear.Linearizable Call.keyStep none (keyEvents ⟨100, by decide⟩ s.history) x ∧
        s.mem.Holds ⟨100, by decide⟩ s.mem.root.node x := by
  have ho : ((Sys.init (.withConfig {} : LearnedMap (Fin (2 ^ 8)) ℕ)).outcome 3
      (storedAfter ⟨100, by decide⟩ 1)) =
        some [.ret 0 (.insert ⟨100, by decide⟩ 1) (.bool true),
          .ret 1 (.remove ⟨100, by decide⟩) (.bool true), .inv 1 (.remove ⟨100, by decide⟩),
          .ret 2 .rebuild .unit, .inv 2 .rebuild, .inv 0 (.insert ⟨100, by decide⟩ 1)] ∧
      (((Sys.init (.withConfig {} : LearnedMap (Fin (2 ^ 8)) ℕ)).run
        (storedAfter ⟨100, by decide⟩ 1)).map fun s => s.inChild ⟨100, by decide⟩) =
          some (some 1) := by
    decide +kernel
  obtain ⟨s, hrun, hq, hh⟩ := outcome_eq_some ho.1 fun t c hm => by
    simp [storedAfter, insertOvertaken] at hm
    omega
  obtain ⟨s', hrun', hin⟩ := Option.map_eq_some_iff.1 ho.2
  obtain rfl := Option.some.inj (hrun.symm.trans hrun')
  refine ⟨s, hrun, hq, ?_⟩
  rintro ⟨x, hlin, hx⟩
  obtain rfl := hx.unique (holds_of_inChild hin)
  rw [hh] at hlin
  -- one after the other, the remove comes last
  obtain ⟨L, hperm, hseq⟩ := hlin.order fun t hr => by
    obtain ⟨h₀, h₁, h | h | h⟩ := hr
    · exact h₁ h
    · exact h₀ h
    · exact h
  rcases List.perm_pair.1 hperm with rfl | rfl
  · obtain ⟨y, ⟨_, rfl, hrem⟩, -⟩ := hseq
    cases hrem
  · obtain ⟨y, -, hrem⟩ := hseq
    cases hrem

end Sys

end Scry.Index
