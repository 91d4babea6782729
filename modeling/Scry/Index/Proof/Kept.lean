/-
  No lost insert and no resurrected key under rebuilds.

  The last insert of a key vouches for it until it finds its root in place; from then on
  the map is sure to hold what an insert supplied that did not return before
  (`InsertKept`).
-/
import Scry.Index.Proof.Obliged

namespace Scry.Index

variable {K V : Type} [LinearOrder K] [Key K] {m m' : Mem K V} {th th' : Thread K V} {k : K}
  {P : Option V → Prop} {next : Next K V}

namespace Sys
variable {s s' : Sys K V} {t : ℕ} {newer older : List (Event K V)}

/-! ## Inserts -/

/-- An insert of the key that is running, or that returned in the recent part of the
    history, supplied the value. -/
def Recent (s : Sys K V) (newer : List (Event K V)) (k : K) (o : Option V) : Prop :=
  ∃ v, o = some v ∧ ((∃ t th, s.threads t = some th ∧ th.call = .insert k v) ∨
    ∃ t reply, .ret t (.insert k v) reply ∈ newer)

/-- The events that a step adds to the history. -/
def events (t : ℕ) (call : Call K V) : Next K V → List (Event K V)
  | .goto _ => []
  | .ret reply => [.ret t call reply]

omit [LinearOrder K] [Key K] in
theorem proceed_history (call : Call K V) (m : Mem K V) (next : Next K V) :
    (s.proceed t call m next).history = events t call next ++ s.history := by
  cases next <;> rfl

/-- The insert that takes a step is recent afterwards. -/
theorem recent_self [LawfulKey K] (hinv : s.Inv) (hth : s.threads t = some th)
    (hstep : th.step s.config s.mem = some (m', next)) {v : V} (hc : th.call = .insert k v) :
    Recent (s.proceed t th.call m' next) (events t th.call next ++ newer) k (some v) := by
  have hnext := step_next hinv.headroom hinv.root (hinv.ok hth) (hinv.locks hth) hstep
  refine ⟨v, rfl, ?_⟩
  cases next with
  | goto th' => exact Or.inl ⟨t, th', Function.update_self _ _ _, hnext.call.trans hc⟩
  | ret reply => exact Or.inr ⟨t, reply, by rw [← hc]; exact List.mem_cons_self⟩

/-- What is recent stays recent. -/
theorem Recent.step [LawfulKey K] (hinv : s.Inv) (hth : s.threads t = some th)
    (hstep : th.step s.config s.mem = some (m', next)) {o : Option V} (h : Recent s newer k o) :
    Recent (s.proceed t th.call m' next) (events t th.call next ++ newer) k o := by
  obtain ⟨v, rfl, ⟨t', th', hth', hc⟩ | ⟨t', reply, hr⟩⟩ := h
  · by_cases ht : t' = t
    · subst ht
      cases hth.symm.trans hth'
      exact recent_self hinv hth hstep hc
    · exact ⟨v, rfl, Or.inl ⟨t', th', (proceed_threads_of_ne ht _ _ _).trans hth', hc⟩⟩
  · exact ⟨v, rfl, Or.inr ⟨t', reply, List.mem_append_right _ hr⟩⟩

omit [LinearOrder K] [Key K] in
theorem Recent.invoke {call : Call K V} (hs : s.invoke t call = some s') {o : Option V}
    (h : Recent s newer k o) : Recent s' (.inv t call :: newer) k o := by
  obtain ⟨hnone, rfl⟩ := invoke_eq_some hs
  obtain ⟨v, rfl, ⟨t', th', hth', hc⟩ | ⟨t', reply, hr⟩⟩ := h
  · refine ⟨v, rfl, Or.inl ⟨t', th', ?_, hc⟩⟩
    have ht : t' ≠ t := by
      rintro rfl
      cases hnone.symm.trans hth'
    exact (Function.update_of_ne ht _ _).trans hth'
  · exact ⟨v, rfl, Or.inr ⟨t', reply, List.mem_cons_of_mem _ hr⟩⟩

/-- The calls of a run in which the key is only inserted and looked up. -/
def OnlyInserts (k : K) (c : Call K V) : Prop :=
  c ≠ .drain ∧ c ≠ .clear ∧ (c.key = some k → c = .get k ∨ ∃ v, c = .insert k v)

/-- After the invocation of the last insert of the key, by thread `B`: it vouches for a
    recent value of the key, or the map is sure of one. -/
def InsertKept (k : K) (B : ℕ) (older : List (Event K V)) (s : Sys K V) : Prop :=
  ∃ newer, s.history = newer ++ older ∧ (∀ t v, .inv t (.insert k v) ∉ newer) ∧
    ((∃ th v, s.threads B = some th ∧ th.call = .insert k v ∧ th.pc.isDone = false ∧
      Vouches (Recent s newer k) s k th) ∨ SureRoot (Recent s newer k) s k)

theorem InsertKept.invoke {B : ℕ} (h : InsertKept k B older s) {call : Call K V}
    (hc : ∀ v, call ≠ .insert k v) (hs : s.invoke t call = some s') : InsertKept k B older s' := by
  obtain ⟨newer, hh, hnew, hk⟩ := h
  have hrec : ∀ o, Recent s newer k o → Recent s' (.inv t call :: newer) k o :=
    fun o => Recent.invoke hs
  refine ⟨.inv t call :: newer, ?_, fun t' v hm => ?_, ?_⟩
  · obtain ⟨-, rfl⟩ := invoke_eq_some hs
    rw [List.cons_append, ← hh]
  · rcases List.mem_cons.1 hm with hm | hm
    · cases hm
      exact hc v rfl
    · exact hnew t' v hm
  · rcases hk with ⟨th, v, hth, hcall, hnd, hv⟩ | hsure
    · refine Or.inl ⟨th, v, ?_, hcall, hnd, (hv.imp hrec).invoke hs⟩
      obtain ⟨hnone, rfl⟩ := invoke_eq_some hs
      have ht : B ≠ t := by
        rintro rfl
        cases hnone.symm.trans hth
      exact (Function.update_of_ne ht _ _).trans hth
    · exact Or.inr ((hsure.imp hrec).invoke hs)

theorem InsertKept.step [LawfulKey K] {B : ℕ} (hinv : s.Inv) (hC : Calls (OnlyInserts k) s)
    (h : InsertKept k B older s) (hs : s.step t = some s') : InsertKept k B older s' := by
  obtain ⟨newer, hh, hnew, hk⟩ := h
  obtain ⟨th, m', next, hth, hstep, rfl⟩ := step_eq_some hs
  obtain ⟨hd, hcl, hins⟩ := hC.running hth
  have hrec : ∀ o, Recent s newer k o →
      Recent (s.proceed t th.call m' next) (events t th.call next ++ newer) k o :=
    fun o => Recent.step hinv hth hstep
  have hr : Respects (Recent (s.proceed t th.call m' next) (events t th.call next ++ newer) k)
      s.mem k th := by
    refine ⟨fun v _ hkey hv _ => ?_, fun _ _ hc => ?_⟩
    · obtain hc | ⟨v', hc⟩ := hins hkey
      · rw [hc] at hv; cases hv
      · obtain rfl : v' = v := by rw [hc] at hv; exact Option.some.inj hv
        exact recent_self hinv hth hstep hc
    · obtain hc' | ⟨v', hc'⟩ := hins (by rw [hc]; rfl)
      · cases hc.symm.trans hc'
      · cases hc.symm.trans hc'
  refine ⟨events t th.call next ++ newer, ?_, fun t' v hm => ?_, ?_⟩
  · rw [proceed_history, List.append_assoc, ← hh]
  · rcases List.mem_append.1 hm with hm | hm
    · cases next with
      | goto => cases hm
      | ret => cases List.mem_singleton.1 hm
    · exact hnew t' v hm
  · rcases hk with ⟨thB, v, hthB, hcall, hnd, hv⟩ | hsure
    · by_cases hB : B = t
      · subst hB
        obtain rfl := Option.some.inj (hth.symm.trans hthB)
        rcases (hv.imp hrec).insert hinv hth hcall (recent_self hinv hth hstep hcall) hnd hstep with
          ⟨th', rfl, hnd', hcall', hv'⟩ | ⟨-, hsure⟩
        · exact Or.inl ⟨th', v, Function.update_self _ _ _, hcall'.trans hcall, hnd', hv'⟩
        · exact Or.inr hsure
      · exact Or.inl ⟨thB, v, (proceed_threads_of_ne hB _ _ _).trans hthB, hcall, hnd,
          (hv.imp hrec).other hinv hthB (fun k' he => nomatch hcall.symm.trans he) hth hstep hr⟩
    · refine Or.inr ((hsure.imp hrec).step hinv hth hstep hr fun r pairs _ hc => ?_)
      rcases hc with hc | hc
      · exact absurd hc hd
      · exact absurd hc hcl

/-! ## Removes -/

/-- The calls of a run in which the key is only removed and looked up. -/
def OnlyRemoves (k : K) (c : Call K V) : Prop := c.key = some k → c = .get k ∨ c = .remove k

/-- The absence of a key that is only removed stays pursued. -/
theorem OnlyRemoves.pursued [LawfulKey K] (hinv : s.Inv) (hC : Calls (OnlyRemoves k) s)
    (h : Pursued (· = none) s k) {a : Act K V} (ha : s.act a = some s') :
    Pursued (· = none) s' k := by
  cases a with
  | call t call => exact h.invoke ha
  | step t =>
    obtain ⟨th, m', next, hth, hstep, rfl⟩ := step_eq_some ha
    refine h.step hinv hth (fun hw hkey => Or.inl ?_) (fun _ _ _ _ _ => rfl) hstep
    rcases hC.running hth hkey with hc | hc
    · exact absurd hc (hinv.not_get hth hw k)
    · rw [hc]
      rfl

/-! ## Runs -/

/-- The value of an insert of the key that no other insert of the key wholly follows. -/
def LastInsert (history : List (Event K V)) (k : K) (v : V) : Prop :=
  ∃ newer t reply older, history = newer ++ .ret t (.insert k v) reply :: older ∧
    ∀ t' v', .inv t' (.insert k v') ∉ newer

/-- **An inserted key is kept** by rebuilds, with the value of a last insert. -/
theorem lastInsert_answers [LawfulKey K] {config : Config} (hc : config.Valid)
    {map : LearnedMap K V} {pairs : List (K × V)} (hs : Starts config map pairs)
    {sched : List (Act K V)} (hops : ∀ t c, .call t c ∈ sched → OnlyInserts k c)
    (hrun : (Sys.init map).run sched = some s) (hq : s.Quiescent)
    (hr : ∃ t v reply, .ret t (.insert k v) reply ∈ s.history) :
    ∃ v, LastInsert s.history k v ∧ s.Answers k (some v) := by
  obtain ⟨t, v, reply, hr⟩ := hr
  have hinit := Inv.init hc hs
  have hend := hinit.run hrun
  obtain ⟨sched₁, B, c, sched₂, s₁, s₂, rfl, ⟨vB, rfl⟩, hlast, h₁, h₂, h₃⟩ :=
    exists_last_call (p := fun c => ∃ v, c = .insert k v) hinit hrun hr ⟨v, rfl⟩
  have hinv₁ := hinit.run h₁
  have hinv₂ := hinv₁.invoke h₂
  have hC₁ := (Calls.init (C := OnlyInserts k) map).run hinit
    (fun t c hm => hops t c (List.mem_append_left _ hm)) h₁
  have hC₂ := hC₁.act hinv₁ (fun t c he => hops t c (List.mem_append_right _
    (he ▸ List.mem_cons_self))) (a := .call B (.insert k vB)) h₂
  have hkept₂ : InsertKept k B s₂.history s₂ := by
    refine ⟨[], rfl, nofun, Or.inl ⟨.start (.insert k vB), vB, ?_, rfl, rfl, trivial⟩⟩
    obtain ⟨-, rfl⟩ := invoke_eq_some h₂
    exact Function.update_self _ _ _
  have hkept : s.Inv ∧ Calls (OnlyInserts k) s ∧ InsertKept k B s₂.history s := by
    refine Run.run_induct (C := fun _ a => a ∈ sched₂)
      (I := fun s => s.Inv ∧ Calls (OnlyInserts k) s ∧ InsertKept k B s₂.history s)
      (fun {s a s'} h ha hact => ?_) ⟨hinv₂, hC₂, hkept₂⟩ (Run.Meets.mem sched₂) h₃
    obtain ⟨hinv, hC, hk⟩ := h
    refine ⟨hinv.act hact, hC.act hinv (fun t c he => ?_) hact, ?_⟩
    · exact hops t c (List.mem_append_right _ (List.mem_cons_of_mem _ (he ▸ ha)))
    · cases a with
      | call t c => exact hk.invoke (fun v he => hlast t c ha ⟨v, he⟩) hact
      | step t => exact hk.step hinv hC hact
  obtain ⟨newer, hh, hnew, ⟨th, v, hth, -⟩ | hsure⟩ := hkept.2.2
  · rw [hq B] at hth
    cases hth
  · obtain ⟨o, ⟨v, rfl, hrec⟩, hans⟩ := hsure.answers hend hq
    refine ⟨v, ?_, hans⟩
    rcases hrec with ⟨t', th, hth, -⟩ | ⟨t', reply', hm⟩
    · rw [hq t'] at hth
      cases hth
    · obtain ⟨a, b, rfl⟩ := List.append_of_mem hm
      refine ⟨a, t', reply', b ++ s₂.history, by rw [hh, List.append_assoc]; rfl, fun t v hm => ?_⟩
      exact hnew t v (List.mem_append_left _ hm)

/-- **A removed key is not resurrected** by rebuilds. -/
theorem removed_answers [LawfulKey K] {config : Config} (hc : config.Valid)
    {map : LearnedMap K V} {pairs : List (K × V)} (hs : Starts config map pairs)
    {sched : List (Act K V)} (hops : ∀ t c, .call t c ∈ sched → OnlyRemoves k c)
    (hrun : (Sys.init map).run sched = some s) (hq : s.Quiescent)
    (hr : ∃ t reply, .ret t (.remove k) reply ∈ s.history) : s.Answers k none := by
  obtain ⟨t, reply, hr⟩ := hr
  have hinit := Inv.init hc hs
  have hend := hinit.run hrun
  obtain ⟨sched₁, B, c, sched₂, s₁, s₂, rfl, rfl, -, h₁, h₂, h₃⟩ :=
    exists_last_call (p := fun c => c = .remove k) hinit hrun hr rfl
  have hinv₁ := hinit.run h₁
  have hC₁ := (Calls.init (C := OnlyRemoves k) map).run hinit
    (fun t c hm => hops t c (List.mem_append_left _ hm)) h₁
  have hC₂ := hC₁.act hinv₁ (fun t c he => hops t c (List.mem_append_right _
    (he ▸ List.mem_cons_self))) (a := .call B (.remove k)) h₂
  have hkept₂ : Pursued (· = none) s₂ k :=
    Or.inl (Obliged.start h₂ rfl rfl)
  have hkept : s.Inv ∧ Calls (OnlyRemoves k) s ∧ Pursued (· = none) s k := by
    refine Run.run_induct (C := fun _ a => a ∈ sched₂)
      (I := fun s => s.Inv ∧ Calls (OnlyRemoves k) s ∧ Pursued (· = none) s k)
      (fun {s a s'} h ha hact => ?_) ⟨hinv₁.invoke h₂, hC₂, hkept₂⟩ (Run.Meets.mem sched₂) h₃
    obtain ⟨hinv, hC, hk⟩ := h
    refine ⟨hinv.act hact, hC.act hinv (fun t c he => ?_) hact, OnlyRemoves.pursued hinv hC hk hact⟩
    exact hops t c (List.mem_append_right _ (List.mem_cons_of_mem _ (he ▸ ha)))
  obtain ⟨o, rfl, hans⟩ := (hkept.2.2.quiescent hq).answers hend hq
  exact hans

/-- **No lost insert and no resurrected key under rebuilds.** -/
theorem run_kept [LawfulKey K] {config : Config} (hc : config.Valid) {map : LearnedMap K V}
    {pairs : List (K × V)} (hs : Starts config map pairs) {sched : List (Act K V)}
    (hops : ∀ t c, .call t c ∈ sched → c ≠ .drain ∧ c ≠ .clear)
    (hrun : (Sys.init map).run sched = some s) (hq : s.Quiescent) (k : K) :
    ((∀ t c, .call t c ∈ sched → c.key = some k → c = .get k ∨ ∃ v, c = .insert k v) →
      (∃ t v reply, .ret t (.insert k v) reply ∈ s.history) →
      ∃ v, LastInsert s.history k v ∧ s.Answers k (some v)) ∧
    ((∀ t c, .call t c ∈ sched → c.key = some k → c = .get k ∨ c = .remove k) →
      (∃ t reply, .ret t (.remove k) reply ∈ s.history) → s.Answers k none) :=
  ⟨fun hk => lastInsert_answers hc hs
    (fun t c hm => ⟨(hops t c hm).1, (hops t c hm).2, hk t c hm⟩) hrun hq,
   fun hk => removed_answers hc hs (fun t c hm => hk t c hm) hrun hq⟩

/-- Two inserts of a key and a remove of another one.  A rebuild replaces the tree in which
    the first insert has stored its value and the remove has begun; the first insert comes
    back while the second one holds the slot. -/
def overlapping (k k' : K) (v v' : V) : List (Act K V) :=
  .call 0 (.insert k v) :: List.replicate 4 (Act.step 0) ++ [Act.call 2 (.remove k'), .step 2] ++
    Act.call 1 .rebuild :: List.replicate 70 (Act.step 1) ++
    Act.call 1 (.insert k v') :: List.replicate 3 (Act.step 1) ++ List.replicate 6 (Act.step 0) ++
    List.replicate 3 (Act.step 1) ++ List.replicate 9 (Act.step 0) ++ List.replicate 9 (Act.step 2)

theorem run_kept_overlapping : ∃ s : Sys (Fin (2 ^ 8)) ℕ,
    (Sys.init (.withConfig {})).run
      (overlapping ⟨100, by decide⟩ ⟨7, by decide⟩ 1 2) = some s ∧
    (∃ v, LastInsert s.history ⟨100, by decide⟩ v ∧ s.Answers ⟨100, by decide⟩ (some v)) ∧
    s.Answers ⟨7, by decide⟩ none := by
  have := lawfulKey_unsigned (show 8 ≤ 64 by decide)
  have hc : ({} : Config).Valid := ⟨one_le_two, le_rfl⟩
  have ho : (Sys.init (.withConfig {} : LearnedMap (Fin (2 ^ 8)) ℕ)).outcome 3
      (overlapping ⟨100, by decide⟩ ⟨7, by decide⟩ 1 2) =
      some [.ret 2 (.remove ⟨7, by decide⟩) (.bool false),
        .ret 0 (.insert ⟨100, by decide⟩ 1) (.bool true),
        .ret 1 (.insert ⟨100, by decide⟩ 2) (.bool false), .inv 1 (.insert ⟨100, by decide⟩ 2),
        .ret 1 .rebuild .unit, .inv 1 .rebuild, .inv 2 (.remove ⟨7, by decide⟩),
        .inv 0 (.insert ⟨100, by decide⟩ 1)] := by
    decide +kernel
  have hcalls : ∀ t c, Act.call t c ∈
      overlapping (⟨100, by decide⟩ : Fin (2 ^ 8)) ⟨7, by decide⟩ (1 : ℕ) 2 → t < 3 ∧
      (c = .insert ⟨100, by decide⟩ 1 ∨ c = .remove ⟨7, by decide⟩ ∨ c = .rebuild ∨
        c = .insert ⟨100, by decide⟩ 2) := by
    intro t c hm
    simp [overlapping] at hm
    rcases hm with ⟨rfl, rfl⟩ | ⟨rfl, rfl⟩ | ⟨rfl, rfl⟩ | ⟨rfl, rfl⟩ <;> simp
  obtain ⟨s, hrun, hq, hh⟩ := outcome_eq_some ho fun t c hm => (hcalls t c hm).1
  have hkept := run_kept hc .withConfig (fun t c hm => by
    rcases (hcalls t c hm).2 with rfl | rfl | rfl | rfl <;> simp) hrun hq
  refine ⟨s, hrun, (hkept _).1 (fun t c hm hk => ?_) ⟨0, 1, .bool true, ?_⟩,
    (hkept _).2 (fun t c hm hk => ?_) ⟨2, .bool false, ?_⟩⟩
  · rcases (hcalls t c hm).2 with rfl | rfl | rfl | rfl
    · exact Or.inr ⟨1, rfl⟩
    · cases hk
    · cases hk
    · exact Or.inr ⟨2, rfl⟩
  · rw [hh]
    simp
  · rcases (hcalls t c hm).2 with rfl | rfl | rfl | rfl
    · cases hk
    · exact Or.inr rfl
    · cases hk
    · cases hk
  · rw [hh]
    simp

end Sys

end Scry.Index
