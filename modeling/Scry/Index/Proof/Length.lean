/-
  The length of a map whose keys are used by one operation at a time.

  An operation changes the presence of its key before it counts the change, and returns
  after that.  So the length counts a key (`Counts`) that was present after the operations
  that have returned, but for the one change that has been counted already.
-/
import Scry.Index.Proof.Counters
import Scry.Index.Proof.Snapshot
import Scry.Index.Proof.Serial

namespace Scry.Index

variable {K V : Type} [LinearOrder K] [Key K] {m m' : Mem K V} {th th' : Thread K V} {k : K}
  {o : Option V} {next : Next K V}

omit [LinearOrder K] [Key K] in
theorem Pc.isDone_iff {pc : Pc K V} : pc.isDone = true ↔ pc = .count ∨ pc.counted = true := by
  cases pc <;> simp [Pc.isDone, Pc.counted]

omit [LinearOrder K] [Key K] in
theorem Pc.not_counted {pc : Pc K V} (h : pc.isDone = false) : pc.counted = false := by
  rw [← Bool.not_eq_true, Pc.isDone_iff, not_or] at h
  simpa using h.2

omit [LinearOrder K] [Key K] in
/-- A number that is changed by one after it wrapped around. -/
theorem wrapUsize_add (x y : ℤ) : wrapUsize (wrapUsize x + y) = wrapUsize (x + y) := by
  unfold wrapUsize
  omega

namespace Sys
variable {s s' : Sys K V} {t : ℕ}

/-- An operation on the key has counted a change that it has not returned yet. -/
def Ahead (s : Sys K V) (k : K) : Prop :=
  ∃ t th, s.threads t = some th ∧ th.call.key = some k ∧ th.pc.counted = true

/-- **The length counts the key.** -/
def Counts (s : Sys K V) (k : K) (o : Option V) : Prop :=
  (keyAfter k o s.history).isSome = true ↔ ¬ s.Ahead k

omit [Key K] in
theorem counts_of_not_ahead (h : ¬ s.Ahead k) :
    s.Counts k o ↔ (keyAfter k o s.history).isSome = true := iff_true_right h

theorem Use.only (h : Use o s k) (hth : s.threads t = some th) (hkey : th.call.key = some k) :
    OnlyUser s k t := by
  cases h with
  | idle hno => exact absurd hkey (hno _ _ hth)
  | looking _ _ honly => exact honly _ _ hth hkey ▸ honly
  | serving _ _ _ honly => exact honly _ _ hth hkey ▸ honly
  | done _ _ _ honly => exact honly _ _ hth hkey ▸ honly

omit [LinearOrder K] [Key K] in
/-- The only operation on the key says whether the length is ahead. -/
theorem OnlyUser.ahead_iff (h : OnlyUser s k t) (hth : s.threads t = some th)
    (hkey : th.call.key = some k) : s.Ahead k ↔ th.pc.counted = true := by
  constructor
  · rintro ⟨t', th', hth', hkey', hc⟩
    obtain rfl := h _ _ hth' hkey'
    obtain rfl := Option.some.inj (hth.symm.trans hth')
    exact hc
  · exact fun hc => ⟨t, th, hth, hkey, hc⟩

/-- What the next step of an operation that is the only one on its key is to its length:
    it counts a change, it comes after that, or it has changed nothing if it returns. -/
inductive Accounts (o : Option V) (th : Thread K V) (next : Next K V) : Prop
  | count (hpc : th.pc = .count) (hne : (th.call.keyStep o).1.isSome ≠ o.isSome)
  | after (hpc : th.pc.counted = true) (hne : (th.call.keyStep o).1.isSome ≠ o.isSome)
  | before (hpc : th.pc.isDone = false) (hgo : ∀ th', next = .goto th' → th'.pc.counted = false)
      (hret : ∀ reply, next = .ret reply → (th.call.keyStep o).1.isSome = o.isSome)

theorem Use.accounts [LawfulKey K] (hinv : s.Inv) (h : Use o s k) (hth : s.threads t = some th)
    (hkey : th.call.key = some k) (hpub : th.loadsClaimed s.mem k = false)
    (hstep : th.step s.config s.mem = some (m', next)) : Accounts o th next := by
  cases h with
  | idle hno => exact absurd hkey (hno _ _ hth)
  | looking hth₀ hc honly hs hf =>
    obtain rfl := honly _ _ hth hkey
    obtain rfl := Option.some.inj (hth.symm.trans hth₀)
    have hnd : ∀ {s : Sys K V} {th : Thread K V}, Finds (· = o) s k th → th.pc.isDone = false := by
      intro s th hf
      unfold Finds at hf
      cases hpc : th.pc <;> first | rfl | (simp only [hpc] at hf)
    refine .before (hnd hf) (fun th' hn => ?_) fun _ _ => by rw [hc]; rfl
    rcases hf.own hinv hs hth hc (fun hcl => by cases hpub.symm.trans hcl) hstep with
      ⟨th₁, hn₁, hf₁⟩ | ⟨x, hn₁, -⟩
    · cases hn₁.symm.trans hn
      exact Pc.not_counted (hnd hf₁)
    · cases hn₁.symm.trans hn
  | serving hth₀ _ hg honly hnd hserve =>
    obtain rfl := honly _ _ hth hkey
    obtain rfl := Option.some.inj (hth.symm.trans hth₀)
    rcases step_update hg hnd hstep with ⟨th₁, rfl, hnd₁⟩ | ⟨isNew, val, hpc, hroot, -⟩
    · refine .before hnd ?_ fun _ he => by cases he
      rintro th' ⟨⟩
      exact Pc.not_counted hnd₁
    · obtain ⟨-, ⟨th₁, rfl, hpc₁, -⟩ | ⟨rfl, hsame⟩⟩ :=
        hserve.root hinv hth hkey hg hpc hroot hstep
      · refine .before hnd ?_ fun _ he => by cases he
        rintro th' ⟨⟩
        rw [hpc₁]
        rfl
      · exact .before hnd (fun _ he => by cases he) fun _ _ => hsame
  | done hth₀ _ _ honly hd _ _ hne =>
    obtain rfl := honly _ _ hth hkey
    obtain rfl := Option.some.inj (hth.symm.trans hth₀)
    rcases Pc.isDone_iff.1 hd with hpc | hpc
    · exact .count hpc hne
    · exact .after hpc hne

omit [Key K] in
theorem Counts.invoke {call : Call K V} (hs : s.invoke t call = some s') :
    s'.Counts k o ↔ s.Counts k o := by
  have hthreads := @threads_of_invoke K V s s' t call hs
  have hrunning := invoke_eq_some hs
  have hahead : s'.Ahead k ↔ s.Ahead k := by
    constructor
    · rintro ⟨t', th, hth, hkey, hc⟩
      rcases hthreads hth with ⟨-, rfl⟩ | hth
      · cases call with
        | rebuild | drain | clear => cases hkey
        | _ => cases hc
      · exact ⟨t', th, hth, hkey, hc⟩
    · rintro ⟨t', th, hth, hkey, hc⟩
      obtain ⟨hnone, rfl⟩ := hrunning
      refine ⟨t', th, ?_, hkey, hc⟩
      refine (Function.update_of_ne ?_ _ _).trans hth
      rintro rfl
      cases hnone.symm.trans hth
  have hhist : keyAfter k o s'.history = keyAfter k o s.history := by
    obtain ⟨-, rfl⟩ := hrunning
    rfl
  unfold Counts
  rw [hahead, hhist]

/-- A step of an operation on another key. -/
theorem Counts.other [LawfulKey K] (hinv : s.Inv) (hth : s.threads t = some th)
    (hne : th.call.key ≠ some k) (hstep : th.step s.config s.mem = some (m', next)) :
    (s.proceed t th.call m' next).Counts k o ↔ s.Counts k o := by
  have hhist : keyAfter k o (s.proceed t th.call m' next).history = keyAfter k o s.history := by
    cases next with
    | goto => rfl
    | ret reply => simp only [proceed, keyAfter, if_neg hne]
  have hahead : (s.proceed t th.call m' next).Ahead k ↔ s.Ahead k := by
    constructor
    · rintro ⟨t', th', hth', hkey, hc⟩
      obtain ⟨th₀, hth₀, hcall⟩ := hinv.call_of_step hth hstep hth'
      by_cases ht : t' = t
      · subst ht
        obtain rfl := Option.some.inj (hth.symm.trans hth₀)
        exact absurd (hcall ▸ hkey) hne
      · exact ⟨t', th', by rwa [proceed_threads_of_ne ht] at hth', hkey, hc⟩
    · rintro ⟨t', th', hth', hkey, hc⟩
      refine ⟨t', th', ?_, hkey, hc⟩
      rw [proceed_threads_of_ne]
      · exact hth'
      · rintro rfl
        obtain rfl := Option.some.inj (hth.symm.trans hth')
        exact hne hkey
  unfold Counts
  rw [hahead, hhist]

/-- The step that counts a change is followed by those that come after it. -/
theorem counted_of_count (hpc : th.pc = .count) {config : Config}
    (hstep : th.step config m = some (m', .goto th')) : th'.pc.counted = true := by
  simp only [Thread.step, hpc, stepCount] at hstep
  split at hstep
  · cases hstep
  · split_ifs at hstep <;> cases hstep
    rfl

/-- **A step of the only operation on the key**: it changes what the length counts if and
    only if it counts the change of the key. -/
theorem Counts.own [LawfulKey K] (hinv : s.Inv) (hth : s.threads t = some th)
    (hkey : th.call.key = some k) (honly : OnlyUser s k t)
    (ha : Accounts (keyAfter k o s.history) th next)
    (hstep : th.step s.config s.mem = some (m', next)) :
    (s.proceed t th.call m' next).Counts k o ↔ (th.pc = .count ↔ ¬ s.Counts k o) := by
  have hold := honly.ahead_iff hth hkey
  have hret : ∀ {reply}, next = .ret reply → ¬ (s.proceed t th.call m' next).Ahead k ∧
      keyAfter k o (s.proceed t th.call m' next).history =
        (th.call.keyStep (keyAfter k o s.history)).1 := by
    rintro reply rfl
    refine ⟨?_, if_pos hkey⟩
    rintro ⟨t', th', hth', hkey', -⟩
    exact honly.returned hinv hth hstep _ _ hth' hkey'
  have hgo : ∀ {th'}, next = .goto th' →
      ((s.proceed t th.call m' next).Ahead k ↔ th'.pc.counted = true) ∧
      keyAfter k o (s.proceed t th.call m' next).history = keyAfter k o s.history := by
    rintro th' rfl
    have hcall : th'.call = th.call :=
      (step_next hinv.headroom hinv.root (hinv.ok hth) (hinv.locks hth) hstep).call
    exact ⟨(honly.step hinv hth hstep).ahead_iff (Function.update_self _ _ _) (hcall ▸ hkey), rfl⟩
  have hflip : ∀ {x : Option V}, (th.call.keyStep x).1.isSome ≠ x.isSome →
      ((th.call.keyStep x).1.isSome = true ↔ ¬ x.isSome = true) := by
    intro x
    cases (th.call.keyStep x).1.isSome <;> cases x.isSome <;> simp
  unfold Counts
  cases ha with
  | count hpc hne =>
    have hn : ¬ s.Ahead k := by
      rw [hold, hpc]
      rintro ⟨⟩
    cases next with
    | goto th' =>
      obtain ⟨ha', hh⟩ := hgo rfl
      rw [ha', hh, counted_of_count hpc hstep]
      simp [hn, hpc]
    | ret reply =>
      obtain ⟨ha', hh⟩ := hret rfl
      rw [hh, hflip hne]
      simp [hn, ha', hpc]
  | after hpc hne =>
    have hc : th.pc ≠ .count := by
      intro he
      rw [he] at hpc
      cases hpc
    cases next with
    | goto th' =>
      obtain ⟨ha', hh⟩ := hgo rfl
      rw [ha', hh, counted_step hpc hstep]
      simp [hold, hc, hpc]
    | ret reply =>
      obtain ⟨ha', hh⟩ := hret rfl
      rw [hh, hflip hne]
      simp [hold, ha', hc, hpc]
  | before hnd hg hr =>
    have hc : th.pc ≠ .count := by
      intro he
      rw [he] at hnd
      cases hnd
    have hn : ¬ s.Ahead k := by simp [hold, Pc.not_counted hnd]
    cases next with
    | goto th' =>
      obtain ⟨ha', hh⟩ := hgo rfl
      rw [ha', hh, hg _ rfl]
      simp [hn, hc, Option.isSome_iff_ne_none]
    | ret reply =>
      obtain ⟨ha', hh⟩ := hret rfl
      rw [hh, hr _ rfl]
      simp [hn, ha', hc, Option.isSome_iff_ne_none]

/-! ## Runs -/

/-- The length is the number of keys that it counts. -/
def LenCounts (s : Sys K V) (o : K → Option V) : Prop :=
  ∃ B : Finset K, s.mem.len = wrapUsize B.card ∧ ∀ k, k ∈ B ↔ s.Counts k (o k)

omit [Key K] in
theorem LenCounts.invoke {o : K → Option V} {call : Call K V} (h : s.LenCounts o)
    (hs : s.invoke t call = some s') : s'.LenCounts o := by
  obtain ⟨B, hlen, hB⟩ := h
  refine ⟨B, ?_, fun k => (hB k).trans (Counts.invoke hs).symm⟩
  obtain ⟨-, rfl⟩ := invoke_eq_some hs
  exact hlen

/-- **The step that counts a change** counts what was not counted, or takes off what was. -/
theorem count_step {B : Finset K} (hlen : s.mem.len = wrapUsize B.card)
    (hB : k ∈ B ↔ s.Counts k o) (hkey : th.call.key = some k) (hpc : th.pc = .count)
    (honly : OnlyUser s k t) (hth : s.threads t = some th)
    (hne : (th.call.keyStep (keyAfter k o s.history)).1.isSome ≠ (keyAfter k o s.history).isSome)
    (hstep : th.step s.config s.mem = some (m', next)) :
    ∃ B' : Finset K, m'.len = wrapUsize B'.card ∧ (k ∈ B' ↔ k ∉ B) ∧
      ∀ k', k' ≠ k → (k' ∈ B' ↔ k' ∈ B) := by
  have hcount : s.Counts k o ↔ (keyAfter k o s.history).isSome = true := by
    refine counts_of_not_ahead ?_
    rw [honly.ahead_iff hth hkey, hpc]
    rintro ⟨⟩
  have hm : m' = (stepCount s.config s.mem th).1 := by
    simp only [Thread.step, hpc, Option.some.injEq] at hstep
    rw [hstep]
  have hadd : (keyAfter k o s.history).isSome = false →
      m'.len = wrapUsize (s.mem.len + 1) → ∃ B' : Finset K, m'.len = wrapUsize B'.card ∧
        (k ∈ B' ↔ k ∉ B) ∧ ∀ k', k' ≠ k → (k' ∈ B' ↔ k' ∈ B) := by
    intro hx hl
    have hnot : k ∉ B := by simp [hB, hcount, hx]
    refine ⟨Insert.insert k B, ?_, by simp [hnot], fun k' hk => by simp [hk]⟩
    rw [hl, hlen, wrapUsize_add, Finset.card_insert_of_notMem hnot]
    push_cast
    rfl
  cases hc : th.call with
  | remove key =>
    have hin : k ∈ B := by
      rw [hB, hcount]
      rw [hc] at hne
      simpa [Call.keyStep, Option.isSome_iff_ne_none] using hne
    refine ⟨B.erase k, ?_, by simp [hin], fun k' hk => by simp [hk]⟩
    have hcard := Finset.card_erase_add_one hin
    rw [hm, stepCount, hc]
    dsimp only
    rw [hlen, sub_eq_add_neg, wrapUsize_add, ← hcard]
    push_cast
    congr 1
    ring
  | insert key v =>
    refine hadd ?_ (by rw [hm, stepCount, hc])
    rw [hc] at hne
    simpa [Call.keyStep] using hne
  | getOrInsert key v =>
    refine hadd ?_ (by rw [hm, stepCount, hc])
    rw [hc] at hne
    cases hx : keyAfter k o s.history with
    | none => rfl
    | some w => rw [hx] at hne; exact absurd rfl hne
  | get key => rw [hc] at hne; exact absurd rfl hne
  | _ => rw [hc] at hkey; cases hkey

theorem LenCounts.step [LawfulKey K] {o : K → Option V} (hinv : s.Inv) (hreg : s.Regular)
    (hser : ∀ k, SerialKey k (o k) s) (h : s.LenCounts o) (hth : s.threads t = some th)
    (hd : th.call ≠ .drain) (hcl : th.call ≠ .clear)
    (hpub : ∀ k, th.loadsClaimed s.mem k = false)
    (hstep : th.step s.config s.mem = some (m', next)) :
    (s.proceed t th.call m' next).LenCounts o := by
  obtain ⟨B, hlen, hB⟩ := h
  have hquiet : th.pc ≠ .count → (s.proceed t th.call m' next).mem.len = wrapUsize B.card := by
    intro hpc
    rw [proceed_mem, step_len hpc ((hreg hth).not_subtract hd hcl) hstep]
    exact hlen
  cases hkey : th.call.key with
  | none =>
    have hpc : th.pc ≠ .count := by
      intro hpc
      obtain ⟨k, hk, -⟩ := (hreg hth).counting hpc
      cases hkey.symm.trans hk
    have hne : ∀ k, th.call.key ≠ some k := by
      rw [hkey]
      rintro k ⟨⟩
    exact ⟨B, hquiet hpc, fun k => (hB k).trans (Counts.other hinv hth (hne k) hstep).symm⟩
  | some k =>
    have hne : ∀ k', k' ≠ k → th.call.key ≠ some k' := by
      rintro k' hk he
      exact hk (Option.some.inj (he.symm.trans hkey))
    have honly := (hser k).use.only hth hkey
    have hacc := (hser k).use.accounts hinv hth hkey (hpub k) hstep
    have hown := Counts.own hinv hth hkey honly hacc hstep
    by_cases hpc : th.pc = .count
    · have hchange : (th.call.keyStep (keyAfter k (o k) s.history)).1.isSome ≠
          (keyAfter k (o k) s.history).isSome := by
        cases hacc with
        | count _ hne => exact hne
        | after hc => rw [hpc] at hc; cases hc
        | before hnd => rw [hpc] at hnd; cases hnd
      obtain ⟨B', hlen', hin, hout⟩ := count_step hlen (hB k) hkey hpc honly hth hchange hstep
      refine ⟨B', by rw [proceed_mem]; exact hlen', fun k' => ?_⟩
      by_cases hk : k' = k
      · subst hk
        rw [hin, hown, hB]
        simp [hpc]
      · rw [hout k' hk, hB, Counts.other hinv hth (hne k' hk) hstep]
    · refine ⟨B, hquiet hpc, fun k' => ?_⟩
      by_cases hk : k' = k
      · subst hk
        rw [hown, hB]
        simp [hpc]
      · rw [hB, Counts.other hinv hth (hne k' hk) hstep]

/-- What holds of a run in which the operations on each key come one at a time. -/
structure SerialMap (o : K → Option V) (s : Sys K V) : Prop where
  inv : s.Inv
  regular : s.Regular
  calls (t : ℕ) (th : Thread K V) : s.threads t = some th → th.call ≠ .drain ∧ th.call ≠ .clear
  serial (k : K) : SerialKey k (o k) s
  len : s.LenCounts o

theorem SerialMap.init [LawfulKey K] {config : Config} (hc : config.Valid) {map : LearnedMap K V}
    {pairs : List (K × V)} (hs : Starts config map pairs) (hfit : pairs.length < 2 ^ 64) :
    SerialMap (fun k => pairs.lookup k) (Sys.init map) where
  inv := .init hc hs
  regular _ _ hth := by cases hth
  calls _ _ hth := by cases hth
  serial k := ⟨trivial, .idle (fun _ _ hth => (nomatch hth)) (.init hc hs rfl)⟩
  len := by
    obtain ⟨m, hm, href⟩ := hs.refines hc
    obtain ⟨B, hcard, hB⟩ := m.exists_finset
    refine ⟨B, ?_, fun k => ?_⟩
    · rw [hcard, SortedMap.len, hm, wrapUsize_of_lt rfl hfit]
      exact (Node.Pristine.ofStarts hs).2
    · rw [hB, counts_of_not_ahead]
      · rw [SortedMap.get, hm]
        rfl
      · rintro ⟨t, th, hth, -⟩
        cases hth

/-- **Step lemma**. -/
theorem SerialMap.act [LawfulKey K] {o : K → Option V} {a : Act K V} (h : SerialMap o s)
    (hops : ∀ t c, a = .call t c → c ≠ .drain ∧ c ≠ .clear)
    (ha : ∀ k, InvokedAlone k s a ∧ loadsPublished k s a = true) (hs : s.act a = some s') :
    SerialMap o s' where
  inv := h.inv.act hs
  regular := h.regular.act h.inv hs
  calls := running_act (C := fun c => c ≠ .drain ∧ c ≠ .clear) h.inv h.calls hops hs
  serial k := (h.serial k).act h.inv h.calls (ha k).1 (ha k).2 hs
  len := by
    cases a with
    | call t c => exact h.len.invoke hs
    | step t =>
      obtain ⟨th, m', next, hth, hstep, rfl⟩ := step_eq_some hs
      refine h.len.step h.inv h.regular h.serial hth (h.calls _ _ hth).1 (h.calls _ _ hth).2
        (fun k => ?_) hstep
      simpa [loadsPublished, hth] using (ha k).2

/-- **A map whose keys are used by one operation at a time** is a sorted map once no operation
    is in flight, and its length is exact. -/
theorem run_lenExact [LawfulKey K] {config : Config} (hc : config.Valid) {map : LearnedMap K V}
    {pairs : List (K × V)} (hs : Starts config map pairs) (hfit : pairs.length < 2 ^ 64)
    {sched : List (Act K V)} (hops : ∀ t c, .call t c ∈ sched → c ≠ .drain ∧ c ≠ .clear)
    (hrun : (Sys.init map).run sched = some s)
    (hmeets : ∀ k, Run.Meets act (fun s a => InvokedAlone k s a ∧ loadsPublished k s a = true)
      (Sys.init map) sched)
    (hq : s.Quiescent) :
    ∃ m : SortedMap K V, (∀ k, m.get k = keyAfter k (pairs.lookup k) s.history) ∧
      s.mem.Contents m.toList ∧ s.mem.len = wrapUsize m.len := by
  have hend := Run.run_induct
    (fun {s a s'} (h : SerialMap (fun k => pairs.lookup k) s) ha hact =>
      h.act (fun t c he => hops t c (he ▸ ha.2)) ha.1 hact)
    (.init hc hs hfit) ((Run.Meets.forall hmeets).and (Run.Meets.mem sched)) hrun
  have hidle : ∀ {k}, ∀ t th, s.threads t = some th → th.call.key ≠ some k := by
    intro k t th hth
    cases (hq t).symm.trans hth
  obtain ⟨B, hlen, hB⟩ := hend.len
  obtain ⟨m, hget, hcard⟩ := SortedMap.exists_of_finset B
    (fun k => keyAfter k (pairs.lookup k) s.history) fun k => by
      rw [hB, counts_of_not_ahead]
      rintro ⟨t, th, hth, -⟩
      cases (hq t).symm.trans hth
  refine ⟨m, hget, ⟨m.ascending, fun k => ?_⟩, by rw [hlen, hcard]⟩
  have hh := (hend.serial k).holds hidle
  rw [← hget k] at hh
  exact hh

/-- An operation on some key loads the state of a slot that is claimed. -/
def loadsOwnClaimed (s : Sys K V) : Act K V → Bool
  | .step t => (s.threads t).any fun th => th.call.key.any fun k => th.loadsClaimed s.mem k
  | .call _ _ => false

theorem loadsPublished_of_own {a : Act K V} (h : loadsOwnClaimed s a = false) (k : K) :
    loadsPublished k s a = true := by
  cases a with
  | call t c => rfl
  | step t =>
    cases hth : s.threads t with
    | none => simp only [loadsPublished, hth, Option.map_none]; rfl
    | some th =>
      simp only [loadsOwnClaimed, hth, Option.any_some] at h
      simp only [loadsPublished, hth, Option.map_some, bne_iff_ne, ne_eq, Option.some.injEq]
      intro hc
      -- the key is that of the operation
      have hkey : th.call.key = some k := by
        unfold Thread.loadsClaimed at hc
        split at hc
        · exact of_decide_eq_true (Bool.and_eq_true _ _ ▸ hc).1
        · cases hc
      rw [hkey, Option.any_some, hc] at h
      cases h

/-- Two threads with keys of their own: the tree of one insert is rebuilt by the other
    thread, whose insert overlaps the remove that follows. -/
def twoOwners (k k' : K) (v v' : V) : List (Act K V) :=
  .call 0 (.insert k v) :: List.replicate 4 (Act.step 0) ++
    Act.call 1 .rebuild :: List.replicate 70 (Act.step 1) ++ List.replicate 10 (Act.step 0) ++
    Act.call 1 (.insert k' v') :: List.replicate 3 (Act.step 1) ++
    Act.call 0 (.remove k) :: List.replicate 10 (Act.step 0) ++ List.replicate 7 (Act.step 1)

theorem run_lenExact_twoOwners : ∃ s : Sys (Fin (2 ^ 8)) ℕ,
    (Sys.init (.withConfig {})).run (twoOwners ⟨100, by decide⟩ ⟨200, by decide⟩ 1 2) = some s ∧
    ∃ m : SortedMap (Fin (2 ^ 8)) ℕ,
      (∀ k, m.get k = keyAfter k (([] : List (Fin (2 ^ 8) × ℕ)).lookup k) s.history) ∧
      s.mem.Contents m.toList ∧ s.mem.len = wrapUsize m.len := by
  have := lawfulKey_unsigned (show 8 ≤ 64 by decide)
  have hconf : ({} : Config).Valid := ⟨one_le_two, le_rfl⟩
  have ho : ((Sys.init (.withConfig {} : LearnedMap (Fin (2 ^ 8)) ℕ)).outcome 2
      (twoOwners ⟨100, by decide⟩ ⟨200, by decide⟩ 1 2)).isSome := by
    decide +kernel
  have hpub : Run.Meets act (fun s a => loadsOwnClaimed s a = false)
      (Sys.init (.withConfig {} : LearnedMap (Fin (2 ^ 8)) ℕ))
      (twoOwners ⟨100, by decide⟩ ⟨200, by decide⟩ 1 2) := by
    decide +kernel
  have hcalls : ∀ t c, Act.call t c ∈ twoOwners (⟨100, by decide⟩ : Fin (2 ^ 8)) ⟨200, by decide⟩ 1 2 →
      t < 2 ∧ c ≠ .drain ∧ c ≠ .clear ∧
        ∀ k, c.key = some k → t = if k = (⟨200, by decide⟩ : Fin (2 ^ 8)) then 1 else 0 := by
    intro t c hm
    simp [twoOwners] at hm
    rcases hm with ⟨rfl, rfl⟩ | ⟨rfl, rfl⟩ | ⟨rfl, rfl⟩ | ⟨rfl, rfl⟩ <;>
      refine ⟨by omega, by rintro ⟨⟩, by rintro ⟨⟩, ?_⟩ <;> rintro k ⟨⟩ <;> rfl
  obtain ⟨_, hout⟩ := Option.isSome_iff_exists.1 ho
  obtain ⟨s, hrun, hq, -⟩ := outcome_eq_some hout fun t c hm => (hcalls t c hm).1
  refine ⟨s, hrun, run_lenExact hconf .withConfig (Nat.two_pow_pos 64)
    (fun t c hm => ⟨(hcalls t c hm).2.1, (hcalls t c hm).2.2.1⟩) hrun (fun k => ?_) hq⟩
  have halone := meets_invokedAlone (k := k) (Inv.init hconf .withConfig)
    (fun _ _ hth => nomatch hth) (fun t c hm hk => (hcalls t c hm).2.2.2 k hk) hrun
  have hpub := hpub.of_invariant (I := fun _ => True) (fun _ _ _ => trivial)
    (fun _ h => loadsPublished_of_own h k) trivial
  exact halone.and hpub

end Sys

end Scry.Index
