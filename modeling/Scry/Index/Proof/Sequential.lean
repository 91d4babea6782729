/-
  Operations that are called one after the other.

  While no operation is in flight the map stands for a sorted map (`Sys.Rests`).  An
  operation that is called then and runs alone returns what the sorted map returns, and
  leaves the map standing for what the sorted map has become (`Sys.Rests.call`).  So the
  operations of any threads, one after the other, return what they do on a map that one
  thread owns (`Sys.run_serially`).
-/
import Scry.Index.Proof.Attempt
import Scry.Index.Proof.Clear
import Scry.Index.Proof.Length

namespace Scry.Index

variable {K V : Type} [LinearOrder K] [Key K] {m : SortedMap K V} {m' : Mem K V}
  {th th' : Thread K V} {k : K}

omit [LinearOrder K] [Key K] in
/-- The operation as a thread calls it that owns the map. -/
def Call.op : Call K V → Op K V
  | .get key => .get key
  | .insert key value => .insert key value
  | .getOrInsert key value => .getOrInsert key value
  | .remove key => .remove key
  | .rebuild => .rebuild
  | .drain => .drain
  | .clear => .clear

omit [Key K] in
/-- What a sorted map and its keys hold after an operation on a key. -/
theorem refStep_key (m : SortedMap K V) {c : Call K V} (hkey : c.key = some k) :
    (refStep m c.op).2 = (c.keyStep (m.get k)).2 ∧
      ∀ k', (refStep m c.op).1.get k' = if k' = k then (c.keyStep (m.get k)).1 else m.get k' := by
  cases c with
  | get key =>
    cases hkey
    refine ⟨rfl, fun k' => ?_⟩
    show m.get k' = if k' = k then m.get k else m.get k'
    split_ifs with h
    · rw [h]
    · rfl
  | insert key v => cases hkey; exact ⟨rfl, m.get_insert k v⟩
  | remove key => cases hkey; exact ⟨rfl, m.get_erase k⟩
  | getOrInsert key v =>
    cases hkey
    rw [Call.op, refStep, Call.keyStep]
    cases hk : m.get k with
    | none => exact ⟨rfl, m.get_insert k v⟩
    | some w =>
      refine ⟨rfl, fun k' => ?_⟩
      split_ifs with h
      · rw [h, hk]
        rfl
      · rfl
  | rebuild | drain | clear => cases hkey

namespace Sys
variable {s s' : Sys K V} {t : ℕ}

/-! ## Runs of one operation -/

/-- **Run rule** for an operation that runs alone: what its steps keep leads to what holds when
    it has returned. -/
theorem Alone.run_induct [LawfulKey K] {I : Sys K V → Thread K V → Prop} {R : Sys K V → Prop}
    (hgo : ∀ {s th m' th'}, s.Alone t th → I s th →
      th.step s.config s.mem = some (m', .goto th') → I (s.proceed t th.call m' (.goto th')) th')
    (hret : ∀ {s th m' reply}, s.Alone t th → I s th →
      th.step s.config s.mem = some (m', .ret reply) →
        R (s.proceed t th.call m' (.ret reply)))
    (h : s.Alone t th) (hI : I s th) :
    ∃ n s', s.run (List.replicate n (.step t)) = some s' ∧ R s' := by
  have hends := h.completes
  induction hends generalizing th with
  | done hnone => cases hnone.symm.trans h.thread
  | step hs _ ih =>
    obtain ⟨th₁, m', next, hth, hstep, rfl⟩ := step_eq_some hs
    obtain rfl := Option.some.inj (h.thread.symm.trans hth)
    cases next with
    | ret reply =>
      refine ⟨1, _, ?_, hret h hI hstep⟩
      rw [List.replicate_one, run_cons, act, hs]
      rfl
    | goto th' =>
      obtain ⟨n, s', hrun, hR⟩ := ih (h.proceed hstep) (hgo h hI hstep)
      refine ⟨n + 1, s', ?_, hR⟩
      rw [List.replicate_succ, run_cons, act, hs]
      exact hrun

/-- No operation is in flight, and the map stands for the sorted map. -/
structure Rests (m : SortedMap K V) (s : Sys K V) : Prop where
  sound : s.Sound
  regular : s.Regular
  quiescent : s.Quiescent
  holds (k : K) : SureRoot (· = m.get k) s k
  len : s.mem.len = wrapUsize m.len

/-- The operation has returned as from the sorted map `m`. -/
structure Served (older : List (Event K V)) (m : SortedMap K V) (t : ℕ) (c : Call K V)
    (s : Sys K V) : Prop where
  rests : Rests (refStep m c.op).1 s
  history : s.history = .ret t c (refStep m c.op).2 :: .inv t c :: older

/-! ## Updates, lookups and rebuilds -/

/-- The same state after another history. -/
def withHistory (s : Sys K V) (h : List (Event K V)) : Sys K V := { s with history := h }

theorem SureRoot.withHistory {P : Option V → Prop} (h : SureRoot P s k) (older : List (Event K V)) :
    SureRoot P (s.withHistory older) k :=
  ⟨⟨h.tree.wf, h.tree.sat, h.tree.walks⟩, h.walks⟩

theorem Inv.withHistory (h : s.Inv) (older : List (Event K V)) : (s.withHistory older).Inv :=
  ⟨h.headroom, h.root, h.ok, h.locks, h.excl, h.owned⟩

/-- At rest each key is used by one operation at a time. -/
theorem Rests.serialMap (h : Rests m s) :
    SerialMap (fun k => m.get k) (s.withHistory []) where
  inv := h.sound.inv.withHistory []
  regular := h.regular
  calls t th hth := by cases (h.quiescent t).symm.trans hth
  serial k := ⟨trivial, .idle (fun t th hth => by cases (h.quiescent t).symm.trans hth)
    ((h.holds k).withHistory [])⟩
  len := by
    obtain ⟨B, hcard, hB⟩ := m.exists_finset
    refine ⟨B, by rw [hcard]; exact h.len, fun k => ?_⟩
    rw [hB, counts_of_not_ahead]
    · rfl
    · rintro ⟨t, th, hth, -⟩
      cases (h.quiescent t).symm.trans hth

/-- A lookup that runs alone loads no slot that is claimed. -/
theorem Alone.loadsPublished (h : s.Alone t th) (k : K) :
    loadsPublished k s (.step t) = true := by
  have hfalse : th.loadsClaimed s.mem k = false := by
    unfold Thread.loadsClaimed
    split
    · rename_i n hpc
      have hok := h.sound.inv.ok h.thread
      simp only [Thread.Ok, hpc] at hok
      obtain ⟨-, -, hn, -⟩ := hok
      have hidle := h.idle (by rw [hpc]; rintro ⟨⟩) n ((s.mem.cells n).slotOf k) hn.alloc
      have hst : (s.mem.cells n).state ((s.mem.cells n).slotOf k) ≠ .writing := by
        rw [Cell.state, hidle]
        exact hn.cell.idle _
      simp [hst]
    · rfl
  simp [Sys.loadsPublished, h.thread, hfalse]

/-- The operation has been called while no other was in flight. -/
structure Sole (older : List (Event K V)) (t : ℕ) (c : Call K V) (s : Sys K V)
    (th : Thread K V) : Prop where
  regular : s.Regular
  call : th.call = c
  history : s.history = .inv t c :: older
  others (t' : ℕ) : t' ≠ t → s.threads t' = none

/-- The operation on a key, or the rebuild, on a map that stood for the sorted map. -/
structure Serves (m : SortedMap K V) (t : ℕ) (c : Call K V) (s : Sys K V)
    (th : Thread K V) : Prop where
  map : SerialMap (fun k => m.get k) (s.withHistory [.inv t c])
  rebuild : c.key = none → th.pc.isDone = true ∧ th.reply = .unit

variable [LawfulKey K] {older : List (Event K V)} {c : Call K V}

theorem Sole.step (ha : s.Alone t th) (h : Sole older t c s th)
    (hstep : th.step s.config s.mem = some (m', .goto th')) :
    Sole older t c (s.proceed t th.call m' (.goto th')) th' where
  regular := h.regular.act ha.sound.inv (a := .step t) (step_of ha.thread hstep)
  call := by
    have hinv := ha.sound.inv
    have hnext := step_next hinv.headroom hinv.root (hinv.ok ha.thread) (hinv.locks ha.thread) hstep
    rw [Goes.call hnext, h.call]
  history := h.history
  others t' ht := (proceed_threads_of_ne ht _ _ _).trans (h.others t' ht)

/-- The map is at rest again when the operation returns. -/
theorem Sole.served (ha : s.Alone t th) (h : Sole older t c s th) {reply : Reply K V}
    (hstep : th.step s.config s.mem = some (m', .ret reply))
    (hreply : reply = (refStep m c.op).2)
    (hholds : ∀ k, SureRoot (· = (refStep m c.op).1.get k) (s.proceed t th.call m' (.ret reply)) k)
    (hlen : m'.len = wrapUsize (refStep m c.op).1.len) :
    Served older m t c (s.proceed t th.call m' (.ret reply)) := by
  have hact : s.act (.step t) = some (s.proceed t th.call m' (.ret reply)) :=
    step_of ha.thread hstep
  refine ⟨⟨ha.sound.act hact, h.regular.act ha.sound.inv hact, fun t' => ?_, hholds, hlen⟩, ?_⟩
  · by_cases ht : t' = t
    · rw [ht]
      exact Function.update_self _ _ _
    · exact (proceed_threads_of_ne ht _ _ _).trans (h.others t' ht)
  · show .ret t th.call reply :: s.history = _
    rw [hreply, h.call, h.history]

theorem Serves.step (ha : s.Alone t th) (h : Serves m t c s th)
    (hstep : th.step s.config s.mem = some (m', .goto th')) :
    Serves m t c (s.proceed t th.call m' (.goto th')) th' where
  map := h.map.act (a := .step t) (by rintro t c ⟨⟩) (fun k => ⟨trivial, ha.loadsPublished k⟩)
    (step_of (s := s.withHistory [.inv t c]) ha.thread hstep)
  rebuild hkey := by
    obtain ⟨hd, hr⟩ := h.rebuild hkey
    have hcalls := h.map.calls t th ha.thread
    rcases done_step (fun _ _ _ => hcalls) hd hstep with ⟨pc, hn, hpc⟩ | hn
    · cases hn
      exact ⟨hpc, hr⟩
    · cases hn

/-- **What the operation returns**, and what it leaves. -/
theorem Serves.returns (ha : s.Alone t th) (hcalled : Sole older t c s th)
    (h : Serves m t c s th) {reply : Reply K V}
    (hstep : th.step s.config s.mem = some (m', .ret reply)) :
    Served older m t c (s.proceed t th.call m' (.ret reply)) := by
  have hmap := h.map.act (a := .step t) (by rintro t c ⟨⟩)
    (fun k => ⟨trivial, ha.loadsPublished k⟩)
    (step_of (s := s.withHistory [.inv t c]) ha.thread hstep)
  have hcalls := h.map.calls t th ha.thread
  rw [hcalled.call] at hcalls
  have hidle : ∀ t' th', (s.proceed t th.call m' (.ret reply)).threads t' ≠ some th' := by
    intro t' th' hth'
    by_cases ht : t' = t
    · subst ht
      cases proceed_threads_self hth'
    · rw [proceed_threads_of_ne ht, hcalled.others t' ht] at hth'
      cases hth'
  -- what each key holds in the end
  have hafter : ∀ k, keyAfter k (m.get k) [.ret t th.call reply, .inv t c] =
      (refStep m c.op).1.get k := by
    intro k
    rw [keyAfter, keyAfter, keyAfter, hcalled.call]
    cases hc : c.key with
    | some k₀ =>
      rw [(refStep_key m hc).2]
      by_cases hk : k = k₀
      · rw [hk, if_pos rfl, if_pos rfl]
      · rw [if_neg hk, if_neg fun he => hk (Option.some.inj he).symm]
    | none =>
      rw [if_neg (by rintro ⟨⟩)]
      cases c with
      | rebuild => rfl
      | drain => exact absurd rfl hcalls.1
      | clear => exact absurd rfl hcalls.2
      | _ => cases hc
  refine hcalled.served ha hstep ?_ (fun k => ?_) ?_
  · cases hc : c.key with
    | some k =>
      rw [(refStep_key m hc).1, ← hcalled.call]
      exact (hmap.serial k).history.1 (hcalled.call ▸ hc)
    | none =>
      obtain ⟨hd, hr⟩ := h.rebuild hc
      rcases done_step (fun _ _ _ => h.map.calls t th ha.thread) hd hstep with ⟨pc, hn, -⟩ | hn
      · cases hn
      · cases hn
        rw [hr]
        cases c with
        | rebuild => rfl
        | drain => exact absurd rfl hcalls.1
        | clear => exact absurd rfl hcalls.2
        | _ => cases hc
  · have huse := (hmap.serial k).use
    cases huse with
    | idle _ hs =>
      have hs : SureRoot (· = keyAfter k (m.get k) [.ret t th.call reply, .inv t c])
        ((s.withHistory [.inv t c]).proceed t th.call m' (.ret reply)) k := hs
      rw [hafter] at hs
      exact hs.withHistory (.ret t th.call reply :: s.history)
    | looking hth | serving hth | done hth => exact absurd hth (hidle _ _)
  · obtain ⟨B, hlen, hB⟩ := hmap.len
    obtain ⟨m₁, hget, hcard⟩ := SortedMap.exists_of_finset B
      (fun k => keyAfter k (m.get k) [.ret t th.call reply, .inv t c]) fun k => by
        rw [hB, counts_of_not_ahead]
        · rfl
        · rintro ⟨t', th', hth', -⟩
          exact hidle _ _ hth'
    have he : m₁ = (refStep m c.op).1 := SortedMap.ext_get fun k => by rw [hget, hafter]
    rw [← he, hcard]
    exact hlen

/-! ## Drain and clear -/

/-- Where a drain or a clear of the map at rest is. -/
inductive Takes (m : SortedMap K V) (s : Sys K V) (th : Thread K V) : Prop
  /-- it collects the pairs -/
  | collects (hpc : th.isEmptying = true)
      (hr : ∀ r, th.pc = .rootFreeze r → s.mem.root = ⟨r, false⟩)
      (hs : ∀ k, SureRoot (· = m.get k) s k) (hlen : s.mem.len = wrapUsize m.len)
      (hreply : th.reply = (Thread.start th.call).reply)
  /-- it has taken them out, and the length still counts them -/
  | subtracts (hpc : th.pc = .subtract m.len) (hs : ∀ k, SureRoot (· = none) s k)
      (hlen : s.mem.len = wrapUsize m.len) (hreply : th.reply = (refStep m th.call.op).2)
  | stores {n : ℕ} (hpc : th.pc = .storeThreshold n) (hs : ∀ k, SureRoot (· = none) s k)
      (hlen : s.mem.len = 0) (hreply : th.reply = (refStep m th.call.op).2)

/-- A step that neither changes a slot nor swaps in an empty root. -/
theorem SureRoot.quiet {P : Option V → Prop} {next : Next K V} (ha : s.Alone t th)
    (h : SureRoot P s k) (hpub : th.pc ≠ .publish) (hclaim : th.pc ≠ .claim)
    (hswap : ∀ r pairs, th.pc ≠ .rootSwap r pairs)
    (hstep : th.step s.config s.mem = some (m', next)) :
    SureRoot P (s.proceed t th.call m' next) k :=
  h.step ha.sound.inv ha.thread hstep (respects_of_pc hpub hclaim)
    fun r pairs hpc _ => absurd hpc (hswap r pairs)

/-- **A drain or a clear goes on**: its freeze and its swap succeed, and it takes out all pairs. -/
theorem Takes.step (ha : s.Alone t th) (h : Takes m s th) (he : th.call = .drain ∨ th.call = .clear)
    (hstep : th.step s.config s.mem = some (m', .goto th')) :
    Takes m (s.proceed t th.call m' (.goto th')) th' := by
  cases h with
  | collects hpc hr hs hlen hreply =>
    have hquiet : th.pc ≠ .publish → th.pc ≠ .claim → (∀ r pairs, th.pc ≠ .rootSwap r pairs) →
        ∀ k, SureRoot (· = m.get k) (s.proceed t th.call m' (.goto th')) k := fun h₁ h₂ h₃ k =>
      (hs k).quiet ha h₁ h₂ h₃ hstep
    have hempt : th.empties = true := Thread.empties_iff.2 he
    cases hp : th.pc with
    | rootLoad =>
      have hfree : s.mem.root.frozen = false :=
        ha.free (l := .root) trivial (by rw [Thread.lock, hp]; rintro ⟨⟩)
      have hs' := hquiet (by rw [hp]; rintro ⟨⟩) (by rw [hp]; rintro ⟨⟩) (by rw [hp]; rintro _ _ ⟨⟩)
      simp only [Thread.step, hp, stepRootLoad, hfree] at hstep
      cases hstep
      refine .collects ?_ ?_ hs' hlen hreply
      · exact Bool.and_eq_true_iff.2 ⟨hempt, rfl⟩
      · rintro r ⟨⟩
        show s.mem.root = _
        rw [← hfree]
    | rootFreeze r =>
      have hroot := hr r hp
      have hs' := hquiet (by rw [hp]; rintro ⟨⟩) (by rw [hp]; rintro ⟨⟩) (by rw [hp]; rintro _ _ ⟨⟩)
      simp only [Thread.step, hp, stepRootFreeze, hroot, if_true] at hstep
      cases hstep
      refine .collects ?_ ?_ hs' hlen hreply
      · exact Bool.and_eq_true_iff.2 ⟨hempt, rfl⟩
      · rintro r ⟨⟩
    | rootWalk r w =>
      have hs' := hquiet (by rw [hp]; rintro ⟨⟩) (by rw [hp]; rintro ⟨⟩) (by rw [hp]; rintro _ _ ⟨⟩)
      simp only [Thread.step, hp, stepRootWalk] at hstep
      split at hstep <;> cases hstep
      · refine .collects ?_ ?_ hs' hlen hreply
        · exact Bool.and_eq_true_iff.2 ⟨hempt, rfl⟩
        · rintro r ⟨⟩
      · refine .collects ?_ ?_ hs' hlen hreply
        · exact Bool.and_eq_true_iff.2 ⟨hempt, rfl⟩
        · rintro r ⟨⟩
    | rootSwap r pairs =>
      have hroot := ha.sound.inv.locks ha.thread
      have hok := ha.sound.inv.ok ha.thread
      simp only [Thread.Locks, hp] at hroot
      simp only [Thread.Ok, hp] at hok
      -- the pairs that it has collected are those of the map
      have hpairs : pairs = m.toList := by
        have hm : (⟨pairs, hok⟩ : SortedMap K V) = m := SortedMap.ext_get fun k =>
          (hs k).collected ha.thread hp
        rw [← hm]
      have hs' : ∀ k, SureRoot (· = none) (s.proceed t th.call m' (.goto th')) k := fun k =>
        sureRoot_of_empty ha.sound.inv ha.thread (by simp [Thread.swapsEmpty, hp, hempt, hroot]) hstep
      simp only [Thread.step, hp, stepRootSwap] at hstep
      rcases he with hc | hc
      · simp only [hc, swapEmpty, hroot, if_true] at hstep
        cases hstep
        refine .subtracts ?_ hs' hlen ?_
        · show Pc.subtract pairs.length = .subtract m.len
          rw [hpairs]
          rfl
        · show Reply.pairs pairs = .pairs m.toList
          rw [hpairs]
      · simp only [hc, swapEmpty, hroot, if_true] at hstep
        cases hstep
        refine .subtracts ?_ hs' hlen ?_
        · show Pc.subtract pairs.length = .subtract m.len
          rw [hpairs]
          rfl
        · show th.reply = .unit
          rw [hreply, hc]
          rfl
    | _ => simp [Thread.isEmptying, hp] at hpc
  | subtracts hpc hs hlen hreply =>
    have hs' : ∀ k, SureRoot (· = none) (s.proceed t th.call m' (.goto th')) k := fun k =>
      (hs k).quiet ha (by rw [hpc]; rintro ⟨⟩) (by rw [hpc]; rintro ⟨⟩)
        (by rw [hpc]; rintro _ _ ⟨⟩) hstep
    simp only [Thread.step, hpc] at hstep
    cases hstep
    refine .stores rfl hs' ?_ hreply
    show wrapUsize (s.mem.len - m.len) = 0
    rw [hlen, sub_eq_add_neg, wrapUsize_add, add_neg_cancel]
    rfl
  | stores hpc hs hlen hreply =>
    simp only [Thread.step, hpc] at hstep
    cases hstep

theorem Takes.returns (ha : s.Alone t th) (h : Takes m s th)
    (he : th.call = .drain ∨ th.call = .clear) {reply : Reply K V}
    (hstep : th.step s.config s.mem = some (m', .ret reply)) :
    reply = (refStep m th.call.op).2 ∧ m'.len = 0 ∧
      ∀ k, SureRoot (· = none) (s.proceed t th.call m' (.ret reply)) k := by
  cases h with
  | collects hpc hr hs hlen hreply =>
    exfalso
    have hl := ha.sound.inv.locks ha.thread
    cases hp : th.pc with
    | rootLoad =>
      have hfree : s.mem.root.frozen = false :=
        ha.free (l := .root) trivial (by rw [Thread.lock, hp]; rintro ⟨⟩)
      simp only [Thread.step, hp, stepRootLoad, hfree] at hstep
      cases hstep
    | rootFreeze r =>
      simp only [Thread.step, hp, stepRootFreeze, hr r hp, if_true] at hstep
      cases hstep
    | rootWalk r w =>
      simp only [Thread.step, hp, stepRootWalk] at hstep
      split at hstep <;> cases hstep
    | rootSwap r pairs =>
      simp only [Thread.Locks, hp] at hl
      simp only [Thread.step, hp, stepRootSwap] at hstep
      rcases he with hc | hc <;> simp only [hc, swapEmpty, hl, if_true] at hstep <;> cases hstep
    | _ => simp [Thread.isEmptying, hp] at hpc
  | subtracts hpc =>
    simp only [Thread.step, hpc] at hstep
    cases hstep
  | stores hpc hs hlen hreply =>
    have hs' : ∀ k, SureRoot (· = none) (s.proceed t th.call m' (.ret reply)) k := fun k =>
      (hs k).quiet ha (by rw [hpc]; rintro ⟨⟩) (by rw [hpc]; rintro ⟨⟩)
        (by rw [hpc]; rintro _ _ ⟨⟩) hstep
    simp only [Thread.step, hpc] at hstep
    cases hstep
    exact ⟨hreply, hlen, hs'⟩

/-! ## One operation after the other -/

theorem Rests.init {config : Config} (hc : config.Valid) {map : LearnedMap K V}
    {pairs : List (K × V)} (hs : Starts config map pairs) (hfit : pairs.length < 2 ^ 64)
    (hm : m.toList = pairs) : Rests m (Sys.init map) where
  sound := .init hc hs
  regular _ _ hth := by cases hth
  quiescent _ := rfl
  holds k := .init hc hs (by rw [← hm]; rfl)
  len := by
    rw [SortedMap.len, hm, wrapUsize_of_lt rfl hfit]
    exact (Node.Pristine.ofStarts hs).2

/-- **An operation that is called at rest and runs alone** returns what the sorted map returns,
    and leaves the map at rest. -/
theorem Rests.call (h : Rests m s) (t : ℕ) (c : Call K V) :
    ∃ n s', s.run (.call t c :: List.replicate n (.step t)) = some s' ∧
      Served s.history m t c s' := by
  obtain ⟨s₁, hs₁⟩ : ∃ s₁, s.invoke t c = some s₁ := by
    rw [invoke, h.quiescent t]
    exact ⟨_, rfl⟩
  obtain ⟨-, he⟩ := invoke_eq_some hs₁
  have hth : s₁.threads t = some (.start c) := by
    rw [he]
    exact Function.update_self _ _ _
  have hothers : ∀ t', t' ≠ t → s₁.threads t' = none := by
    intro t' ht
    rw [he]
    exact (Function.update_of_ne ht _ _).trans (h.quiescent t')
  have ha : s₁.Alone t (.start c) := by
    refine ⟨h.sound.act (a := .call t c) hs₁, hth, fun t' th' ht hth' => ?_⟩
    cases (hothers t' ht).symm.trans hth'
  suffices hrun : ∃ n s', s₁.run (List.replicate n (.step t)) = some s' ∧
      Served s.history m t c s' by
    obtain ⟨n, s', hn, hserved⟩ := hrun
    refine ⟨n, s', ?_, hserved⟩
    rw [run_cons, act, hs₁]
    exact hn
  have hcalled : Sole s.history t c s₁ (.start c) := by
    refine ⟨h.regular.act h.sound.inv (a := .call t c) hs₁, ?_, by rw [he], hothers⟩
    cases c <;> rfl
  by_cases hdc : c = .drain ∨ c = .clear
  · refine ha.run_induct (I := fun s₂ th => Sole s.history t c s₂ th ∧ Takes m s₂ th)
      ?_ ?_ ⟨hcalled, ?_⟩
    · intro s₂ th m' th' ha' hI hstep
      exact ⟨hI.1.step ha' hstep, hI.2.step ha' (hI.1.call ▸ hdc) hstep⟩
    · intro s₂ th m' reply ha' hI hstep
      obtain ⟨hc', ht⟩ := hI
      obtain ⟨hr, hlen, hs'⟩ := ht.returns ha' (hc'.call ▸ hdc) hstep
      rw [hc'.call] at hr
      have hm : (refStep m c.op).1 = .empty := by rcases hdc with rfl | rfl <;> rfl
      exact hc'.served ha' hstep hr (by rw [hm]; exact hs') (by rw [hm]; exact hlen)
    · have hs' : ∀ k, SureRoot (· = m.get k) s₁ k := fun k => (h.holds k).invoke hs₁
      have hlen : s₁.mem.len = wrapUsize m.len := by rw [he]; exact h.len
      rcases hdc with rfl | rfl <;>
        exact .collects rfl (by rintro r ⟨⟩) hs' hlen rfl
  · rw [not_or] at hdc
    refine ha.run_induct (I := fun s₂ th => Sole s.history t c s₂ th ∧ Serves m t c s₂ th)
      ?_ ?_ ⟨hcalled, ?_, fun hkey => ?_⟩
    · intro s₂ th m' th' ha' hI hstep
      exact ⟨hI.1.step ha' hstep, hI.2.step ha' hstep⟩
    · intro s₂ th m' reply ha' hI hstep
      exact hI.2.returns ha' hI.1 hstep
    · have hact : (s.withHistory []).act (.call t c) = some (s₁.withHistory [.inv t c]) := by
        rw [act, invoke, withHistory, h.quiescent t, he]
        rfl
      refine h.serialMap.act (a := .call t c) ?_ (fun k => ⟨fun _ t' th' hth' => ?_, rfl⟩) hact
      · rintro t' c' ⟨⟩
        exact hdc
      · cases (h.quiescent t').symm.trans hth'
    · cases c with
      | rebuild => exact ⟨rfl, rfl⟩
      | drain => exact absurd rfl hdc.1
      | clear => exact absurd rfl hdc.2
      | _ => cases hkey

/-- The calls one after the other, each followed by steps of its own. -/
def serially : List (ℕ × Call K V) → List ℕ → List (Act K V)
  | (t, c) :: calls, n :: steps => .call t c :: List.replicate n (Act.step t) ++ serially calls steps
  | _, _ => []

/-- What the calls leave in the history, the last one first. -/
def record : List (ℕ × Call K V) → List (Reply K V) → List (Event K V)
  | (t, c) :: calls, reply :: replies => record calls replies ++ [.ret t c reply, .inv t c]
  | _, _ => []

theorem Rests.serially (calls : List (ℕ × Call K V)) : ∀ {m : SortedMap K V} {s : Sys K V},
    Rests m s → ∃ steps s', steps.length = calls.length ∧ s.run (serially calls steps) = some s' ∧
      Rests (refRun m (calls.map (·.2.op))).1 s' ∧
      s'.history = record calls (refRun m (calls.map (·.2.op))).2 ++ s.history := by
  induction calls with
  | nil => exact fun {m s} h => ⟨[], s, rfl, rfl, h, rfl⟩
  | cons call calls ih =>
    obtain ⟨t, c⟩ := call
    intro m s h
    obtain ⟨n, s₁, hrun₁, hserved⟩ := h.call t c
    obtain ⟨steps, s', hlen, hrun, hrests, hhist⟩ := ih hserved.rests
    refine ⟨n :: steps, s', by rw [List.length_cons, hlen, List.length_cons], ?_, hrests, ?_⟩
    · rw [Sys.serially, run_append, hrun₁]
      exact hrun
    · rw [hhist, hserved.history]
      simp [record, refRun]

/-- **Operations one after the other**, by whatever threads, return in the concurrent map what
    they return in a map that one thread owns, and leave the same pairs and length. -/
theorem run_serially {config : Config} (hc : config.Valid) {map : LearnedMap K V}
    {pairs : List (K × V)} (hs : Starts config map pairs) (hfit : pairs.length < 2 ^ 64)
    (calls : List (ℕ × Call K V)) :
    ∃ map' replies, map.run (calls.map (·.2.op)) = some (map', replies) ∧
      ∃ steps s, steps.length = calls.length ∧ (Sys.init map).run (serially calls steps) = some s ∧
        s.Quiescent ∧ s.history = record calls replies ∧ s.mem.Contents map'.iter ∧
        s.mem.len = wrapUsize map'.len := by
  obtain ⟨m, hm, href⟩ := hs.refines hc
  obtain ⟨map', hrun, href'⟩ := Refines.run (calls.map (·.2.op)) href
  obtain ⟨steps, s, hlen, hsched, hrests, hhist⟩ := (Rests.init hc hs hfit hm).serially calls
  refine ⟨map', _, hrun, steps, s, hlen, hsched, hrests.quiescent, ?_, ?_, ?_⟩
  · rw [hhist]
    exact List.append_nil _
  · rw [LearnedMap.iter, href'.sortedPairs]
    refine ⟨(refRun m (calls.map (·.2.op))).1.ascending, fun k => ?_⟩
    obtain ⟨x, hx, rfl⟩ := (hrests.holds k).tree.sat
    exact hx
  · rw [href'.len]
    exact hrests.len

/-- Three threads insert, rebuild, read and drain. -/
theorem run_serially_threads : ∃ map' replies,
    (LearnedMap.withConfig {} : LearnedMap (Fin (2 ^ 8)) ℕ).run
        [.insert ⟨100, by decide⟩ 1, .rebuild, .get ⟨100, by decide⟩, .drain] =
      some (map', replies) ∧
      ∃ steps s, steps.length = 4 ∧ (Sys.init (.withConfig {})).run
          (serially [(0, .insert ⟨100, by decide⟩ 1), (1, .rebuild), (2, .get ⟨100, by decide⟩),
            (0, .drain)] steps) = some s ∧
        s.Quiescent ∧ s.history = record [(0, .insert ⟨100, by decide⟩ 1), (1, .rebuild),
          (2, .get ⟨100, by decide⟩), (0, .drain)] replies ∧
        s.mem.Contents map'.iter ∧ s.mem.len = wrapUsize map'.len := by
  have := lawfulKey_unsigned (show 8 ≤ 64 by decide)
  have hconf : ({} : Config).Valid := ⟨one_le_two, le_rfl⟩
  exact run_serially (K := Fin (2 ^ 8)) (V := ℕ) hconf .withConfig (Nat.two_pow_pos 64)
    [(0, .insert ⟨100, by decide⟩ 1), (1, .rebuild), (2, .get ⟨100, by decide⟩), (0, .drain)]

end Sys

end Scry.Index
