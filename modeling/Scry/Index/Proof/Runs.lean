/-
  Runs of the learned index under concurrency.

  The invariant (`Sys.Inv`) holds in every state of a run: the root is well-formed, every
  operation stands where it should, and no two operations own the same.
-/
import Scry.Lib.Run
import Scry.Index.Proof.Next
import Scry.Index.Proof.Map

namespace Scry.Index

variable {K V : Type} [LinearOrder K] [Key K] {m m' : Mem K V} {th : Thread K V}

/-! ## What a step leaves to the others -/

namespace Lock

omit [LinearOrder K] [Key K] in
theorem same_modify {x : NodeId} {f : Cell K V → Cell K V} {l : Lock}
    (hs : ∀ i, l = .slot x i → (f (m.cells x)).claimed i = (m.cells x).claimed i ∧
      (f (m.cells x)).slots i = (m.cells x).slots i)
    (he : ∀ i, l = .edge x i → (f (m.cells x)).children i = (m.cells x).children i) :
    l.Same m (m.modify x f) := by
  cases l with
  | slot n i =>
    by_cases hn : n = x
    · subst hn
      rw [Same, Mem.modify_cells_self]
      exact hs i rfl
    · exact ⟨congrFun (congrArg Cell.claimed (Function.update_of_ne hn _ _)) i,
        congrFun (congrArg Cell.slots (Function.update_of_ne hn _ _)) i⟩
  | edge p i =>
    by_cases hn : p = x
    · subst hn
      rw [Same, Mem.modify_cells_self]
      exact he i rfl
    · exact congrFun (congrArg Cell.children (Function.update_of_ne hn _ _)) i
  | root => rfl

omit [LinearOrder K] [Key K] in
theorem same_place {r : Bool} {route : List (Edge K)} {tree : Node K V} {l : Lock}
    (hp : l.Placed m) : l.Same m (m.place r route tree) := by
  cases l with
  | slot n i =>
    rw [Same, Mem.place_cells hp]
    exact ⟨rfl, rfl⟩
  | edge p i => rw [Same, Mem.place_cells hp.1]
  | root => rfl

omit [LinearOrder K] [Key K] in
theorem same_placeChild {x : NodeId} {i : ℕ} {tree : Node K V} {set : Cell K V → NodeId → Cell K V}
    {l : Lock} (hx : x.alloc < m.next) (hp : l.Placed m)
    (hs : ∀ i, l = .slot x i →
      (set (m.cells x) (m.fresh false)).claimed i = (m.cells x).claimed i ∧
      (set (m.cells x) (m.fresh false)).slots i = (m.cells x).slots i)
    (he : ∀ i, l = .edge x i →
      (set (m.cells x) (m.fresh false)).children i = (m.cells x).children i) :
    l.Same m (m.placeChild x i tree set) := by
  have h₁ : l.Same m (m.place false ((m.cells x).route ++ [⟨x, (m.cells x).head, i⟩]) tree) :=
    same_place hp
  have hx' : (m.place false ((m.cells x).route ++ [⟨x, (m.cells x).head, i⟩]) tree).cells x =
      m.cells x := Mem.place_cells hx
  have h₂ := same_modify (m := m.place false ((m.cells x).route ++ [⟨x, (m.cells x).head, i⟩]) tree)
    (x := x) (f := fun c => set c (m.fresh false)) (l := l) (by rw [hx']; exact hs)
    (by rw [hx']; exact he)
  cases l with
  | slot n i => exact ⟨h₂.1.trans h₁.1, h₂.2.trans h₁.2⟩
  | edge p i => exact Eq.trans h₂ h₁
  | root => rfl

end Lock

namespace Lock

theorem slot_ne {n : NodeId} {i j : ℕ} {l : Lock} (h : l ≠ .slot n i) (hl : l = .slot n j) :
    j ≠ i := by
  rintro rfl
  exact h hl

theorem edge_ne {p : NodeId} {i j : ℕ} {l : Lock} (h : l ≠ .edge p i) (hl : l = .edge p j) :
    j ≠ i := by
  rintro rfl
  exact h hl

end Lock

/-- **A step leaves alone what others own.** -/
theorem Effect.same (he : Effect m th m') (hok : th.Ok m) (hl : th.Locks m) {l : Lock}
    (hp : l.Placed m) : th.lock = some l ∨ l.Free m ∨ l.Same m m' := by
  cases he with
  | quiet _ hc hn hr =>
    refine Or.inr (Or.inr ?_)
    cases l with
    | slot n i => rw [Lock.Same, hc]; exact ⟨rfl, rfl⟩
    | edge p i => rw [Lock.Same, hc]
    | root => exact hr
  | claim hpc hs hw =>
    simp only [Thread.Ok, hpc] at hok
    obtain ⟨k, -, hwr⟩ := hok
    by_cases h : l = .slot th.cur th.idx
    · subst h
      exact Or.inr (Or.inl ((Cell.state_eq hwr.prev.1).1 hs).1)
    · exact Or.inr (Or.inr (Lock.same_modify (fun i hi =>
        ⟨Function.update_of_ne (Lock.slot_ne h hi) _ _, rfl⟩) fun i _ => rfl))
  | bury hpc hs hw =>
    by_cases h : l = .slot th.cur th.idx
    · subst h
      exact Or.inr (Or.inl ((Cell.state_eq (by decide)).1 hs).1)
    · exact Or.inr (Or.inr (Lock.same_modify (fun i hi =>
        ⟨rfl, Function.update_of_ne (Lock.slot_ne h hi) _ _⟩) fun i _ => rfl))
  | @publishData key v hpc hw =>
    by_cases h : l = .slot th.cur th.idx
    · exact Or.inl (by rw [Thread.lock, hpc, h])
    · exact Or.inr (Or.inr (Lock.same_modify (fun i hi =>
        ⟨Function.update_of_ne (Lock.slot_ne h hi) _ _,
          Function.update_of_ne (Lock.slot_ne h hi) _ _⟩) fun i _ => rfl))
  | @publishChild prev child isNew hpc hw =>
    simp only [Thread.Ok, hpc] at hok
    simp only [Thread.Locks, hpc] at hl
    obtain ⟨k, hat, hwr⟩ := hok
    by_cases h : l = .slot th.cur th.idx
    · exact Or.inl (by rw [Thread.lock, hpc, h])
    · refine Or.inr (Or.inr (Lock.same_placeChild hat.1.2.2.curWF.alloc hp (fun i hi =>
        ⟨Function.update_of_ne (Lock.slot_ne h hi) _ _,
          Function.update_of_ne (Lock.slot_ne h hi) _ _⟩) fun i hi => ?_))
      -- the claimed slot has no pointer that a rebuild could have frozen
      refine Function.update_of_ne (fun he => ?_) _ _
      subst he hi
      have := hp.2
      rw [hl.2, hwr.prev.2] at this
      cases this
  | count d hpc => exact Or.inr (Or.inr (Lock.same_modify (fun i _ => ⟨rfl, rfl⟩) fun i _ => rfl))
  | @freeze p i c₀ c hpc hf hpt =>
    by_cases h : l = .edge p i
    · subst h
      exact Or.inr (Or.inl fun c' hc' => by cases hpt.symm.trans hc')
    · exact Or.inr (Or.inr (Lock.same_modify (fun j _ => ⟨rfl, rfl⟩) fun j hj =>
        Function.update_of_ne (Lock.edge_ne h hj) _ _))
  | @unfreeze p i c₀ c pairs hpc hf hpt =>
    by_cases h : l = .edge p i
    · exact Or.inl (by rw [Thread.lock, hpc, hf, h]; rfl)
    · exact Or.inr (Or.inr (Lock.same_modify (fun j _ => ⟨rfl, rfl⟩) fun j hj =>
        Function.update_of_ne (Lock.edge_ne h hj) _ _))
  | @swapChild p i c₀ c pairs tree hpc hf hpt ht =>
    simp only [Thread.Ok, hpc] at hok
    obtain ⟨k, ⟨⟨⟨hat, -⟩, -⟩, -⟩, -⟩ := hok
    have hpa : p.alloc < m.next := (hat.2.2.descent p i c₀ hf).parent ▸ hat.2.2.rootWF.alloc
    by_cases h : l = .edge p i
    · exact Or.inl (by rw [Thread.lock, hpc, hf, h]; rfl)
    · exact Or.inr (Or.inr (Lock.same_placeChild hpa hp (fun j _ => ⟨rfl, rfl⟩) fun j hj =>
        Function.update_of_ne (Lock.edge_ne h hj) _ _))
  | freezeRoot hpc hr =>
    cases l with
    | slot n i => exact Or.inr (Or.inr ⟨rfl, rfl⟩)
    | edge p i => exact Or.inr (Or.inr rfl)
    | root => exact Or.inr (Or.inl (by rw [Lock.Free, hr]))
  | unfreezeRoot hpc hr =>
    cases l with
    | slot n i => exact Or.inr (Or.inr ⟨rfl, rfl⟩)
    | edge p i => exact Or.inr (Or.inr rfl)
    | root => exact Or.inl (by rw [Thread.lock, hpc])
  | swapRoot hpc hr hd hcl ht =>
    cases l with
    | slot n i => exact Or.inr (Or.inr (Lock.same_place (l := .slot n i) hp))
    | edge p i => exact Or.inr (Or.inr (Lock.same_place (l := .edge p i) hp))
    | root => exact Or.inl (by rw [Thread.lock, hpc])
  | swapEmpty hpc hr hcall =>
    cases l with
    | slot n i => exact Or.inr (Or.inr (Lock.same_place (l := .slot n i) hp))
    | edge p i => exact Or.inr (Or.inr (Lock.same_place (l := .edge p i) hp))
    | root => exact Or.inl (by rw [Thread.lock, hpc])

/-! ## Slots that are claimed -/

omit [LinearOrder K] [Key K] in
theorem cellAt_claimed (tree : Node K V) (n : NodeId) (route : List (Edge K)) (path : List ℕ)
    (i : ℕ) : (tree.cellAt n route path).claimed i = false := by
  induction path generalizing tree n route with
  | nil => cases tree <;> rfl
  | cons j path ih =>
    cases tree with
    | null => rfl
    | mk h st kv ch t => exact ih (ch j) _ _

omit [LinearOrder K] [Key K] in
theorem place_claimed {r : Bool} {route : List (Edge K)} {tree : Node K V} {n : NodeId} {i : ℕ}
    (hn : n.alloc < m.next + 1) (h : ((m.place r route tree).cells n).claimed i = true) :
    n.alloc < m.next ∧ (m.cells n).claimed i = true := by
  rcases Nat.lt_succ_iff_lt_or_eq.1 hn with hn | hn
  · rw [Mem.place_cells hn] at h
    exact ⟨hn, h⟩
  · have hc : (m.place r route tree).cells n = tree.cellAt (m.fresh r) route n.path := if_pos hn
    rw [hc, cellAt_claimed] at h
    cases h

omit [LinearOrder K] [Key K] in
theorem modify_claimed {x n : NodeId} {f : Cell K V → Cell K V} {i : ℕ}
    (hf : n = x → (f (m.cells x)).claimed i = true → (m.cells x).claimed i = true)
    (h : ((m.modify x f).cells n).claimed i = true) : (m.cells n).claimed i = true := by
  by_cases hn : n = x
  · subst hn
    rw [Mem.modify_cells_self] at h
    exact hf rfl h
  · have hc : (m.modify x f).cells n = m.cells n := Function.update_of_ne hn _ _
    rwa [hc] at h

omit [LinearOrder K] [Key K] in
theorem placeChild_claimed {x n : NodeId} {i j : ℕ} {tree : Node K V}
    {set : Cell K V → NodeId → Cell K V} (hx : x.alloc < m.next) (hn : n.alloc < m.next + 1)
    (hs : n = x → (set (m.cells x) (m.fresh false)).claimed i = true →
      (m.cells x).claimed i = true)
    (h : ((m.placeChild x j tree set).cells n).claimed i = true) :
    n.alloc < m.next ∧ (m.cells n).claimed i = true :=
  place_claimed hn (modify_claimed (by rw [Mem.place_cells hx]; exact hs) h)

namespace Cell
variable {c : Cell K V} {i j : ℕ}

omit [LinearOrder K] [Key K] in
theorem claimed_claim (h : j ≠ i) : (c.claim i).claimed j = c.claimed j :=
  Function.update_of_ne h _ _

omit [LinearOrder K] [Key K] in
theorem claimed_publishData (key : K) (v : V) :
    (c.publishData i key v).claimed j = if j = i then false else c.claimed j :=
  Function.update_apply _ _ _ _

omit [LinearOrder K] [Key K] in
theorem claimed_publishChild (n : NodeId) :
    (c.publishChild i n).claimed j = if j = i then false else c.claimed j :=
  Function.update_apply _ _ _ _

end Cell

omit [LinearOrder K] [Key K] in
theorem Thread.lock_slot {n : NodeId} {i : ℕ} (h : th.lock = some (.slot n i)) :
    th.pc = .publish ∧ n = th.cur ∧ i = th.idx := by
  obtain ⟨call, pc, was, again, root, cur, idx, depth, first, write, reply⟩ := th
  cases pc with
  | publish => cases h; exact ⟨rfl, rfl, rfl⟩
  | subWalk => obtain ⟨f, -, hf⟩ := Option.map_eq_some_iff.1 h; cases hf
  | subSwap => obtain ⟨f, -, hf⟩ := Option.map_eq_some_iff.1 h; cases hf
  | _ => cases h

/-- **A slot is claimed by a CAS**, and published by its owner. -/
theorem Effect.claimed (he : Effect m th m') (hok : th.Ok m) {n : NodeId} {i : ℕ}
    (hn : n.alloc < m'.next) (h : (m'.cells n).claimed i = true) :
    (n.alloc < m.next ∧ (m.cells n).claimed i = true ∧ th.lock ≠ some (.slot n i)) ∨
      (n = th.cur ∧ i = th.idx ∧ th.pc = .claim ∧ th.write ≠ .bury ∧
        (m.cells th.cur).state th.idx = th.write.prev) := by
  have hlock : th.pc ≠ .publish → th.lock ≠ some (.slot n i) := fun hp hl =>
    hp (Thread.lock_slot hl).1
  cases he with
  | quiet hpc hc hn' => rw [hn'] at hn; rw [hc] at h; exact Or.inl ⟨hn, h, hlock hpc⟩
  | claim hpc hs hw =>
    by_cases hx : n = th.cur ∧ i = th.idx
    · exact Or.inr ⟨hx.1, hx.2, hpc, hw, hs⟩
    · refine Or.inl ⟨hn, modify_claimed (fun hx' h' => ?_) h, hlock (by rw [hpc]; rintro ⟨⟩)⟩
      rwa [Cell.claimed_claim fun hi => hx ⟨hx', hi⟩] at h'
  | bury hpc => exact Or.inl ⟨hn, modify_claimed (fun _ => id) h, hlock (by rw [hpc]; rintro ⟨⟩)⟩
  | publishData hpc =>
    have hx : n = th.cur → i ≠ th.idx := by
      rintro rfl rfl
      rw [Mem.modify_cells_self, Cell.claimed_publishData, if_pos rfl] at h
      cases h
    refine Or.inl ⟨hn, modify_claimed (fun hx' h' => ?_) h, fun hl => ?_⟩
    · rwa [Cell.claimed_publishData, if_neg (hx hx')] at h'
    · exact hx (Thread.lock_slot hl).2.1 (Thread.lock_slot hl).2.2
  | publishChild hpc =>
    simp only [Thread.Ok, hpc] at hok
    obtain ⟨k, hat, -⟩ := hok
    have ha : th.cur.alloc < m.next := hat.1.2.2.curWF.alloc
    have hx : n = th.cur → i ≠ th.idx := by
      rintro rfl rfl
      rw [Mem.placeChild_cells_self ha, Cell.claimed_publishChild, if_pos rfl] at h
      cases h
    obtain ⟨h₁, h₂⟩ := placeChild_claimed ha hn (fun hx' h' => by
      rwa [Cell.claimed_publishChild, if_neg (hx hx')] at h') h
    exact Or.inl ⟨h₁, h₂, fun hl => hx (Thread.lock_slot hl).2.1 (Thread.lock_slot hl).2.2⟩
  | count d hpc => exact Or.inl ⟨hn, modify_claimed (fun _ => id) h, hlock (by rw [hpc]; rintro ⟨⟩)⟩
  | freeze hpc => exact Or.inl ⟨hn, modify_claimed (fun _ => id) h, hlock (by rw [hpc]; rintro ⟨⟩)⟩
  | unfreeze hpc => exact Or.inl ⟨hn, modify_claimed (fun _ => id) h, hlock (by rw [hpc]; rintro ⟨⟩)⟩
  | @swapChild p i c₀ c pairs tree hpc hf =>
    simp only [Thread.Ok, hpc] at hok
    obtain ⟨k, ⟨⟨⟨hat, -⟩, -⟩, -⟩, -⟩ := hok
    have hpa : p.alloc < m.next := (hat.2.2.descent p i c₀ hf).parent ▸ hat.2.2.rootWF.alloc
    obtain ⟨h₁, h₂⟩ := placeChild_claimed hpa hn (fun _ => id) h
    exact Or.inl ⟨h₁, h₂, hlock (by rw [hpc]; rintro ⟨⟩)⟩
  | freezeRoot hpc => exact Or.inl ⟨hn, h, hlock (by rw [hpc]; rintro ⟨⟩)⟩
  | unfreezeRoot hpc => exact Or.inl ⟨hn, h, hlock (by rw [hpc]; rintro ⟨⟩)⟩
  | swapRoot hpc =>
    obtain ⟨h₁, h₂⟩ := place_claimed hn h
    exact Or.inl ⟨h₁, h₂, hlock (by rw [hpc]; rintro ⟨⟩)⟩
  | swapEmpty hpc =>
    obtain ⟨h₁, h₂⟩ := place_claimed hn h
    exact Or.inl ⟨h₁, h₂, hlock (by rw [hpc]; rintro ⟨⟩)⟩

theorem step_claim {config : Config} {next : Next K V} (hpc : th.pc = .claim)
    (hw : th.write ≠ .bury) (hs : (m.cells th.cur).state th.idx = th.write.prev)
    (h : th.step config m = some (m', next)) : next = .goto { th with pc := .publish } := by
  simp only [Thread.step, hpc, stepClaim, hs, if_true, Option.some.injEq] at h
  cases h
  rfl

/-! ## The invariant -/

namespace Sys
variable {s s' : Sys K V} {t : ℕ}

/-- What holds in every state of a run. -/
structure Inv (s : Sys K V) : Prop where
  headroom : 0 ≤ s.config.rangeHeadroom
  root : RootOk s.mem
  ok {t : ℕ} {th : Thread K V} : s.threads t = some th → th.Ok s.mem
  locks {t : ℕ} {th : Thread K V} : s.threads t = some th → th.Locks s.mem
  /-- no two operations own the same -/
  excl {t t' : ℕ} {th th' : Thread K V} {l : Lock} : s.threads t = some th →
    s.threads t' = some th' → th.lock = some l → th'.lock = some l → t = t'
  /-- a claimed slot has an owner -/
  owned {n : NodeId} {i : ℕ} : n.alloc < s.mem.next → (s.mem.cells n).claimed i = true →
    ∃ t th, s.threads t = some th ∧ th.lock = some (.slot n i)

theorem step_eq_some (h : s.step t = some s') : ∃ th m' next, s.threads t = some th ∧
    th.step s.config s.mem = some (m', next) ∧ s' = s.proceed t th.call m' next := by
  unfold step at h
  split at h
  · cases h
  · rename_i th hth
    obtain ⟨⟨m', next⟩, hs, rfl⟩ := Option.map_eq_some_iff.1 h
    exact ⟨th, m', next, hth, hs, rfl⟩

omit [LinearOrder K] [Key K] in
theorem invoke_eq_some {call : Call K V} (h : s.invoke t call = some s') :
    s.threads t = none ∧ s' = { s with
      threads := Function.update s.threads t (some (Thread.start call))
      history := .inv t call :: s.history } := by
  unfold invoke at h
  split at h
  · cases h
  · rename_i hth
    exact ⟨hth, (Option.some.inj h).symm⟩

omit [LinearOrder K] [Key K] in
@[simp] theorem proceed_config (t : ℕ) (call : Call K V) (m : Mem K V) (next : Next K V) :
    (s.proceed t call m next).config = s.config := by
  cases next <;> rfl

omit [LinearOrder K] [Key K] in
@[simp] theorem proceed_mem (t : ℕ) (call : Call K V) (m : Mem K V) (next : Next K V) :
    (s.proceed t call m next).mem = m := by
  cases next <;> rfl

omit [LinearOrder K] [Key K] in
theorem proceed_threads_of_ne {t' : ℕ} (ht : t' ≠ t) (call : Call K V) (m : Mem K V)
    (next : Next K V) : (s.proceed t call m next).threads t' = s.threads t' := by
  cases next <;> exact Function.update_of_ne ht _ _

omit [LinearOrder K] [Key K] in
theorem proceed_threads_self {call : Call K V} {m : Mem K V} {next : Next K V} {th' : Thread K V}
    (h : (s.proceed t call m next).threads t = some th') : next = .goto th' := by
  cases next with
  | goto th =>
    have : (s.proceed t call m (.goto th)).threads t = some th := Function.update_self _ _ _
    rw [Option.some.inj (h.symm.trans this)]
  | ret reply =>
    have : (s.proceed t call m (.ret reply)).threads t = none := Function.update_self _ _ _
    cases this.symm.trans h

omit [LinearOrder K] [Key K] in
theorem start_lock (call : Call K V) : (Thread.start call).lock = none := by
  cases call <;> rfl

theorem start_ok (call : Call K V) : (Thread.start call).Ok m := by
  cases call <;> first | rfl | trivial

omit [LinearOrder K] [Key K] in
theorem start_locks (call : Call K V) : (Thread.start call).Locks m := by
  cases call <;> trivial

namespace Inv

/-- A map that no thread uses yet; its expansion factor may be too small to fit a model. -/
theorem ofStarts [LawfulKey K] {config : Config} (hc : 0 ≤ config.rangeHeadroom)
    {map : LearnedMap K V} {pairs : List (K × V)} (hs : Starts config map pairs) :
    (Sys.init map).Inv := by
  obtain ⟨hcfg, hwf⟩ := hs.root_wf
  exact ⟨by rw [← hcfg] at hc; exact hc, ⟨(Mem.placeRoot_spec hwf).2.1, rfl⟩, nofun, nofun, nofun,
    fun hn h => absurd (place_claimed hn h).1 (Nat.not_lt_zero _)⟩

theorem init [LawfulKey K] {config : Config} (hc : config.Valid) {map : LearnedMap K V}
    {pairs : List (K × V)} (hs : Starts config map pairs) : (Sys.init map).Inv :=
  .ofStarts hc.headroom hs

theorem invoke (h : s.Inv) {call : Call K V} (hs : s.invoke t call = some s') : s'.Inv := by
  obtain ⟨hnone, rfl⟩ := invoke_eq_some hs
  have hcase : ∀ {t' : ℕ} {th : Thread K V},
      Function.update s.threads t (some (Thread.start call)) t' = some th →
      (t' = t ∧ th = .start call) ∨ s.threads t' = some th := by
    intro t' th hth
    by_cases ht : t' = t
    · subst ht
      rw [Function.update_self] at hth
      exact Or.inl ⟨rfl, (Option.some.inj hth).symm⟩
    · rw [Function.update_of_ne ht] at hth
      exact Or.inr hth
  refine ⟨h.headroom, h.root, fun {t' th} hth => ?_, fun {t' th} hth => ?_,
    fun {t₁ t₂ th₁ th₂ l} h₁ h₂ hl₁ hl₂ => ?_, fun {n i} hn hc => ?_⟩
  · rcases hcase hth with ⟨-, rfl⟩ | hth
    · exact start_ok call
    · exact h.ok hth
  · rcases hcase hth with ⟨-, rfl⟩ | hth
    · exact start_locks call
    · exact h.locks hth
  · rcases hcase h₁ with ⟨-, rfl⟩ | h₁
    · rw [start_lock] at hl₁; cases hl₁
    rcases hcase h₂ with ⟨-, rfl⟩ | h₂
    · rw [start_lock] at hl₂; cases hl₂
    exact h.excl h₁ h₂ hl₁ hl₂
  · obtain ⟨t', th, hth, hl⟩ := h.owned hn hc
    refine ⟨t', th, ?_, hl⟩
    have ht : t' ≠ t := by
      rintro rfl
      cases hnone.symm.trans hth
    exact (Function.update_of_ne ht _ _).trans hth

/-- **A step leaves alone what other operations own.** -/
theorem same (h : s.Inv) (hth : s.threads t = some th) (he : Effect s.mem th m') {t' : ℕ}
    {th' : Thread K V} (hth' : s.threads t' = some th') (ht : t' ≠ t) {l : Lock}
    (hl : th'.lock = some l) : l.Same s.mem m' := by
  rcases he.same (h.ok hth) (h.locks hth) ((h.ok hth').placed hl) with h₁ | h₁ | h₁
  · exact absurd (h.excl hth' hth hl h₁) ht
  · exact absurd h₁ ((h.locks hth').not_free hl)
  · exact h₁

/-- **A step keeps the invariant.** -/
theorem step [LawfulKey K] (h : s.Inv) (hs : s.step t = some s') : s'.Inv := by
  obtain ⟨th, m', next, hth, hstep, rfl⟩ := step_eq_some hs
  have he := step_effect h.headroom (h.ok hth) (h.locks hth) hstep
  have hev := (he.content (h.ok hth) (h.locks hth)).evolves
  have hnext := step_next h.headroom h.root (h.ok hth) (h.locks hth) hstep
  have hother : ∀ {t' : ℕ} {th' : Thread K V}, t' ≠ t →
      (s.proceed t th.call m' next).threads t' = some th' → s.threads t' = some th' :=
    fun ht h' => by rwa [proceed_threads_of_ne ht] at h'
  have hself : ∀ {th' : Thread K V}, (s.proceed t th.call m' next).threads t = some th' →
      Goes s.mem m' th th' := fun h' => by
    rw [proceed_threads_self h'] at hnext
    exact hnext
  refine ⟨by rw [proceed_config]; exact h.headroom, ?_, fun {t' th'} h' => ?_, fun {t' th'} h' => ?_,
    fun {t₁ t₂ th₁ th₂ l} h₁ h₂ hl₁ hl₂ => ?_, fun {n i} hn hcl => ?_⟩
  · rw [proceed_mem]
    exact he.rootOk (h.ok hth) (h.locks hth) h.root
  · rw [proceed_mem]
    by_cases ht : t' = t
    · subst ht
      exact (hself h').ok
    · exact (h.ok (hother ht h')).evolve hev
  · rw [proceed_mem]
    by_cases ht : t' = t
    · subst ht
      exact (hself h').locks
    · have h' := hother ht h'
      exact (h.locks h').of_same fun l hl => h.same hth he h' ht hl
  · -- what the operation owns now it owned before, or no operation did
    have hown : ∀ {t' : ℕ} {th₁ th' : Thread K V}, t' ≠ t →
        (s.proceed t th.call m' next).threads t = some th₁ → s.threads t' = some th' →
        th₁.lock = some l → th'.lock = some l → t' = t := by
      intro t' th₁ th' ht h₁ h' hl₁ hl'
      rcases (hself h₁).owns.lock hl₁ with hl | hfree
      · exact h.excl h' hth hl' hl
      · exact absurd hfree ((h.locks h').not_free hl')
    by_cases ht₁ : t₁ = t
    · subst ht₁
      by_cases ht₂ : t₂ = t₁
      · exact ht₂.symm
      · exact (hown ht₂ h₁ (hother ht₂ h₂) hl₁ hl₂).symm
    · by_cases ht₂ : t₂ = t
      · subst ht₂
        exact hown ht₁ h₂ (hother ht₁ h₁) hl₂ hl₁
      · exact h.excl (hother ht₁ h₁) (hother ht₂ h₂) hl₁ hl₂
  · rw [proceed_mem] at hn hcl
    rcases he.claimed (h.ok hth) hn hcl with ⟨hn', hcl', hne⟩ | ⟨rfl, rfl, hpc, hw, hst⟩
    · obtain ⟨t', th', hth', hl'⟩ := h.owned hn' hcl'
      have ht : t' ≠ t := by
        rintro rfl
        cases hth.symm.trans hth'
        exact hne hl'
      exact ⟨t', th', (proceed_threads_of_ne ht _ _ _).trans hth', hl'⟩
    · rw [step_claim hpc hw hst hstep]
      exact ⟨t, _, Function.update_self _ _ _, rfl⟩

theorem act [LawfulKey K] (h : s.Inv) {a : Act K V} (ha : s.act a = some s') : s'.Inv := by
  cases a with
  | call t c => exact h.invoke ha
  | step t => exact h.step ha

/-- **The invariant holds throughout a run.** -/
theorem run [LawfulKey K] (h : s.Inv) {sched : List (Act K V)} (hs : s.run sched = some s') :
    s'.Inv :=
  Run.run_induct (C := fun _ _ => True) (fun h _ ha => h.act ha) h (.of_forall fun _ _ => trivial) hs

end Inv

end Sys

end Scry.Index
