/-
  Iterators and ranges beside the operations of a map.

  What the operations do keeps a traversal in order, wherever it stands, so that it
  yields ascending keys (`traversals_inOrder`).  A range looks at its lower bound only
  until the first pair that it yields; the later ones are above that pair.
-/
import Scry.Index.Traverse
import Scry.Index.Proof.Quiescent
import Scry.Index.Proof.Range

namespace Scry.Index

variable {K V : Type} [LinearOrder K] [Key K] {m m' : Mem K V} {c : NodeId} {w w' : Walk K V}

/-! ## Traversals -/

namespace WalkOk

/-- What was collected may be forgotten. -/
theorem forget (h : WalkOk m c w) {pairs : List (K × V)} (hp : pairs.Sublist w.pairs) :
    WalkOk m c { w with pairs := pairs } where
  wf := h.wf
  nested := h.nested
  loading := h.loading
  pairs := List.Pairwise.sublist hp h.pairs
  behind a ha := h.behind a (hp.subset ha)
  within := h.within
  routed a ha := h.routed a (hp.subset ha)
  below := h.below

/-- A traversal that begins at any slot of the root. -/
theorem startAt (hc : m.NodeWF c) (i : ℕ) : WalkOk m c ⟨[(c, i)], false, []⟩ where
  wf f hf := by rw [List.mem_singleton.1 hf]; exact hc
  nested := List.pairwise_singleton _ _
  loading h := by cases h
  pairs := ascending_nil
  behind a ha := by cases ha
  within f hf k hk := by rw [List.mem_singleton.1 hf] at hk; exact hk
  routed a ha := by cases ha
  below f hf := by rw [List.mem_singleton.1 hf]; exact Or.inl rfl

end WalkOk

omit [LinearOrder K] [Key K] in
/-- A step of a traversal collects one pair or none. -/
theorem Visits.pairs (h : Visits m w w') :
    w'.pairs = w.pairs ∨ ∃ k v, w'.pairs = w.pairs ++ [(k, v)] := by
  cases h with
  | @item n i rest k v => exact Or.inr ⟨k, v, rfl⟩
  | _ => exact Or.inl rfl

/-! ## Ranges -/

namespace RangeWalk
variable {r r' : RangeWalk K V}

/-- The key that a range seeks. -/
def sought (r : RangeWalk K V) : Option K :=
  match r.startBound with
  | .included key => some key
  | .excluded key => some key
  | .unbounded => none

/-- A range is in order: the traversal is, also from the node that the seek has come to;
    what was yielded is inside the bounds, and without a pair that was yielded the lower
    bound is still looked at. -/
structure Ok (m : Mem K V) (c : NodeId) (r : RangeWalk K V) : Prop where
  walk : r.seeking = none → WalkOk m c r.walk
  seeking : ∀ n loading, r.seeking = some (n, loading) → ∀ i, WalkOk m c (r.push n i).walk
  unloaded : r.seeking.isSome → r.walk.loading = false
  child : ∀ n key, r.seeking = some (n, true) → r.sought = some key →
    ((m.cells n).slots ((m.cells n).slotOf key)).isChild
  pairs : Ascending r.walk.pairs
  inside : ∀ a ∈ r.walk.pairs, r.startBound.allowsFrom a.1 ∧ r.endBound.allowsTo a.1
  started : r.started → r.startBound = .unbounded ∨ r.walk.pairs ≠ []

/-- A range that seeks no more. -/
theorem Ok.of_walk (hs : r.seeking = none) (hw : WalkOk m c r.walk)
    (hi : ∀ a ∈ r.walk.pairs, r.startBound.allowsFrom a.1 ∧ r.endBound.allowsTo a.1)
    (hst : r.started → r.startBound = .unbounded ∨ r.walk.pairs ≠ []) : r.Ok m c where
  walk _ := hw
  seeking n loading h := by rw [hs] at h; cases h
  unloaded h := by rw [hs] at h; cases h
  child n key h := by rw [hs] at h; cases h
  pairs := hw.pairs
  inside := hi
  started := hst

theorem Ok.new (hc : m.NodeWF c) (s e : Bound K) : Ok m c (RangeWalk.new c s e : RangeWalk K V) := by
  cases s with
  | unbounded => exact .of_walk rfl (.start hc) nofun fun _ => Or.inl rfl
  | _ =>
    refine ⟨nofun, fun n loading hs i => ?_, fun _ => rfl, nofun, ascending_nil, nofun, nofun⟩
    cases hs
    exact .startAt hc i

theorem Ok.evolve (h : r.Ok m c) (hc : c.alloc < m.next) (he : m.Evolves m') : r.Ok m' c where
  walk hs := (h.walk hs).evolve hc he
  seeking n loading hs i := (h.seeking n loading hs i).evolve hc he
  unloaded := h.unloaded
  child n key hs hk := by
    have hn := ((h.seeking n true hs 0).wf (n, 0) List.mem_cons_self).alloc
    rw [he.slotOf hn]
    exact he.child n _ hn (h.child n key hs hk)
  pairs := h.pairs
  inside := h.inside
  started := h.started

omit [LinearOrder K] [Key K] in
theorem new_bounds (n : NodeId) (s e : Bound K) :
    (RangeWalk.new n s e : RangeWalk K V).startBound = s ∧
      (RangeWalk.new n s e : RangeWalk K V).endBound = e := by
  cases s <;> exact ⟨rfl, rfl⟩

/-- The bounds of a range stay. -/
theorem step_bounds (h : r.step m = some r') :
    r'.startBound = r.startBound ∧ r'.endBound = r.endBound := by
  have hseek : ∀ n loading key, (r.seekTo m n loading key).startBound = r.startBound ∧
      (r.seekTo m n loading key).endBound = r.endBound := by
    intro n loading key
    rw [RangeWalk.seekTo]
    dsimp only
    split_ifs
    · split <;> exact ⟨rfl, rfl⟩
    · exact ⟨rfl, rfl⟩
    · exact ⟨rfl, rfl⟩
  unfold RangeWalk.step at h
  split at h
  · split at h
    · cases h
      exact hseek _ _ _
    · cases h
      exact hseek _ _ _
    · cases h
  · split_ifs at h
    obtain ⟨w, -, rfl⟩ := Option.map_eq_some_iff.1 h
    unfold RangeWalk.visit
    split
    · dsimp only
      split_ifs <;> exact ⟨rfl, rfl⟩
    · exact ⟨rfl, rfl⟩

/-- **A step of the seek.** -/
theorem Ok.seekTo {n : NodeId} {loading : Bool} {key : K} (h : r.Ok m c)
    (hs : r.seeking = some (n, loading)) (hk : r.sought = some key) :
    (r.seekTo m n loading key).Ok m c := by
  have hstop : ∀ i, ({ r.push n i with seeking := none } : RangeWalk K V).Ok m c := fun i =>
    .of_walk rfl (h.seeking n loading hs i) h.inside h.started
  rw [RangeWalk.seekTo]
  dsimp only
  split_ifs with hl hst
  · subst hl
    split
    · -- the seek goes on in the child, and the rest of the node remains to be done
      rename_i q hq
      have hw := h.unloaded (by rw [hs]; rfl)
      refine ⟨nofun, fun n' loading' hs' i => ?_, fun _ => hw, fun n' key' hs' => ?_, h.pairs,
        h.inside, h.started⟩
      · cases hs'
        have := (h.seeking n true hs ((m.cells n).slotOf key)).enter rfl (h.child n key hs hk) hq i
        rw [← hw] at this
        exact this
      · cases hs'
    · exact hstop _
  · refine ⟨nofun, fun n' loading' hs' i => ?_, fun _ => h.unloaded (by rw [hs]; rfl),
      fun n' key' hs' hk' => ?_, h.pairs, h.inside, h.started⟩
    · cases hs'
      exact h.seeking n loading hs i
    · cases hs'
      cases (show r.sought = some key' from hk').symm.trans hk
      have hst' : ((m.cells n).state ((m.cells n).slotOf key)).isChild := hst
      have hne : (m.cells n).state ((m.cells n).slotOf key) ≠ .writing := by
        intro he
        rw [he] at hst'
        cases hst'
      rwa [← ((Cell.state_eq hne).1 rfl).2] at hst'
  · exact hstop _

/-- The pair of a step of the traversal, with the bounds looked at. -/
theorem Ok.item [LawfulKey K] {k : K} {v : V} (h : r.Ok m c) (hs : r.seeking = none)
    (hw : WalkOk m c w) (hp : w.pairs = r.walk.pairs ++ [(k, v)]) : (r.visit w).Ok m c := by
  have hskip : WalkOk m c { w with pairs := r.walk.pairs } :=
    hw.forget (by rw [hp]; exact List.sublist_append_left _ _)
  rw [RangeWalk.visit, hp, List.drop_left]
  dsimp only
  split_ifs with hend hstart
  · exact .of_walk hs hskip h.inside h.started
  · exact .of_walk hs hskip h.inside h.started
  · have hto : r.endBound.allowsTo k := by
      by_contra hn
      exact hend ((Bound.pastEnd_iff _ _).2 hn)
    have hasc := ascending_append.1 (hp ▸ hw.pairs)
    have hfrom : r.startBound.allowsFrom k := by
      by_cases hst : r.started = true
      · -- a pair that was yielded is inside the bounds and below this one
        rcases h.started hst with hu | hne
        · rw [hu]
          trivial
        · obtain ⟨a, ha⟩ := List.exists_mem_of_ne_nil _ hne
          exact Bound.allowsFrom_mono (hasc.2.2 a ha (k, v) List.mem_cons_self).le (h.inside a ha).1
      · by_contra hn
        exact hstart ⟨hst, (Bound.beforeStart_iff _ _).2 hn⟩
    refine .of_walk hs hw (fun a ha => ?_) fun _ => Or.inr ?_
    · rcases List.mem_append.1 (hp ▸ ha) with ha | ha
      · exact h.inside a ha
      · rw [List.mem_singleton.1 ha]
        exact ⟨hfrom, hto⟩
    · show w.pairs ≠ []
      rw [hp]
      simp

/-- **A step keeps a range in order.** -/
theorem Ok.step [LawfulKey K] (h : r.Ok m c) (hs : r.step m = some r') : r'.Ok m c := by
  unfold RangeWalk.step at hs
  split at hs
  · rename_i n loading hseek
    split at hs
    · rename_i key hb
      cases hs
      exact h.seekTo hseek (by rw [sought, hb])
    · rename_i key hb
      cases hs
      exact h.seekTo hseek (by rw [sought, hb])
    · cases hs
  · rename_i hseek
    split_ifs at hs
    obtain ⟨w, hw, rfl⟩ := Option.map_eq_some_iff.1 hs
    have hok := h.walk hseek
    rcases (hok.visits hw).pairs with hp | ⟨k, v, hp⟩
    · have hv : r.visit w = { r with walk := w } := by
        rw [RangeWalk.visit, hp, List.drop_length]
      rw [hv]
      refine .of_walk hseek (hok.step hw) (fun a ha => h.inside a (hp ▸ ha)) fun hst => ?_
      show _ ∨ w.pairs ≠ []
      rw [hp]
      exact h.started hst
    · exact h.item hseek (hok.step hw) hp

end RangeWalk

/-! ## Interleavings -/

namespace Sys
variable {s s' : Sys K V}

/-- An action of the operations changes the trees as they may change. -/
theorem Inv.evolves [LawfulKey K] (h : s.Inv) {a : Act K V} (ha : s.act a = some s') :
    s.mem.Evolves s'.mem := by
  cases a with
  | call t call =>
    obtain ⟨-, rfl⟩ := invoke_eq_some ha
    exact .of_same le_rfl fun _ _ => rfl
  | step t =>
    obtain ⟨th, m', next, hth, hstep, rfl⟩ := step_eq_some ha
    rw [proceed_mem]
    exact ((step_effect h.headroom (h.ok hth) (h.locks hth) hstep).content (h.ok hth)
      (h.locks hth)).evolves

/-- **What the operations and the steps of a traversal keep, an interleaving keeps.** -/
theorem beside_induct [LawfulKey K] {σ : Type} {visit : Mem K V → σ → Option σ}
    {I : Mem K V → σ → Prop} {n : NodeId}
    (hvisit : ∀ {m w w'}, I m w → visit m w = some w' → I m w')
    (hevolve : ∀ {m m' w}, I m w → n.alloc < m.next → m.Evolves m' → I m' w)
    {turns : List (Turn K V)} {w w' : σ} (hinv : s.Inv) (hn : n.alloc < s.mem.next)
    (h : I s.mem w) (hrun : turns.foldlM (beside visit) (s, w) = some (s', w')) : I s'.mem w' := by
  refine (Run.run_induct (C := fun _ _ => True)
    (I := fun p => p.1.Inv ∧ n.alloc < p.1.mem.next ∧ I p.1.mem p.2) (fun {p turn p'} hp _ ht => ?_)
    ⟨hinv, hn, h⟩ (.of_forall fun _ _ => trivial) hrun).2.2
  obtain ⟨hinv, hn, h⟩ := hp
  cases turn with
  | act a =>
    obtain ⟨s₁, ha, rfl⟩ := Option.map_eq_some_iff.1 ht
    have he := hinv.evolves ha
    exact ⟨hinv.act ha, hn.trans_le he.next, hevolve h hn he⟩
  | visit =>
    obtain ⟨w₁, hw, rfl⟩ := Option.map_eq_some_iff.1 ht
    exact ⟨hinv, hn, hvisit h hw⟩

/-- **Traversals yield ascending keys, ranges only keys inside their bounds**, whatever
    the operations do meanwhile. -/
theorem traversals_inOrder [LawfulKey K] {config : Config} (hc : config.Valid)
    {map : LearnedMap K V} {pairs : List (K × V)} (hs : Starts config map pairs)
    {sched : List (Act K V)} (hrun : (Sys.init map).run sched = some s) (turns : List (Turn K V)) :
    (∀ s' w, s.runIter turns = some (s', w) → Ascending w.pairs) ∧
    (∀ startBound endBound s' r, s.runRange startBound endBound turns = some (s', r) →
      Ascending r.walk.pairs ∧
        ∀ a ∈ r.walk.pairs, startBound.allowsFrom a.1 ∧ endBound.allowsTo a.1) := by
  have hinv := (Inv.init hc hs).run hrun
  have hroot := hinv.root.1
  refine ⟨fun s' w hw => ?_, fun startBound endBound s' r hr => ?_⟩
  · exact (beside_induct (I := fun m w => WalkOk m s.mem.root.node w) (fun h hw => h.step hw)
      (fun h hn he => h.evolve hn he) hinv hroot.alloc (.start hroot) hw).pairs
  · have hok := beside_induct (I := fun m r => RangeWalk.Ok m s.mem.root.node r ∧
        r.startBound = startBound ∧ r.endBound = endBound)
      (fun h hr => ⟨h.1.step hr, (RangeWalk.step_bounds hr).1.trans h.2.1,
        (RangeWalk.step_bounds hr).2.trans h.2.2⟩)
      (fun h hn he => ⟨h.1.evolve hn he, h.2⟩) hinv hroot.alloc
      ⟨.new hroot startBound endBound, RangeWalk.new_bounds _ _ _⟩ hr
    have hin := hok.1.inside
    rw [hok.2.1, hok.2.2] at hin
    exact ⟨hok.1.pairs, hin⟩

/-- An iterator and a range that meet a byte, and another one that is inserted meanwhile. -/
theorem traversals_inOrder_bytes :
    ∃ (s s₁ s₂ : Sys (Fin (2 ^ 8)) ℕ) (w : Walk (Fin (2 ^ 8)) ℕ) (r : RangeWalk (Fin (2 ^ 8)) ℕ),
      s.runIter (List.replicate 6 .visit ++ .act (.call 0 (.insert ⟨7, by decide⟩ 2)) ::
        (List.replicate 8 (.act (.step 0)) ++ List.replicate 2 .visit)) = some (s₁, w) ∧
      s.runRange (.excluded ⟨4, by decide⟩) (.included ⟨7, by decide⟩)
        (List.replicate 3 .visit ++ .act (.call 0 (.insert ⟨7, by decide⟩ 2)) ::
          (List.replicate 8 (.act (.step 0)) ++ List.replicate 2 .visit)) = some (s₂, r) ∧
      w.pairs = [(⟨5, by decide⟩, 1), (⟨7, by decide⟩, 2)] ∧ r.walk.pairs = w.pairs ∧
      Ascending w.pairs ∧ Ascending r.walk.pairs := by
  have := lawfulKey_unsigned (show 8 ≤ 64 by decide)
  generalize hi : (List.replicate 6 .visit ++ .act (.call 0 (.insert ⟨7, by decide⟩ 2)) ::
    (List.replicate 8 (.act (.step 0)) ++ List.replicate 2 .visit) :
    List (Turn (Fin (2 ^ 8)) ℕ)) = ti
  generalize hr : (List.replicate 3 .visit ++ .act (.call 0 (.insert ⟨7, by decide⟩ 2)) ::
    (List.replicate 8 (.act (.step 0)) ++ List.replicate 2 .visit) :
    List (Turn (Fin (2 ^ 8)) ℕ)) = tr
  have he : ((Sys.init (.withConfig {} : LearnedMap (Fin (2 ^ 8)) ℕ)).run
      (.call 0 (.insert ⟨5, by decide⟩ 1) :: List.replicate 8 (.step 0))).bind (fun s =>
        (s.runIter ti).bind fun p =>
          (s.runRange (.excluded ⟨4, by decide⟩) (.included ⟨7, by decide⟩) tr).map fun q =>
            (p.2.pairs, q.2.walk.pairs)) =
      some ([(⟨5, by decide⟩, 1), (⟨7, by decide⟩, 2)],
        [(⟨5, by decide⟩, 1), (⟨7, by decide⟩, 2)]) := by
    subst hi hr
    decide +kernel
  obtain ⟨s, hs, he⟩ := Option.bind_eq_some_iff.1 he
  obtain ⟨⟨s₁, w⟩, hw, he⟩ := Option.bind_eq_some_iff.1 he
  obtain ⟨⟨s₂, r⟩, hrr, he⟩ := Option.map_eq_some_iff.1 he
  obtain ⟨hp, hq⟩ := Prod.mk.inj he
  have hord := traversals_inOrder (show ({} : Config).Valid from ⟨one_le_two, le_rfl⟩) .withConfig hs
  exact ⟨s, s₁, s₂, w, r, hw, hrr, hp, hq.trans hp.symm, (hord ti).1 _ _ hw,
    ((hord tr).2 _ _ _ _ hrr).1⟩

end Sys

end Scry.Index
