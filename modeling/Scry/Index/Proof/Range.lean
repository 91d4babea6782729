/-
  A range yields the pairs of the tree that lie inside its bounds.

  The seek drops only keys below the one it seeks (`seekTo_spec`); from there on the
  traversal is ascending, so the bounds need no check once they have been passed.
-/
import Scry.Index.Range
import Scry.Index.Proof.Build

namespace Scry.Index

variable {K V : Type} [LinearOrder K]

/-! ## Bounds -/

namespace Bound

/-- The key satisfies a lower bound. -/
def allowsFrom (startBound : Bound K) (key : K) : Prop :=
  match startBound with
  | .included b => b ≤ key
  | .excluded b => b < key
  | .unbounded => True

/-- The key satisfies an upper bound. -/
def allowsTo (endBound : Bound K) (key : K) : Prop :=
  match endBound with
  | .included b => key ≤ b
  | .excluded b => key < b
  | .unbounded => True

instance (b : Bound K) (key : K) : Decidable (b.allowsFrom key) := by
  cases b <;> unfold allowsFrom <;> infer_instance

instance (b : Bound K) (key : K) : Decidable (b.allowsTo key) := by
  cases b <;> unfold allowsTo <;> infer_instance

theorem beforeStart_iff (b : Bound K) (key : K) : b.beforeStart key ↔ ¬ b.allowsFrom key := by
  cases b <;> simp [beforeStart, allowsFrom]

theorem pastEnd_iff (b : Bound K) (key : K) : b.pastEnd key ↔ ¬ b.allowsTo key := by
  cases b <;> simp [pastEnd, allowsTo]

theorem allowsFrom_mono {b : Bound K} {k k' : K} (hk : k ≤ k') (h : b.allowsFrom k) :
    b.allowsFrom k' := by
  cases b with
  | included a => exact le_trans (show a ≤ k from h) hk
  | excluded a => exact lt_of_lt_of_le (show a < k from h) hk
  | unbounded => trivial

theorem allowsTo_anti {b : Bound K} {k k' : K} (hk : k ≤ k') (h : b.allowsTo k') :
    b.allowsTo k := by
  cases b with
  | included a => exact le_trans hk (show k' ≤ a from h)
  | excluded a => exact lt_of_le_of_lt hk (show k' < a from h)
  | unbounded => trivial

end Bound

/-- The pairs inside the bounds. -/
def between (s e : Bound K) (l : List (K × V)) : List (K × V) :=
  l.filter fun a => s.allowsFrom a.1 ∧ e.allowsTo a.1

section Between
variable {s e : Bound K} {a : K × V} {l : List (K × V)}

theorem between_cons_of_inside (hs : s.allowsFrom a.1) (he : e.allowsTo a.1) :
    between s e (a :: l) = a :: between s e l := List.filter_cons_of_pos (by simp [hs, he])

theorem between_cons_of_before (hs : ¬ s.allowsFrom a.1) :
    between s e (a :: l) = between s e l := List.filter_cons_of_neg (by simp [hs])

/-- Past the upper bound nothing is inside. -/
theorem between_eq_nil (hl : Ascending (a :: l)) (he : ¬ e.allowsTo a.1) :
    between s e (a :: l) = [] := by
  refine List.filter_eq_nil_iff.2 fun b hb => ?_
  have : ¬ e.allowsTo b.1 := fun h => he (Bound.allowsTo_anti (hl.head_le hb) h)
  simp [this]

/-- Pairs before the lower bound do not matter. -/
theorem between_append_of_before {pre : List (K × V)} (hp : ∀ b ∈ pre, ¬ s.allowsFrom b.1) :
    between s e (pre ++ l) = between s e l := by
  rw [between, List.filter_append, List.filter_eq_nil_iff.2 fun b hb => by simp [hp b hb]]
  rfl

end Between

/-! ## The seek -/

namespace Stack

omit [LinearOrder K] in
/-- What is ahead of a node is a suffix of its pairs. -/
theorem entries_split (n : Node K V) (s : Stack K V) {p : ℕ} (hp : p ≤ n.capacity) :
    n.entries ++ ahead s = (List.range p).flatMap n.pairsAt ++ ahead ((n, p) :: s) := by
  have hr : List.range n.capacity = List.range p ++ List.range' p (n.capacity - p) := by
    have h := @List.range'_append_1 0 p (n.capacity - p)
    rw [Nat.zero_add, Nat.add_sub_cancel' hp] at h
    rw [List.range_eq_range', List.range_eq_range', h]
  rw [n.entries_eq_flatMap, hr, List.flatMap_append, List.append_assoc]
  rfl

omit [LinearOrder K] in
theorem aheadCost_le (n : Node K V) (s : Stack K V) {p : ℕ} (hp : p ≤ n.capacity) :
    aheadCost ((n, p) :: s) ≤ n.visits + aheadCost s := by
  induction p with
  | zero => exact (aheadCost_root s n).le
  | succ p ih =>
    have h := aheadCost_slot s n (show p < n.capacity by omega)
    have := ih (by omega)
    omega

end Stack

/-- What a seek leaves of a tree. -/
structure Seeks (n : Node K V) (key : K) (s s' : Stack K V) : Prop where
  ok : Stack.Ok s → Stack.Ok s'
  ahead : ∃ pre, n.entries ++ s.ahead = pre ++ s'.ahead ∧ ∀ a ∈ pre, a.1 < key
  cost : s'.aheadCost ≤ n.visits + s.aheadCost

section Seek
variable [Key K] {h : Header K} {st : ℕ → SlotState} {kv : ℕ → Option (K × V)} {ch : ℕ → Node K V}
  {t : ℕ}

/-- The slots before the predicted one hold smaller keys. -/
theorem Node.Ordered.lt_of_before (hn : (Node.mk h st kv ch t).Ordered) {key : K} :
    ∀ a ∈ (List.range (h.predictSlot key)).flatMap (Node.mk h st kv ch t).pairsAt, a.1 < key := by
  intro a ha
  obtain ⟨i, hi, ha⟩ := List.mem_flatMap.1 ha
  cases hn with
  | mk _ mono _ routed _ =>
    refine Node.lt_of_predictSlot_lt mono ?_
    rw [routed i a ha]
    exact List.mem_range.1 hi

/-- **A seek skips only keys below the one it seeks.** -/
theorem Node.Ordered.seekTo_spec {n : Node K V} (hn : n.Ordered) (key : K) :
    ∀ s, Seeks n key s (n.seekTo key s) := by
  induction hn with
  | null => exact fun s => ⟨id, ⟨[], rfl, fun a ha => nomatch ha⟩, Nat.le_add_left _ _⟩
  | @mk h st kv ch t pos mono idle routed child ih =>
    intro s
    have hn : (Node.mk h st kv ch t).Ordered := .mk pos mono idle routed child
    have hp : h.predictSlot key < (Node.mk h st kv ch t).capacity := Header.predictSlot_lt pos key
    have hhere : Seeks (.mk h st kv ch t) key s ((.mk h st kv ch t, h.predictSlot key) :: s) :=
      ⟨fun hs => Stack.ok_cons.2 ⟨hn.atRest, hs⟩,
        ⟨_, Stack.entries_split _ s hp.le, hn.lt_of_before⟩, Stack.aheadCost_le _ s hp.le⟩
    rw [seekTo]
    by_cases hc : (st (h.predictSlot key)).isChild
    · simp only [if_pos hc]
      split
      · exact hhere
      · -- the child is sought, and the rest of the node remains to be done
        obtain ⟨h₁, ⟨pre, h₂, h₃⟩, h₄⟩ := ih _ hc ((.mk h st kv ch t, h.predictSlot key + 1) :: s)
        obtain ⟨g₁, ⟨pre', g₂, g₃⟩, g₄⟩ := hhere
        have hsub : (Node.mk h st kv ch t).pairsAt (h.predictSlot key) =
            (ch (h.predictSlot key)).entries := slotEntries_isChild hc _ _
        refine ⟨fun hs => h₁ (Stack.ok_cons.2 ⟨hn.atRest, hs⟩), ⟨pre' ++ pre, ?_, ?_⟩, ?_⟩
        · rw [g₂, Stack.ahead_slot _ _ hp, hsub, h₂, List.append_assoc]
        · intro a ha
          rcases List.mem_append.1 ha with ha | ha
          · exact g₃ a ha
          · exact h₃ a ha
        · have := Stack.aheadCost_slot s _ hp
          have hv : (Node.mk h st kv ch t).visitsAt (h.predictSlot key) =
            1 + (ch (h.predictSlot key)).visits := rfl
          omega
    · simp only [if_neg hc]
      exact hhere

end Seek

/-! ## The traversal -/

namespace Range

/-- What a range has still to yield. -/
def rest (r : Range K V) : List (K × V) := between r.startBound r.endBound r.stack.ahead

/-- The invariant of a range that is not exhausted: once it has started, the lower bound
    is behind it. -/
structure Inv (r : Range K V) : Prop where
  ok : r.stack.Ok
  ascending : Ascending r.stack.ahead
  started : r.started → ∀ a ∈ r.stack.ahead, r.startBound.allowsFrom a.1
  running : r.done = false

/-- What one iteration does. -/
def VisitOk (r : Range K V) : RangeVisit K V → Prop
  | .goOn r' => r'.Inv ∧ r.rest = r'.rest ∧ r'.stack.aheadCost < r.stack.aheadCost
  | .item key value r' =>
    r'.Inv ∧ r.rest = (key, value) :: r'.rest ∧ r'.stack.aheadCost < r.stack.aheadCost
  | .exhausted _ => r.rest = []
  | .spin => False

theorem visit_ok {r : Range K V} (hr : r.Inv) : r.VisitOk r.visit := by
  obtain ⟨stack, s, e, started, done⟩ := r
  obtain ⟨ok, asc, hstarted, hrun⟩ := hr
  have hstep := visit_spec stack ok
  rw [visit]
  cases hv : Index.visit stack with
  | goOn stack' =>
    rw [hv] at hstep
    obtain ⟨hok, he, hc⟩ := hstep
    dsimp only at asc hstarted
    rw [he] at asc hstarted
    exact ⟨⟨hok, asc, hstarted, hrun⟩, congrArg (between s e) he, hc⟩
  | item k v stack' =>
    rw [hv] at hstep
    obtain ⟨hok, he, hc⟩ := hstep
    dsimp only at asc hstarted
    rw [he] at asc hstarted
    have hrest : (⟨stack, s, e, started, done⟩ : Range K V).rest =
        between s e ((k, v) :: stack'.ahead) := congrArg (between s e) he
    dsimp only
    by_cases hend : e.pastEnd k
    · rw [if_pos hend]
      exact hrest.trans (between_eq_nil asc ((e.pastEnd_iff k).1 hend))
    rw [if_neg hend]
    have hto : e.allowsTo k := by
      by_contra h
      exact hend ((e.pastEnd_iff k).2 h)
    by_cases hbefore : ¬ (started : Prop) ∧ s.beforeStart k
    · rw [if_pos hbefore]
      refine ⟨⟨hok, (ascending_cons.1 asc).2, fun hs => absurd hs hbefore.1, hrun⟩, ?_, hc⟩
      exact hrest.trans (between_cons_of_before ((s.beforeStart_iff k).1 hbefore.2))
    · rw [if_neg hbefore]
      have hfrom : s.allowsFrom k := by
        by_cases hs : (started : Prop)
        · exact hstarted hs (k, v) List.mem_cons_self
        · by_contra h
          exact hbefore ⟨hs, (s.beforeStart_iff k).2 h⟩
      refine ⟨⟨hok, (ascending_cons.1 asc).2, fun _ a ha => ?_, hrun⟩,
        hrest.trans (between_cons_of_inside hfrom hto), hc⟩
      exact Bound.allowsFrom_mono ((ascending_cons.1 asc).1 a ha).le hfrom
  | done =>
    rw [hv] at hstep
    have he : stack.ahead = [] := hstep
    exact congrArg (between s e) he
  | spin =>
    rw [hv] at hstep
    exact hstep.elim

/-- Within enough iterations a call of `next` returns the head of what is to come. -/
theorem loop_spec (n : ℕ) :
    ∀ r : Range K V, r.Inv → r.stack.aheadCost < n →
      (r.rest = [] ∧ ∃ r', r.loop n = some (none, r')) ∨
      ∃ a r', r.rest = a :: r'.rest ∧ r.loop n = some (some a, r') ∧ r'.Inv ∧
        r'.stack.aheadCost < r.stack.aheadCost := by
  induction n with
  | zero => intro r _ hr; omega
  | succ n ih =>
    intro r hr hn
    have hstep := visit_ok hr
    rw [loop]
    cases hv : r.visit with
    | goOn r' =>
      rw [hv] at hstep
      obtain ⟨hr', he, hc⟩ := hstep
      rw [he]
      rcases ih r' hr' (by omega) with h | ⟨a, r'', h₁, h₂, h₃, h₄⟩
      · exact Or.inl h
      · exact Or.inr ⟨a, r'', h₁, h₂, h₃, h₄.trans hc⟩
    | item k v r' =>
      rw [hv] at hstep
      obtain ⟨hr', he, hc⟩ := hstep
      exact Or.inr ⟨(k, v), r', he, rfl, hr', hc⟩
    | exhausted r' =>
      rw [hv] at hstep
      exact Or.inl ⟨hstep, r', rfl⟩
    | spin =>
      rw [hv] at hstep
      exact hstep.elim

theorem collect_eq {fuel : ℕ} (n : ℕ) :
    ∀ r : Range K V, r.Inv → r.stack.aheadCost < fuel → r.stack.aheadCost < n →
      r.collect fuel n = some r.rest := by
  induction n with
  | zero => intro r _ _ hn; omega
  | succ n ih =>
    intro r hr hf hn
    rw [collect, next, if_neg (by rw [hr.running]; decide)]
    rcases loop_spec fuel r hr hf with ⟨h₁, r', h₂⟩ | ⟨a, r', h₁, h₂, h₃, h₄⟩
    · rw [h₁, h₂]
    · rw [h₁, h₂]
      dsimp only
      rw [ih r' h₃ (by omega) (by omega)]
      rfl

variable [Key K]

/-- A range starts with all pairs inside its bounds ahead. -/
theorem new_spec {root : Node K V} (hr : root.Ordered) (s e : Bound K) :
    (new root s e).Inv ∧ (new root s e).rest = between s e root.entries ∧
      (new root s e).stack.aheadCost ≤ root.visits := by
  have seek : ∀ key, (∀ k, k < key → ¬ s.allowsFrom k) →
      (⟨root.seekTo key [], s, e, false, false⟩ : Range K V).Inv ∧
      (⟨root.seekTo key [], s, e, false, false⟩ : Range K V).rest = between s e root.entries ∧
      (root.seekTo key []).aheadCost ≤ root.visits := by
    intro key hkey
    obtain ⟨ok, ⟨pre, he, hpre⟩, hc⟩ := hr.seekTo_spec key []
    have he : root.entries = pre ++ (root.seekTo key []).ahead := by simpa [Stack.ahead] using he
    have hasc := hr.ascending
    refine ⟨⟨ok (fun f hf => absurd hf List.not_mem_nil), ?_, fun h => absurd h Bool.false_ne_true,
      rfl⟩, ?_, hc⟩
    · exact hasc.sublist (he ▸ List.sublist_append_right _ _)
    · rw [he, between_append_of_before fun b hb => hkey _ (hpre b hb)]
      rfl
  cases s with
  | included key => exact seek key fun k hk h => absurd hk (not_lt.2 h)
  | excluded key => exact seek key fun k hk h => absurd hk (not_lt.2 (le_of_lt h))
  | unbounded =>
    have he : Stack.ahead [(root, 0)] = root.entries := by
      rw [Stack.ahead_root]; simp [Stack.ahead]
    refine ⟨⟨Stack.ok_cons.2 ⟨hr.atRest, fun f hf => absurd hf List.not_mem_nil⟩, ?_,
      fun _ _ _ => trivial, rfl⟩,
      congrArg _ he, ?_⟩
    · exact he ▸ hr.ascending
    · show Stack.aheadCost [(root, 0)] ≤ root.visits
      rw [Stack.aheadCost_root]; simp [Stack.aheadCost]

end Range

/-- **A range is the filtered iteration.**  Whatever its bounds are, every call of `next`
    returns, and the entries are those of the iteration that lie inside both bounds. -/
theorem range_eq_filter [Key K] {root : Node K V} (hr : root.Ordered) (s e : Bound K) {fuel : ℕ}
    (hf : root.visits < fuel) :
    (Range.new root s e).collect fuel fuel =
      some (root.sortedPairs.filter fun a => s.allowsFrom a.1 ∧ e.allowsTo a.1) := by
  obtain ⟨hi, hrest, hc⟩ := Range.new_spec hr s e
  rw [Range.collect_eq fuel _ hi (by omega) (by omega), hrest, hr.atRest.sortedPairs_eq]
  rfl

/-- A range over a loaded tree of bytes. -/
theorem range_eq_filter_bytes : ∃ root : Node (Fin (2 ^ 8)) ℕ, ∃ fuel,
    root.get ⟨9, by decide⟩ = some 4 ∧
    (Range.new root (.excluded ⟨3, by decide⟩) (.included ⟨8, by decide⟩)).collect fuel fuel =
      some [(⟨5, by decide⟩, 2)] := by
  have := lawfulKey_unsigned (show 8 ≤ 64 by decide)
  have hc : ({} : Config).Valid := ⟨one_le_two, le_rfl⟩
  have hasc : Ascending [((⟨3, by decide⟩ : Fin (2 ^ 8)), 1), (⟨5, by decide⟩, 2),
    (⟨9, by decide⟩, 4)] := by decide
  obtain ⟨root, -, hw, hg⟩ := bulkLoad_holds hc (by decide) hasc
  have hs := hw.sortedPairs_eq.trans (hw.entries_eq hasc hg)
  refine ⟨root, root.visits + 1, by rw [hg]; decide, ?_⟩
  rw [range_eq_filter hw.ordered _ _ (Nat.lt_succ_self _), hs]
  decide

end Scry.Index
