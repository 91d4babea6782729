/-
  Whether the slices of a recursive build are in the order of their keys.

  The assignments are in the order of the keys and of the slots, so that a sort by slot
  keeps the order of the keys only by leaving them as they are.
-/
import Scry.Index.Proof.Recursion
import Scry.Index.Proof.Fmcd

namespace Scry.Index

namespace BuildCall
variable {K V : Type} [LinearOrder K] [Key K] {config : Config} {l : List (K × V)} {r : FmcdResult}
  {sort : List (ℕ × (K × V)) → List (ℕ × (K × V))}

/-- All slices of a call are in the order of their keys. -/
def SlicesAscending (sort : List (ℕ × (K × V)) → List (ℕ × (K × V))) (config : Config)
    (l : List (K × V)) : Prop :=
  ∀ child ∈ childPairs sort config l, Ascending child

/-! ## One sort -/

theorem assignments_map_snd (r : FmcdResult) (l : List (K × V)) :
    (assignments r l).map Prod.snd = l := by
  rw [assignments, List.map_map]
  exact List.map_id l

/-- Without conflicts the slots leave one order only. -/
theorem sort_of_no_conflicts (hmono : Monotone (Key.toModelInput : K → ℚ))
    (hr : Fits l.length (keyInput l) r) (hl : Ascending l) (hsort : SortsBySlot sort)
    (hc : r.conflicts = 0) : sort (assignments r l) = assignments r l := by
  have hlt : (assignments r l).Pairwise fun a b => a.1 < b.1 :=
    List.pairwise_map.2 (hr.slots_lt hmono hl hc)
  have hnodup : ((assignments r l).map Prod.fst).Nodup :=
    List.pairwise_map.2 (hlt.imp fun hab => hab.ne)
  refine (hsort.perm _).eq_of_pairwise (fun a b ha hb hab hba => ?_) (hsort.sorted _)
    (assignments_sorted hmono hr hl)
  exact List.inj_on_of_nodup_map hnodup ((hsort.perm _).mem_iff.1 ha) hb (le_antisymm hab hba)

/-- A sort that has put the pairs of each slot in order has changed nothing. -/
theorem sort_of_ascending (hmono : Monotone (Key.toModelInput : K → ℚ))
    (hr : Fits l.length (keyInput l) r) (hl : Ascending l) (hsort : SortsBySlot sort)
    (h : ∀ q ∈ runs (sort (assignments r l)), 2 ≤ q.2.length → Ascending q.2) :
    sort (assignments r l) = assignments r l := by
  have hmem : ∀ a ∈ sort (assignments r l), a = (r.header.predictSlot a.2.1, a.2) := by
    intro a ha
    obtain ⟨p, -, rfl⟩ := List.mem_map.1 ((hsort.perm _).mem_iff.1 ha)
    rfl
  have hasc : Ascending ((sort (assignments r l)).map Prod.snd) := by
    rw [← runs_flatten, Ascending, List.pairwise_flatMap]
    refine ⟨fun q hq => ?_, ?_⟩
    · rcases Nat.lt_or_ge q.2.length 2 with hlt | h2
      · exact List.pairwise_iff_getElem.2 fun i j hi hj hij => by omega
      · exact h q hq h2
    · refine (runs_ascending (hsort.sorted _)).imp_of_mem fun hq hq' hlt a ha b hb => ?_
      -- a later slot has later keys
      by_contra hle
      have h₁ := congrArg Prod.fst (hmem _ ((mem_runs hq).2 a ha))
      have h₂ := congrArg Prod.fst (hmem _ ((mem_runs hq').2 b hb))
      have := hr.predictSlot_mono hmono (not_lt.1 hle)
      simp only at h₁ h₂
      omega
  have hperm : ((sort (assignments r l)).map Prod.snd).Perm l := by
    have := (hsort.perm (assignments r l)).map Prod.snd
    rwa [assignments_map_snd] at this
  have heq : (sort (assignments r l)).map Prod.snd = l :=
    hperm.eq_of_pairwise (fun a b _ _ hab hba => absurd hab (not_lt.2 hba.le)) hasc hl
  calc sort (assignments r l)
      = (sort (assignments r l)).map fun a => (r.header.predictSlot a.2.1, a.2) :=
        (List.map_id _).symm.trans (List.map_congr_left hmem)
    _ = ((sort (assignments r l)).map Prod.snd).map fun p => (r.header.predictSlot p.1, p) := by
        rw [List.map_map]
        rfl
    _ = assignments r l := by
        rw [heq]
        rfl

/-- The slices of one call with one sort. -/
theorem slicesAscending_iff (hmono : Monotone (Key.toModelInput : K → ℚ)) (hv : config.Valid)
    (hl : Ascending l) (hsort : SortsBySlot sort) : SlicesAscending sort config l ↔
      isDegenerateGroup l ∨ ∀ r,
        fitFmcd l.length (keyInput l) config.expansionFactor config.rangeHeadroom = some r →
          sort (assignments r l) = assignments r l := by
  by_cases hd : isDegenerateGroup l
  · refine iff_of_true (fun child h => absurd hd (mem_childPairs h).1) (Or.inl hd)
  refine Iff.trans ?_ (or_iff_right hd).symm
  constructor
  · intro h r hfit
    have hr := fits_of_fit hmono hv hl hfit
    by_cases hc : r.conflicts = 0
    · exact sort_of_no_conflicts hmono hr hl hsort hc
    · refine sort_of_ascending hmono hr hl hsort fun q hq h2 => h q.2 ?_
      rw [childPairs, if_neg hd, hfit]
      simp only [if_neg hc]
      exact List.mem_filter.2 ⟨List.mem_map_of_mem hq, decide_eq_true h2⟩
  · intro h child hm
    obtain ⟨-, -, r, hfit, -, slot, hm⟩ := mem_childPairs hm
    have hg := (fits_of_fit hmono hv hl hfit).grouped hmono hl
    rw [h r hfit] at hm
    exact hl.sublist (hg.sublist _ hm)

/-! ## All sorts -/

/-- A sort that reverses the pairs of each slot changes what has a conflict. -/
theorem reversingSort_ne (hl : Ascending l) {i : ℕ} (hi : i + 1 < l.length)
    (heq : r.header.predictSlot l[i + 1].1 = r.header.predictSlot l[i].1) :
    reversingSort (assignments r l) ≠ assignments r l := by
  intro h
  have hpair : [l[i], l[i + 1]].Sublist l := by
    have hdrop : l.drop i = [l[i], l[i + 1]] ++ l.drop (i + 2) := by
      rw [List.drop_eq_getElem_cons (by omega), List.drop_eq_getElem_cons hi]
      rfl
    have := List.drop_sublist i l
    rw [hdrop] at this
    exact (List.sublist_append_left _ _).trans this
  -- the sort keeps the order of the reversed list where the slots are equal
  have hback : [l[i + 1], l[i]].Sublist l := by
    have hsub : [(r.header.predictSlot l[i].1, l[i]),
        (r.header.predictSlot l[i + 1].1, l[i + 1])].Sublist (assignments r l) :=
      hpair.map fun p : K × V => (r.header.predictSlot p.1, p)
    have hrev : [(r.header.predictSlot l[i + 1].1, l[i + 1]),
        (r.header.predictSlot l[i].1, l[i])].Sublist (reversingSort (assignments r l)) :=
      List.pair_sublist_insertionSort heq.le hsub.reverse
    rw [h] at hrev
    have hmap := hrev.map Prod.snd
    rwa [assignments_map_snd] at hmap
  have h₁ := List.pairwise_pair.1 (hl.sublist hpair)
  have h₂ := List.pairwise_pair.1 (hl.sublist hback)
  exact absurd h₁ (not_lt.2 h₂.le)

/-- **Which slices are in order**: with one sort those of a degenerate group and those whose
    assignments the sort leaves as they are; with all sorts that are allowed those of a
    degenerate group and those without conflicts. -/
theorem slices_ascending_iff (hmono : Monotone (Key.toModelInput : K → ℚ)) (hv : config.Valid)
    (hl : Ascending l) :
    (∀ sort, SortsBySlot sort → (SlicesAscending sort config l ↔ isDegenerateGroup l ∨ ∀ r,
      fitFmcd l.length (keyInput l) config.expansionFactor config.rangeHeadroom = some r →
        sort (assignments r l) = assignments r l)) ∧
    ((∀ sort, SortsBySlot sort → SlicesAscending sort config l) ↔ isDegenerateGroup l ∨ ∀ r,
      fitFmcd l.length (keyInput l) config.expansionFactor config.rangeHeadroom = some r →
        r.conflicts = 0) := by
  refine ⟨fun sort hsort => slicesAscending_iff hmono hv hl hsort, ?_⟩
  by_cases hd : isDegenerateGroup l
  · exact iff_of_true (fun sort _ child h => absurd hd (mem_childPairs h).1) (Or.inl hd)
  refine Iff.trans ?_ (or_iff_right hd).symm
  constructor
  · intro h r hfit
    have hr := fits_of_fit hmono hv hl hfit
    have hsame := ((slicesAscending_iff hmono hv hl reversingSort_sortsBySlot).1
      (h _ reversingSort_sortsBySlot)).resolve_left hd r hfit
    by_contra hc
    rw [(fitFmcd_reported hfit).counted, countConflictsFast_eq_zero] at hc
    simp only [not_forall, not_not] at hc
    obtain ⟨i, hi, heq⟩ := hc
    rw [← hr.predictSlot hi, ← hr.predictSlot (show i < l.length by omega)] at heq
    exact reversingSort_ne hl hi heq hsame
  · intro h sort _ child hm
    obtain ⟨-, -, r, hfit, hc, -⟩ := mem_childPairs hm
    exact absurd (h r hfit) hc

theorem slices_ascending_iff_closeKeys :
    (∀ sort, SortsBySlot sort → (SlicesAscending sort {} closeKeys ↔
      isDegenerateGroup closeKeys ∨ ∀ r,
        fitFmcd closeKeys.length (keyInput closeKeys) 2 0 = some r →
          sort (assignments r closeKeys) = assignments r closeKeys)) ∧
    ((∀ sort, SortsBySlot sort → SlicesAscending sort {} closeKeys) ↔
      isDegenerateGroup closeKeys ∨ ∀ r,
        fitFmcd closeKeys.length (keyInput closeKeys) 2 0 = some r → r.conflicts = 0) :=
  slices_ascending_iff (lawfulKey_unsigned (w := 8) (by decide)).monotone
    (show ({} : Config).Valid from ⟨one_le_two, le_rfl⟩) (by decide)

/-- **A slice is out of order**: the close keys get one slot, and a sort that is allowed
    turns them round. -/
theorem closeKeys_slice : SortsBySlot (reversingSort (α := Fin (2 ^ 8) × Unit)) ∧
    Ascending closeKeys ∧ childPairs reversingSort {} closeKeys = [[(1, ()), (0, ())]] ∧
    ¬ SlicesAscending reversingSort {} closeKeys := by
  have h : childPairs reversingSort {} closeKeys = [[(1, ()), (0, ())]] := by decide +kernel
  refine ⟨reversingSort_sortsBySlot, by decide, h, fun hasc => ?_⟩
  have := hasc [(1, ()), (0, ())] (h ▸ List.mem_cons_self)
  revert this
  decide

end BuildCall

end Scry.Index
