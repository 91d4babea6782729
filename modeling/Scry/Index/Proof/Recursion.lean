/-
  The recursion of the builders comes to an end, and what their slices rely on.

  A fit puts the first and the last key in different slots, so that no run is as long as
  the list (`calls_shrink`); the slices are in the order of the keys exactly if the sort
  leaves the assignments, which are in order already, as they are (`slices_ascending_iff`).
-/
import Scry.Index.Recursion
import Scry.Index.Proof.Build

namespace Scry.Index

/-! ## Sorts -/

theorem stableSort_sortsBySlot {α : Type} : SortsBySlot (stableSort (α := α)) where
  perm l := List.perm_insertionSort _ l
  sorted _ := List.pairwise_insertionSort _ _

theorem stableSort_keepsSorted {α : Type} : KeepsSorted (stableSort (α := α)) :=
  fun _ hl => List.Pairwise.insertionSort_eq hl

theorem reversingSort_sortsBySlot {α : Type} : SortsBySlot (reversingSort (α := α)) where
  perm l := (List.perm_insertionSort _ _).trans l.reverse_perm
  sorted _ := List.pairwise_insertionSort _ _

namespace BuildCall
variable {K V : Type} [LinearOrder K] [Key K] {config : Config}
  {sort : List (ℕ × (K × V)) → List (ℕ × (K × V))} {build build' : BuildCall K V → Option (Node K V)}

/-! ## Bodies and calls -/

omit [LinearOrder K] [Key K] in
theorem storeHalf_congr {f g : List (K × V) → Option (Node K V)} (node : Node K V) (idx : ℕ)
    {half : List (K × V)} (hne : half ≠ []) (h : 2 ≤ half.length → f half = g half) :
    storeHalf f node idx half = storeHalf g node idx half := by
  rcases half with - | ⟨a, - | ⟨b, rest⟩⟩
  · exact absurd rfl hne
  · rfl
  · simp only [storeHalf, h (by simp)]

omit [LinearOrder K] [Key K] in
theorem foldlM_storeHalf_congr {f g : List (K × V) → Option (Node K V)}
    {rs : List (ℕ × List (K × V))} (hrs : ∀ r ∈ rs, r.2 ≠ [] ∧ (2 ≤ r.2.length → f r.2 = g r.2)) :
    ∀ node : Node K V, rs.foldlM (fun node run => storeHalf f node run.1 run.2) node =
      rs.foldlM (fun node run => storeHalf g node run.1 run.2) node := by
  induction rs with
  | nil => exact fun _ => rfl
  | cons r rs ih =>
    intro node
    obtain ⟨hne, h⟩ := hrs r List.mem_cons_self
    rw [List.foldlM_cons, List.foldlM_cons, storeHalf_congr node r.1 hne h]
    exact congrArg _ (funext fun n => ih (fun r hr => hrs r (List.mem_cons_of_mem _ hr)) n)

theorem body_degenerate {l : List (K × V)} (hl : 2 ≤ l.length) :
    (BuildCall.degenerate l).body sort config build =
      (l.take (l.length / 2)).getLast?.bind fun lo => (l.drop (l.length / 2)).head?.bind fun hi =>
        (storeHalf (fun half => build (.degenerate half)) (splitNode lo.1 hi.1 2) 0
          (l.take (l.length / 2))).bind fun node =>
            storeHalf (fun half => build (.degenerate half)) node 1 (l.drop (l.length / 2)) := by
  rcases l with - | ⟨a, - | ⟨b, rest⟩⟩
  · cases hl
  · exact absurd hl (Nat.not_succ_le_self 1)
  · rfl

theorem mem_calls_halves {l : List (K × V)} (hl : 2 ≤ l.length) {half : List (K × V)}
    (hhalf : half = l.take (l.length / 2) ∨ half = l.drop (l.length / 2)) (h2 : 2 ≤ half.length) :
    .degenerate half ∈ (BuildCall.degenerate l).calls sort config := by
  rw [calls, if_neg (by omega)]
  refine List.mem_map_of_mem (List.mem_filter.2 ⟨?_, decide_eq_true h2⟩)
  rcases hhalf with rfl | rfl
  · exact List.mem_cons_self
  · exact List.mem_cons_of_mem _ List.mem_cons_self

/-- **A body makes no other calls**: what it computes depends on the listed calls only. -/
theorem body_congr {c : BuildCall K V} (h : ∀ c' ∈ c.calls sort config, build c' = build' c') :
    c.body sort config build = c.body sort config build' := by
  cases c with
  | recursive l =>
    simp only [calls] at h
    simp only [body]
    by_cases hd : isDegenerateGroup l
    · rw [if_pos hd] at h
      rw [if_pos hd, if_pos hd]
      exact h _ List.mem_cons_self
    · rw [if_neg hd, childPairs, if_neg hd] at h
      rw [if_neg hd, if_neg hd]
      cases hfit : fitFmcd l.length (keyInput l) config.expansionFactor config.rangeHeadroom with
      | none => rfl
      | some r =>
        rw [hfit] at h
        simp only [Option.bind_eq_bind, Option.bind_some]
        by_cases hc : r.conflicts = 0
        · rw [if_pos hc, if_pos hc]
        · rw [if_neg hc, if_neg hc]
          simp only [if_neg hc] at h
          refine foldlM_storeHalf_congr (fun q hq => ⟨(mem_runs hq).1, fun h2 => ?_⟩) _
          exact h _ (List.mem_map_of_mem (List.mem_filter.2
            ⟨List.mem_map_of_mem hq, decide_eq_true h2⟩))
  | degenerate l =>
    rcases Nat.lt_or_ge l.length 2 with hlt | h2
    · rcases l with - | ⟨a, - | ⟨b, rest⟩⟩
      · rfl
      · rfl
      · simp at hlt
    · obtain ⟨htake, hdrop⟩ := halves_ne_nil h2
      rw [body_degenerate h2, body_degenerate h2]
      refine Option.bind_congr fun lo _ => Option.bind_congr fun hi _ => ?_
      rw [storeHalf_congr (g := fun half => build' (.degenerate half)) _ 0 htake fun hlen =>
        h _ (mem_calls_halves h2 (.inl rfl) hlen)]
      refine Option.bind_congr fun node _ => ?_
      exact storeHalf_congr _ 1 hdrop fun hlen => h _ (mem_calls_halves h2 (.inr rfl) hlen)

/-! ## Termination -/

/-- A call with pairs, in the order of their keys. -/
structure Proper (c : BuildCall K V) : Prop where
  ne_nil : c.pairs ≠ []
  ascending : Ascending c.pairs

omit [Key K] in
theorem Proper.length_pos {c : BuildCall K V} (hc : c.Proper) : 0 < c.pairs.length :=
  List.length_pos_iff_ne_nil.2 hc.ne_nil

@[simp] theorem pairs_ofChild (l : List (K × V)) : (ofChild l).pairs = l := by
  rw [ofChild]
  split_ifs <;> rfl

/-- The assignments of a fit, which is monotone, are in order. -/
theorem assignments_sorted {l : List (K × V)} {r : FmcdResult}
    (hmono : Monotone (Key.toModelInput : K → ℚ)) (hr : Fits l.length (keyInput l) r)
    (hl : Ascending l) : (assignments r l).Pairwise fun a b => a.1 ≤ b.1 :=
  List.pairwise_map.2 (hr.slots_le hmono hl)

/-- A fit that a call has got. -/
theorem fits_of_fit {l : List (K × V)} {r : FmcdResult}
    (hmono : Monotone (Key.toModelInput : K → ℚ)) (hv : config.Valid) (hl : Ascending l)
    (hfit : fitFmcd l.length (keyInput l) config.expansionFactor config.rangeHeadroom = some r) :
    Fits l.length (keyInput l) r := by
  have hpos : 0 < l.length := by
    refine Nat.pos_of_ne_zero fun h => ?_
    rw [fitFmcd, if_pos (Or.inl h)] at hfit
    cases hfit
  obtain ⟨r', hfit', hr⟩ := fitFmcd_fits (keyInput_sorted hmono hl) hpos hv.expansion hv.headroom
  exact Option.some.inj (hfit'.symm.trans hfit) ▸ hr

/-- What the slices of a call are. -/
theorem mem_childPairs {l child : List (K × V)} (h : child ∈ childPairs sort config l) :
    ¬ isDegenerateGroup l ∧ 2 ≤ child.length ∧ ∃ r,
      fitFmcd l.length (keyInput l) config.expansionFactor config.rangeHeadroom = some r ∧
        r.conflicts ≠ 0 ∧ ∃ slot, (slot, child) ∈ runs (sort (assignments r l)) := by
  rw [childPairs] at h
  split_ifs at h with hd
  · cases h
  cases hfit : fitFmcd l.length (keyInput l) config.expansionFactor config.rangeHeadroom with
  | none => rw [hfit] at h; cases h
  | some r =>
    rw [hfit] at h
    by_cases hc : r.conflicts = 0
    · simp only [if_pos hc] at h
      cases h
    · simp only [if_neg hc] at h
      obtain ⟨hm, h2⟩ := List.mem_filter.1 h
      obtain ⟨q, hq, rfl⟩ := List.mem_map.1 hm
      exact ⟨hd, of_decide_eq_true h2, r, rfl, hc, q.1, hq⟩

/-- **The slices of a sorted list are sorted and shorter**, if the sort keeps what is in
    order. -/
theorem childPairs_shrink (hmono : Monotone (Key.toModelInput : K → ℚ)) (hv : config.Valid)
    (hkeep : KeepsSorted sort) {l child : List (K × V)} (hl : Ascending l)
    (h : child ∈ childPairs sort config l) :
    child ≠ [] ∧ Ascending child ∧ child.length < l.length := by
  obtain ⟨hd, h2, r, hfit, -, slot, hm⟩ := mem_childPairs h
  have hr := fits_of_fit hmono hv hl hfit
  rw [hkeep _ (assignments_sorted hmono hr hl)] at hm
  have hg := hr.grouped hmono hl
  have hsub := hg.sublist _ hm
  exact ⟨(hg.group _ hm).1, hl.sublist hsub, hg.length_lt hr hd _ hm h2⟩

/-- A split of a group calls for its halves. -/
theorem mem_calls_degenerate {l : List (K × V)} {c : BuildCall K V}
    (h : c ∈ (BuildCall.degenerate l).calls sort config) : ∃ half, c = .degenerate half ∧
      half.Sublist l ∧ 2 ≤ half.length ∧ half.length < l.length := by
  rw [calls] at h
  split_ifs at h with h1
  · cases h
  · obtain ⟨half, hm, rfl⟩ := List.mem_map.1 h
    obtain ⟨hm, h2⟩ := List.mem_filter.1 hm
    refine ⟨half, rfl, ?_⟩
    rcases List.mem_cons.1 hm with rfl | hm
    · refine ⟨List.take_sublist _ _, of_decide_eq_true h2, ?_⟩
      rw [List.length_take]
      omega
    · obtain rfl := List.mem_singleton.1 hm
      refine ⟨List.drop_sublist _ _, of_decide_eq_true h2, ?_⟩
      rw [List.length_drop]
      omega

/-- Whether a call hands its list over, as it is, to the builder of degenerate groups, which
    calls only itself. -/
def HandsOver (c c' : BuildCall K V) : Prop := ∃ l, c = .recursive l ∧ c' = .degenerate l

/-- **A recursive call gets a shorter list.** -/
theorem calls_shrink (hmono : Monotone (Key.toModelInput : K → ℚ)) (hv : config.Valid)
    (hkeep : KeepsSorted sort) {c c' : BuildCall K V} (hc : c.Proper)
    (h : c' ∈ c.calls sort config) :
    c'.Proper ∧ (c'.pairs.length < c.pairs.length ∨ HandsOver c c') := by
  cases c with
  | recursive l =>
    rw [calls] at h
    split_ifs at h with hd
    · obtain rfl := List.mem_singleton.1 h
      exact ⟨⟨hc.ne_nil, hc.ascending⟩, Or.inr ⟨l, rfl, rfl⟩⟩
    · obtain ⟨child, hm, rfl⟩ := List.mem_map.1 h
      obtain ⟨h₁, h₂, h₃⟩ := childPairs_shrink hmono hv hkeep hc.ascending hm
      rw [← pairs_ofChild child] at h₁ h₂ h₃
      exact ⟨⟨h₁, h₂⟩, Or.inl h₃⟩
  | degenerate l =>
    obtain ⟨half, rfl, hsub, h2, hlt⟩ := mem_calls_degenerate h
    exact ⟨⟨List.length_pos_iff_ne_nil.1 (zero_lt_two.trans_le h2), hc.ascending.sublist hsub⟩,
      Or.inl hlt⟩

/-- The length of the list of a call, and which builder is called. -/
def weight : BuildCall K V → ℕ
  | .recursive l => 2 * l.length + 1
  | .degenerate l => 2 * l.length

omit [LinearOrder K] [Key K] in
theorem weight_lt {c c' : BuildCall K V}
    (h : c'.pairs.length < c.pairs.length ∨ HandsOver c c') : c'.weight < c.weight := by
  rcases h with h | ⟨l, rfl, rfl⟩
  · have h₁ : 2 * c.pairs.length ≤ c.weight := by cases c <;> simp only [pairs, weight] <;> omega
    have h₂ : c'.weight ≤ 2 * c'.pairs.length + 1 := by
      cases c' <;> simp only [pairs, weight] <;> omega
    omega
  · exact Nat.lt_succ_self _

/-- No proper call has an endless chain of calls below it. -/
theorem acc_calls (hmono : Monotone (Key.toModelInput : K → ℚ)) (hv : config.Valid)
    (hkeep : KeepsSorted sort) (c : BuildCall K V) (hc : c.Proper) :
    Acc (fun c' c => c' ∈ c.calls sort config) c := by
  induction hw : c.weight using Nat.strong_induction_on generalizing c with
  | _ w ih =>
    refine ⟨_, fun c' h => ?_⟩
    obtain ⟨hc', hlt⟩ := calls_shrink hmono hv hkeep hc h
    exact ih _ (hw ▸ weight_lt hlt) c' hc' rfl

/-! ## Results -/

/-- What the builders of the model return; the fuel is for `build_recursive`. -/
def buildWithin (config : Config) (fuel : ℕ) : BuildCall K V → Option (Node K V)
  | .recursive l => buildRecursive config fuel l
  | .degenerate l => buildDegenerate l.length l

def builder (config : Config) (c : BuildCall K V) : Option (Node K V) :=
  buildWithin config c.pairs.length c

theorem buildDegenerate_succ (sort : List (ℕ × (K × V)) → List (ℕ × (K × V))) (config : Config)
    (fuel : ℕ) (l : List (K × V)) : buildDegenerate (fuel + 1) l =
      (BuildCall.degenerate l).body sort config fun c => buildDegenerate fuel c.pairs := by
  rcases l with - | ⟨a, - | ⟨b, rest⟩⟩ <;> rfl

theorem buildRecursive_succ (fuel : ℕ) (l : List (K × V)) : buildRecursive config (fuel + 1) l =
    (BuildCall.recursive l).body stableSort config (buildWithin config fuel) := by
  have hrun : storeRun (buildRecursive config fuel : List (K × V) → Option (Node K V)) =
      fun node run =>
      storeHalf (fun childPairs => buildWithin config fuel (ofChild childPairs)) node run.1 run.2 := by
    funext node run
    rw [storeRun_eq]
    congr 1
    funext childPairs
    rw [buildRun, ofChild]
    split_ifs <;> rfl
  simp only [buildRecursive, body, hrun]
  rfl

omit [LinearOrder K] [Key K] in
theorem storeHalf_isSome {f : List (K × V) → Option (Node K V)} (node : Node K V) (idx : ℕ)
    {half : List (K × V)} (hne : half ≠ []) (h : 2 ≤ half.length → (f half).isSome) :
    (storeHalf f node idx half).isSome := by
  rcases half with - | ⟨a, - | ⟨b, rest⟩⟩
  · exact absurd rfl hne
  · rfl
  · simp only [storeHalf, Option.isSome_map]
    exact h (by simp)

omit [LinearOrder K] [Key K] in
theorem foldlM_storeHalf_isSome {f : List (K × V) → Option (Node K V)}
    {rs : List (ℕ × List (K × V))} (hrs : ∀ r ∈ rs, r.2 ≠ [] ∧ (2 ≤ r.2.length → (f r.2).isSome)) :
    ∀ node : Node K V, (rs.foldlM (fun node run => storeHalf f node run.1 run.2) node).isSome := by
  induction rs with
  | nil => exact fun _ => rfl
  | cons r rs ih =>
    intro node
    obtain ⟨hne, h⟩ := hrs r List.mem_cons_self
    obtain ⟨node', hn⟩ := Option.isSome_iff_exists.1 (storeHalf_isSome node r.1 hne h)
    rw [List.foldlM_cons, hn]
    exact ih (fun r hr => hrs r (List.mem_cons_of_mem _ hr)) node'

/-- **A body returns** if all calls that it makes do. -/
theorem body_isSome (hmono : Monotone (Key.toModelInput : K → ℚ)) (hv : config.Valid)
    {c : BuildCall K V} (hc : c.Proper) (h : ∀ c' ∈ c.calls sort config, (build c').isSome) :
    (c.body sort config build).isSome := by
  cases c with
  | recursive l =>
    simp only [calls] at h
    simp only [body]
    by_cases hd : isDegenerateGroup l
    · rw [if_pos hd] at h
      rw [if_pos hd]
      exact h _ List.mem_cons_self
    · rw [if_neg hd, childPairs, if_neg hd] at h
      rw [if_neg hd]
      obtain ⟨r, hfit, -⟩ := fitFmcd_fits (keyInput_sorted hmono hc.ascending) hc.length_pos
        hv.expansion hv.headroom
      simp only [pairs] at hfit
      rw [hfit] at h ⊢
      simp only [Option.bind_eq_bind, Option.bind_some]
      split_ifs with hconf
      · rfl
      · simp only [if_neg hconf] at h
        refine foldlM_storeHalf_isSome (fun q hq => ⟨(mem_runs hq).1, fun h2 => ?_⟩) _
        exact h _ (List.mem_map_of_mem (List.mem_filter.2
          ⟨List.mem_map_of_mem hq, decide_eq_true h2⟩))
  | degenerate l =>
    rcases Nat.lt_or_ge l.length 2 with hlt | h2
    · rcases l with - | ⟨a, - | ⟨b, rest⟩⟩
      · exact absurd rfl hc.ne_nil
      · rfl
      · simp at hlt
    · obtain ⟨htake, hdrop⟩ := halves_ne_nil h2
      set f : List (K × V) → Option (Node K V) := fun half => build (.degenerate half) with hf
      rw [body_degenerate h2, List.getLast?_eq_some_getLast htake, List.head?_eq_some_head hdrop,
        Option.bind_some, Option.bind_some]
      obtain ⟨node, hnode⟩ := Option.isSome_iff_exists.1 (storeHalf_isSome (f := f)
        (splitNode ((l.take (l.length / 2)).getLast htake).1 ((l.drop (l.length / 2)).head hdrop).1 2)
        0 htake fun hlen => h _ (mem_calls_halves h2 (.inl rfl) hlen))
      rw [hnode, Option.bind_some]
      exact storeHalf_isSome node 1 hdrop fun hlen => h _ (mem_calls_halves h2 (.inr rfl) hlen)

theorem buildDegenerate_nil (fuel : ℕ) : buildDegenerate fuel ([] : List (K × V)) = none := by
  cases fuel <;> rfl

/-- More fuel than the length of the list makes no difference. -/
theorem buildDegenerate_fuel (n : ℕ) :
    ∀ l : List (K × V), l.length ≤ n → ∀ fuel, l.length ≤ fuel →
      buildDegenerate fuel l = buildDegenerate l.length l := by
  induction n with
  | zero =>
    intro l hl fuel _
    obtain rfl := List.length_eq_zero_iff.1 (Nat.le_zero.1 hl)
    rw [buildDegenerate_nil, buildDegenerate_nil]
  | succ n ih =>
    intro l hl fuel hfuel
    cases hlen : l.length with
    | zero =>
      obtain rfl := List.length_eq_zero_iff.1 hlen
      rw [buildDegenerate_nil, buildDegenerate_nil]
    | succ m =>
      obtain ⟨fuel, rfl⟩ : ∃ k, fuel = k + 1 := ⟨fuel - 1, by omega⟩
      rw [buildDegenerate_succ stableSort {}, buildDegenerate_succ stableSort {}]
      refine body_congr fun c hc => ?_
      obtain ⟨half, rfl, -, -, hlt⟩ := mem_calls_degenerate hc
      exact (ih half (by omega) fuel (by omega)).trans (ih half (by omega) m (by omega)).symm

theorem buildRecursive_fuel (hmono : Monotone (Key.toModelInput : K → ℚ)) (hv : config.Valid)
    (n : ℕ) : ∀ l : List (K × V), l.length ≤ n → l ≠ [] → Ascending l → ∀ fuel, l.length ≤ fuel →
      buildRecursive config fuel l = buildRecursive config l.length l := by
  induction n with
  | zero => exact fun l hl hne => absurd (List.length_eq_zero_iff.1 (Nat.le_zero.1 hl)) hne
  | succ n ih =>
    intro l hl hne hasc fuel hfuel
    have hpos := List.length_pos_iff_ne_nil.2 hne
    obtain ⟨fuel, rfl⟩ : ∃ k, fuel = k + 1 := ⟨fuel - 1, by omega⟩
    obtain ⟨m, hm⟩ : ∃ m, l.length = m + 1 := ⟨l.length - 1, by omega⟩
    rw [hm, buildRecursive_succ, buildRecursive_succ]
    refine body_congr fun c hc => ?_
    have hproper : (BuildCall.recursive l).Proper := ⟨hne, hasc⟩
    obtain ⟨hc', hlt⟩ := calls_shrink hmono hv stableSort_keepsSorted hproper hc
    cases c with
    | degenerate l' => rfl
    | recursive l' =>
      have hlt : l'.length < l.length := hlt.resolve_right (by rintro ⟨_, -, h⟩; cases h)
      have hfuel (k : ℕ) (hk : l'.length ≤ k) := ih l' (by omega) hc'.ne_nil hc'.ascending k hk
      exact (hfuel fuel (by omega)).trans (hfuel m (by omega)).symm

/-- On lists in the order of their keys the sort has nothing to do. -/
theorem body_sort (hmono : Monotone (Key.toModelInput : K → ℚ)) (hv : config.Valid)
    (hkeep : KeepsSorted sort) {c : BuildCall K V} (hc : c.Proper) :
    c.body sort config build = c.body stableSort config build := by
  cases c with
  | degenerate l => cases l with
    | nil => rfl
    | cons a l => cases l <;> rfl
  | recursive l =>
    obtain ⟨r, hfit, hr⟩ := fitFmcd_fits (keyInput_sorted hmono hc.ascending) hc.length_pos
      hv.expansion hv.headroom
    simp only [pairs] at hfit hr
    have hsorted := assignments_sorted hmono hr hc.ascending
    simp only [body, hfit, Option.bind_eq_bind, Option.bind_some, hkeep _ hsorted,
      stableSort_keepsSorted _ hsorted]

/-- **The builders solve the recursion** that the bodies describe. -/
theorem builder_eq (hmono : Monotone (Key.toModelInput : K → ℚ)) (hv : config.Valid)
    (hkeep : KeepsSorted sort) {c : BuildCall K V} (hc : c.Proper) :
    builder config c = c.body sort config (builder config) := by
  obtain ⟨m, hm⟩ : ∃ m, c.pairs.length = m + 1 := ⟨c.pairs.length - 1, by have := hc.length_pos; omega⟩
  cases c with
  | recursive l =>
    rw [body_sort hmono hv hkeep hc, builder, hm]
    refine (buildRecursive_succ m l).trans (body_congr fun c' h => ?_)
    obtain ⟨hc', hlt⟩ := calls_shrink hmono hv stableSort_keepsSorted hc h
    cases c' with
    | degenerate l' => rfl
    | recursive l' =>
      have hlt : l'.length < l.length := hlt.resolve_right (by rintro ⟨_, -, h⟩; cases h)
      simp only [pairs] at hm
      exact buildRecursive_fuel hmono hv l'.length l' le_rfl hc'.ne_nil hc'.ascending m (by omega)
  | degenerate l =>
    have hbuild : builder config (.degenerate l) = buildDegenerate (m + 1) l := by
      rw [← hm]
      rfl
    rw [hbuild, buildDegenerate_succ sort config]
    refine body_congr fun c' h => ?_
    obtain ⟨half, rfl, -, -, hlt⟩ := mem_calls_degenerate h
    simp only [pairs] at hm
    exact buildDegenerate_fuel half.length half le_rfl m (by omega)

theorem builder_isSome (hmono : Monotone (Key.toModelInput : K → ℚ)) (hv : config.Valid)
    (c : BuildCall K V) (hc : c.Proper) : (builder config c).isSome := by
  induction hw : c.weight using Nat.strong_induction_on generalizing c with
  | _ w ih =>
    rw [builder_eq hmono hv stableSort_keepsSorted hc]
    refine body_isSome hmono hv hc fun c' h => ?_
    obtain ⟨hc', hlt⟩ := calls_shrink hmono hv stableSort_keepsSorted hc h
    exact ih _ (hw ▸ weight_lt hlt) c' hc' rfl

/-- **The recursion of the builders comes to an end**: a recursive call gets a list that is
    not empty and shorter than that of its caller, so that no chain of calls is endless, and
    the calls return what the builders of the model do. -/
theorem builders_terminate (hmono : Monotone (Key.toModelInput : K → ℚ)) (hv : config.Valid)
    (hkeep : KeepsSorted sort) (c : BuildCall K V) (hc : c.Proper) :
    (∀ c' ∈ c.calls sort config,
      c'.Proper ∧ (c'.pairs.length < c.pairs.length ∨ HandsOver c c')) ∧
    Acc (fun c' c => c' ∈ c.calls sort config) c ∧
    builder config c = c.body sort config (builder config) ∧ (builder config c).isSome :=
  ⟨fun _ h => calls_shrink hmono hv hkeep hc h, acc_calls hmono hv hkeep c hc,
    builder_eq hmono hv hkeep hc, builder_isSome hmono hv c hc⟩

/-- Three keys, two of them close to each other. -/
def closeKeys : List (Fin (2 ^ 8) × Unit) := [(0, ()), (1, ()), (255, ())]

theorem builders_terminate_closeKeys :
    (∀ c' ∈ (BuildCall.recursive closeKeys).calls stableSort {},
      c'.Proper ∧ (c'.pairs.length < 3 ∨ HandsOver (.recursive closeKeys) c')) ∧
    Acc (fun c' c => c' ∈ c.calls stableSort {}) (BuildCall.recursive closeKeys) ∧
    builder {} (.recursive closeKeys) =
      (BuildCall.recursive closeKeys).body stableSort {} (builder {}) ∧
    (builder {} (.recursive closeKeys)).isSome :=
  builders_terminate (lawfulKey_unsigned (w := 8) (by decide)).monotone ⟨one_le_two, le_rfl⟩
    stableSort_keepsSorted _ ⟨List.cons_ne_nil _ _, by decide⟩

end BuildCall

end Scry.Index
