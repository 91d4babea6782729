/-
  Depth of built and updated trees.

  A built node has a slot for each group of pairs (`Slots`), so that its depth is that of
  the groups: it is at most the number of pairs (`buildRecursive_maxDepth`), and its keys
  are reached as fast as they are told apart (`buildRecursive_descents_iff`).
-/
import Scry.Index.Depth
import Scry.Index.Proof.Map

namespace Scry.Index

variable {K V : Type}

/-! ## Depth -/

namespace Node
variable {h : Header K} {st : ℕ → SlotState} {kv : ℕ → Option (K × V)} {ch : ℕ → Node K V} {t B : ℕ}
  {n : Node K V}

theorem foldl_max_le_iff (l : List ℕ) {a B : ℕ} : l.foldl max a ≤ B ↔ a ≤ B ∧ ∀ x ∈ l, x ≤ B := by
  induction l generalizing a with
  | nil => simp
  | cons b l ih => rw [List.foldl_cons, ih, max_le_iff, List.forall_mem_cons, and_assoc]

theorem maxDepth_mk_le : (mk h st kv ch t).maxDepth ≤ B + 1 ↔
    ∀ i < h.capacity, (st i).isChild → (ch i).maxDepth ≤ B := by
  rw [maxDepth, Nat.add_comm, Nat.add_le_add_iff_right, foldl_max_le_iff]
  simp only [Nat.zero_le, true_and, List.forall_mem_map, List.mem_range]
  refine forall₂_congr fun i _ => ?_
  split_ifs with hc
  · exact ⟨fun h _ => h, fun h => h hc⟩
  · exact ⟨fun _ h => absurd h hc, fun _ => Nat.zero_le B⟩

theorem mk_ne_null : mk h st kv ch t ≠ null := by
  intro he
  cases he

theorem maxDepth_pos (hn : n ≠ .null) : 1 ≤ n.maxDepth := by
  cases n with
  | null => exact absurd rfl hn
  | mk h st kv ch t => exact Nat.le_add_right 1 _

theorem maxDepth_le (hh : n.header? = some h) : n.maxDepth ≤ B + 1 ↔
    ∀ i < h.capacity, (n.state i).isChild → (n.child i).maxDepth ≤ B := by
  cases n with
  | null => cases hh
  | mk h' st kv ch t => cases hh; exact maxDepth_mk_le

theorem descents_eq [LinearOrder K] [Key K] (hh : n.header? = some h) (key : K) :
    n.descents key = if (n.state (h.predictSlot key)).isChild then
      (n.child (h.predictSlot key)).descents key + 1 else 0 := by
  cases n with
  | null => cases hh
  | mk h' st kv ch t => cases hh; rfl

end Node

/-! ## Slots of a built node -/

/-- A node that was built with one slot for each group: a single pair is inline, more of
    them are in a child that was built for them. -/
structure Slots (build : List (K × V) → Option (Node K V)) (h : Header K)
    (gs : List (ℕ × List (K × V))) (n : Node K V) : Prop where
  header : n.header? = some h
  group : ∀ g ∈ gs, (n.state g.1 = .data ∧ g.2.length = 1) ∨
    (n.state g.1 = .child ∧ g.2.length ≠ 1 ∧ build g.2 = some (n.child g.1))
  vacant : ∀ i, (∀ g ∈ gs, g.1 ≠ i) → n.state i = .empty

namespace Slots
variable {build : List (K × V) → Option (Node K V)} {h : Header K} {gs : List (ℕ × List (K × V))}
  {n n' : Node K V} {i : ℕ} {half : List (K × V)}

theorem withHeader (h : Header K) : Slots build h [] (.withHeader h) where
  header := rfl
  group g hg := by cases hg
  vacant _ _ := rfl

/-- A step of the construction. -/
theorem storeHalf (hn : Slots build h gs n) (hi : ∀ g ∈ gs, g.1 ≠ i)
    (hs : Index.storeHalf build n i half = some n') : Slots build h (gs ++ [(i, half)]) n' := by
  obtain ⟨hh, hg, hv⟩ := hn
  cases n with
  | null => cases hh
  | mk h' st kv ch t =>
    cases hh
    unfold Index.storeHalf at hs
    split at hs
    · rename_i key value
      cases hs
      refine ⟨rfl, fun g hgm => ?_, fun j hj => ?_⟩
      · rcases List.mem_append.1 hgm with hgm | hgm
        · have hne := hi g hgm
          simp only [Node.storeData, Node.state, Node.child, Function.update_of_ne hne]
          exact hg g hgm
        · rw [List.mem_singleton.1 hgm]
          exact Or.inl ⟨Function.update_self _ _ _, rfl⟩
      · have hne : j ≠ i := fun he =>
          hj (i, _) (List.mem_append_right _ List.mem_cons_self) he.symm
        simp only [Node.storeData, Node.state, Function.update_of_ne hne]
        exact hv j fun g hgm => hj g (List.mem_append_left _ hgm)
    · rename_i hlen
      obtain ⟨c, hc, rfl⟩ := Option.map_eq_some_iff.1 hs
      refine ⟨rfl, fun g hgm => ?_, fun j hj => ?_⟩
      · rcases List.mem_append.1 hgm with hgm | hgm
        · have hne := hi g hgm
          simp only [Node.storeChild, Node.state, Node.child, Function.update_of_ne hne]
          exact hg g hgm
        · rw [List.mem_singleton.1 hgm]
          refine Or.inr ⟨Function.update_self _ _ _, fun hl => ?_, ?_⟩
          · obtain ⟨a, ha⟩ := List.length_eq_one_iff.1 hl
            exact hlen a.1 a.2 ha
          · simp only [Node.storeChild, Node.child, Function.update_self]
            exact hc
      · have hne : j ≠ i := fun he =>
          hj (i, _) (List.mem_append_right _ List.mem_cons_self) he.symm
        simp only [Node.storeChild, Node.state, Function.update_of_ne hne]
        exact hv j fun g hgm => hj g (List.mem_append_left _ hgm)

/-- **The depth of a built node** is that of its children. -/
theorem maxDepth_le (hn : Slots build h gs n) {B : ℕ}
    (hB : ∀ g ∈ gs, g.2.length ≠ 1 → ∀ c, build g.2 = some c → c.maxDepth ≤ B) :
    n.maxDepth ≤ B + 1 := by
  refine (Node.maxDepth_le hn.header).2 fun i _ hc => ?_
  by_cases hi : ∀ g ∈ gs, g.1 ≠ i
  · rw [hn.vacant i hi] at hc
    cases hc
  · push Not at hi
    obtain ⟨g, hg, rfl⟩ := hi
    rcases hn.group g hg with ⟨hs, -⟩ | ⟨-, hl, hb⟩
    · rw [hs] at hc
      cases hc
    · exact hB g hg hl _ hb

/-- **The keys of a built node** are reached through the children of their groups. -/
theorem descents_le_iff [LinearOrder K] [Key K] (hn : Slots build h gs n)
    (hr : ∀ g ∈ gs, g.2 ≠ [] ∧ ∀ a ∈ g.2, h.predictSlot a.1 = g.1) {d : ℕ} :
    (∀ g ∈ gs, ∀ a ∈ g.2, n.descents a.1 ≤ d) ↔ ∀ g ∈ gs, g.2.length = 1 ∨
      ∃ c, build g.2 = some c ∧ ∀ a ∈ g.2, c.descents a.1 + 1 ≤ d := by
  refine forall₂_congr fun g hg => ?_
  have hd : ∀ a ∈ g.2, n.descents a.1 = if (n.state g.1).isChild then
      (n.child g.1).descents a.1 + 1 else 0 := fun a ha => by
    rw [Node.descents_eq hn.header, (hr g hg).2 a ha]
  rcases hn.group g hg with ⟨hs, hl⟩ | ⟨hs, hl, hb⟩
  · refine iff_of_true (fun a ha => ?_) (Or.inl hl)
    rw [hd a ha, hs]
    exact Nat.zero_le d
  · have hd : ∀ a ∈ g.2, n.descents a.1 = (n.child g.1).descents a.1 + 1 := fun a ha => by
      rw [hd a ha, hs]
      rfl
    constructor
    · exact fun h => Or.inr ⟨_, hb, fun a ha => hd a ha ▸ h a ha⟩
    · rintro (h | ⟨c, hc, h⟩) a ha
      · exact absurd h hl
      · cases hb.symm.trans hc
        exact hd a ha ▸ h a ha

/-- Storing runs with different slots. -/
theorem foldlM_storeRun [LinearOrder K] [Key K] {b : List (K × V) → Option (Node K V)}
    (rs : List (ℕ × List (K × V))) : ∀ {gs : List (ℕ × List (K × V))} {n : Node K V},
      Slots (buildRun b) h gs n → (gs ++ rs).Pairwise (fun g g' => g.1 ≠ g'.1) →
      rs.foldlM (storeRun b) n = some n' → Slots (buildRun b) h (gs ++ rs) n' := by
  induction rs with
  | nil =>
    intro gs n hn _ hs
    cases hs
    rwa [List.append_nil]
  | cons r rs ih =>
    intro gs n hn hp hs
    rw [List.foldlM_cons, Option.bind_eq_bind, Option.bind_eq_some_iff] at hs
    obtain ⟨n₁, h₁, hs⟩ := hs
    rw [show storeRun b n r = Index.storeHalf (buildRun b) n r.1 r.2 from
      storeRun_eq b n r.1 r.2] at h₁
    have hne : ∀ g ∈ gs, g.1 ≠ r.1 := fun g hg =>
      (List.pairwise_append.1 hp).2.2 g hg r List.mem_cons_self
    rw [List.append_cons] at hp ⊢
    exact ih (hn.storeHalf hne h₁) hp hs

/-- Storing pairs with different slots. -/
theorem foldl_storeData [LinearOrder K] [Key K] (l : List (K × V)) :
    ∀ {gs : List (ℕ × List (K × V))} {n : Node K V}, Slots build h gs n →
      (gs ++ l.map fun p => (h.predictSlot p.1, [p])).Pairwise (fun g g' => g.1 ≠ g'.1) →
      Slots build h (gs ++ l.map fun p => (h.predictSlot p.1, [p]))
        (l.foldl (fun node p => node.storeData (node.predictSlot p.1) p.1 p.2) n) := by
  induction l with
  | nil => intro gs n hn _; rwa [List.map_nil, List.append_nil]
  | cons p l ih =>
    intro gs n hn hp
    have hslot : n.predictSlot p.1 = h.predictSlot p.1 := by
      have := hn.header
      cases n with
      | null => cases this
      | mk h' st kv ch t => cases this; rfl
    have hne : ∀ g ∈ gs, g.1 ≠ h.predictSlot p.1 := fun g hg =>
      (List.pairwise_append.1 hp).2.2 g hg (h.predictSlot p.1, [p]) List.mem_cons_self
    rw [List.map_cons, List.append_cons] at hp ⊢
    rw [List.foldl_cons, hslot]
    exact ih (hn.storeHalf hne rfl) hp

end Slots

/-! ## Built trees -/

/-- Entries with ascending slots are runs of their own. -/
theorem runs_of_lt {α : Type} {l : List (ℕ × α)} (hl : l.Pairwise fun a b => a.1 < b.1) :
    runs l = l.map fun a => (a.1, [a.2]) := by
  induction l with
  | nil => rfl
  | cons a l ih =>
    obtain ⟨ha, hl⟩ := List.pairwise_cons.1 hl
    rw [List.map_cons, runs, ih hl]
    cases l with
    | nil => rfl
    | cons b l =>
      simp only [List.map_cons]
      rw [if_neg (ha b List.mem_cons_self).ne]

variable [LinearOrder K] [Key K] [LawfulKey K] {config : Config} {l : List (K × V)} {n : Node K V}

/-- A node that splits a group into halves. -/
theorem buildDegenerate_slots {fuel : ℕ} (hlen : 2 ≤ l.length) (hasc : Ascending l)
    (hnear : ∀ a ∈ l, ∀ b ∈ l, OrdinalsNear a.1 b.1)
    (hb : buildDegenerate (fuel + 1) l = some n) :
    ∃ h : Header K, Slots (buildDegenerate fuel) h
        [(0, l.take (l.length / 2)), (1, l.drop (l.length / 2))] n ∧
      (∀ a ∈ l.take (l.length / 2), h.predictSlot a.1 = 0) ∧
      ∀ a ∈ l.drop (l.length / 2), h.predictSlot a.1 = 1 := by
  rw [buildDegenerate] at hb
  rotate_left
  · rintro rfl
    simp at hlen
  · rintro k v rfl
    simp at hlen
  obtain ⟨lo, hlo, hb⟩ := Option.bind_eq_some_iff.1 hb
  obtain ⟨hi, hhi, hb⟩ := Option.bind_eq_some_iff.1 hb
  obtain ⟨n₁, hn₁, hb⟩ := Option.bind_eq_some_iff.1 hb
  obtain ⟨lower, hlower⟩ := List.getLast?_eq_some_iff.1 hlo
  obtain ⟨upper, hupper⟩ := List.head?_eq_some_iff.1 hhi
  have hcat : l = (lower ++ [lo]) ++ (hi :: upper) := by
    rw [← hlower, ← hupper, List.take_append_drop]
  rw [hlower, hupper]
  rw [hlower] at hn₁
  rw [hupper] at hb
  rw [hcat] at hasc hnear
  obtain ⟨hal, hah, hlt⟩ := ascending_append.1 hasc
  obtain ⟨h, hsn, hsp⟩ := splitNode_splits (V := V) LawfulKey.contract
    (hlt lo (List.mem_append_right _ List.mem_cons_self) hi List.mem_cons_self)
    (hnear lo (by simp) hi (by simp)) Nat.zero_lt_two
  rw [hsn] at hn₁
  refine ⟨h, ?_, fun a ha => hsp.below _ (Ascending.le_getLast hal ha),
    fun a ha => hsp.above _ (Ascending.head_le hah ha)⟩
  have h₁ := (Slots.withHeader h).storeHalf (fun _ hg => absurd hg List.not_mem_nil) hn₁
  exact h₁.storeHalf (fun g hg => by rw [List.mem_singleton.1 hg]; exact Nat.zero_ne_one) hb

omit [LawfulKey K] in
theorem buildDegenerate_singleton {fuel : ℕ} {p : K × V} (h : buildDegenerate fuel [p] = some n) :
    n = (Node.withCapacity .constant 1).storeData 0 p.1 p.2 := by
  cases fuel <;> exact (Option.some.inj h).symm

omit [LinearOrder K] [Key K] [LawfulKey K] in
/-- What is built from one pair has one node. -/
theorem singleton_slots (p : K × V) : Slots (fun _ => none) ⟨.constant, none, 1⟩ [(0, [p])]
    ((Node.withCapacity .constant 1 : Node K V).storeData 0 p.1 p.2) :=
  (Slots.withHeader _).storeHalf (fun _ hg => nomatch hg) rfl

/-- **A split tree is no deeper than its group is long.** -/
theorem buildDegenerate_maxDepth (fuel : ℕ) : ∀ {l : List (K × V)} {n : Node K V},
    Ascending l → (∀ a ∈ l, ∀ b ∈ l, OrdinalsNear a.1 b.1) → buildDegenerate fuel l = some n →
      n.maxDepth ≤ l.length := by
  induction fuel with
  | zero =>
    intro l n _ _ hb
    match l with
    | [] => cases hb
    | [p] =>
      rw [buildDegenerate_singleton hb]
      exact (singleton_slots p).maxDepth_le fun _ _ _ _ hc => nomatch hc
    | _ :: _ :: _ => cases hb
  | succ fuel ih =>
    intro l n hasc hnear hb
    match l with
    | [] => cases hb
    | [p] =>
      rw [buildDegenerate_singleton hb]
      exact (singleton_slots p).maxDepth_le fun _ _ _ _ hc => nomatch hc
    | a :: b :: rest =>
      generalize hl : a :: b :: rest = l at *
      have hlen : 2 ≤ l.length := by rw [← hl]; simp
      obtain ⟨h, hn, -, -⟩ := buildDegenerate_slots hlen hasc hnear hb
      have hhalf : ∀ half : List (K × V), half.Sublist l → half.length ≤ l.length - 1 →
          ∀ c, buildDegenerate fuel half = some c → c.maxDepth ≤ l.length - 1 :=
        fun half hs hlt c hc => (ih (hasc.sublist hs)
          (fun x hx y hy => hnear x (hs.subset hx) y (hs.subset hy)) hc).trans hlt
      have := hn.maxDepth_le fun g hg _ => by
        rcases List.mem_cons.1 hg with rfl | hg
        · exact hhalf _ (List.take_sublist _ _) (by rw [List.length_take]; omega)
        · rw [List.mem_singleton.1 hg]
          exact hhalf _ (List.drop_sublist _ _) (by rw [List.length_drop]; omega)
      omega

/-- **The keys of a split tree** are reached in as many descents as the group is halved. -/
theorem buildDegenerate_descents_iff (fuel : ℕ) : ∀ {l : List (K × V)} {n : Node K V} {d : ℕ},
    Ascending l → (∀ a ∈ l, ∀ b ∈ l, OrdinalsNear a.1 b.1) → buildDegenerate fuel l = some n →
      ((∀ a ∈ l, n.descents a.1 ≤ d) ↔ l.length ≤ 2 ^ (d + 1)) := by
  have hone : ∀ (p : K × V) (d : ℕ), (∀ a ∈ [p],
      ((Node.withCapacity .constant 1 : Node K V).storeData 0 p.1 p.2).descents a.1 ≤ d) ↔
        [p].length ≤ 2 ^ (d + 1) := by
    intro p d
    refine iff_of_true (fun a ha => ?_) Nat.one_le_two_pow
    have hslot : (⟨.constant, none, 1⟩ : Header K).predictSlot a.1 = 0 :=
      Nat.lt_one_iff.1 (Header.predictSlot_lt Nat.one_pos _)
    have hs := singleton_slots p
    rw [Node.descents_eq hs.header, hslot]
    rcases hs.group (0, [p]) List.mem_cons_self with ⟨hst, -⟩ | ⟨-, hl, -⟩
    · rw [hst]
      exact Nat.zero_le d
    · exact absurd rfl hl
  induction fuel with
  | zero =>
    intro l n d _ _ hb
    match l with
    | [] => cases hb
    | [p] => rw [buildDegenerate_singleton hb]; exact hone p d
    | _ :: _ :: _ => cases hb
  | succ fuel ih =>
    intro l n d hasc hnear hb
    match l with
    | [] => cases hb
    | [p] => rw [buildDegenerate_singleton hb]; exact hone p d
    | a :: b :: rest =>
      generalize hl : a :: b :: rest = l at *
      have hlen : 2 ≤ l.length := by rw [← hl]; simp
      obtain ⟨h, hn, hlo, hhi⟩ := buildDegenerate_slots hlen hasc hnear hb
      set lo := l.take (l.length / 2) with hlo_def
      set hi := l.drop (l.length / 2) with hhi_def
      have hcat : lo ++ hi = l := List.take_append_drop _ _
      have hlolen : lo.length = l.length / 2 := by rw [hlo_def, List.length_take]; omega
      have hhilen : hi.length = l.length - l.length / 2 := by rw [hhi_def, List.length_drop]
      have hmem : (∀ a ∈ l, n.descents a.1 ≤ d) ↔
          ∀ g ∈ [(0, lo), (1, hi)], ∀ a ∈ g.2, n.descents a.1 ≤ d := by
        rw [← hcat]
        simp [or_imp, forall_and]
      -- each half is a single pair, or it is built with one descent less
      have hhalf : ∀ g ∈ [(0, lo), (1, hi)], (g.2.length = 1 ∨ ∃ c,
          buildDegenerate fuel g.2 = some c ∧ ∀ a ∈ g.2, c.descents a.1 + 1 ≤ d) ↔
            g.2.length ≤ 2 ^ d := by
        intro g hg
        have hsub : g.2.Sublist l ∧ g.2 ≠ [] := by
          rcases List.mem_cons.1 hg with rfl | hg
          · exact ⟨List.take_sublist _ _, List.ne_nil_of_length_pos (by rw [hlolen]; omega)⟩
          · rw [List.mem_singleton.1 hg]
            exact ⟨List.drop_sublist _ _, List.ne_nil_of_length_pos (by rw [hhilen]; omega)⟩
        obtain ⟨hs, hne⟩ := hsub
        obtain ⟨x, hx⟩ := List.exists_mem_of_ne_nil _ hne
        rcases hn.group g hg with ⟨-, hlen⟩ | ⟨-, hlen, hc⟩
        · exact iff_of_true (Or.inl hlen) (hlen ▸ Nat.one_le_two_pow)
        have hih := fun d => ih (d := d) (hasc.sublist hs)
          (fun x hx y hy => hnear x (hs.subset hx) y (hs.subset hy)) hc
        cases d with
        | zero =>
          refine iff_of_false ?_ fun h => hlen ?_
          · rintro (h | ⟨c, -, h⟩)
            · exact hlen h
            · exact absurd (h x hx) (Nat.not_succ_le_zero _)
          · exact le_antisymm h (List.length_pos_iff_ne_nil.2 hne)
        | succ d =>
          rw [← hih d]
          constructor
          · rintro (h | ⟨c, hc', h⟩)
            · exact absurd h hlen
            · cases hc.symm.trans hc'
              exact fun a ha => Nat.le_of_succ_le_succ (h a ha)
          · exact fun h => Or.inr ⟨_, hc, fun a ha => Nat.succ_le_succ (h a ha)⟩
      have hslots : ∀ g ∈ [(0, lo), (1, hi)], g.2 ≠ [] ∧ ∀ a ∈ g.2, h.predictSlot a.1 = g.1 := by
        intro g hg
        rcases List.mem_cons.1 hg with rfl | hg
        · exact ⟨List.ne_nil_of_length_pos (by rw [hlolen]; omega), hlo⟩
        · rw [List.mem_singleton.1 hg]
          exact ⟨List.ne_nil_of_length_pos (by rw [hhilen]; omega), hhi⟩
      rw [hmem, hn.descents_le_iff hslots, forall₂_congr hhalf]
      simp only [List.forall_mem_cons, List.not_mem_nil, false_imp_iff, implies_true, and_true]
      rw [hlolen, hhilen, pow_succ]
      omega

/-- A node that is built for the slots of a fitted model. -/
theorem buildRecursive_slots {fuel : ℕ} (hc : config.Valid) (hne : l ≠ []) (hl : Ascending l)
    (hd : ¬ isDegenerateGroup l) (hb : buildRecursive config (fuel + 1) l = some n) :
    ∃ (r : FmcdResult) (gs : List (ℕ × List (K × V))), Fits l.length (keyInput l) r ∧
      Grouped r.header l gs ∧ Slots (buildRun (buildRecursive config fuel)) r.header gs n ∧
      groups config l = gs.map Prod.snd := by
  obtain ⟨r, hfit, hr⟩ := fitFmcd_fits (keyInput_sorted LawfulKey.monotone hl)
    (List.length_pos_iff_ne_nil.2 hne)
    hc.expansion hc.headroom
  have hg := hr.grouped LawfulKey.monotone hl
  have hgroups : groups config l = (runs (l.map fun p => (r.header.predictSlot p.1, p))).map
      Prod.snd := by
    rw [groups, hfit]
    rfl
  refine ⟨r, _, hr, hg, ?_, hgroups⟩
  have hn₀ : Slots (K := K) (V := V) (buildRun (buildRecursive config fuel)) r.header []
      (.withCapacity r.model r.arraySize) := Slots.withHeader r.header
  rw [buildRecursive, if_neg hd, hfit] at hb
  simp only [Option.bind_eq_bind, Option.bind_some] at hb
  split_ifs at hb with hconf
  · cases hb
    have hlt := hr.slots_lt LawfulKey.monotone hl hconf
    have hruns : runs (l.map fun p => (r.header.predictSlot p.1, p)) =
        l.map fun p => (r.header.predictSlot p.1, [p]) := by
      rw [runs_of_lt (List.pairwise_map.2 hlt), List.map_map]
      rfl
    rw [hruns]
    exact hn₀.foldl_storeData l (List.pairwise_map.2 (hlt.imp ne_of_lt))
  · have hsort : (l.map fun p => (r.header.predictSlot p.1, p)).insertionSort
        (fun a b => a.1 ≤ b.1) = l.map fun p => (r.header.predictSlot p.1, p) :=
      List.Pairwise.insertionSort_eq (List.pairwise_map.2 (hr.slots_le LawfulKey.monotone hl))
    have hb : (runs ((l.map fun p => (r.header.predictSlot p.1, p)).insertionSort
        fun a b => a.1 ≤ b.1)).foldlM (storeRun (buildRecursive config fuel))
          (.withCapacity r.model r.arraySize) = some n := hb
    rw [hsort] at hb
    exact hn₀.foldlM_storeRun _ (hg.slots.imp ne_of_lt) hb

/-- **A built tree is no deeper than its list is long.** -/
theorem buildRecursive_maxDepth (hc : config.Valid) (fuel : ℕ) :
    ∀ {l : List (K × V)} {n : Node K V}, l ≠ [] → Ascending l →
      buildRecursive config fuel l = some n → n.maxDepth ≤ l.length := by
  induction fuel with
  | zero => intro l n _ _ hb; cases hb
  | succ fuel ih =>
    intro l n hne hl hb
    by_cases hd : isDegenerateGroup l
    · rw [buildRecursive, if_pos hd] at hb
      exact buildDegenerate_maxDepth _ hl (degenerate_near hl hd) hb
    · obtain ⟨r, gs, hr, hg, hn, -⟩ := buildRecursive_slots hc hne hl hd hb
      have hpos := List.length_pos_iff_ne_nil.2 hne
      have := hn.maxDepth_le (B := l.length - 1) fun g hgm hlen c hbuild => by
        obtain ⟨hgne, -⟩ := hg.group g hgm
        have hgpos := List.length_pos_iff_ne_nil.2 hgne
        have hlt := hg.length_lt hr hd g hgm (by omega)
        have hasc : Ascending g.2 := hl.sublist (hg.sublist g hgm)
        have hdepth : c.maxDepth ≤ g.2.length := by
          rw [buildRun] at hbuild
          split_ifs at hbuild with hdg
          · exact buildDegenerate_maxDepth _ hasc (degenerate_near hasc hdg) hbuild
          · exact ih hgne hasc hbuild
        omega
      omega

omit [LawfulKey K] in
theorem toldApart_degenerate (hd : isDegenerateGroup l) (d : ℕ) :
    ToldApart config d l ↔ l.length ≤ 2 ^ (d + 1) := by
  cases d with
  | zero => rw [ToldApart, if_pos hd]; rfl
  | succ d => rw [ToldApart, if_pos hd]

/-- **The keys of a built tree** are reached as fast as they are told apart. -/
theorem buildRecursive_descents_iff (hc : config.Valid) (fuel : ℕ) :
    ∀ {l : List (K × V)} {n : Node K V} {d : ℕ}, l ≠ [] → Ascending l →
      buildRecursive config fuel l = some n →
      ((∀ a ∈ l, n.descents a.1 ≤ d) ↔ ToldApart config d l) := by
  induction fuel with
  | zero => intro l n d _ _ hb; cases hb
  | succ fuel ih =>
    intro l n d hne hl hb
    by_cases hd : isDegenerateGroup l
    · rw [buildRecursive, if_pos hd] at hb
      rw [toldApart_degenerate hd]
      exact buildDegenerate_descents_iff _ hl (degenerate_near hl hd) hb
    · obtain ⟨r, gs, hr, hg, hn, hgroups⟩ := buildRecursive_slots hc hne hl hd hb
      have hmem : (∀ a ∈ l, n.descents a.1 ≤ d) ↔ ∀ g ∈ gs, ∀ a ∈ g.2, n.descents a.1 ≤ d := by
        simp only [hg.mem_iff]
        refine ⟨fun h g hgm a ha => h a ⟨g, hgm, ha⟩, fun h a hm => ?_⟩
        obtain ⟨g, hgm, ha⟩ := hm
        exact h g hgm a ha
      rw [hmem, hn.descents_le_iff hg.group]
      cases d with
      | zero =>
        rw [ToldApart, if_neg hd, hgroups, List.forall_mem_map]
        refine forall₂_congr fun g hgm => ⟨?_, Or.inl⟩
        rintro (h | ⟨c, -, h⟩)
        · exact h
        · obtain ⟨a, ha⟩ := List.exists_mem_of_ne_nil _ (hg.group g hgm).1
          exact absurd (h a ha) (Nat.not_succ_le_zero _)
      | succ d =>
        rw [ToldApart, if_neg hd, hgroups, List.forall_mem_map]
        refine forall₂_congr fun g hgm => ?_
        obtain ⟨hgne, -⟩ := hg.group g hgm
        have hasc : Ascending g.2 := hl.sublist (hg.sublist g hgm)
        -- the group is one pair, or it has a child
        have hchild : ∀ c, buildRun (buildRecursive config fuel) g.2 = some c →
            ((∀ a ∈ g.2, c.descents a.1 + 1 ≤ d + 1) ↔ ToldApart config d g.2) := by
          intro c hbuild
          simp only [Nat.add_le_add_iff_right]
          rw [buildRun] at hbuild
          split_ifs at hbuild with hdg
          · rw [toldApart_degenerate hdg]
            exact buildDegenerate_descents_iff _ hasc (degenerate_near hasc hdg) hbuild
          · exact ih hgne hasc hbuild
        rcases hn.group g hgm with ⟨-, hlen⟩ | ⟨-, hlen, hbuild⟩
        · exact iff_of_true (Or.inl hlen) (Or.inl hlen)
        · refine or_congr_right ⟨?_, fun h => ⟨_, hbuild, (hchild _ hbuild).2 h⟩⟩
          rintro ⟨c, hbuild, h⟩
          exact (hchild c hbuild).1 h

/-! ## Rebuilt subtrees -/

section Rebuild
variable {h : Header K} {st : ℕ → SlotState} {kv : ℕ → Option (K × V)} {ch : ℕ → Node K V} {t : ℕ}
  {parent : Node K V} {idx : ℕ}

omit [LinearOrder K] [Key K] [LawfulKey K] in
theorem rebuildsSubtree_mk : rebuildsSubtree (.mk h st kv ch t) idx ↔
    (st idx).isChild ∧ ch idx ≠ .null ∧ 1 < (ch idx).sortedPairs.length := by
  rw [rebuildsSubtree]
  by_cases hc : (st idx).isChild
  · rw [if_neg (not_not.2 hc)]
    cases ch idx with
    | null => exact iff_of_false Bool.false_ne_true fun h => h.2.1 rfl
    | mk h' st' kv' ch' t' => simp [hc]
  · rw [if_pos hc]
    exact iff_of_false Bool.false_ne_true fun h => hc h.1

omit [LawfulKey K] in
/-- A refused rebuild leaves the parent as it is. -/
theorem tryRebuildSubtree_refused (hr : ¬ rebuildsSubtree parent idx) :
    tryRebuildSubtree config parent idx = some parent := by
  cases parent with
  | null => rfl
  | mk h st kv ch t =>
    rw [rebuildsSubtree_mk] at hr
    rw [tryRebuildSubtree]
    by_cases hc : (st idx).isChild
    · rw [if_neg (not_not.2 hc)]
      cases hn : ch idx with
      | null => rfl
      | mk h' st' kv' ch' t' =>
        dsimp only
        rw [if_pos]
        rw [hn] at hr
        exact not_lt.1 fun hlen => hr ⟨hc, Node.mk_ne_null, hlen⟩
    · rw [if_pos hc]

omit [LawfulKey K] in
/-- A rebuild replaces the child of the slot. -/
theorem tryRebuildSubtree_mk (hr : rebuildsSubtree (.mk h st kv ch t) idx) :
    tryRebuildSubtree config (.mk h st kv ch t) idx =
      (buildRecursive config.boosted (ch idx).sortedPairs.length (ch idx).sortedPairs).map
        fun c => .mk h st kv (Function.update ch idx c) t := by
  obtain ⟨hc, hne, hlen⟩ := rebuildsSubtree_mk.1 hr
  rw [tryRebuildSubtree, if_neg (not_not.2 hc)]
  cases hn : ch idx with
  | null => exact absurd hn hne
  | mk h' st' kv' ch' t' =>
    dsimp only
    rw [hn] at hlen
    rw [if_neg (not_le.2 hlen)]
    rw [Option.map_eq_bind]
    rfl

/-- The pairs of a subtree that is rebuilt. -/
theorem rebuildsSubtree_pairs (hp : parent.WF) (hr : rebuildsSubtree parent idx) :
    (parent.child idx).sortedPairs ≠ [] ∧ Ascending (parent.child idx).sortedPairs ∧
      ∀ a ∈ (parent.child idx).sortedPairs,
        parent.predictSlot a.1 = idx ∧ parent.get a.1 = some a.2 := by
  cases parent with
  | null => cases hr
  | mk h st kv ch t =>
    obtain ⟨hs, -, hlen⟩ := rebuildsSubtree_mk.1 hr
    have hch : (ch idx).WF := hp.child hs
    refine ⟨List.ne_nil_of_length_pos (Nat.zero_lt_one.trans hlen),
      hch.sortedPairs_eq ▸ hch.ascending, fun a ha => ?_⟩
    have ha : a ∈ (ch idx).sortedPairs := ha
    rw [hch.sortedPairs_eq] at ha
    have hget := (hch.mem_entries a.1 a.2).1 ha
    have hk : h.predictSlot a.1 = idx := hp.routed hs (by rw [hget]; rfl)
    refine ⟨hk, ?_⟩
    rw [Node.get_mk, hk, Node.slotGet_isChild hs, hget]

/-- **A rebuilt subtree** was built from the pairs of the old one, which hang below the
    slot that the parent predicts for them. -/
theorem tryRebuildSubtree_rebuilt (hc : config.Valid) (hp : parent.WF)
    (hr : rebuildsSubtree parent idx) :
    ∃ parent' : Node K V, tryRebuildSubtree config parent idx = some parent' ∧ parent'.WF ∧
      (∀ k, parent'.get k = parent.get k) ∧
      (parent'.child idx).entries = (parent.child idx).sortedPairs ∧
      buildRecursive config.boosted (parent.child idx).sortedPairs.length
        (parent.child idx).sortedPairs = some (parent'.child idx) ∧
      ∀ a ∈ (parent.child idx).sortedPairs,
        parent'.descents a.1 = (parent'.child idx).descents a.1 + 1 := by
  obtain ⟨parent', h₁, hw, hget⟩ := tryRebuildSubtree_get hc hp idx
  cases parent with
  | null => cases hr
  | mk h st kv ch t =>
    have h₂ := h₁
    obtain ⟨hne, hasc, hslot⟩ := rebuildsSubtree_pairs hp hr
    have hs := (rebuildsSubtree_mk.1 hr).1
    rw [tryRebuildSubtree_mk hr] at h₂
    obtain ⟨c, hb, rfl⟩ := Option.map_eq_some_iff.1 h₂
    have hh := holds_of_buildRecursive hc.boosted.headroom hne le_rfl hasc hb
    refine ⟨_, h₁, hw, hget, ?_, ?_, fun a ha => ?_⟩
    · rw [Node.child, Function.update_self, Node.child]
      exact hh.wf.entries_eq hasc hh.get
    · rw [Node.child, Node.child, Function.update_self]
      exact hb
    · have hk : h.predictSlot a.1 = idx := (hslot a ha).1
      rw [Node.descents_eq rfl, hk]
      exact if_pos hs

/-- **A subtree rebuild restores the depth exactly where the keys are told apart**: it
    builds what the keys allow.  No insert of a rebuilt key starts another rebuild, as it
    overwrites a value. -/
theorem tryRebuildSubtree_restores_iff (hc : config.Valid)
    (ht : 1 ≤ config.rebuildDepthThreshold) (hp : parent.WF) (hr : rebuildsSubtree parent idx) :
    ∃ parent', tryRebuildSubtree config parent idx = some parent' ∧
      ((∀ a ∈ (parent'.child idx).entries, parent'.descents a.1 ≤ config.rebuildDepthThreshold) ↔
        ToldApart config.boosted (config.rebuildDepthThreshold - 1)
          (parent.child idx).sortedPairs) ∧
      ∀ a ∈ (parent'.child idx).entries, ∀ value, insert config parent' a.1 value =
        (insertAt a.1 value parent').map fun c => (c.node, .updated) := by
  obtain ⟨parent', h₁, hw, hget, hentries, hb, hd⟩ := tryRebuildSubtree_rebuilt hc hp hr
  obtain ⟨hne, hasc, hpairs⟩ := rebuildsSubtree_pairs hp hr
  have hboosted : config.boosted.Valid := hc.boosted
  refine ⟨parent', h₁, ?_, fun a ha value => ?_⟩
  · obtain ⟨t, ht⟩ := Nat.exists_eq_add_of_le' ht
    rw [hentries, ht, Nat.add_sub_cancel, ← buildRecursive_descents_iff hboosted _ hne hasc hb]
    refine forall₂_congr fun a ha => ?_
    rw [hd a ha, Nat.add_le_add_iff_right]
  · rw [hentries] at ha
    have hget : (parent'.get a.1).isSome := by
      rw [hget, (hpairs a ha).2]
      rfl
    obtain ⟨c, hc, -, hres⟩ := insertAt_updates hw a.1 value
    rw [insertResult, if_pos hget] at hres
    rw [insert, hc]
    simp only [Option.bind_eq_bind, Option.bind_some, Option.map_some, hres]

/-- Two bytes below one slot. -/
theorem tryRebuildSubtree_restores_iff_bytes : ∃ parent : Node (Fin (2 ^ 8)) ℕ,
    parent = (Node.withHeader ⟨.constant, none, 1⟩).storeChild 0
      (((Node.withHeader ⟨.new 1 0, none, 2⟩).storeData 0 0 10).storeData 1 1 11) ∧
    ∃ parent', tryRebuildSubtree {} parent 0 = some parent' ∧
      ((∀ a ∈ (parent'.child 0).entries, parent'.descents a.1 ≤ 8) ↔
        ToldApart (Config.boosted {}) 7 (parent.child 0).sortedPairs) ∧
      ∀ a ∈ (parent'.child 0).entries, ∀ value, insert {} parent' a.1 value =
        (insertAt a.1 value parent').map fun c => (c.node, .updated) := by
  have : LawfulKey (Fin (2 ^ 8)) := lawfulKey_unsigned (by decide)
  have hchild := ((Node.withHeader_built (K := Fin (2 ^ 8)) (V := ℕ) (h := ⟨.new 1 0, none, 2⟩)
    ⟨Nat.two_pos, zero_le_one⟩).storeData 0 10 nofun).storeData 1 11 (by decide +kernel)
  have hparent := (Node.withHeader_built (K := Fin (2 ^ 8)) (V := ℕ) (h := ⟨.constant, none, 1⟩)
    ⟨Nat.one_pos, le_rfl⟩).storeChild hchild.toHolds (i := 0) (by decide) (by decide +kernel) nofun
  have hslots : (⟨.new 1 0, none, 2⟩ : Header (Fin (2 ^ 8))).predictSlot 0 = 0 ∧
      (⟨.new 1 0, none, 2⟩ : Header (Fin (2 ^ 8))).predictSlot 1 = 1 := by decide +kernel
  rw [hslots.1, hslots.2] at hparent
  exact ⟨_, rfl, tryRebuildSubtree_restores_iff
    (show ({} : Config).Valid from ⟨by norm_num, le_rfl⟩) (by decide) hparent.wf
    (by decide +kernel)⟩

/-- Keys that collide again in the rebuilt model: the threshold is one, and three of the
    four keys of a rebuilt subtree stay two descents away. -/
theorem tryRebuildSubtree_leaves_deep :
    ((([(100, 0), (101, 1), (102, 2), (1100, 3)] : List (Fin (2 ^ 64) × ℕ)).foldlM
      (fun n p => (insertAt p.1 p.2 n).map Change.node) LearnedMap.emptyRoot).bind fun parent =>
        (tryRebuildSubtree { rebuildDepthThreshold := 1 } parent 63).map fun parent' =>
          (rebuildsSubtree parent 63,
            decide (∀ a ∈ (parent'.child 63).sortedPairs, parent'.descents a.1 ≤ 1))) =
      some (true, false) := by
  decide +kernel

end Rebuild

end Scry.Index
