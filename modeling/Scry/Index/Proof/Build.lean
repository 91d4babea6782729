/-
  The builders return well-formed trees with exactly the pairs they were given.

  A node under construction holds the pairs stored so far (`Built`); every step adds
  pairs whose slot is still vacant.
-/
import Scry.Index.Build
import Scry.Index.Proof.Node

namespace Scry.Index

variable {K V : Type} [LinearOrder K] [Key K]

namespace Node

/-- A well-formed tree with the given pairs. -/
structure Holds (n : Node K V) (l : List (K × V)) : Prop where
  wf : n.WF
  get (k : K) : n.get k = l.lookup k

omit [LinearOrder K] [Key K] in
/-- The header of a node. -/
def header? : Node K V → Option (Header K)
  | .null => none
  | .mk h _ _ _ _ => some h

omit [LinearOrder K] [Key K] in
/-- The state of a slot. -/
def state : Node K V → ℕ → SlotState
  | .null, _ => .empty
  | .mk _ st _ _ _, i => st i

/-- A node under construction that holds the given pairs; their slots are taken. -/
structure Built (h : Header K) (l : List (K × V)) (n : Node K V) : Prop extends n.Holds l where
  header : n.header? = some h
  vacant (i : ℕ) : (∀ a ∈ l, h.predictSlot a.1 ≠ i) → n.state i = .empty

variable {h : Header K} {l : List (K × V)} {n : Node K V}

theorem Built.predictSlot (hn : Built h l n) (k : K) : n.predictSlot k = h.predictSlot k := by
  cases n with
  | null => cases hn.header
  | mk h' st kv ch t => cases hn.header; rfl

theorem Built.lt_capacity (hn : Built h l n) (k : K) : h.predictSlot k < h.capacity := by
  cases n with
  | null => cases hn.header
  | mk h' st kv ch t => cases hn.header; exact hn.wf.head.predictSlot_lt k

theorem withHeader_built (hv : h.Valid) : Built h [] (withHeader h : Node K V) where
  wf := by
    refine .mk hv ?_ ?_ ?_ ?_ <;> intro i hi <;> cases hi
  get := fun _ => rfl
  header := rfl
  vacant := fun _ _ => rfl

omit [Key K] in
/-- No pair is listed with a key that is predicted to a free slot. -/
theorem lookup_of_free {f : K → ℕ} {i : ℕ} (hfree : ∀ a ∈ l, f a.1 ≠ i) {k : K} (hk : f k = i) :
    l.lookup k = none := by
  rw [lookup_eq_none]
  intro hm
  obtain ⟨a, ha, rfl⟩ := List.mem_map.1 hm
  exact hfree a ha hk

/-- **A pair stored in a vacant slot is added to the node.** -/
theorem Built.storeData (hn : Built h l n) (key : K) (value : V)
    (hfree : ∀ a ∈ l, h.predictSlot a.1 ≠ h.predictSlot key) :
    Built h (l ++ [(key, value)]) (n.storeData (h.predictSlot key) key value) := by
  cases n with
  | null => cases hn.header
  | mk h' st kv ch t =>
    cases hn.header
    set i := h.predictSlot key with hi
    have hch : Function.update ch i (ch i) = ch := Function.update_eq_self i ch
    refine ⟨⟨?_, fun k => ?_⟩, rfl, fun j hj => ?_⟩
    · have := hn.wf.update (SlotOk.of_data hi.symm value (ch i)) t
      rwa [hch] at this
    · have := get_update h st kv ch t i .data (some (key, value)) (ch i) t k
      rw [hch] at this
      rw [Node.storeData, this, hn.get, lookup_append, lookup_cons_ite]
      split_ifs with hk hkey hkey
      · simp [slotGet, hkey, lookup_of_free hfree hi.symm]
      · simp [slotGet, Ne.symm hkey, lookup_of_free hfree hk]
      · exact absurd (hkey ▸ hi.symm) hk
      · simp
    · have hji : j ≠ i := fun he =>
        hj (key, value) (List.mem_append_right _ List.mem_cons_self) (hi.symm.trans he.symm)
      rw [Node.storeData, state, Function.update_of_ne hji]
      exact hn.vacant j fun a ha => hj a (List.mem_append_left _ ha)

/-- **So are the pairs of a child.** -/
theorem Built.storeChild (hn : Built h l n) {child : Node K V} {run : List (K × V)} {i : ℕ}
    (hc : child.Holds run) (hne : run ≠ []) (hrun : ∀ a ∈ run, h.predictSlot a.1 = i)
    (hfree : ∀ a ∈ l, h.predictSlot a.1 ≠ i) : Built h (l ++ run) (n.storeChild i child) := by
  cases n with
  | null => cases hn.header
  | mk h' st kv ch t =>
    cases hn.header
    have hkv : Function.update kv i (kv i) = kv := Function.update_eq_self i kv
    have hrouted : ∀ k, (child.get k).isSome → h.predictSlot k = i := by
      intro k hk
      rw [hc.get, lookup_isSome_iff] at hk
      obtain ⟨a, ha, rfl⟩ := List.mem_map.1 hk
      exact hrun a ha
    refine ⟨⟨?_, fun k => ?_⟩, rfl, fun j hj => ?_⟩
    · have := hn.wf.update (SlotOk.of_child (s := .child) rfl hc.wf hrouted (kv i)) t
      rwa [hkv] at this
    · have := get_update h st kv ch t i .child (kv i) child t k
      rw [hkv] at this
      rw [Node.storeChild, this, hn.get, lookup_append]
      split_ifs with hk
      · rw [lookup_of_free hfree hk, slotGet, hc.get]
        rfl
      · rw [← hc.get, Option.not_isSome_iff_eq_none.1 fun hs => hk (hrouted k hs), Option.or_none]
    · obtain ⟨a, ha⟩ := List.exists_mem_of_ne_nil run hne
      have hji : j ≠ i := fun he =>
        hj a (List.mem_append_right _ ha) ((hrun a ha).trans he.symm)
      rw [Node.storeChild, state, Function.update_of_ne hji]
      exact hn.vacant j fun a ha => hj a (List.mem_append_left _ ha)

/-- Pairs with ascending slots are stored inline one after the other. -/
theorem Built.foldl_storeData (l' : List (K × V)) :
    ∀ {l : List (K × V)} {n : Node K V}, Built h l n →
      (l ++ l').Pairwise (fun a b => h.predictSlot a.1 < h.predictSlot b.1) →
      Built h (l ++ l') (l'.foldl (fun node p => node.storeData (node.predictSlot p.1) p.1 p.2) n) := by
  induction l' with
  | nil => intro l n hn _; simpa using hn
  | cons a l' ih =>
    intro l n hn hp
    have hfree : ∀ b ∈ l, h.predictSlot b.1 ≠ h.predictSlot a.1 := fun b hb =>
      ((List.pairwise_append.1 hp).2.2 b hb a List.mem_cons_self).ne
    have := ih (hn.storeData a.1 a.2 hfree) (by simpa using hp)
    rw [List.foldl_cons, hn.predictSlot]
    simpa using this

end Node

open Node

/-! ## Splits -/

/-- The ordinals of two keys are less than `2^127` apart. -/
def OrdinalsNear (a b : K) : Prop := |Key.toExactOrdinal b - Key.toExactOrdinal a| < 2 ^ 127

/-- A header that separates the keys up to `lo` from those from `hi` on. -/
structure Splits (lo hi : K) (size : ℕ) (h : Header K) : Prop where
  valid : h.Valid
  below (k : K) : k ≤ lo → h.predictSlot k = 0
  above (k : K) : hi ≤ k → h.predictSlot k = size - 1

/-- **A split node separates its two keys**, even if all their images are equal. -/
theorem splitNode_splits (hK : KeyContract K) {lo hi : K} {size : ℕ} (hlt : lo < hi)
    (hnear : OrdinalsNear lo hi) (hs : 0 < size) :
    ∃ h, (splitNode lo hi size : Node K V) = withHeader h ∧ Splits lo hi size h := by
  unfold splitNode
  dsimp only
  by_cases he : Key.toExactOrdinal lo = Key.toExactOrdinal hi
  · rw [if_pos he]
    refine ⟨_, rfl, ⟨hs, le_rfl⟩, fun k hk => if_pos hk, fun k hk => if_neg ?_⟩
    exact not_le.2 (hlt.trans_le hk)
  · rw [if_neg he]
    have hle := hK.ordinal_mono hlt.le
    obtain ⟨h₁, h₂⟩ := midpoint_between (hK.ordinal_range lo).1
      (hK.ordinal_range hi).2 (lt_of_le_of_ne hle he) ((le_abs_self _).trans_lt hnear)
    refine ⟨_, rfl, ⟨hs, le_rfl⟩, fun k hk => if_pos ?_, fun k hk => if_neg ?_⟩
    · exact (hK.ordinal_mono hk).trans h₁
    · exact not_le.2 (h₂.trans_le (hK.ordinal_mono hk))

/-- Storing one half of a split, or one run. -/
theorem storeHalf_built {h : Header K} {l half : List (K × V)} {n : Node K V} {i : ℕ}
    {build : List (K × V) → Option (Node K V)} (hn : Built h l n) (hne : half ≠ [])
    (hhalf : ∀ a ∈ half, h.predictSlot a.1 = i) (hfree : ∀ a ∈ l, h.predictSlot a.1 ≠ i)
    (hbuild : 2 ≤ half.length → ∃ c, build half = some c ∧ c.Holds half) :
    ∃ n', storeHalf build n i half = some n' ∧ Built h (l ++ half) n' := by
  match half with
  | [] => exact absurd rfl hne
  | [(key, value)] =>
    have hi := hhalf (key, value) List.mem_cons_self
    subst hi
    exact ⟨_, rfl, hn.storeData key value hfree⟩
  | a :: b :: rest =>
    obtain ⟨c, hc, hh⟩ := hbuild (by simp)
    exact ⟨_, by rw [storeHalf, hc]; rfl; simp, hn.storeChild hh hne hhalf hfree⟩

/-! ## Degenerate groups -/

omit [LinearOrder K] [Key K] in
/-- The two halves of a list of two pairs or more. -/
theorem halves_ne_nil {l : List (K × V)} (hl : 2 ≤ l.length) :
    l.take (l.length / 2) ≠ [] ∧ l.drop (l.length / 2) ≠ [] := by
  rw [← List.length_pos_iff_ne_nil, ← List.length_pos_iff_ne_nil, List.length_take,
    List.length_drop]
  omega

/-- One split of a group, given that its halves can be built. -/
theorem splitHalves_holds [LawfulKey K] (build : List (K × V) → Option (Node K V))
    {lower upper : List (K × V)} {lo hi : K × V} (hasc : Ascending ((lower ++ [lo]) ++ (hi :: upper)))
    (hnear : OrdinalsNear lo.1 hi.1)
    (hlo : 2 ≤ (lower ++ [lo]).length →
      ∃ c, build (lower ++ [lo]) = some c ∧ c.Holds (lower ++ [lo]))
    (hhi : 2 ≤ (hi :: upper).length → ∃ c, build (hi :: upper) = some c ∧ c.Holds (hi :: upper)) :
    ∃ n, (storeHalf build (splitNode lo.1 hi.1 2) 0 (lower ++ [lo])).bind
        (fun node => storeHalf build node 1 (hi :: upper)) = some n ∧
      n.Holds ((lower ++ [lo]) ++ (hi :: upper)) := by
  obtain ⟨hal, hah, hlt⟩ := ascending_append.1 hasc
  have hlt := hlt lo (List.mem_append_right _ List.mem_cons_self) hi List.mem_cons_self
  obtain ⟨h, hsn, hsp⟩ := splitNode_splits (V := V) LawfulKey.contract hlt hnear (Nat.zero_lt_two)
  have hbelow : ∀ a ∈ lower ++ [lo], h.predictSlot a.1 = 0 := fun a ha =>
    hsp.below _ (Ascending.le_getLast hal ha)
  have habove : ∀ a ∈ hi :: upper, h.predictSlot a.1 = 1 := fun a ha =>
    hsp.above _ (Ascending.head_le hah ha)
  obtain ⟨n₁, h₁, hb₁⟩ := storeHalf_built (withHeader_built hsp.valid) (by simp) hbelow
    (fun a ha => nomatch ha) hlo
  obtain ⟨n₂, h₂, hb₂⟩ := storeHalf_built hb₁ (by simp) habove
    (fun a ha => by rw [hbelow a ha]; decide) hhi
  exact ⟨n₂, by rw [hsn, h₁]; exact h₂, hb₂.toHolds⟩

/-- **The split tree of a group of keys with nearly equal model inputs.** -/
theorem buildDegenerate_holds [LawfulKey K] (fuel : ℕ) :
    ∀ l : List (K × V), l ≠ [] → l.length ≤ fuel → Ascending l →
      (∀ a ∈ l, ∀ b ∈ l, OrdinalsNear a.1 b.1) →
      ∃ n, buildDegenerate fuel l = some n ∧ n.Holds l := by
  induction fuel with
  | zero => intro l hne hlen; exact absurd (List.length_eq_zero_iff.1 (by omega)) hne
  | succ fuel ih =>
    intro l hne hlen hasc hnear
    match l with
    | [] => exact absurd rfl hne
    | [(key, value)] =>
      have hb : Built ⟨.constant, none, 1⟩ [] (withHeader ⟨.constant, none, 1⟩ : Node K V) :=
        withHeader_built ⟨Nat.one_pos, le_rfl⟩
      have := hb.storeData key value (fun a ha => nomatch ha)
      have hslot : (⟨.constant, none, 1⟩ : Header K).predictSlot key = 0 :=
        Nat.lt_one_iff.1 (hb.lt_capacity key)
      rw [hslot] at this
      exact ⟨_, rfl, this.toHolds⟩
    | a :: b :: rest =>
      set l := a :: b :: rest with hl
      have hlen2 : 2 ≤ l.length := by rw [hl]; simp
      obtain ⟨htake, hdrop⟩ := halves_ne_nil hlen2
      obtain ⟨lower, lo, hlo⟩ := (List.eq_nil_or_concat (l.take (l.length / 2))).resolve_left htake
      obtain ⟨hi, upper, hhi⟩ := List.exists_cons_of_ne_nil hdrop
      have hcat : (lower ++ [lo]) ++ (hi :: upper) = l := by
        rw [← List.concat_eq_append, ← hlo, ← hhi, List.take_append_drop]
      have hlo' : l.take (l.length / 2) = lower ++ [lo] := by rw [hlo, List.concat_eq_append]
      have hlenlo : (lower ++ [lo]).length = l.length / 2 := by
        rw [← hlo', List.length_take]; omega
      have hlenhi : (hi :: upper).length = l.length - l.length / 2 := by
        rw [← hhi, List.length_drop]
      rw [← hcat] at hasc hnear
      -- both halves are shorter than the group
      obtain ⟨n, h₁, h₂⟩ := splitHalves_holds (buildDegenerate fuel) hasc
        (hnear lo (by simp) hi (by simp))
        (fun _ => ih _ (by simp) (by omega) (ascending_append.1 hasc).1
          fun x hx y hy => hnear x (List.mem_append_left _ hx) y (List.mem_append_left _ hy))
        (fun _ => ih _ (by simp) (by omega) (ascending_append.1 hasc).2.1
          fun x hx y hy => hnear x (List.mem_append_right _ hx) y (List.mem_append_right _ hy))
      refine ⟨n, ?_, hcat ▸ h₂⟩
      rw [buildDegenerate, hlo', hhi]
      · simpa using h₁
      · exact hne
      · intro k v he
        rw [he] at hlen2
        exact absurd hlen2 (Nat.not_succ_le_self 1)

/-! ## Runs -/

section Runs
variable {α : Type}

theorem runs_flatten (l : List (ℕ × α)) : (runs l).flatMap Prod.snd = l.map Prod.snd := by
  induction l with
  | nil => rfl
  | cons a l ih =>
    obtain ⟨slot, a⟩ := a
    rw [runs]
    cases hr : runs l with
    | nil => rw [hr] at ih; simp [← ih]
    | cons r more =>
      obtain ⟨slot', run⟩ := r
      rw [hr] at ih
      dsimp only
      split_ifs <;> simp [← ih]

/-- A run is not empty, and its entries are listed with its slot. -/
theorem mem_runs {l : List (ℕ × α)} {r : ℕ × List α} (hr : r ∈ runs l) :
    r.2 ≠ [] ∧ ∀ a ∈ r.2, (r.1, a) ∈ l := by
  induction l generalizing r with
  | nil => cases hr
  | cons b l ih =>
    obtain ⟨slot, b⟩ := b
    rw [runs] at hr
    cases hl : runs l with
    | nil =>
      rw [hl] at hr
      cases List.mem_singleton.1 hr
      exact ⟨by simp, fun a ha => by simp_all⟩
    | cons r' more =>
      obtain ⟨slot', run⟩ := r'
      rw [hl] at hr ih
      have hhead := ih (r := (slot', run)) List.mem_cons_self
      dsimp only at hr
      split_ifs at hr with he
      · subst he
        rcases List.mem_cons.1 hr with rfl | hr
        · refine ⟨by simp, fun a ha => ?_⟩
          rcases List.mem_cons.1 ha with rfl | ha
          · exact List.mem_cons_self
          · exact List.mem_cons_of_mem _ (hhead.2 a ha)
        · have := ih (List.mem_cons_of_mem _ hr)
          exact ⟨this.1, fun a ha => List.mem_cons_of_mem _ (this.2 a ha)⟩
      · rcases List.mem_cons.1 hr with rfl | hr
        · exact ⟨by simp, fun a ha => by simp_all⟩
        · have := ih hr
          exact ⟨this.1, fun a ha => List.mem_cons_of_mem _ (this.2 a ha)⟩

/-- The runs of a list that is sorted by slot have ascending slots. -/
theorem runs_ascending {l : List (ℕ × α)} (hl : l.Pairwise fun a b => a.1 ≤ b.1) :
    (runs l).Pairwise fun a b => a.1 < b.1 := by
  induction l with
  | nil => exact List.Pairwise.nil
  | cons b l ih =>
    obtain ⟨slot, b⟩ := b
    obtain ⟨hle, hl⟩ := List.pairwise_cons.1 hl
    have ih := ih hl
    have hslot : ∀ r ∈ runs l, slot ≤ r.1 := by
      intro r hr
      obtain ⟨hne, hm⟩ := mem_runs hr
      obtain ⟨a, ha⟩ := List.exists_mem_of_ne_nil _ hne
      exact hle _ (hm a ha)
    rw [runs]
    cases hr : runs l with
    | nil => exact List.pairwise_singleton _ _
    | cons r more =>
      obtain ⟨slot', run⟩ := r
      rw [hr] at ih hslot
      dsimp only
      obtain ⟨hlt, hmore⟩ := List.pairwise_cons.1 ih
      split_ifs with he
      · subst he
        exact List.pairwise_cons.2 ⟨hlt, hmore⟩
      · have hlt' : slot < slot' := lt_of_le_of_ne (hslot _ List.mem_cons_self) he
        refine List.pairwise_cons.2 ⟨fun r hr => ?_, ih⟩
        rcases List.mem_cons.1 hr with rfl | hr
        · exact hlt'
        · exact hlt'.trans (hlt r hr)

end Runs

/-- A builder for the pairs of a slot: split trees for degenerate groups. -/
def buildRun (build : List (K × V) → Option (Node K V)) (run : List (K × V)) :
    Option (Node K V) :=
  if isDegenerateGroup run then buildDegenerate run.length run else build run

theorem storeRun_eq (build : List (K × V) → Option (Node K V)) (node : Node K V) (slot : ℕ)
    (run : List (K × V)) :
    storeRun build node (slot, run) = storeHalf (buildRun build) node slot run := by
  rcases run with - | ⟨a, - | ⟨b, rest⟩⟩ <;> rfl

/-- **Storing runs with ascending slots.** -/
theorem foldlM_storeRun_built {h : Header K} {build : List (K × V) → Option (Node K V)}
    (rs : List (ℕ × List (K × V))) :
    ∀ {l : List (K × V)} {n : Node K V}, Built h l n →
      rs.Pairwise (fun a b => a.1 < b.1) →
      (∀ r ∈ rs, r.2 ≠ [] ∧ ∀ a ∈ r.2, h.predictSlot a.1 = r.1) →
      (∀ r ∈ rs, ∀ a ∈ l, h.predictSlot a.1 ≠ r.1) →
      (∀ r ∈ rs, 2 ≤ r.2.length → ∃ c, buildRun build r.2 = some c ∧ c.Holds r.2) →
      ∃ n', rs.foldlM (storeRun build) n = some n' ∧ Built h (l ++ rs.flatMap Prod.snd) n' := by
  induction rs with
  | nil => intro l n hn _ _ _ _; exact ⟨n, rfl, by simpa using hn⟩
  | cons r rs ih =>
    intro l n hn hp hr hfree hbuild
    obtain ⟨slot, run⟩ := r
    obtain ⟨hlt, hp⟩ := List.pairwise_cons.1 hp
    obtain ⟨hne, hrun⟩ := hr _ List.mem_cons_self
    obtain ⟨n₁, h₁, hb₁⟩ := storeHalf_built hn hne hrun (hfree _ List.mem_cons_self)
      (hbuild _ List.mem_cons_self)
    have hfree' : ∀ r ∈ rs, ∀ a ∈ l ++ run, h.predictSlot a.1 ≠ r.1 := by
      intro r hrm a ha
      rcases List.mem_append.1 ha with ha | ha
      · exact hfree r (List.mem_cons_of_mem _ hrm) a ha
      · rw [hrun a ha]; exact (hlt r hrm).ne
    obtain ⟨n₂, h₂, hb₂⟩ := ih hb₁ hp (fun r hrm => hr r (List.mem_cons_of_mem _ hrm)) hfree'
      (fun r hrm => hbuild r (List.mem_cons_of_mem _ hrm))
    refine ⟨n₂, ?_, by simpa using hb₂⟩
    rw [List.foldlM_cons, storeRun_eq, h₁]
    exact h₂

/-! ## Recursive construction -/

section Inputs
variable {l : List (K × V)}

theorem keyInput_eq {i : ℕ} (hi : i < l.length) : keyInput l i = Key.toModelInput l[i].1 := by
  rw [keyInput, List.getElem?_eq_getElem hi]

theorem keyInput_sorted (hmono : Monotone (Key.toModelInput : K → ℚ)) (hl : Ascending l) :
    InputsSorted l.length (keyInput l) := by
  intro i j hij hj
  rw [keyInput_eq (hij.trans_lt hj), keyInput_eq hj]
  rcases hij.lt_or_eq with hlt | rfl
  · exact hmono (List.pairwise_iff_getElem.1 hl i j _ hj hlt).le
  · exact le_rfl

theorem isDegenerateGroup_iff : isDegenerateGroup l ↔
    1 < l.length ∧ |keyInput l (l.length - 1) - keyInput l 0| < epsilon := by
  simp [isDegenerateGroup]

/-- The ordinals of a degenerate group are near each other. -/
theorem degenerate_near [LawfulKey K] (hl : Ascending l) (hd : isDegenerateGroup l) :
    ∀ a ∈ l, ∀ b ∈ l, OrdinalsNear a.1 b.1 := by
  have hd := (isDegenerateGroup_iff.1 hd).2
  have hsorted := keyInput_sorted LawfulKey.monotone hl
  intro a ha b hb
  obtain ⟨i, hi, rfl⟩ := List.getElem_of_mem ha
  obtain ⟨j, hj, rfl⟩ := List.getElem_of_mem hb
  refine LawfulKey.ordinal_near _ _ ?_
  have h₁ := hsorted 0 i (Nat.zero_le _) hi
  have h₂ := hsorted i (l.length - 1) (by omega) (by omega)
  have h₃ := hsorted 0 j (Nat.zero_le _) hj
  have h₄ := hsorted j (l.length - 1) (by omega) (by omega)
  rw [keyInput_eq hi] at h₁ h₂
  rw [keyInput_eq hj] at h₃ h₄
  rw [abs_lt] at hd ⊢
  constructor <;> linarith

theorem buildDegenerate_of_group [LawfulKey K] (hl : Ascending l) (hd : isDegenerateGroup l) :
    ∃ n, buildDegenerate l.length l = some n ∧ n.Holds l := by
  refine buildDegenerate_holds _ l ?_ le_rfl hl (degenerate_near hl hd)
  rintro rfl
  cases hd

end Inputs

/-- The header of a fitted node. -/
def FmcdResult.header (r : FmcdResult) : Header K := ⟨r.model, none, r.arraySize⟩

section Fitted
variable {l : List (K × V)} {r : FmcdResult}

theorem Fits.valid (hr : Fits l.length (keyInput l) r) : (r.header : Header K).Valid :=
  ⟨hr.size_pos, hr.slope_nonneg⟩

theorem Fits.predictSlot (hr : Fits l.length (keyInput l) r) {i : ℕ} (hi : i < l.length) :
    r.header.predictSlot l[i].1 = r.model.predictRaw (keyInput l i) r.arraySize := by
  rw [keyInput_eq hi]
  simp only [Header.predictSlot, FmcdResult.header, LinearModel.predict, hr.midpoint]

/-- Predicted slots ascend with the keys. -/
theorem Fits.predictSlot_mono (hr : Fits l.length (keyInput l) r)
    (hmono : Monotone (Key.toModelInput : K → ℚ)) {a b : K} (hab : a ≤ b) :
    r.header.predictSlot a ≤ r.header.predictSlot b := by
  simp only [Header.predictSlot, FmcdResult.header, LinearModel.predict, hr.midpoint]
  exact LinearModel.predictRaw_mono hr.slope_nonneg (hmono hab) _

theorem Fits.slots_le (hr : Fits l.length (keyInput l) r)
    (hmono : Monotone (Key.toModelInput : K → ℚ)) (hl : Ascending l) :
    l.Pairwise fun a b => r.header.predictSlot a.1 ≤ r.header.predictSlot b.1 :=
  hl.imp fun hab => hr.predictSlot_mono hmono hab.le

/-- Without conflicts no two keys have the same slot. -/
theorem Fits.slots_lt (hr : Fits l.length (keyInput l) r)
    (hmono : Monotone (Key.toModelInput : K → ℚ)) (hl : Ascending l) (hc : r.conflicts = 0) :
    l.Pairwise fun a b => r.header.predictSlot a.1 < r.header.predictSlot b.1 := by
  rw [List.pairwise_iff_getElem]
  intro i j hi hj hij
  have hle := List.pairwise_iff_getElem.1 (hr.slots_le hmono hl)
  have hne := hr.conflicts hc i (by omega)
  rw [← hr.predictSlot (show i + 1 < l.length by omega), ← hr.predictSlot hi] at hne
  have h₁ := hle i (i + 1) hi (by omega) (by omega)
  rcases (show i + 1 ≤ j by omega).lt_or_eq with hlt | rfl
  · have h₂ := hle (i + 1) j (by omega) hj hlt
    omega
  · omega

/-- Not all keys of a group that is not degenerate have the same slot. -/
theorem Fits.not_one_slot (hr : Fits l.length (keyInput l) r) (hlen : 2 ≤ l.length)
    (hd : ¬ isDegenerateGroup l) (slot : ℕ) :
    ¬ ∀ a ∈ l, r.header.predictSlot a.1 = slot := by
  intro hall
  have heps : epsilon ≤ |keyInput l (l.length - 1) - keyInput l 0| := by
    by_contra hlt
    exact hd (isDegenerateGroup_iff.2 ⟨by omega, not_le.1 hlt⟩)
  obtain ⟨h₀, h₁⟩ := hr.separates hlen heps
  have e₀ := hall _ (List.getElem_mem (show 0 < l.length by omega))
  have e₁ := hall _ (List.getElem_mem (show l.length - 1 < l.length by omega))
  rw [hr.predictSlot] at e₀ e₁
  omega

/-- Pairs in groups, one group for each slot that a header predicts for them. -/
structure Grouped (h : Header K) (l : List (K × V)) (gs : List (ℕ × List (K × V))) : Prop where
  flat : gs.flatMap Prod.snd = l
  slots : gs.Pairwise fun g g' => g.1 < g'.1
  group : ∀ g ∈ gs, g.2 ≠ [] ∧ ∀ a ∈ g.2, h.predictSlot a.1 = g.1

namespace Grouped
variable {h : Header K} {gs : List (ℕ × List (K × V))}

theorem sublist (hg : Grouped h l gs) : ∀ g ∈ gs, g.2.Sublist l := by
  intro g hm
  rw [← hg.flat, List.flatMap_def]
  exact List.sublist_flatten_of_mem (List.mem_map_of_mem hm)

theorem mem_iff (hg : Grouped h l gs) {a : K × V} : a ∈ l ↔ ∃ g ∈ gs, a ∈ g.2 := by
  rw [← hg.flat, List.mem_flatMap]

/-- A group is shorter than the list: not all pairs have its slot. -/
theorem length_lt (hr : Fits l.length (keyInput l) r) (hd : ¬ isDegenerateGroup l)
    (hg : Grouped r.header l gs) : ∀ g ∈ gs, 2 ≤ g.2.length → g.2.length < l.length := by
  intro g hm h2
  have hsub := hg.sublist g hm
  refine lt_of_le_of_ne hsub.length_le fun he => ?_
  refine hr.not_one_slot (he ▸ h2) hd g.1 ?_
  rw [← hsub.eq_of_length he]
  exact (hg.group g hm).2

end Grouped

/-- **The runs of sorted pairs are groups.** -/
theorem Fits.grouped (hr : Fits l.length (keyInput l) r)
    (hmono : Monotone (Key.toModelInput : K → ℚ)) (hl : Ascending l) :
    Grouped r.header l (runs (l.map fun p => (r.header.predictSlot p.1, p))) where
  flat := by rw [runs_flatten, List.map_map]; simp [Function.comp_def]
  slots := runs_ascending (List.pairwise_map.2 (hr.slots_le hmono hl))
  group q hq := by
    refine ⟨(mem_runs hq).1, fun a ha => ?_⟩
    obtain ⟨p, -, he⟩ := List.mem_map.1 ((mem_runs hq).2 a ha)
    obtain ⟨h₁, rfl⟩ := Prod.mk.inj he
    exact h₁

end Fitted

/-- **The tree that is built from sorted pairs holds them.** -/
theorem buildRecursive_holds [LawfulKey K] {config : Config} (hc : config.Valid) (fuel : ℕ) :
    ∀ l : List (K × V), l ≠ [] → l.length ≤ fuel → Ascending l →
      ∃ n, buildRecursive config fuel l = some n ∧ n.Holds l := by
  induction fuel with
  | zero => intro l hne hlen; exact absurd (List.length_eq_zero_iff.1 (by omega)) hne
  | succ fuel ih =>
    intro l hne hlen hl
    rw [buildRecursive]
    by_cases hd : isDegenerateGroup l
    · rw [if_pos hd]
      exact buildDegenerate_of_group hl hd
    rw [if_neg hd]
    have hpos : 0 < l.length := List.length_pos_iff_ne_nil.2 hne
    obtain ⟨r, hfit, hr⟩ :=
      fitFmcd_fits (keyInput_sorted LawfulKey.monotone hl) hpos hc.expansion hc.headroom
    have hb : Built r.header [] (withCapacity r.model r.arraySize : Node K V) :=
      withHeader_built hr.valid
    rw [hfit]
    simp only [Option.bind_eq_bind, Option.bind_some]
    by_cases hconf : r.conflicts = 0
    · rw [if_pos hconf]
      exact ⟨_, rfl, (hb.foldl_storeData l (hr.slots_lt LawfulKey.monotone hl hconf)).toHolds⟩
    · rw [if_neg hconf]
      set assignments := l.map fun p => (r.header.predictSlot p.1, p) with hasg
      have hmap : (l.map fun p => ((withCapacity r.model r.arraySize : Node K V).predictSlot p.1, p)) =
          assignments := List.map_congr_left fun p _ => by rw [hb.predictSlot]
      have hsorted : assignments.Pairwise fun a b => a.1 ≤ b.1 :=
        List.pairwise_map.2 (hr.slots_le LawfulKey.monotone hl)
      -- the pairs are sorted, so sorting by slot leaves them as they are
      have hsort : assignments.insertionSort (fun a b => a.1 ≤ b.1) = assignments :=
        List.Pairwise.insertionSort_eq hsorted
      rw [hmap, hsort]
      have hg : Grouped r.header l (runs assignments) := hr.grouped LawfulKey.monotone hl
      have hbuild : ∀ q ∈ runs assignments, 2 ≤ q.2.length →
          ∃ c, buildRun (buildRecursive config fuel) q.2 = some c ∧ c.Holds q.2 := by
        intro q hq hq2
        have hasc : Ascending q.2 := hl.sublist (hg.sublist q hq)
        rw [buildRun]
        by_cases hdq : isDegenerateGroup q.2
        · rw [if_pos hdq]
          exact buildDegenerate_of_group hasc hdq
        · rw [if_neg hdq]
          have hlt := hg.length_lt hr hd q hq hq2
          exact ih q.2 (hg.group q hq).1 (by omega) hasc
      obtain ⟨n, h₁, h₂⟩ := foldlM_storeRun_built (runs assignments) hb hg.slots hg.group
        (fun _ _ a ha => nomatch ha) hbuild
      rw [List.nil_append, hg.flat] at h₂
      exact ⟨n, h₁, h₂.toHolds⟩

/-- A tree that was built from sorted pairs holds them, also where the expansion factor is
    too small to fit a model. -/
theorem holds_of_buildRecursive [LawfulKey K] {config : Config} (hc : 0 ≤ config.rangeHeadroom)
    {fuel : ℕ} {l : List (K × V)} {n : Node K V} (hne : l ≠ []) (hlen : l.length ≤ fuel)
    (hl : Ascending l) (h : buildRecursive config fuel l = some n) : n.Holds l := by
  by_cases hef : 1 ≤ config.expansionFactor
  · obtain ⟨n', h₁, h₂⟩ := buildRecursive_holds ⟨hef, hc⟩ fuel l hne hlen hl
    exact Option.some.inj (h₁.symm.trans h) ▸ h₂
  · cases fuel with
    | zero => cases h
    | succ fuel =>
      rw [buildRecursive] at h
      split_ifs at h with hd
      · obtain ⟨n', h₁, h₂⟩ := buildDegenerate_of_group hl hd
        exact Option.some.inj (h₁.symm.trans h) ▸ h₂
      · rw [fitFmcd, if_pos (Or.inr (not_le.1 hef))] at h
        cases h

/-- A bulk load succeeds on sorted pairs. -/
theorem bulkLoad_holds [LawfulKey K] {config : Config} (hc : config.Valid) {l : List (K × V)}
    (hne : l ≠ []) (hl : Ascending l) :
    ∃ n, bulkLoad config l = some (.ok n) ∧ n.Holds l := by
  obtain ⟨n, h₁, h₂⟩ := buildRecursive_holds hc l.length l hne le_rfl hl
  refine ⟨n, ?_, h₂⟩
  rw [bulkLoad, if_neg (by simpa using hne), if_neg (not_not.2 (List.Pairwise.isChain hl)), h₁]
  rfl

/-- Only sorted pairs are loaded. -/
theorem bulkLoad_ok {config : Config} {l : List (K × V)} {n : Node K V}
    (h : bulkLoad config l = some (.ok n)) : l ≠ [] ∧ Ascending l := by
  rw [bulkLoad] at h
  have htrans : IsTrans (K × V) fun a b => a.1 < b.1 := ⟨fun _ _ _ => lt_trans⟩
  by_cases h₁ : l.isEmpty
  · rw [if_pos h₁] at h; cases h
  rw [if_neg h₁] at h
  by_cases h₂ : l.IsChain fun a b => a.1 < b.1
  · exact ⟨by simpa using h₁, List.isChain_iff_pairwise.1 h₂⟩
  · rw [if_pos h₂] at h; cases h

theorem holds_of_bulkLoad [LawfulKey K] {config : Config} (hc : 0 ≤ config.rangeHeadroom)
    {l : List (K × V)} {n : Node K V} (h : bulkLoad config l = some (.ok n)) : n.Holds l := by
  obtain ⟨hne, hl⟩ := bulkLoad_ok h
  rw [bulkLoad, if_neg (by simpa using hne), if_neg (not_not.2 (List.Pairwise.isChain hl))] at h
  obtain ⟨n', hb, h⟩ := Option.map_eq_some_iff.1 h
  cases h
  exact holds_of_buildRecursive hc hne le_rfl hl hb

/-! ## Children of inserts -/

theorem buildSingleEntryChild_holds (key : K) (value : V) :
    (buildSingleEntryChild key value).Holds [(key, value)] := by
  have hb : Built ⟨.new 1 (-Key.toModelInput key), none, 2⟩ []
      (withHeader ⟨.new 1 (-Key.toModelInput key), none, 2⟩ : Node K V) :=
    withHeader_built ⟨Nat.two_pos, zero_le_one⟩
  rw [buildSingleEntryChild, withCapacity, hb.predictSlot]
  exact (hb.storeData key value fun a ha => nomatch ha).toHolds

/-- The node that `build_conflict_node` creates for two keys, still empty. -/
def conflictNode (lo hi : K) : Node K V :=
  if |Key.toModelInput hi - Key.toModelInput lo| < epsilon then splitNode lo hi 4
  else
    let s := ((4 - 1 : ℕ) : ℚ) / (Key.toModelInput hi - Key.toModelInput lo)
    withCapacity (.new s (-s * Key.toModelInput lo)) 4

/-- **A conflict node predicts different slots for its two keys.** -/
theorem conflictNode_separates (hK : KeyContract K) {lo hi : K} (hlt : lo < hi)
    (hnear : |Key.toModelInput hi - Key.toModelInput lo| < epsilon → OrdinalsNear lo hi) :
    ∃ h : Header K, (conflictNode lo hi : Node K V) = withHeader h ∧ h.Valid ∧
      h.predictSlot lo ≠ h.predictSlot hi := by
  unfold conflictNode
  split_ifs with heps
  · obtain ⟨h, he, hs⟩ := splitNode_splits (V := V) hK hlt (hnear heps)
      (show 0 < 4 by decide)
    refine ⟨h, he, hs.valid, ?_⟩
    rw [hs.below lo le_rfl, hs.above hi le_rfl]
    decide
  · have hnn := sub_nonneg.2 (hK.modelInput_mono hlt.le)
    have hpos : 0 < Key.toModelInput hi - Key.toModelInput lo := by
      rw [abs_of_nonneg hnn, not_lt] at heps
      exact epsilon_pos.trans_le heps
    refine ⟨_, rfl, ⟨Nat.succ_pos 3, by dsimp only [LinearModel.new]; positivity⟩, ?_⟩
    have h₀ := LinearModel.predictRaw_first
      (((4 - 1 : ℕ) : ℚ) / (Key.toModelInput hi - Key.toModelInput lo)) (Key.toModelInput lo) 4
    have h₁ := LinearModel.one_le_predictRaw
      (show 1 ≤ ((4 - 1 : ℕ) : ℚ) / (Key.toModelInput hi - Key.toModelInput lo) *
        (Key.toModelInput hi - Key.toModelInput lo) by
          rw [div_mul_cancel₀ _ hpos.ne']; norm_num) (show 2 ≤ 4 by decide)
    intro he
    simp only [Header.predictSlot, LinearModel.predict, LinearModel.new] at he h₀ h₁
    omega

/-- **A conflict node holds both pairs.** -/
theorem buildConflictNode_get [LawfulKey K] {k₁ k₂ : K} (hne : k₁ ≠ k₂) (v₁ v₂ : V) :
    ∃ n, buildConflictNode k₁ v₁ k₂ v₂ = some n ∧ n.WF ∧
      ∀ k, n.get k = if k = k₂ then some v₂ else if k = k₁ then some v₁ else none := by
  have ordered : ∀ (lo hi : K) (loV hiV : V), lo < hi →
      ∃ n, (let node : Node K V := conflictNode lo hi
        if node.predictSlot lo = node.predictSlot hi then none
        else some ((node.storeData (node.predictSlot lo) lo loV).storeData (node.predictSlot hi)
          hi hiV)) = some n ∧ n.Holds [(lo, loV), (hi, hiV)] := by
    intro lo hi loV hiV hlt
    obtain ⟨h, he, hv, hsep⟩ := conflictNode_separates (V := V) LawfulKey.contract hlt
      (LawfulKey.ordinal_near lo hi)
    have hb := withHeader_built (V := V) hv
    have hb₂ := (hb.storeData lo loV fun a ha => nomatch ha).storeData hi hiV
      fun a ha => by rw [List.mem_singleton.1 ha]; exact hsep
    dsimp only
    rw [he, hb.predictSlot, hb.predictSlot, if_neg hsep]
    exact ⟨_, rfl, hb₂.toHolds⟩
  rcases lt_or_gt_of_ne hne with hlt | hgt
  · obtain ⟨n, h₁, h₂⟩ := ordered k₁ k₂ v₁ v₂ hlt
    refine ⟨n, by rw [buildConflictNode, if_pos hlt]; exact h₁, h₂.wf, fun k => ?_⟩
    rw [h₂.get, lookup_cons_ite, lookup_cons_ite]
    split_ifs with h₃ h₄ h₄
    · exact absurd (h₃.symm.trans h₄) hne
    all_goals rfl
  · obtain ⟨n, h₁, h₂⟩ := ordered k₂ k₁ v₂ v₁ hgt
    refine ⟨n, by rw [buildConflictNode, if_neg hgt.not_gt]; exact h₁, h₂.wf, fun k => ?_⟩
    rw [h₂.get, lookup_cons_ite, lookup_cons_ite]
    rfl

end Scry.Index
