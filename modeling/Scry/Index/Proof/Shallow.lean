/-
  Depth of a map over a run.

  An update that attaches a child makes the tree deeper only where it ends its descent, and
  a descent beyond the threshold is followed by a rebuild, after which the subtree is no
  deeper than it has pairs.  So the depth is bounded by the threshold and the number of keys
  (`run_shallow`), unless a child is attached that no rebuild follows.
-/
import Scry.Index.Proof.Depth

namespace Scry.Index

variable {K V : Type}

theorem one_lt_length {α : Type} {l : List α} {a b : α} (ha : a ∈ l) (hb : b ∈ l) (hne : a ≠ b) :
    1 < l.length := by
  match l with
  | [] => cases ha
  | [x] => exact absurd ((List.mem_singleton.1 ha).trans (List.mem_singleton.1 hb).symm) hne
  | _ :: _ :: _ => simp

/-! ## Changes of one slot -/

namespace Node
variable {h : Header K} {st : ℕ → SlotState} {kv kv' : ℕ → Option (K × V)} {ch : ℕ → Node K V}
  {t t' B i : ℕ} {s : SlotState} {c n : Node K V}

/-- A change of one slot is as deep as its new child and the other children. -/
theorem maxDepth_update_le
    (ho : ∀ j < h.capacity, j ≠ i → (st j).isChild → (ch j).maxDepth ≤ B)
    (hc : i < h.capacity → s.isChild → c.maxDepth ≤ B) :
    (mk h (Function.update st i s) kv' (Function.update ch i c) t').maxDepth ≤ B + 1 := by
  refine maxDepth_mk_le.2 fun j hj hs => ?_
  by_cases hji : j = i
  · subst hji
    rw [Function.update_self] at hs ⊢
    exact hc hj hs
  · rw [Function.update_of_ne hji] at hs ⊢
    exact ho j hj hji hs

/-- A slot without a child makes the node no deeper. -/
theorem maxDepth_update_inline (hs : ¬ s.isChild) :
    (mk h (Function.update st i s) kv' ch t').maxDepth ≤ (mk h st kv ch t).maxDepth := by
  obtain ⟨B, hB⟩ := Nat.exists_eq_add_of_le' (maxDepth_pos (n := mk h st kv ch t) nofun)
  rw [hB]
  have hch : Function.update ch i (ch i) = ch := Function.update_eq_self i ch
  rw [← hch]
  exact maxDepth_update_le (fun j hj _ hc => maxDepth_mk_le.1 hB.le j hj hc)
    fun _ hc => absurd hc hs

theorem storeData_maxDepth (n : Node K V) (i : ℕ) (key : K) (value : V) :
    (n.storeData i key value).maxDepth ≤ n.maxDepth := by
  cases n with
  | null => exact le_rfl
  | mk h st kv ch t => exact maxDepth_update_inline Bool.false_ne_true

theorem withHeader_maxDepth (h : Header K) : (withHeader h : Node K V).maxDepth ≤ 1 :=
  maxDepth_mk_le.2 fun _ _ hs => nomatch hs

end Node

variable [LinearOrder K] [Key K]

open Node

theorem buildSingleEntryChild_maxDepth (key : K) (value : V) :
    (buildSingleEntryChild key value).maxDepth ≤ 1 :=
  (storeData_maxDepth _ _ _ _).trans (withHeader_maxDepth _)

theorem conflictNode_maxDepth (lo hi : K) : (conflictNode lo hi : Node K V).maxDepth ≤ 1 := by
  unfold conflictNode splitNode
  dsimp only
  split_ifs <;> exact withHeader_maxDepth _

theorem buildConflictNode_maxDepth {k₁ k₂ : K} {v₁ v₂ : V} {n : Node K V}
    (h : buildConflictNode k₁ v₁ k₂ v₂ = some n) : n.maxDepth ≤ 1 := by
  have ordered : ∀ (lo hi : K) (loV hiV : V),
      (let node : Node K V := conflictNode lo hi
        if node.predictSlot lo = node.predictSlot hi then none
        else some ((node.storeData (node.predictSlot lo) lo loV).storeData (node.predictSlot hi)
          hi hiV)) = some n → n.maxDepth ≤ 1 := by
    intro lo hi loV hiV h
    dsimp only at h
    split_ifs at h
    cases h
    exact ((storeData_maxDepth _ _ _ _).trans (storeData_maxDepth _ _ _ _)).trans
      (conflictNode_maxDepth lo hi)
  by_cases hlt : k₁ < k₂
  · rw [buildConflictNode, if_pos hlt] at h
    exact ordered _ _ _ _ h
  · rw [buildConflictNode, if_neg hlt] at h
    exact ordered _ _ _ _ h

/-! ## Inserts -/

/-- What an insert does to the depth of the tree and where it ended its descent. -/
structure Attaches (key : K) (n : Node K V) (c : Change K V InsertResult) : Prop where
  depth : c.depth = n.descents key
  le (B : ℕ) : n.maxDepth ≤ B → c.depth + 2 ≤ B → c.node.maxDepth ≤ B
  empty : (n.landing key).1 = .empty → c.node.maxDepth ≤ n.maxDepth
  updated : c.result = .updated → n.overwrites key

theorem overwrites_mk {h : Header K} {st : ℕ → SlotState} {kv : ℕ → Option (K × V)}
    {ch : ℕ → Node K V} {t : ℕ} {key : K} (hc : (st (h.predictSlot key)).isChild) :
    (Node.mk h st kv ch t).overwrites key = (ch (h.predictSlot key)).overwrites key := by
  rw [overwrites, overwrites, landing, if_pos hc]

theorem insertAt_attaches (key : K) (value : V) : ∀ (n : Node K V) {c : Change K V InsertResult},
    insertAt key value n = some c → Attaches key n c := by
  intro n
  induction n with
  | null => intro c h; cases h
  | mk h st kv ch t ih =>
    intro c hins
    set i := h.predictSlot key with hi
    -- a new child of depth one below the slot
    have hattach : ∀ {child : Node K V} {t' : ℕ} {r : InsertResult}, child.maxDepth ≤ 1 →
        ¬ (st i).isChild → st i ≠ .empty → (r = .updated → (Node.mk h st kv ch t).overwrites key) →
        Attaches key (.mk h st kv ch t) ⟨.mk h (Function.update st i .childStale) kv
          (Function.update ch i child) t', r, 0⟩ := by
      intro child t' r hd hs hne hup
      have hland : (Node.mk h st kv ch t).landing key = (st i, kv i) := if_neg hs
      refine ⟨(if_neg hs).symm, fun B hB h2 => ?_, fun he => ?_, hup⟩
      · obtain ⟨B, rfl⟩ := Nat.exists_eq_add_of_le' (Nat.one_le_of_lt h2)
        exact maxDepth_update_le (fun j hj _ hc => maxDepth_mk_le.1 hB j hj hc) fun _ _ => by omega
      · rw [hland] at he
        exact absurd he hne
    have hbelow : ∀ {c' : Change K V InsertResult}, (st i).isChild →
        insertAt key value (ch i) = some c' → Attaches key (.mk h st kv ch t)
          ⟨.mk h st kv (Function.update ch i c'.node) t, c'.result, c'.depth + 1⟩ := by
      intro c' hs hc'
      have ha := ih i hc'
      have hst : Function.update st i (st i) = st := Function.update_eq_self i st
      have hland : (Node.mk h st kv ch t).landing key = (ch i).landing key := if_pos hs
      have hle : ∀ {B : ℕ}, (Node.mk h st kv ch t).maxDepth ≤ B + 1 →
          (i < h.capacity → c'.node.maxDepth ≤ B) →
          (Node.mk h st kv (Function.update ch i c'.node) t).maxDepth ≤ B + 1 := by
        intro B hB hc
        rw [← hst]
        exact maxDepth_update_le (fun j hj _ hc => maxDepth_mk_le.1 hB j hj hc) fun hi _ => hc hi
      refine ⟨?_, fun B hB h2 => ?_, fun he => ?_, fun hu => ?_⟩
      · rw [ha.depth]
        exact (if_pos hs).symm
      · obtain ⟨B, rfl⟩ := Nat.exists_eq_add_of_le' (Nat.one_le_of_lt h2)
        exact hle hB fun hi => ha.le B (maxDepth_mk_le.1 hB i hi hs) (Nat.le_of_succ_le_succ h2)
      · obtain ⟨B, hB⟩ := Nat.exists_eq_add_of_le' (maxDepth_pos
          (show Node.mk h st kv ch t ≠ .null from mk_ne_null))
        rw [hland] at he
        rw [hB]
        exact hle hB.le fun hi => (ha.empty he).trans (maxDepth_mk_le.1 hB.le i hi hs)
      · rw [overwrites_mk hs]
        exact ha.updated hu
    rw [insertAt] at hins
    dsimp only at hins
    cases hs : st i with
    | writing => rw [← hi, hs] at hins; cases hins
    | empty =>
      rw [← hi, hs] at hins
      cases hins
      have hnc : ¬ (st i).isChild := by rw [hs]; exact Bool.false_ne_true
      have hle : (Node.mk h (Function.update st i .data)
          (Function.update kv i (some (key, value))) ch t).maxDepth ≤ (Node.mk h st kv ch t).maxDepth :=
        maxDepth_update_inline Bool.false_ne_true
      exact ⟨(if_neg hnc).symm, fun B hB _ => hle.trans hB, fun _ => hle, fun hu => by cases hu⟩
    | tombstone =>
      rw [← hi, hs] at hins
      cases hins
      exact hattach (buildSingleEntryChild_maxDepth key value) (by rw [hs]; exact Bool.false_ne_true)
        (by rw [hs]; decide) fun hu => by cases hu
    | data =>
      rw [← hi, hs] at hins
      dsimp only at hins
      have hnc : ¬ (st i).isChild := by rw [hs]; exact Bool.false_ne_true
      have hne : st i ≠ .empty := by rw [hs]; decide
      cases hkv : kv i with
      | none => rw [hkv] at hins; cases hins
      | some p =>
        obtain ⟨k, v⟩ := p
        rw [hkv] at hins
        dsimp only at hins
        split_ifs at hins with hk
        · cases hins
          refine hattach (buildSingleEntryChild_maxDepth key value) hnc hne fun _ => ?_
          rw [overwrites, landing, if_neg hnc, ← hi, hs, hkv]
          exact decide_eq_true hk
        · obtain ⟨child, hc, hins⟩ := Option.bind_eq_some_iff.1 hins
          cases hins
          exact hattach (buildConflictNode_maxDepth hc) hnc hne fun hu => by cases hu
    | child | childStale =>
      rw [← hi, hs] at hins
      obtain ⟨c', hc', hins⟩ := Option.bind_eq_some_iff.1 hins
      cases hins
      exact hbelow (by rw [hs]; rfl) hc'

/-! ## Landings -/

section Landing
variable {n : Node K V} {key : K}

/-- A descent ends at a slot at rest without a child. -/
theorem Node.WF.landing_state (hn : n.WF) (key : K) :
    ¬ (n.landing key).1.isChild ∧ (n.landing key).1 ≠ .writing := by
  induction hn with
  | @mk h st kv ch t _ idle _ _ _ ih =>
    rw [landing]
    by_cases hs : (st (h.predictSlot key)).isChild
    · rw [if_pos hs]
      exact ih _ hs
    · rw [if_neg hs]
      exact ⟨hs, idle _⟩

/-- An inline pair at which a descent ends is found by its own key. -/
theorem Node.WF.landing_get (hn : n.WF) {k : K} {v : V} (h : n.landing key = (.data, some (k, v))) :
    n.get k = some v := by
  induction hn with
  | @mk h' st kv ch t head idle data child routed ih =>
    rw [landing] at h
    by_cases hs : (st (h'.predictSlot key)).isChild
    · rw [if_pos hs] at h
      have hg := ih _ hs h
      rw [get_mk, routed _ hs k (by rw [hg]; rfl), slotGet_isChild hs, hg]
    · rw [if_neg hs] at h
      obtain ⟨hst, hkv⟩ := Prod.mk.inj h
      obtain ⟨k', v', hkv', hp⟩ := data _ hst
      cases hkv.symm.trans hkv'
      rw [get_mk, hp, hst, hkv]
      exact if_pos rfl

theorem Node.WF.landing_data (hn : n.WF) (h : (n.landing key).1 = .data) :
    ∃ k v, n.landing key = (.data, some (k, v)) := by
  induction hn with
  | @mk h' st kv ch t head idle data child routed ih =>
    rw [landing] at h ⊢
    by_cases hs : (st (h'.predictSlot key)).isChild
    · rw [if_pos hs] at h ⊢
      exact ih _ hs h
    · rw [if_neg hs] at h ⊢
      obtain ⟨k, v, hkv, -⟩ := data _ h
      exact ⟨k, v, Prod.ext h hkv⟩

/-- A tree without pairs has no inline pair where a descent ends. -/
theorem Node.WF.landing_of_vacant [LawfulKey K] (hn : n.WF) (he : n.entries = []) (key : K) :
    (n.landing key).1 = .empty ∨ (n.landing key).1 = .tombstone := by
  obtain ⟨hc, hw⟩ := hn.landing_state key
  cases hl : (n.landing key).1 with
  | empty => exact Or.inl rfl
  | tombstone => exact Or.inr rfl
  | writing => exact absurd hl hw
  | child | childStale => rw [hl] at hc; exact absurd rfl hc
  | data =>
    obtain ⟨k, v, hkv⟩ := hn.landing_data hl
    have := (hn.mem_entries k v).2 (hn.landing_get hkv)
    rw [he] at this
    cases this

/-- A tree has at most as many pairs as there are keys for them. -/
theorem Node.WF.length_le_card [LawfulKey K] (hn : n.WF) {S : Finset K}
    (hS : ∀ k, (n.get k).isSome → k ∈ S) : n.entries.length ≤ S.card := by
  have hnodup : (n.entries.map Prod.fst).Nodup :=
    List.pairwise_map.2 (hn.ascending.imp ne_of_lt)
  rw [← List.length_map Prod.fst, ← List.toFinset_card_of_nodup hnodup]
  refine Finset.card_le_card fun k hk => ?_
  obtain ⟨⟨k, v⟩, ha, rfl⟩ := List.mem_map.1 (List.mem_toFinset.1 hk)
  exact hS k (by rw [(hn.mem_entries k v).1 ha]; rfl)

end Landing

/-! ## Rebuilds -/

section Rebuild
variable [LawfulKey K] {config : Config} {n n' parent parent' : Node K V} {key : K} {value : V}
  {idx B : ℕ} {S : Finset K}

/-- The pairs of a subtree are those of the tree. -/
theorem child_length_le (hp : parent.WF) (hr : rebuildsSubtree parent idx)
    (hS : ∀ k, (parent.get k).isSome → k ∈ S) :
    (parent.child idx).sortedPairs.length ≤ S.card := by
  obtain ⟨-, hasc, hget⟩ := rebuildsSubtree_pairs hp hr
  have hnodup : ((parent.child idx).sortedPairs.map Prod.fst).Nodup :=
    List.pairwise_map.2 (hasc.imp ne_of_lt)
  rw [← List.length_map Prod.fst, ← List.toFinset_card_of_nodup hnodup]
  refine Finset.card_le_card fun k hk => ?_
  obtain ⟨a, ha, rfl⟩ := List.mem_map.1 (List.mem_toFinset.1 hk)
  exact hS a.1 (by rw [(hget a ha).2]; rfl)

/-- **A rebuild bounds the depth of its subtree** by the number of pairs. -/
theorem tryRebuildSubtree_maxDepth (hc : config.Valid) (hp : parent.WF)
    (hr : rebuildsSubtree parent idx) (hlen : (parent.child idx).sortedPairs.length ≤ B)
    (ho : ∀ j < parent.capacity, j ≠ idx → (parent.state j).isChild →
      (parent.child j).maxDepth ≤ B)
    (h : tryRebuildSubtree config parent idx = some parent') : parent'.maxDepth ≤ B + 1 := by
  obtain ⟨hne, hasc, -⟩ := rebuildsSubtree_pairs hp hr
  cases parent with
  | null => cases hr
  | mk h' st kv ch t =>
    rw [tryRebuildSubtree_mk hr] at h
    obtain ⟨c, hb, rfl⟩ := Option.map_eq_some_iff.1 h
    have hboosted : config.boosted.Valid := hc.boosted
    have hd := buildRecursive_maxDepth hboosted _ hne hasc hb
    have hst : Function.update st idx (st idx) = st := Function.update_eq_self idx st
    rw [← hst]
    exact maxDepth_update_le ho fun _ _ => hd.trans hlen

/-- A rebuild of any kind keeps a bound that leaves room for the pairs. -/
theorem tryRebuildSubtree_le (hc : config.Valid) (hp : parent.WF)
    (hS : ∀ k, (parent.get k).isSome → k ∈ S) (hB : parent.maxDepth ≤ B) (hcard : S.card < B)
    (h : tryRebuildSubtree config parent idx = some parent') : parent'.maxDepth ≤ B := by
  by_cases hr : rebuildsSubtree parent idx
  · obtain ⟨B, rfl⟩ := Nat.exists_eq_add_of_le' (Nat.one_le_of_lt hcard)
    refine tryRebuildSubtree_maxDepth hc hp hr
      ((child_length_le hp hr hS).trans (Nat.le_of_lt_succ hcard)) (fun j hj _ hs => ?_) h
    cases parent with
    | null => cases hr
    | mk h' st kv ch t => exact maxDepth_mk_le.1 hB j hj hs
  · rw [tryRebuildSubtree_refused hr] at h
    cases h
    exact hB

end Rebuild

/-! ## Inserts with rebuilds -/

section Insert
variable {config : Config} {n n' : Node K V} {key : K} {value : V} {c : Change K V InsertResult}
  {B : ℕ} {S : Finset K}

/-- An insert that descends changes the child of its slot. -/
theorem insertAt_below (hins : insertAt key value n = some c) (hd : 0 < c.depth) :
    ∃ h st kv ch t, ∃ c' : Change K V InsertResult, n = .mk h st kv ch t ∧
      (st (h.predictSlot key)).isChild ∧ insertAt key value (ch (h.predictSlot key)) = some c' ∧
      c = ⟨.mk h st kv (Function.update ch (h.predictSlot key) c'.node) t, c'.result,
        c'.depth + 1⟩ := by
  cases n with
  | null => cases hins
  | mk h st kv ch t =>
    refine ⟨h, st, kv, ch, t, ?_⟩
    rw [insertAt] at hins
    dsimp only at hins
    cases hs : st (h.predictSlot key) with
    | writing => rw [hs] at hins; cases hins
    | empty | tombstone =>
      rw [hs] at hins
      cases hins
      exact absurd hd (lt_irrefl 0)
    | data =>
      rw [hs] at hins
      dsimp only at hins
      cases hkv : kv (h.predictSlot key) with
      | none => rw [hkv] at hins; cases hins
      | some p =>
        rw [hkv] at hins
        dsimp only at hins
        split_ifs at hins
        · cases hins
          exact absurd hd (lt_irrefl 0)
        · obtain ⟨child, -, hins⟩ := Option.bind_eq_some_iff.1 hins
          cases hins
          exact absurd hd (lt_irrefl 0)
    | child | childStale =>
      rw [hs] at hins
      obtain ⟨c', hc', hins⟩ := Option.bind_eq_some_iff.1 hins
      cases hins
      exact ⟨c', rfl, rfl, hc', rfl⟩

variable [LawfulKey K]

/-- **No rebuild follows a new key only where the subtree was without pairs**, and there its
    descent ended at a free slot or at a tombstone. -/
theorem insertAt_refused (hn : n.WF) (hins : insertAt key value n = some c)
    (hres : c.result = .inserted) (hd : 0 < c.depth)
    (hr : ¬ rebuildsSubtree c.node (c.node.predictSlot key)) :
    (n.landing key).1 = .empty ∨ n.reusesAlone key := by
  obtain ⟨h, st, kv, ch, t, c', rfl, hs, hc', rfl⟩ := insertAt_below hins hd
  set i := h.predictSlot key with hi
  have hch := hn.child hs
  obtain ⟨c₁, hc₁, hu, hr₁⟩ := insertAt_updates hch key value
  cases hc'.symm.trans hc₁
  have hnone : (ch i).get key = none := by
    rw [hr₁] at hres
    cases hg : (ch i).get key with
    | none => rfl
    | some v => rw [hg] at hres; cases hres
  have hself : (key, value) ∈ c'.node.entries :=
    (hu.wf.mem_entries key value).2 hu.get_self
  -- another key of the subtree would be a second pair of it
  have hvacant : (ch i).entries = [] := by
    refine List.eq_nil_iff_forall_not_mem.2 fun a ha => hr (rebuildsSubtree_mk.2 ?_)
    have hget := (hch.mem_entries a.1 a.2).1 ha
    have hne : a.1 ≠ key := fun he => by rw [he, hnone] at hget; cases hget
    have ha' : a ∈ c'.node.entries :=
      (hu.wf.mem_entries a.1 a.2).2 (by rw [hu.get, if_neg hne, hget])
    rw [show (Node.mk h st kv (Function.update ch i c'.node) t).predictSlot key = i from rfl,
      Function.update_self]
    refine ⟨hs, fun he => not_wf_null (he ▸ hu.wf), ?_⟩
    rw [hu.wf.sortedPairs_eq]
    exact one_lt_length ha' hself fun he => hne (congrArg Prod.fst he)
  have hland : (Node.mk h st kv ch t).landing key = (ch i).landing key := if_pos hs
  rcases hch.landing_of_vacant hvacant key with he | ht
  · exact Or.inl (hland ▸ he)
  · refine Or.inr ?_
    rw [reusesAlone, hland]
    generalize (ch i).landing key = l at ht
    obtain ⟨s, p⟩ := l
    subst ht
    show (ch i).sortedPairs.isEmpty = true
    rw [hch.sortedPairs_eq, hvacant]
    rfl

/-- **The depth after an insert**: a bound is kept that has room for the threshold and the
    keys, and for a child that no rebuild follows. -/
theorem insert_maxDepth (hc : config.Valid) (hauto : config.autoRebuild) (hn : n.WF)
    (hS : ∀ k, (n.get k).isSome → k ∈ S) (hk : key ∈ S)
    (ht : config.rebuildDepthThreshold + 2 ≤ B) (hcard : S.card < B) (hB : n.maxDepth ≤ B)
    {r : InsertResult} (hins : insert config n key value = some (n', r))
    (hover : r = .updated → n.overwrites key → n.descents key + 2 ≤ B)
    (hreuse : r = .inserted → n.reusesAlone key → n.descents key + 2 ≤ B) : n'.maxDepth ≤ B := by
  rw [insert] at hins
  obtain ⟨c, hat, hins⟩ := Option.bind_eq_some_iff.1 hins
  have ha := insertAt_attaches key value n hat
  obtain ⟨c₁, hc₁, hu, -⟩ := insertAt_updates hn key value
  cases hat.symm.trans hc₁
  cases hres : c.result with
  | updated =>
    rw [hres] at hins
    cases hins
    exact ha.le B hB (ha.depth ▸ hover rfl (ha.updated hres))
  | inserted =>
    rw [hres] at hins
    obtain ⟨n₁, hdeep, hins⟩ := Option.bind_eq_some_iff.1 hins
    cases hins
    rw [rebuildDeep] at hdeep
    split_ifs at hdeep with hdepth
    · have hpos : 0 < c.depth := (Nat.zero_le _).trans_lt hdepth.2
      have hS' : ∀ k, (c.node.get k).isSome → k ∈ S := fun k hg => by
        rw [hu.get] at hg
        split_ifs at hg with he
        · exact he ▸ hk
        · exact hS k hg
      by_cases hr : rebuildsSubtree c.node (c.node.predictSlot key)
      · obtain ⟨B, rfl⟩ := Nat.exists_eq_add_of_le' (Nat.one_le_of_lt hcard)
        refine tryRebuildSubtree_maxDepth hc hu.wf hr
          ((child_length_le hu.wf hr hS').trans (Nat.le_of_lt_succ hcard)) ?_ hdeep
        obtain ⟨h, st, kv, ch, t, c', rfl, hs, -, rfl⟩ := insertAt_below hat hpos
        intro j hj hne hst
        have hne : j ≠ h.predictSlot key := hne
        simp only [Node.child, Function.update_of_ne hne]
        exact maxDepth_mk_le.1 hB j hj hst
      · rw [tryRebuildSubtree_refused hr] at hdeep
        cases hdeep
        rcases insertAt_refused hn hat hres hpos hr with he | hre
        · exact (ha.empty he).trans hB
        · exact ha.le B hB (ha.depth ▸ hreuse rfl hre)
    · cases hdeep
      refine ha.le B hB ?_
      have : ¬ c.depth > config.rebuildDepthThreshold := fun h => hdepth ⟨hauto, h⟩
      omega

omit [LawfulKey K] in
/-- `get_or_insert` leaves the tree as it is, or it inserts. -/
theorem getOrInsertAt_cases : ∀ {n : Node K V} {c : Change K V (V × InsertResult)},
    getOrInsertAt key value n = some c →
      (c.result.2 = .updated ∧ c.node = n) ∨
      (c.result.2 = .inserted ∧ insertAt key value n = some ⟨c.node, .inserted, c.depth⟩) := by
  intro n
  induction n with
  | null => intro c h; cases h
  | mk h st kv ch t ih =>
    intro c hins
    rw [getOrInsertAt] at hins
    rw [insertAt]
    dsimp only at hins ⊢
    cases hs : st (h.predictSlot key) with
    | writing => rw [hs] at hins; cases hins
    | empty =>
      rw [hs] at hins
      cases hins
      exact Or.inr ⟨rfl, rfl⟩
    | tombstone =>
      rw [hs] at hins
      obtain ⟨v, -, hins⟩ := Option.bind_eq_some_iff.1 hins
      cases hins
      exact Or.inr ⟨rfl, rfl⟩
    | data =>
      rw [hs] at hins
      dsimp only at hins ⊢
      cases hkv : kv (h.predictSlot key) with
      | none => rw [hkv] at hins; cases hins
      | some p =>
        rw [hkv] at hins
        dsimp only at hins ⊢
        split_ifs at hins ⊢
        · cases hins
          exact Or.inl ⟨rfl, rfl⟩
        · obtain ⟨child, hchild, hins⟩ := Option.bind_eq_some_iff.1 hins
          obtain ⟨v, -, hins⟩ := Option.bind_eq_some_iff.1 hins
          cases hins
          refine Or.inr ⟨rfl, ?_⟩
          rw [hchild]
          rfl
    | child | childStale =>
      rw [hs] at hins
      obtain ⟨c', hc', hins⟩ := Option.bind_eq_some_iff.1 hins
      cases hins
      rcases ih _ hc' with ⟨hr, hn⟩ | ⟨hr, hi⟩
      · refine Or.inl ⟨hr, ?_⟩
        rw [hn, Function.update_eq_self]
      · refine Or.inr ⟨hr, ?_⟩
        dsimp only
        rw [hi]
        rfl

omit [LawfulKey K] in
theorem getOrInsert_cases {v : V} {r : InsertResult}
    (h : getOrInsert config n key value = some (n', v, r)) :
    (r = .updated ∧ n' = n) ∨ (r = .inserted ∧ insert config n key value = some (n', .inserted)) := by
  rw [getOrInsert] at h
  obtain ⟨⟨node, ⟨v', r'⟩, depth⟩, hat, hdo⟩ := Option.bind_eq_some_iff.1 h
  rcases getOrInsertAt_cases hat with ⟨hr, hn⟩ | ⟨hr, hi⟩
  · obtain rfl : r' = .updated := hr
    cases hdo
    exact Or.inl ⟨rfl, hn⟩
  · obtain rfl : r' = .inserted := hr
    obtain ⟨n₁, hdeep, hdo⟩ := Option.bind_eq_some_iff.1 hdo
    cases hdo
    refine Or.inr ⟨rfl, ?_⟩
    rw [insert, hi]
    simp only [Option.bind_eq_bind, Option.bind_some, hdeep]

end Insert

/-! ## Removes -/

section Remove
variable {config : Config} {n n' : Node K V} {key : K} {B : ℕ} {S : Finset K}

theorem removeAt_maxDepth : ∀ {n : Node K V} {c : Change K V (Option ℚ)},
    removeAt key n = some c → c.node.maxDepth ≤ n.maxDepth := by
  intro n
  induction n with
  | null => intro c h; cases h; exact le_rfl
  | mk h st kv ch t ih =>
    intro c hrem
    rw [removeAt] at hrem
    cases hs : st (h.predictSlot key) with
    | writing => rw [hs] at hrem; cases hrem
    | empty | tombstone =>
      rw [hs] at hrem
      cases hrem
      exact le_rfl
    | data =>
      rw [hs] at hrem
      dsimp only at hrem
      cases hkv : kv (h.predictSlot key) with
      | none => rw [hkv] at hrem; cases hrem
      | some p =>
        rw [hkv] at hrem
        dsimp only at hrem
        split_ifs at hrem
        · cases hrem
          exact le_rfl
        · cases hrem
          exact maxDepth_update_inline Bool.false_ne_true
    | child | childStale =>
      have hc : (st (h.predictSlot key)).isChild := by rw [hs]; rfl
      have hst : Function.update st (h.predictSlot key) (st (h.predictSlot key)) = st :=
        Function.update_eq_self _ st
      rw [hs] at hrem
      obtain ⟨c', hc', hrem⟩ := Option.bind_eq_some_iff.1 hrem
      cases hrem
      obtain ⟨B, hB⟩ := Nat.exists_eq_add_of_le' (maxDepth_pos
          (show Node.mk h st kv ch t ≠ .null from mk_ne_null))
      rw [hB]
      dsimp only
      rw [← hst]
      exact maxDepth_update_le (fun j hj _ hc => maxDepth_mk_le.1 hB.le j hj hc)
        fun hi _ => (ih _ hc').trans (maxDepth_mk_le.1 hB.le _ hi hc)

/-- **A remove makes the tree no deeper** than a bound that leaves room for the pairs. -/
theorem remove_maxDepth [LawfulKey K] (hc : config.Valid) (hn : n.WF)
    (hS : ∀ k, (n.get k).isSome → k ∈ S) (hcard : S.card < B) (hB : n.maxDepth ≤ B) {b : Bool}
    (hrem : remove config n key = some (n', b)) : n'.maxDepth ≤ B := by
  rw [remove] at hrem
  obtain ⟨c, hat, hdo⟩ := Option.bind_eq_some_iff.1 hrem
  have hle := (removeAt_maxDepth hat).trans hB
  obtain ⟨c₁, hc₁, hu, -⟩ := removeAt_updates hn key
  cases hat.symm.trans hc₁
  cases hres : c.result with
  | none =>
    rw [hres] at hdo
    cases hdo
    exact hle
  | some ratio =>
    rw [hres] at hdo
    dsimp only at hdo
    split_ifs at hdo
    · obtain ⟨n₁, hr, hdo⟩ := Option.bind_eq_some_iff.1 hdo
      cases hdo
      refine tryRebuildSubtree_le hc hu.wf (fun k hg => ?_) hle hcard hr
      rw [hu.get] at hg
      split_ifs at hg with he
      · cases hg
      · exact hS k hg
    · cases hdo
      exact hle

end Remove

/-! ## Maps -/

section Map
variable [LawfulKey K] {config : Config} {m m' : LearnedMap K V} {B : ℕ} {S : Finset K}

theorem bulkLoad_maxDepth (hc : config.Valid) {l : List (K × V)} {n : Node K V}
    (h : bulkLoad config l = some (.ok n)) : n.maxDepth ≤ l.length := by
  obtain ⟨hne, hl⟩ := bulkLoad_ok h
  rw [bulkLoad, if_neg (by simpa using hne), if_neg (not_not.2 (List.Pairwise.isChain hl))] at h
  obtain ⟨n', hb, h⟩ := Option.map_eq_some_iff.1 h
  cases h
  exact buildRecursive_maxDepth hc _ hne hl hb

/-- A map of which every key is in `S` and whose tree is at most `B` deep. -/
structure Shallow (config : Config) (S : Finset K) (B : ℕ) (m : LearnedMap K V) : Prop where
  refines : ∃ s, Refines m s
  config_eq : m.config = config
  keys (k : K) : (m.root.get k).isSome → k ∈ S
  depth : m.root.maxDepth ≤ B

/-- **A root rebuild bounds the depth** by the number of pairs. -/
theorem rebuild_maxDepth (hc : m.config.Valid) (hw : m.root.WF)
    (hS : ∀ k, (m.root.get k).isSome → k ∈ S) (hcard : S.card < B) {k : K}
    (hk : (m.root.get k).isSome) (h : m.rebuild = some m') :
    m'.root.maxDepth ≤ B ∧ m'.config = m.config := by
  have hlen := hw.length_le_card hS
  have hne : m.root.entries ≠ [] := by
    obtain ⟨v, hv⟩ := Option.isSome_iff_exists.1 hk
    exact List.ne_nil_of_mem ((hw.mem_entries k v).2 hv)
  rw [LearnedMap.rebuild, hw.sortedPairs_eq, if_neg (by simpa using hne)] at h
  obtain ⟨built, hb, h⟩ := Option.bind_eq_some_iff.1 h
  have hc' : ({ m.config with rangeHeadroom := 1 } : Config).Valid := ⟨hc.expansion, zero_le_one⟩
  obtain ⟨n, hn, -⟩ := bulkLoad_holds hc' hne hw.ascending
  cases hb.symm.trans hn
  cases h
  exact ⟨(bulkLoad_maxDepth hc' hn).trans (hlen.trans hcard.le), rfl⟩

/-- The root rebuild that follows a new key makes up for any depth. -/
theorem countNew_maxDepth (hc : m.config.Valid) (hauto : m.config.autoRebuild) (hw : m.root.WF)
    (hS : ∀ k, (m.root.get k).isSome → k ∈ S) (hcard : S.card < B) {k : K}
    (hk : (m.root.get k).isSome) {isNew : Bool}
    (hB : (isNew → m.len + 1 < m.nextRootRebuild) → m.root.maxDepth ≤ B)
    (h : m.countNew isNew = some m') : m'.root.maxDepth ≤ B ∧ m'.config = m.config := by
  rw [LearnedMap.countNew] at h
  split_ifs at h with hnew
  · rw [LearnedMap.maybeRebuildRoot, if_neg (not_not.2 hauto)] at h
    split_ifs at h with hlt
    · cases h
      exact ⟨hB fun _ => hlt, rfl⟩
    · exact rebuild_maxDepth (m := { m with
        len := m.len + 1, nextRootRebuild := saturatingMul m.nextRootRebuild rootRebuildGrowthFactor })
        hc hw hS hcard hk h
  · cases h
    exact ⟨hB fun h => absurd h hnew, rfl⟩

/-- What an insert of either kind leaves: its tree, before and after the root rebuild. -/
theorem Shallow.counted (hm : Shallow config S B m) (hc : config.Valid) (hauto : config.autoRebuild)
    (ht : config.rebuildDepthThreshold + 2 ≤ B) (hcard : S.card < B) {key : K} {value : V}
    (hk : key ∈ S) {root : Node K V} {r : InsertResult}
    (hover : r = .updated → m.root.overwrites key → m.root.descents key + 2 ≤ B)
    (hreuse : m.root.reusesAlone key ∧ m.len + 1 < m.nextRootRebuild →
      m.root.descents key + 2 ≤ B)
    (hins : Index.insert m.config m.root key value = some (root, r))
    (h : LearnedMap.countNew { m with root := root } (decide (r = .inserted)) = some m') :
    m'.root.maxDepth ≤ B ∧ m'.config = config := by
  obtain ⟨⟨s, hs⟩, rfl, hkeys, hdepth⟩ := hm
  obtain ⟨root₁, h₁, hu⟩ := insert_updates hc hs.wf key value
  cases hins.symm.trans h₁
  have hkeys' : ∀ k, (root.get k).isSome → k ∈ S := fun k hg => by
    rw [hu.get] at hg
    split_ifs at hg with he
    · exact he ▸ hk
    · exact hkeys k hg
  have hkey : (root.get key).isSome := by rw [hu.get_self]; rfl
  refine countNew_maxDepth (m := { m with root := root }) hc hauto hu.wf hkeys' hcard hkey
    (fun hnew => ?_) h
  exact insert_maxDepth hc hauto hs.wf hkeys hk ht hcard hdepth hins hover
    fun hr hre => hreuse ⟨hre, hnew (decide_eq_true hr)⟩

omit [LawfulKey K] in
/-- An operation that changes only the lookup of a key of `S` keeps the keys in `S`. -/
theorem Shallow.keys_of (hm : Shallow config S B m) {key : K} (hk : key ∈ S) {w : Option V}
    (hget : ∀ k, m'.root.get k = if k = key then w else m.root.get k) (k : K)
    (hs : (m'.root.get k).isSome) : k ∈ S := by
  rw [hget] at hs
  split_ifs at hs with he
  · exact he ▸ hk
  · exact hm.keys k hs

/-- **An update keeps the tree shallow** where it stays shallow although no rebuild follows. -/
theorem Shallow.act (hm : Shallow config S (B + 2) m) (hc : config.Valid)
    (hauto : config.autoRebuild) (ht : config.rebuildDepthThreshold ≤ B) (hcard : S.card ≤ B)
    {op : Op K V} (hup : op.isUpdate) (hk : ∀ key, op.touched = some key → key ∈ S)
    (hstay : m.StaysShallow B op) (h : m.act op = some m') : Shallow config S (B + 2) m' := by
  have ht' : config.rebuildDepthThreshold + 2 ≤ B + 2 := Nat.add_le_add_right ht 2
  have hcard' : S.card < B + 2 := by omega
  obtain ⟨s, hs⟩ := hm.refines
  cases op with
  | insert key value =>
    have hkS := hk key rfl
    obtain ⟨m₁, h₁, hr⟩ := hs.insert key value
    rw [LearnedMap.act, LearnedMap.step, h₁] at h
    cases h
    rw [LearnedMap.insert] at h₁
    obtain ⟨⟨root, r⟩, hins, h₁⟩ := Option.bind_eq_some_iff.1 h₁
    obtain ⟨m₂, hcount, h₁⟩ := Option.bind_eq_some_iff.1 h₁
    obtain rfl : m₂ = m₁ := (Prod.mk.inj (Option.some.inj h₁)).1
    obtain ⟨hd, hcfg⟩ := hm.counted hc hauto ht' hcard' hkS
      (fun _ ho => Nat.add_le_add_right (hstay (Or.inl ho)) 2)
      (fun hre => Nat.add_le_add_right (hstay (Or.inr hre)) 2) hins hcount
    exact ⟨⟨_, hr⟩, hcfg, hm.keys_of hkS fun k => by rw [hr.get, s.get_insert, hs.get], hd⟩
  | getOrInsert key value =>
    have hkS := hk key rfl
    obtain ⟨m₁, h₁, hr⟩ := hs.getOrInsert key value
    rw [LearnedMap.act, LearnedMap.step, h₁] at h
    cases h
    rw [LearnedMap.getOrInsert] at h₁
    obtain ⟨⟨root, v, r⟩, hins, h₁⟩ := Option.bind_eq_some_iff.1 h₁
    obtain ⟨m₂, hcount, h₁⟩ := Option.bind_eq_some_iff.1 h₁
    obtain rfl : m₂ = m₁ := (Prod.mk.inj (Option.some.inj h₁)).1
    have hd : m₂.root.maxDepth ≤ B + 2 ∧ m₂.config = config := by
      rcases getOrInsert_cases hins with ⟨hr', rfl⟩ | ⟨hr', hnew⟩
      · subst hr'
        cases hcount
        exact ⟨hm.depth, hm.config_eq⟩
      · subst hr'
        exact hm.counted hc hauto ht' hcard' hkS (fun he => absurd he (by decide))
          (fun hre => Nat.add_le_add_right (hstay hre) 2) hnew hcount
    exact ⟨⟨_, hr⟩, hd.2, hm.keys_of hkS fun k => by rw [hr.get, s.get_insert, hs.get], hd.1⟩
  | remove key =>
    have hkS := hk key rfl
    obtain ⟨m₁, h₁, hr⟩ := hs.remove key
    rw [LearnedMap.act, LearnedMap.step, h₁] at h
    cases h
    rw [LearnedMap.remove] at h₁
    obtain ⟨⟨root, removed⟩, hrem, h₁⟩ := Option.bind_eq_some_iff.1 h₁
    cases h₁
    refine ⟨⟨_, hr⟩, hm.config_eq, hm.keys_of hkS fun k => by rw [hr.get, s.get_erase, hs.get], ?_⟩
    exact remove_maxDepth (hm.config_eq ▸ hc) hs.wf hm.keys hcard' hm.depth hrem
  | get | rebuild | drain | clear | len | iter | firstKeyValue | lastKeyValue => cases hup

/-- **The depth of a map does not grow with its operations.**  It is bounded by the
    threshold and the number of keys that a run touches, unless the run attaches a deep
    child that no rebuild follows. -/
theorem run_shallow (hc : config.Valid) (hauto : config.autoRebuild) {D : ℕ} {ops : List (Op K V)}
    (hup : ∀ op ∈ ops, op.isUpdate) (hD : (ops.filterMap Op.touched).toFinset.card ≤ D)
    (hstay : Run.Meets LearnedMap.act
      (LearnedMap.StaysShallow (config.rebuildDepthThreshold + D)) (.withConfig config) ops)
    (hrun : ops.foldlM LearnedMap.act (.withConfig config) = some m) :
    m.root.maxDepth ≤ config.rebuildDepthThreshold + D + 2 := by
  set S := (ops.filterMap Op.touched).toFinset with hS
  have hstart : Shallow config S (config.rebuildDepthThreshold + D + 2)
      (LearnedMap.withConfig config : LearnedMap K V) :=
    ⟨⟨_, Refines.empty hc _⟩, rfl, nofun, (withHeader_maxDepth _).trans (Nat.le_add_left 1 _)⟩
  refine (Run.run_induct (C := fun m op => m.StaysShallow (config.rebuildDepthThreshold + D) op ∧
    op ∈ ops) (I := Shallow config S (config.rebuildDepthThreshold + D + 2))
    (fun hm hop hact => ?_) hstart (hstay.and (Run.Meets.mem ops)) hrun).depth
  refine hm.act hc hauto (Nat.le_add_right _ _) (hD.trans (Nat.le_add_left _ _)) (hup _ hop.2)
    (fun key hkey => ?_) hop.1 hact
  rw [hS, List.mem_toFinset, List.mem_filterMap]
  exact ⟨_, hop.2, hkey⟩

end Map

/-- Two bytes, one of them twice and the other removed and inserted again. -/
theorem run_shallow_bytes : ∃ m : LearnedMap (Fin (2 ^ 8)) ℕ,
    [Op.insert ⟨5, by decide⟩ 1, .insert ⟨3, by decide⟩ 2, .insert ⟨5, by decide⟩ 3,
      .remove ⟨3, by decide⟩, .getOrInsert ⟨3, by decide⟩ 4].foldlM LearnedMap.act
        (.withConfig {}) = some m ∧ m.root.maxDepth ≤ 8 + 2 + 2 := by
  have := lawfulKey_unsigned (show 8 ≤ 64 by decide)
  have hc : ({} : Config).Valid := ⟨one_le_two, le_rfl⟩
  have hsome : ([Op.insert (⟨5, by decide⟩ : Fin (2 ^ 8)) 1, .insert ⟨3, by decide⟩ 2,
      .insert ⟨5, by decide⟩ 3, .remove ⟨3, by decide⟩, .getOrInsert ⟨3, by decide⟩ 4].foldlM
        LearnedMap.act (.withConfig {})).isSome := by decide +kernel
  obtain ⟨m, hm⟩ := Option.isSome_iff_exists.1 hsome
  exact ⟨m, hm, run_shallow hc rfl (by decide) (by decide +kernel) (by decide +kernel) hm⟩

/-- One key that is overwritten eleven times: a child hangs below a child for each of them. -/
theorem overwrites_deepen :
    (((List.replicate 12 (Op.insert (5 : Fin (2 ^ 64)) 0)).foldlM LearnedMap.act
      (.withConfig {})).map fun m => m.root.maxDepth) = some (8 + 1 + 2 + 1) := by
  decide +kernel

end Scry.Index
