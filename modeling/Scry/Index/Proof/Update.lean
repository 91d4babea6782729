/-
  Every update changes the lookup of its own key and nothing else, and subtree rebuilds
  change no lookup (`Updates`).
-/
import Scry.Index.Update
import Scry.Index.Proof.Build

namespace Scry.Index

variable {K V : Type} [LinearOrder K] [Key K]

open Node

/-- An update of the key `key`, whose lookup becomes `w`. -/
structure Updates (n n' : Node K V) (key : K) (w : Option V) : Prop where
  wf : n'.WF
  get (k : K) : n'.get k = if k = key then w else n.get k

theorem Updates.get_self {n n' : Node K V} {key : K} {w : Option V} (h : Updates n n' key w) :
    n'.get key = w := by
  rw [h.get, if_pos rfl]

/-- An update after which all lookups are as before. -/
theorem Updates.of_same {n n' : Node K V} {key : K} {w : Option V} (hw : n'.WF)
    (hg : ∀ k, n'.get k = n.get k) (hk : n.get key = w) : Updates n n' key w := by
  refine ⟨hw, fun k => ?_⟩
  rw [hg]
  split_ifs with he
  · rw [he, hk]
  · rfl

theorem Updates.trans_same {n n' n'' : Node K V} {key : K} {w : Option V}
    (h : Updates n n' key w) (hw : n''.WF) (hg : ∀ k, n''.get k = n'.get k) :
    Updates n n'' key w :=
  ⟨hw, fun k => (hg k).trans (h.get k)⟩

/-! ## Changes of one slot -/

section Slot
variable {h : Header K} {st : ℕ → SlotState} {kv : ℕ → Option (K × V)} {ch : ℕ → Node K V} {t : ℕ}

/-- A key that is found in a slot is predicted to it. -/
theorem Node.WF.predictSlot_of_slotGet (hn : (Node.mk h st kv ch t).WF) {i : ℕ} {k : K}
    (hk : (slotGet (st i) (kv i) (ch i) k).isSome) : h.predictSlot k = i := by
  cases hs : st i with
  | data =>
    obtain ⟨k', v, hkv, hp⟩ := hn.data hs
    rw [hs, hkv] at hk
    simp only [slotGet, Option.bind_some] at hk
    split_ifs at hk with he
    · rwa [← he]
    · cases hk
  | child | childStale =>
    rw [hs] at hk
    exact hn.routed (by rw [hs]; rfl) hk
  | empty | writing | tombstone =>
    rw [hs] at hk
    cases hk

/-- **A change of the slot of `key` updates `key`** if the slot answers for all other keys
    as before. -/
theorem Node.WF.updates_slot (hn : (Node.mk h st kv ch t).WF) {key : K} {s : SlotState}
    {p : Option (K × V)} {c : Node K V} {w : Option V}
    (ho : SlotOk h (h.predictSlot key) s p c)
    (hg : ∀ k, slotGet s p c k = if k = key then w else
      slotGet (st (h.predictSlot key)) (kv (h.predictSlot key)) (ch (h.predictSlot key)) k)
    (t' : ℕ) :
    Updates (.mk h st kv ch t) (.mk h (Function.update st (h.predictSlot key) s)
      (Function.update kv (h.predictSlot key) p) (Function.update ch (h.predictSlot key) c) t')
      key w := by
  refine ⟨hn.update ho t', fun k => ?_⟩
  rw [get_update, get_mk]
  split_ifs with hi hk hk
  · rw [hg, if_pos hk]
  · rw [hg, if_neg hk, hi]
  · exact absurd (hk ▸ rfl) hi
  · rfl

/-- A new or changed child in the slot of `key`. -/
theorem Node.WF.updates_child (hn : (Node.mk h st kv ch t).WF) {key : K} {s : SlotState}
    (hs : s.isChild) {c : Node K V} {w : Option V} (hc : c.WF)
    (hg : ∀ k, c.get k = if k = key then w else
      slotGet (st (h.predictSlot key)) (kv (h.predictSlot key)) (ch (h.predictSlot key)) k)
    (t' : ℕ) :
    Updates (.mk h st kv ch t) (.mk h (Function.update st (h.predictSlot key) s) kv
      (Function.update ch (h.predictSlot key) c) t') key w := by
  have hr : ∀ k, (c.get k).isSome → h.predictSlot k = h.predictSlot key := by
    intro k hk
    rw [hg] at hk
    split_ifs at hk with he
    · rw [he]
    · exact hn.predictSlot_of_slotGet hk
  have := hn.updates_slot (SlotOk.of_child hs hc hr (kv (h.predictSlot key)))
    (fun k => by rw [slotGet_isChild hs, hg]) t'
  rwa [Function.update_eq_self] at this

/-- An update below a child is an update of the node. -/
theorem Node.WF.updates_below (hn : (Node.mk h st kv ch t).WF) {key : K}
    (hs : (st (h.predictSlot key)).isChild) {c : Node K V} {w : Option V}
    (hu : Updates (ch (h.predictSlot key)) c key w) :
    Updates (.mk h st kv ch t) (.mk h st kv (Function.update ch (h.predictSlot key) c) t)
      key w := by
  have := hn.updates_child hs hu.wf (fun k => by rw [slotGet_isChild hs, hu.get]) t
  rwa [Function.update_eq_self] at this

theorem get_of_isChild {key : K} (hs : (st (h.predictSlot key)).isChild) :
    (Node.mk h st kv ch t).get key = (ch (h.predictSlot key)).get key := by
  rw [get_mk, slotGet_isChild hs]

end Slot

/-! ## Rebuilds -/

theorem Config.Valid.boosted {config : Config} (hc : config.Valid) :
    ({ config with expansionFactor := min (config.expansionFactor * (3 / 2)) 4 } : Config).Valid :=
  ⟨le_min (by have := hc.expansion; linarith) (by norm_num), hc.headroom⟩

/-- **A subtree rebuild changes no lookup.** -/
theorem tryRebuildSubtree_get [LawfulKey K] {config : Config} (hc : config.Valid)
    {parent : Node K V} (hp : parent.WF) (idx : ℕ) :
    ∃ n, tryRebuildSubtree config parent idx = some n ∧ n.WF ∧ ∀ k, n.get k = parent.get k := by
  cases parent with
  | null => exact absurd hp not_wf_null
  | mk h st kv ch t =>
    rw [tryRebuildSubtree]
    by_cases hs : (st idx).isChild
    · have hch := hp.child hs
      have hrouted := fun k => hp.routed (k := k) hs
      rw [if_neg (not_not.2 hs)]
      have hbelow : ∀ k, h.predictSlot k = idx →
          (Node.mk h st kv ch t).get k = (ch idx).get k := fun k hk => by
        rw [get_mk, hk, slotGet_isChild hs]
      generalize ch idx = c at hch hrouted hbelow ⊢
      cases c with
      | null => exact absurd hch not_wf_null
      | mk h' st' kv' ch' t' =>
        dsimp only
        rw [hch.sortedPairs_eq]
        split_ifs with hlen
        · exact ⟨_, rfl, hp, fun _ => rfl⟩
        · obtain ⟨n, h₁, h₂⟩ := buildRecursive_holds hc.boosted _ _
            (by rintro he; rw [he] at hlen; exact hlen (Nat.zero_le _)) le_rfl hch.ascending
          have hget : ∀ k, n.get k = (Node.mk h' st' kv' ch' t').get k := fun k => by
            rw [h₂.get, hch.get_eq_lookup]
          have ho : SlotOk h idx (st idx) (kv idx) n :=
            .of_child hs h₂.wf (fun k hk => hrouted k (by rwa [← hget])) _
          refine ⟨_, by rw [h₁]; rfl, ?_, fun k => ?_⟩
          · have := hp.update ho t
            rwa [Function.update_eq_self, Function.update_eq_self] at this
          · have := get_update h st kv ch t idx (st idx) (kv idx) n t k
            rw [Function.update_eq_self, Function.update_eq_self] at this
            rw [this]
            split_ifs with hi
            · rw [slotGet_isChild hs, hget, hbelow k hi]
            · rfl
    · rw [if_pos hs]
      exact ⟨_, rfl, hp, fun _ => rfl⟩

theorem rebuildDeep_get [LawfulKey K] {config : Config} (hc : config.Valid) {n : Node K V}
    (hn : n.WF) (key : K) (depth : ℕ) :
    ∃ n', rebuildDeep config key n depth = some n' ∧ n'.WF ∧ ∀ k, n'.get k = n.get k := by
  rw [rebuildDeep]
  split_ifs
  · exact tryRebuildSubtree_get hc hn _
  · exact ⟨n, rfl, hn, fun _ => rfl⟩

/-! ## Insert -/

/-- The result of an insert into a tree in which `key` has the lookup `old`. -/
def insertResult (old : Option V) : InsertResult := if old.isSome then .updated else .inserted

theorem insertAt_updates [LawfulKey K] {n : Node K V} (hn : n.WF) (key : K) (value : V) :
    ∃ c, insertAt key value n = some c ∧ Updates n c.node key (some value) ∧
      c.result = insertResult (n.get key) := by
  induction hn with
  | @mk h st kv ch t head idle data child routed ih =>
    have hn : (Node.mk h st kv ch t).WF := .mk head idle data child routed
    have hsingle := buildSingleEntryChild_holds key value
    rw [insertAt]
    cases hs : st (h.predictSlot key) with
    | writing => exact absurd hs (idle _)
    | empty =>
      have := hn.updates_slot (SlotOk.of_data rfl value (ch (h.predictSlot key)))
        (w := some value) (fun k => by rw [hs]; simp [slotGet, eq_comm]) t
      rw [Function.update_eq_self] at this
      exact ⟨_, rfl, this, by rw [get_mk, hs]; rfl⟩
    | tombstone =>
      refine ⟨_, rfl, hn.updates_child rfl hsingle.wf (fun k => ?_) _, by rw [get_mk, hs]; rfl⟩
      rw [hsingle.get, lookup_cons_ite, hs]
      rfl
    | data =>
      obtain ⟨existingKey, existingValue, hkv, hp⟩ := data _ hs
      have hget : (Node.mk h st kv ch t).get key =
          if existingKey = key then some existingValue else none := by
        rw [get_mk, hs, hkv]; rfl
      rw [hkv]
      dsimp only
      by_cases he : existingKey = key
      · rw [if_pos he]
        refine ⟨_, rfl, hn.updates_child rfl hsingle.wf (fun k => ?_) _, ?_⟩
        · rw [hsingle.get, lookup_cons_ite, hs, hkv, he]
          by_cases hk : k = key
          · simp [hk]
          · simp [slotGet, hk, Ne.symm hk]
        · rw [hget, if_pos he]; rfl
      · rw [if_neg he]
        obtain ⟨c, h₁, h₂, h₃⟩ := buildConflictNode_get he existingValue value
        refine ⟨_, by rw [h₁]; rfl, hn.updates_child rfl h₂ (fun k => ?_) _, ?_⟩
        · rw [h₃, hs, hkv]
          simp [slotGet, eq_comm]
        · rw [hget, if_neg he]; rfl
    | child | childStale =>
      have hc : (st (h.predictSlot key)).isChild := by rw [hs]; rfl
      obtain ⟨c, h₁, h₂, h₃⟩ := ih _ hc
      exact ⟨_, by rw [h₁]; rfl, hn.updates_below hc h₂, by rw [get_of_isChild hc]; exact h₃⟩

/-- **An insert stores the value and reports whether the key is new.** -/
theorem insert_updates [LawfulKey K] {config : Config} (hc : config.Valid) {n : Node K V}
    (hn : n.WF) (key : K) (value : V) :
    ∃ n', insert config n key value = some (n', insertResult (n.get key)) ∧
      Updates n n' key (some value) := by
  obtain ⟨c, h₁, h₂, h₃⟩ := insertAt_updates hn key value
  rw [insert, h₁]
  simp only [Option.bind_eq_bind, Option.bind_some]
  rw [h₃]
  cases insertResult (n.get key) with
  | updated => exact ⟨_, rfl, h₂⟩
  | inserted =>
    obtain ⟨n', h₄, h₅, h₆⟩ := rebuildDeep_get hc h₂.wf key c.depth
    exact ⟨n', by rw [h₄]; rfl, h₂.trans_same h₅ h₆⟩

theorem getOrInsertAt_updates [LawfulKey K] {n : Node K V} (hn : n.WF) (key : K) (value : V) :
    ∃ c, getOrInsertAt key value n = some c ∧
      Updates n c.node key (some ((n.get key).getD value)) ∧
      c.result = ((n.get key).getD value, insertResult (n.get key)) := by
  induction hn with
  | @mk h st kv ch t head idle data child routed ih =>
    have hn : (Node.mk h st kv ch t).WF := .mk head idle data child routed
    have hsingle := buildSingleEntryChild_holds key value
    rw [getOrInsertAt]
    cases hs : st (h.predictSlot key) with
    | writing => exact absurd hs (idle _)
    | empty =>
      have := hn.updates_slot (SlotOk.of_data rfl value (ch (h.predictSlot key)))
        (w := some value) (fun k => by rw [hs]; simp [slotGet, eq_comm]) t
      rw [Function.update_eq_self] at this
      rw [get_mk, hs]
      exact ⟨_, rfl, this, rfl⟩
    | tombstone =>
      have hu : Updates (.mk h st kv ch t) _ key (some value) :=
        hn.updates_child (s := .childStale) rfl hsingle.wf (fun k => by rw [hsingle.get, lookup_cons_ite, hs]; rfl) (t - 1)
      have hval : (buildSingleEntryChild key value).get key = some value := by
        rw [hsingle.get, lookup_cons_ite, if_pos rfl]
      rw [get_mk, hs]
      exact ⟨_, by dsimp only; rw [hval]; rfl, hu, rfl⟩
    | data =>
      obtain ⟨existingKey, existingValue, hkv, hp⟩ := data _ hs
      have hget : (Node.mk h st kv ch t).get key =
          if existingKey = key then some existingValue else none := by
        rw [get_mk, hs, hkv]; rfl
      rw [hkv, hget]
      dsimp only
      by_cases he : existingKey = key
      · rw [if_pos he, if_pos he]
        exact ⟨_, rfl, Updates.of_same hn (fun _ => rfl) (by rw [hget, if_pos he]; rfl), rfl⟩
      · rw [if_neg he, if_neg he]
        obtain ⟨c, h₁, h₂, h₃⟩ := buildConflictNode_get he existingValue value
        have hval : c.get key = some value := by rw [h₃, if_pos rfl]
        have hu : Updates (.mk h st kv ch t) _ key (some value) :=
          hn.updates_child (s := .childStale) rfl h₂ (fun k => by rw [h₃, hs, hkv]; simp [slotGet, eq_comm]) t
        exact ⟨_, by rw [h₁, Option.bind_eq_bind, Option.bind_some, hval]; rfl, hu, rfl⟩
    | child | childStale =>
      have hc : (st (h.predictSlot key)).isChild := by rw [hs]; rfl
      obtain ⟨c, h₁, h₂, h₃⟩ := ih _ hc
      rw [get_of_isChild hc]
      refine ⟨_, by rw [h₁]; rfl, ?_, ?_⟩
      · exact hn.updates_below hc h₂
      · exact h₃

/-- **`get_or_insert` keeps the value of a key that is present.** -/
theorem getOrInsert_updates [LawfulKey K] {config : Config} (hc : config.Valid) {n : Node K V}
    (hn : n.WF) (key : K) (value : V) :
    ∃ n', getOrInsert config n key value =
        some (n', (n.get key).getD value, insertResult (n.get key)) ∧
      Updates n n' key (some ((n.get key).getD value)) := by
  obtain ⟨c, h₁, h₂, h₃⟩ := getOrInsertAt_updates hn key value
  rw [getOrInsert, h₁]
  simp only [Option.bind_eq_bind, Option.bind_some]
  rw [h₃]
  cases insertResult (n.get key) with
  | updated => exact ⟨_, rfl, h₂⟩
  | inserted =>
    obtain ⟨n', h₄, h₅, h₆⟩ := rebuildDeep_get hc h₂.wf key c.depth
    exact ⟨n', by rw [h₄]; rfl, h₂.trans_same h₅ h₆⟩

/-! ## Remove -/

theorem removeAt_updates [LawfulKey K] {n : Node K V} (hn : n.WF) (key : K) :
    ∃ c, removeAt key n = some c ∧ Updates n c.node key none ∧
      c.result.isSome = (n.get key).isSome := by
  induction hn with
  | @mk h st kv ch t head idle data child routed ih =>
    have hn : (Node.mk h st kv ch t).WF := .mk head idle data child routed
    rw [removeAt]
    cases hs : st (h.predictSlot key) with
    | writing => exact absurd hs (idle _)
    | empty | tombstone =>
      have hget : (Node.mk h st kv ch t).get key = none := by rw [get_mk, hs]; rfl
      exact ⟨_, rfl, Updates.of_same hn (fun _ => rfl) hget, by rw [hget]; rfl⟩
    | data =>
      obtain ⟨k, v, hkv, hp⟩ := data _ hs
      have hget : (Node.mk h st kv ch t).get key = if k = key then some v else none := by
        rw [get_mk, hs, hkv]; rfl
      rw [hkv]
      dsimp only
      by_cases he : k = key
      · rw [if_neg (not_not.2 he)]
        have ho : SlotOk h (h.predictSlot key) .tombstone (kv (h.predictSlot key))
            (ch (h.predictSlot key)) :=
          ⟨fun hi => (nomatch hi), fun hi => (nomatch hi), fun hi => (nomatch hi)⟩
        have := hn.updates_slot ho (w := none) (fun k' => by
          rw [hs, hkv, he]
          by_cases hk : k' = key
          · simp [slotGet, hk]
          · simp [slotGet, hk, Ne.symm hk]) (t + 1)
        rw [Function.update_eq_self, Function.update_eq_self] at this
        exact ⟨_, rfl, this, by rw [hget, if_pos he]; rfl⟩
      · rw [if_pos he]
        rw [if_neg he] at hget
        exact ⟨_, rfl, Updates.of_same hn (fun _ => rfl) hget, by rw [hget]; rfl⟩
    | child | childStale =>
      have hc : (st (h.predictSlot key)).isChild := by rw [hs]; rfl
      obtain ⟨c, h₁, h₂, h₃⟩ := ih _ hc
      exact ⟨_, by rw [h₁]; rfl, hn.updates_below hc h₂, by rw [get_of_isChild hc]; exact h₃⟩

/-- **A remove deletes the key and reports whether it was present.** -/
theorem remove_updates [LawfulKey K] {config : Config} (hc : config.Valid) {n : Node K V}
    (hn : n.WF) (key : K) :
    ∃ n', remove config n key = some (n', (n.get key).isSome) ∧ Updates n n' key none := by
  obtain ⟨c, h₁, h₂, h₃⟩ := removeAt_updates hn key
  rw [remove, h₁, ← h₃]
  simp only [Option.bind_eq_bind, Option.bind_some]
  cases c.result with
  | none => exact ⟨_, rfl, h₂⟩
  | some ratio =>
    dsimp only
    split_ifs
    · obtain ⟨n', h₄, h₅, h₆⟩ := tryRebuildSubtree_get hc h₂.wf (n.predictSlot key)
      exact ⟨n', by rw [h₄]; rfl, h₂.trans_same h₅ h₆⟩
    · exact ⟨_, rfl, h₂⟩

end Scry.Index
