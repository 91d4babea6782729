/-
  Sorted maps — association lists with strictly ascending keys.

  `SortedMap K V` carries its order as a field.  It is the reference map of the
  development: `BTreeMap` is modelled by it, and the learned index and the LSM
  engine are compared with it.  Two sorted maps with the same lookups are equal
  (`SortedMap.ext_get`), so every operation is specified by `get`.
-/
import Mathlib

namespace Scry

variable {K V : Type*} [LinearOrder K]

/-- Strictly ascending keys. -/
def Ascending (l : List (K × V)) : Prop := l.Pairwise fun a b => a.1 < b.1

theorem ascending_nil : Ascending ([] : List (K × V)) := List.Pairwise.nil

theorem ascending_cons {a : K × V} {l : List (K × V)} :
    Ascending (a :: l) ↔ (∀ b ∈ l, a.1 < b.1) ∧ Ascending l := List.pairwise_cons

theorem ascending_append {l₁ l₂ : List (K × V)} :
    Ascending (l₁ ++ l₂) ↔ Ascending l₁ ∧ Ascending l₂ ∧ ∀ a ∈ l₁, ∀ b ∈ l₂, a.1 < b.1 :=
  List.pairwise_append

theorem Ascending.sublist {l l' : List (K × V)} (h : Ascending l) (hs : l'.Sublist l) :
    Ascending l' := List.Pairwise.sublist hs h

theorem Ascending.le_getLast {l : List (K × V)} {a : K × V} (hl : Ascending (l ++ [a])) {b : K × V}
    (hb : b ∈ l ++ [a]) : b.1 ≤ a.1 := by
  rcases List.mem_append.1 hb with hb | hb
  · exact ((ascending_append.1 hl).2.2 b hb a List.mem_cons_self).le
  · rw [List.mem_singleton.1 hb]

theorem Ascending.head_le {l : List (K × V)} {a : K × V} (hl : Ascending (a :: l)) {b : K × V}
    (hb : b ∈ a :: l) : a.1 ≤ b.1 := by
  rcases List.mem_cons.1 hb with rfl | hb
  · exact le_rfl
  · exact ((ascending_cons.1 hl).1 b hb).le

instance (l : List (K × V)) : Decidable (Ascending l) :=
  inferInstanceAs (Decidable (l.Pairwise _))

/-! ## Lookups in association lists -/

theorem lookup_cons_ite (a : K) (b : V) (l : List (K × V)) (k : K) :
    ((a, b) :: l).lookup k = if k = a then some b else l.lookup k := by
  by_cases h : k = a
  · subst h; simp
  · rw [List.lookup_cons, beq_false_of_ne h, if_neg h]

theorem lookup_isSome_iff {l : List (K × V)} {k : K} :
    (l.lookup k).isSome ↔ k ∈ l.map Prod.fst := by
  induction l with
  | nil => simp
  | cons a l ih =>
    obtain ⟨k', v'⟩ := a
    rw [lookup_cons_ite, List.map_cons, List.mem_cons, ← ih]
    split_ifs with h <;> simp [h]

theorem lookup_eq_none {l : List (K × V)} {k : K} : l.lookup k = none ↔ k ∉ l.map Prod.fst := by
  rw [← lookup_isSome_iff, ← Option.not_isSome_iff_eq_none]

theorem mem_of_lookup {l : List (K × V)} {k : K} {v : V} (h : l.lookup k = some v) :
    (k, v) ∈ l := by
  induction l with
  | nil => simp at h
  | cons a l ih =>
    obtain ⟨k', v'⟩ := a
    rw [lookup_cons_ite] at h
    split_ifs at h with hk
    · cases h; simp [hk]
    · exact List.mem_cons_of_mem _ (ih h)

/-- In an ascending list a key has at most one value. -/
theorem Ascending.lookup_iff {l : List (K × V)} (hl : Ascending l) {k : K} {v : V} :
    l.lookup k = some v ↔ (k, v) ∈ l := by
  refine ⟨mem_of_lookup, fun h => ?_⟩
  induction l with
  | nil => simp at h
  | cons a l ih =>
    obtain ⟨hlt, hl⟩ := ascending_cons.1 hl
    rcases List.mem_cons.1 h with rfl | h
    · simp
    · rw [← Prod.mk.eta (p := a), lookup_cons_ite, if_neg (hlt _ h).ne']
      exact ih hl h

theorem lookup_append {l₁ l₂ : List (K × V)} {k : K} :
    (l₁ ++ l₂).lookup k = (l₁.lookup k).or (l₂.lookup k) := List.lookup_append

/-- A key below every key of the list is absent. -/
theorem lookup_of_lt {l : List (K × V)} {k : K} (h : ∀ a ∈ l, k < a.1) : l.lookup k = none := by
  rw [lookup_eq_none]
  rintro hm
  obtain ⟨a, ha, rfl⟩ := List.mem_map.1 hm
  exact lt_irrefl _ (h a ha)

/-- **Ascending lists are determined by their lookups.** -/
theorem Ascending.eq_of_lookup {l l' : List (K × V)} (hl : Ascending l) (hl' : Ascending l')
    (h : ∀ k, l.lookup k = l'.lookup k) : l = l' := by
  have hmem : ∀ a, a ∈ l ↔ a ∈ l' := fun a => by
    rw [← Prod.mk.eta (p := a), ← hl.lookup_iff, ← hl'.lookup_iff, h]
  have hnd : l.Nodup := hl.imp fun h he => by rw [he] at h; exact lt_irrefl _ h
  have hnd' : l'.Nodup := hl'.imp fun h he => by rw [he] at h; exact lt_irrefl _ h
  exact ((List.perm_ext_iff_of_nodup hnd hnd').2 hmem).eq_of_pairwise
    (fun a b _ _ h₁ h₂ => absurd (lt_trans h₁ h₂) (lt_irrefl _)) hl hl'

/-! ## Sorted maps -/

/-- A finite map with ordered keys, as `BTreeMap` lists it. -/
structure SortedMap (K V : Type*) [LinearOrder K] where
  toList : List (K × V)
  ascending : Ascending toList

namespace SortedMap

/-- The empty map. -/
def empty : SortedMap K V := ⟨[], ascending_nil⟩

/-- The value of a key. -/
def get (m : SortedMap K V) (k : K) : Option V := m.toList.lookup k

/-- Insert into an ascending list, replacing the value of an equal key. -/
def insertList (k : K) (v : V) : List (K × V) → List (K × V)
  | [] => [(k, v)]
  | (k', v') :: l =>
    if k < k' then (k, v) :: (k', v') :: l
    else if k = k' then (k, v) :: l
    else (k', v') :: insertList k v l

theorem mem_insertList {k : K} {v : V} {a : K × V} :
    ∀ {l : List (K × V)}, a ∈ insertList k v l → a = (k, v) ∨ a ∈ l
  | [], h => by simpa [insertList] using h
  | (k', v') :: l, h => by
    unfold insertList at h
    split_ifs at h with h₁ h₂
    · simpa using h
    · rcases List.mem_cons.1 h with h | h
      · exact Or.inl h
      · exact Or.inr (List.mem_cons_of_mem _ h)
    · rcases List.mem_cons.1 h with rfl | h
      · exact Or.inr List.mem_cons_self
      · exact (mem_insertList h).imp id (List.mem_cons_of_mem _)

theorem insertList_ascending (k : K) (v : V) :
    ∀ {l : List (K × V)}, Ascending l → Ascending (insertList k v l)
  | [], _ => List.pairwise_singleton _ _
  | (k', v') :: l, h => by
    obtain ⟨hlt, hl⟩ := ascending_cons.1 h
    unfold insertList
    split_ifs with h₁ h₂
    · refine ascending_cons.2 ⟨fun b hb => ?_, h⟩
      rcases List.mem_cons.1 hb with rfl | hb
      · exact h₁
      · exact h₁.trans (hlt b hb)
    · subst h₂; exact ascending_cons.2 ⟨hlt, hl⟩
    · refine ascending_cons.2 ⟨fun b hb => ?_, insertList_ascending k v hl⟩
      rcases mem_insertList hb with rfl | hb
      · exact lt_of_le_of_ne (not_lt.1 h₁) (Ne.symm h₂)
      · exact hlt b hb

theorem lookup_insertList (k : K) (v : V) (k₀ : K) :
    ∀ {l : List (K × V)}, Ascending l →
      (insertList k v l).lookup k₀ = if k₀ = k then some v else l.lookup k₀
  | [], _ => by
    rw [insertList, lookup_cons_ite]
  | (k', v') :: l, hl => by
    have ih := lookup_insertList k v k₀ (ascending_cons.1 hl).2
    unfold insertList
    by_cases h₁ : k < k'
    · rw [if_pos h₁, lookup_cons_ite]
    · rw [if_neg h₁]
      by_cases h₂ : k = k'
      · rw [if_pos h₂, lookup_cons_ite, lookup_cons_ite, h₂]
        split_ifs <;> rfl
      · rw [if_neg h₂, lookup_cons_ite, lookup_cons_ite, ih]
        by_cases h₃ : k₀ = k'
        · rw [if_pos h₃, if_neg (by rw [h₃]; exact fun h => h₂ h.symm), if_pos h₃]
        · rw [if_neg h₃, if_neg h₃]

/-- Insert or overwrite. -/
def insert (m : SortedMap K V) (k : K) (v : V) : SortedMap K V :=
  ⟨insertList k v m.toList, insertList_ascending k v m.ascending⟩

/-- Remove a key. -/
def erase (m : SortedMap K V) (k : K) : SortedMap K V :=
  ⟨m.toList.filter fun a => a.1 ≠ k, m.ascending.sublist List.filter_sublist⟩

/-- The number of keys. -/
def len (m : SortedMap K V) : ℕ := m.toList.length

@[simp] theorem get_empty (k : K) : (empty : SortedMap K V).get k = none := rfl

@[simp] theorem get_insert (m : SortedMap K V) (k : K) (v : V) (k₀ : K) :
    (m.insert k v).get k₀ = if k₀ = k then some v else m.get k₀ :=
  lookup_insertList k v k₀ m.ascending

@[simp] theorem get_erase (m : SortedMap K V) (k k₀ : K) :
    (m.erase k).get k₀ = if k₀ = k then none else m.get k₀ := by
  obtain ⟨l, hl⟩ := m
  ext v
  simp only [get, erase, (hl.sublist List.filter_sublist).lookup_iff, List.mem_filter]
  split_ifs with h
  · simp [h]
  · simp [h, hl.lookup_iff]

/-- **Sorted maps are determined by their lookups.** -/
theorem ext_get {m m' : SortedMap K V} (h : ∀ k, m.get k = m'.get k) : m = m' := by
  obtain ⟨l, hl⟩ := m
  obtain ⟨l', hl'⟩ := m'
  have : l = l' := hl.eq_of_lookup hl' h
  subst this; rfl

/-! ## Sizes -/

theorem length_insertList (k : K) (v : V) :
    ∀ {l : List (K × V)}, Ascending l →
      (insertList k v l).length = if (l.lookup k).isSome then l.length else l.length + 1
  | [], _ => rfl
  | (k', v') :: l, hl => by
    have ih := length_insertList k v (ascending_cons.1 hl).2
    unfold insertList
    by_cases h₁ : k < k'
    · have habs : ((k', v') :: l).lookup k = none :=
        lookup_of_lt fun a ha => h₁.trans_le (hl.head_le ha)
      rw [if_pos h₁, habs]
      rfl
    · rw [if_neg h₁, lookup_cons_ite]
      split_ifs with h₂ h₃ h₃
      · rfl
      · exact absurd rfl h₃
      all_goals
        rw [List.length_cons, ih]
        simp_all

theorem len_insert (m : SortedMap K V) (k : K) (v : V) :
    (m.insert k v).len = if (m.get k).isSome then m.len else m.len + 1 :=
  length_insertList k v m.ascending

theorem erase_of_get_eq_none {m : SortedMap K V} {k : K} (h : m.get k = none) : m.erase k = m := by
  refine ext_get fun k₀ => ?_
  rw [get_erase]
  split_ifs with he
  · rw [he, h]
  · rfl

theorem insert_of_get_eq_some {m : SortedMap K V} {k : K} {v : V} (h : m.get k = some v) :
    m.insert k v = m := by
  refine ext_get fun k₀ => ?_
  rw [get_insert]
  split_ifs with he
  · rw [he, h]
  · rfl

theorem len_erase (m : SortedMap K V) (k : K) :
    (m.erase k).len = if (m.get k).isSome then m.len - 1 else m.len := by
  cases h : m.get k with
  | none => rw [erase_of_get_eq_none h]; rfl
  | some v =>
    -- inserting the key again gives back the map
    have hback : (m.erase k).insert k v = m := by
      refine ext_get fun k₀ => ?_
      rw [get_insert, get_erase]
      split_ifs with he
      · rw [he, h]
      · rfl
    have hlen := len_insert (m.erase k) k v
    rw [hback, get_erase, if_pos rfl] at hlen
    simp only [Option.isSome_none, Option.isSome_some, if_true, Bool.false_eq_true, if_false]
      at hlen ⊢
    omega

/-- The keys that the map holds. -/
theorem exists_finset (m : SortedMap K V) :
    ∃ B : Finset K, B.card = m.len ∧ ∀ k, k ∈ B ↔ (m.get k).isSome := by
  have hnodup : (m.toList.map Prod.fst).Nodup :=
    List.pairwise_map.2 (m.ascending.imp fun h => h.ne)
  refine ⟨(m.toList.map Prod.fst).toFinset, ?_, fun k => ?_⟩
  · rw [List.toFinset_card_of_nodup hnodup, List.length_map]
    rfl
  · rw [List.mem_toFinset, ← lookup_isSome_iff]
    rfl

/-- **A sorted map with given lookups**, if they are those of finitely many keys. -/
theorem exists_of_finset (B : Finset K) :
    ∀ o : K → Option V, (∀ k, k ∈ B ↔ (o k).isSome) →
      ∃ m : SortedMap K V, (∀ k, m.get k = o k) ∧ m.len = B.card := by
  induction B using Finset.induction_on with
  | empty =>
    intro o ho
    refine ⟨empty, fun k => ?_, rfl⟩
    rw [get_empty, eq_comm, ← Option.not_isSome_iff_eq_none, ← ho]
    exact Finset.notMem_empty k
  | insert a B ha ih =>
    intro o ho
    obtain ⟨v, hv⟩ := Option.isSome_iff_exists.1 ((ho a).1 (Finset.mem_insert_self a B))
    obtain ⟨m, hget, hlen⟩ := ih (Function.update o a none) fun k => by
      by_cases hk : k = a
      · subst hk
        simpa using ha
      · rw [Function.update_of_ne hk, ← ho, Finset.mem_insert, or_iff_right hk]
    refine ⟨m.insert a v, fun k => ?_, ?_⟩
    · rw [get_insert, hget]
      split_ifs with hk
      · rw [hk, hv]
      · exact Function.update_of_ne hk _ _
    · rw [len_insert, hget, Function.update_self, hlen, Finset.card_insert_of_notMem ha]
      rfl

end SortedMap

end Scry
