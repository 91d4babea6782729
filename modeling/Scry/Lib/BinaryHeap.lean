/-
  Binary heaps — `std::collections::BinaryHeap` by its documented behaviour.

  A heap is the collection of its elements; `pop` removes one that is greatest
  for `compare`.  Which of several equal elements is removed is left to the
  order of the list; `pop_perm` and `pop_max` are all that callers use.
-/
import Mathlib

namespace Scry

variable {α : Type*} [Ord α]

/-- A max-heap. -/
structure BinaryHeap (α : Type*) where
  elems : List α

namespace BinaryHeap

def new : BinaryHeap α := ⟨[]⟩

def push (h : BinaryHeap α) (a : α) : BinaryHeap α := ⟨a :: h.elems⟩

/-- A greatest element of a list and the remaining elements. -/
def popList : List α → Option (α × List α)
  | [] => none
  | a :: l =>
    match popList l with
    | none => some (a, [])
    | some (m, rest) =>
      if compare a m = .lt then some (m, a :: rest) else some (a, m :: rest)

/-- Remove a greatest element. -/
def pop (h : BinaryHeap α) : Option (α × BinaryHeap α) :=
  (popList h.elems).map fun p => (p.1, ⟨p.2⟩)

theorem popList_perm : ∀ {l : List α} {m : α} {rest : List α},
    popList l = some (m, rest) → (m :: rest).Perm l
  | a :: l, m, rest, h => by
    unfold popList at h
    split at h
    · rename_i hn
      cases l with
      | nil => simp at h; rw [h.1, h.2]
      | cons b l =>
        unfold popList at hn
        split at hn
        · simp at hn
        · split_ifs at hn
    · rename_i m' rest' hs
      have ih := popList_perm hs
      split_ifs at h <;> (simp only [Option.some.injEq, Prod.mk.injEq] at h; obtain ⟨rfl, rfl⟩ := h)
      · exact (List.Perm.swap _ _ _).trans (ih.cons _)
      · exact ih.cons _

theorem popList_max [Std.TransOrd α] : ∀ {l : List α} {m : α} {rest : List α},
    popList l = some (m, rest) → ∀ a ∈ rest, (compare a m).isLE
  | a :: l, m, rest, h => by
    unfold popList at h
    split at h
    · simp only [Option.some.injEq, Prod.mk.injEq] at h
      obtain ⟨rfl, rfl⟩ := h
      simp
    · rename_i m' rest' hs
      have ih := popList_max hs
      split_ifs at h with hlt <;>
        (simp only [Option.some.injEq, Prod.mk.injEq] at h; obtain ⟨rfl, rfl⟩ := h)
      · intro b hb
        rcases List.mem_cons.1 hb with rfl | hb
        · rw [hlt]; rfl
        · exact ih b hb
      · have hle : (compare m' a).isLE := by
          rw [Std.OrientedOrd.eq_swap, Ordering.isLE_swap, Ordering.isGE_iff_ne_lt]
          exact hlt
        intro b hb
        rcases List.mem_cons.1 hb with rfl | hb
        · exact hle
        · exact Std.TransOrd.isLE_trans (ih b hb) hle

theorem pop_perm {h h' : BinaryHeap α} {m : α} (hp : h.pop = some (m, h')) :
    (m :: h'.elems).Perm h.elems := by
  obtain ⟨⟨m', rest⟩, hl, he⟩ := Option.map_eq_some_iff.1 hp
  cases he
  exact popList_perm hl

/-- **The popped element is greatest.** -/
theorem pop_max [Std.TransOrd α] {h h' : BinaryHeap α} {m : α} (hp : h.pop = some (m, h')) :
    ∀ a ∈ h'.elems, (compare a m).isLE := by
  obtain ⟨⟨m', rest⟩, hl, he⟩ := Option.map_eq_some_iff.1 hp
  cases he
  exact popList_max hl

theorem pop_eq_none {h : BinaryHeap α} (hp : h.pop = none) : h.elems = [] := by
  obtain ⟨l⟩ := h
  cases l with
  | nil => rfl
  | cons a l =>
    simp only [pop, popList, Option.map_eq_none_iff] at hp
    split at hp
    · simp at hp
    · split_ifs at hp

end BinaryHeap

end Scry
