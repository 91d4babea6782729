/-
  What a step changes of a key.

  What a tree holds of a key stands at the end of the path of the key (`Mem.Path`).  A
  step changes what is held of a key at one node (`Effect.alters`), and so in the trees
  in which the path of the key comes through that node, and in no others
  (`Mem.Sets.of_path`, `Mem.Sets.of_not_path`).
-/
import Scry.Index.Proof.Step

namespace Scry.Index

variable {K V : Type} [LinearOrder K] [Key K] {m m' : Mem K V} {th : Thread K V} {k : K}
  {n x : NodeId} {o : Option V}

/-! ## Paths -/

namespace Mem

/-- The path of the key leads from one node to another. -/
inductive Path (m : Mem K V) (k : K) : NodeId → NodeId → Prop
  | refl (n : NodeId) : Path m k n n
  | child {n x : NodeId} {p : Ptr} (hs : ((m.cells n).slots ((m.cells n).slotOf k)).isChild)
      (hp : (m.cells n).children ((m.cells n).slotOf k) = some p) (hx : Path m k p.node x) :
      Path m k n x

/-- The path goes down. -/
theorem Path.route_le (h : m.Path k n x) (hn : m.NodeWF n) :
    (m.cells n).route.length ≤ (m.cells x).route.length := by
  induction h with
  | refl => exact le_rfl
  | @child n x p hs hp _ ih =>
    obtain ⟨q, hq, -, hr⟩ := hn.cell.child _ hs
    cases hp.symm.trans hq
    have := ih (hn.ofChild hs hp)
    rw [hr, List.length_append] at this
    exact (Nat.le_add_right _ _).trans this

/-- It does not come back. -/
theorem NodeWF.not_path_child (hn : m.NodeWF n) {i : ℕ} {p : Ptr}
    (hs : ((m.cells n).slots i).isChild) (hp : (m.cells n).children i = some p) :
    ¬ m.Path k p.node n := by
  intro h
  obtain ⟨q, hq, -, hr⟩ := hn.cell.child i hs
  cases hp.symm.trans hq
  have hle := h.route_le (hn.ofChild hs hp)
  rw [hr, List.length_append, List.length_singleton] at hle
  exact absurd hle (Nat.not_succ_le_self _)

/-! ## One node -/

/-- Of the nodes in use only `x` is changed, which then holds `o` for the key. -/
structure Sets (m m' : Mem K V) (k : K) (x : NodeId) (o : Option V) : Prop where
  other (n : NodeId) : n.alloc < m.next → n ≠ x → m'.cells n = m.cells n
  self : m'.Holds k x o

namespace Sets

theorem of_path (h : Sets m m' k x o) (hn : m.NodeWF n) (hp : m.Path k n x) : m'.Holds k n o := by
  induction hp with
  | refl => exact h.self
  | @child n x p hs hc hx ih =>
    have hne : n ≠ x := by
      rintro rfl
      exact hn.not_path_child hs hc hx
    have hsame := h.other n hn.alloc hne
    refine .child (p := p) ?_ ?_ (ih h (hn.ofChild hs hc))
    · rw [hsame]
      exact hs
    · rw [hsame]
      exact hc

theorem of_not_path (h : Sets m m' k x o) (hn : m.NodeWF n) (hp : ¬ m.Path k n x) {o' : Option V}
    (ho : m.Holds k n o') : m'.Holds k n o' := by
  induction ho with
  | @leaf n hl =>
    have hsame := h.other n hn.alloc fun he => hp (he ▸ .refl n)
    rw [← hsame] at hl ⊢
    exact .leaf hl
  | @child n p o' hs hc ho ih =>
    have hsame := h.other n hn.alloc fun he => hp (he ▸ .refl n)
    refine .child (p := p) ?_ ?_ (ih (hn.ofChild hs hc) fun hx => hp (.child hs hc hx))
    · rw [hsame]
      exact hs
    · rw [hsame]
      exact hc

end Sets

end Mem

/-! ## Steps -/

/-- The next step may change what is held of the key at the node: it writes the pair of
    the key, or swaps in a rebuilt child that holds something else of the key. -/
inductive Thread.Alters (m : Mem K V) (th : Thread K V) (k : K) : NodeId → Prop
  | write (hw : th.Writes m) (hk : th.call.key = some k) : Alters m th k th.cur
  | swap {p : NodeId} {i : ℕ} {c₀ c : NodeId} {pairs : List (K × V)}
      (hpc : th.pc = .subSwap c pairs) (hf : th.first = some (p, i, c₀)) (hlen : 1 < pairs.length)
      (hs : (m.cells p).slotOf k = i) (hl : ¬ m.Holds k p (pairs.lookup k)) : Alters m th k p

/-- The next step swaps in a new root. -/
def Thread.ReplacesRoot (th : Thread K V) : Prop :=
  ∃ r pairs, th.pc = .rootSwap r pairs ∧ (pairs ≠ [] ∨ th.call = .drain ∨ th.call = .clear)

/-- **A step changes what is held of a key at one node, or nothing of it.** -/
theorem Effect.alters (he : Effect m th m') (hok : th.Ok m) (hl : th.Locks m) (k : K) :
    (∀ {n o}, m.NodeWF n → m.Holds k n o → m'.Holds k n o) ∨
      ∃ x o, th.Alters m k x ∧ m.Sets m' k x o := by
  cases he.content hok hl with
  | keeps h => exact Or.inl h.holds
  | @writes key v hk hv hpc h =>
    by_cases hkey : k = key
    · subst hkey
      exact Or.inr ⟨th.cur, _, .write (Or.inl hpc) hk, h.other, h.self⟩
    · exact Or.inl (h.keep hkey)
  | @buries key hc hpc hw h hs =>
    by_cases hkey : k = key
    · subst hkey
      exact Or.inr ⟨th.cur, _, .write (Or.inr ⟨hpc, hw, hs⟩) (by rw [hc]; rfl), h.other, h.self⟩
    · exact Or.inl (h.keep hkey)
  | @swaps p i c₀ c pairs hpc hf hp h hlen =>
    by_cases hs : (m.cells p).slotOf k = i
    · by_cases hh : m.Holds k p (pairs.lookup k)
      · -- the rebuilt child holds what the old one does
        refine Or.inl fun {n o} hn ho => ?_
        obtain ⟨o', ho', rfl⟩ := h.sat (P := (· = o)) (fun he _ => by
          subst he
          exact hh.unique ho) hn ⟨o, ho, rfl⟩
        exact ho'
      · exact Or.inr ⟨p, _, .swap hpc hf hlen hs hh, h.other, h.holds hs⟩
    · refine Or.inl fun {n o} hn ho => ?_
      obtain ⟨o', ho', rfl⟩ := h.sat (P := (· = o)) (fun _ hi => absurd hi hs) hn ⟨o, ho, rfl⟩
      exact ho'

theorem Effect.root_node (he : Effect m th m') (hr : ¬ th.ReplacesRoot) :
    m'.root.node = m.root.node := by
  cases he with
  | quiet _ _ _ hroot => rw [hroot]
  | freezeRoot _ hroot => rw [hroot]
  | unfreezeRoot _ hroot => rw [hroot]
  | swapRoot hpc _ _ _ _ hne => exact absurd ⟨_, _, hpc, Or.inl hne⟩ hr
  | swapEmpty hpc _ hcall => exact absurd ⟨_, _, hpc, Or.inr hcall⟩ hr
  | _ => rfl

end Scry.Index
