/-
  What rebuilds cannot lose.

  A tree is sure to hold something with a property for a key (`SureTree`) if it does and
  all running rebuilds of its subtrees deliver such a thing; the map is (`SureRoot`) if
  this is so of the current root and of the running root rebuilds.  Every step keeps this
  unless it publishes or buries the key itself.
-/
import Scry.Index.Proof.Runs

namespace Scry.Index

variable {K V : Type} [LinearOrder K] [Key K] {m m' : Mem K V} {th th' : Thread K V} {k : K}
  {P : Option V → Prop}

namespace Thread

/-- The traversal of a subtree rebuild, with the root and the slot that it rebuilds. -/
def subWalker (th : Thread K V) : Option (NodeId × ℕ × Walk K V) :=
  match th.pc with
  | .subWalk _ w => th.first.map fun f => (f.1, f.2.1, w)
  | .subSwap _ pairs => th.first.map fun f => (f.1, f.2.1, ⟨[], false, pairs⟩)
  | _ => none

/-- The traversal of a root rebuild, a drain or a clear. -/
def rootWalker (th : Thread K V) : Option (Walk K V) :=
  match th.pc with
  | .rootWalk _ w => some w
  | .rootSwap _ pairs => some ⟨[], false, pairs⟩
  | _ => none

omit [LinearOrder K] [Key K] in
theorem subWalker_lock {r : NodeId} {i : ℕ} {w : Walk K V} (h : th.subWalker = some (r, i, w)) :
    th.lock = some (.edge r i) := by
  obtain ⟨call, pc, was, again, root, cur, idx, depth, first, write, reply⟩ := th
  cases pc with
  | subWalk c w =>
    obtain ⟨f, rfl, hf⟩ := Option.map_eq_some_iff.1 h
    cases hf
    rfl
  | subSwap c pairs =>
    obtain ⟨f, rfl, hf⟩ := Option.map_eq_some_iff.1 h
    cases hf
    rfl
  | _ => cases h

omit [LinearOrder K] [Key K] in
theorem rootWalker_lock {w : Walk K V} (h : th.rootWalker = some w) : th.lock = some .root := by
  obtain ⟨call, pc, was, again, root, cur, idx, depth, first, write, reply⟩ := th
  cases pc with
  | rootWalk r w => rfl
  | rootSwap r pairs => rfl
  | _ => cases h

/-- The traversal of a subtree is on nodes below the root. -/
theorem subWalker_stack (hok : th.Ok m) (hl : th.Locks m) {r : NodeId} {i : ℕ} {w : Walk K V}
    (h : th.subWalker = some (r, i, w)) : ∀ f ∈ w.stack, m.NodeWF f.1 ∧ f.1.isRoot = false := by
  obtain ⟨call, pc, was, again, root, cur, idx, depth, first, write, reply⟩ := th
  cases pc with
  | subWalk c w =>
    obtain ⟨k, hb, hw⟩ := hok
    obtain ⟨⟨p, i, c₀⟩, rfl, hf⟩ := Option.map_eq_some_iff.1 h
    cases hf
    have hd := hb.1.1.1.2.2.descent p i c₀ rfl
    obtain ⟨q, hq, hqr, -⟩ := (hd.parent ▸ hb.1.1.1.2.2.rootWF : m.NodeWF p).cell.child i hd.child
    cases (hl p i c₀ rfl).symm.trans hq
    intro f hf
    refine ⟨hw.wf f hf, ?_⟩
    rcases hw.below f hf with he | he
    · rw [he]; exact hqr
    · exact he
  | subSwap c pairs =>
    obtain ⟨f, rfl, hf⟩ := Option.map_eq_some_iff.1 h
    cases hf
    exact fun f hf => nomatch hf
  | _ => cases h

/-- The traversal of the root is on nodes of the current tree and below. -/
theorem rootWalker_stack (hok : th.Ok m) (hl : th.Locks m) {w : Walk K V}
    (h : th.rootWalker = some w) :
    ∀ f ∈ w.stack, m.NodeWF f.1 ∧ (f.1 = m.root.node ∨ f.1.isRoot = false) := by
  obtain ⟨call, pc, was, again, root, cur, idx, depth, first, write, reply⟩ := th
  cases pc with
  | rootWalk r w =>
    cases h
    have hroot : m.root = ⟨r, true⟩ := hl
    intro f hf
    refine ⟨hok.2.wf f hf, ?_⟩
    rw [hroot]
    exact hok.2.below f hf
  | rootSwap r pairs =>
    cases h
    exact fun f hf => nomatch hf
  | _ => cases h

end Thread

/-- The step changes the key only in favour of the property. -/
structure Respects (P : Option V → Prop) (m : Mem K V) (k : K) (th : Thread K V) : Prop where
  publish (v : V) : th.pc = .publish → th.call.key = some k → th.call.value = some v →
    m.Sat P k th.cur → P (some v)
  bury : th.pc = .claim → th.write = .bury → th.call = .remove k → m.Sat P k th.cur → P none

theorem Content.sat (h : Content m m' th) (hr : Respects P m k th) {n : NodeId}
    (hsw : ∀ i c₀ c pairs, th.pc = .subSwap c pairs → th.first = some (n, i, c₀) →
      (m.cells n).slotOf k = i → P (pairs.lookup k))
    (hn : m.NodeWF n) (hs : m.Sat P k n) : m'.Sat P k n := by
  cases h with
  | keeps h => exact h.sat hn hs
  | @writes k' v hk hv hpc h =>
    by_cases hkk : k = k'
    · subst hkk
      exact h.sat (hr.publish v hpc hk hv) hn hs
    · obtain ⟨o, ho, hP⟩ := hs
      exact ⟨o, h.keep hkk hn ho, hP⟩
  | @buries k' hc hpc hw h =>
    by_cases hkk : k = k'
    · subst hkk
      exact h.sat (hr.bury hpc hw hc) hn hs
    · obtain ⟨o, ho, hP⟩ := hs
      exact ⟨o, h.keep hkk hn ho, hP⟩
  | @swaps p i c₀ c pairs hpc hf hp h =>
    exact h.sat (fun hnp => by subst hnp; exact hsw i c₀ c pairs hpc hf) hn hs

namespace Sys

/-- The tree at the root is sure to hold something with the property for the key. -/
structure SureTree (P : Option V → Prop) (s : Sys K V) (k : K) (r : NodeId) : Prop where
  wf : s.mem.NodeWF r
  sat : s.mem.Sat P k r
  walks {t : ℕ} {th : Thread K V} {i : ℕ} {w : Walk K V} : s.threads t = some th →
    th.subWalker = some (r, i, w) → (s.mem.cells r).slotOf k = i → Delivers P s.mem k w

/-- The map is sure to hold something with the property for the key. -/
structure SureRoot (P : Option V → Prop) (s : Sys K V) (k : K) : Prop where
  tree : SureTree P s k s.mem.root.node
  walks {t : ℕ} {th : Thread K V} {w : Walk K V} : s.threads t = some th →
    th.rootWalker = some w → Delivers P s.mem k w

variable {s s' : Sys K V} {t : ℕ} {r : NodeId} {next : Next K V}

/-! ## How a tree becomes sure -/

/-- **The slot of the key has no child**, so that no rebuild is at work there. -/
theorem SureTree.of_leaf (hinv : s.Inv) (hr : s.mem.NodeWF r)
    (hs : ((s.mem.cells r).slots ((s.mem.cells r).slotOf k)).isChild = false)
    (hsat : s.mem.Sat P k r) : SureTree P s k r where
  wf := hr
  sat := hsat
  walks {t th i w} hth hw hi := by
    have hp : (Lock.edge r i).Placed s.mem := (hinv.ok hth).placed (Thread.subWalker_lock hw)
    rw [← hi, Lock.Placed, hs] at hp
    cases hp.2

/-- **The first descent is still in place**, so that no rebuild is at work there. -/
theorem SureTree.of_child (hinv : s.Inv) (hr : s.mem.NodeWF r) {i : ℕ} {c d : NodeId}
    (hd : Descent s.mem r d k r i c) (hc : (s.mem.cells r).children i = some ⟨c, false⟩)
    (hsat : s.mem.Sat P k d) : SureTree P s k r where
  wf := hr
  sat := by
    rw [Mem.sat_child (p := ⟨c, false⟩) (by rw [hd.slot]; exact hd.child) (by rw [hd.slot]; exact hc)]
    exact hd.leads.sat.2 hsat
  walks {t th j w} hth hw hj := by
    have hf : (Lock.edge r j).Free s.mem := fun c' hc' => by
      rw [← hj, hd.slot, hc] at hc'
      cases hc'
    exact absurd hf ((hinv.locks hth).not_free (Thread.subWalker_lock hw))

/-- **The root is current and not frozen.** -/
theorem SureTree.root (hinv : s.Inv) (h : SureTree P s k r) (hr : s.mem.root = ⟨r, false⟩) :
    SureRoot P s k where
  tree := by rw [hr]; exact h
  walks {t th w} hth hw := by
    have hf : Lock.root.Free s.mem := by rw [Lock.Free, hr]
    exact absurd hf ((hinv.locks hth).not_free (Thread.rootWalker_lock hw))

theorem SureTree.imp {Q : Option V → Prop} (h : SureTree P s k r) (hPQ : ∀ o, P o → Q o) :
    SureTree Q s k r where
  wf := h.wf
  sat := h.sat.imp hPQ
  walks hth hw hi := (h.walks hth hw hi).imp hPQ

theorem SureRoot.imp {Q : Option V → Prop} (h : SureRoot P s k) (hPQ : ∀ o, P o → Q o) :
    SureRoot Q s k where
  tree := h.tree.imp hPQ
  walks hth hw := (h.walks hth hw).imp hPQ

/-- What two properties of a sure tree have in common. -/
theorem SureTree.unique {o o' : Option V} (h : SureTree (· = o) s k r)
    (h' : SureTree (· = o') s k r) : o = o' := by
  obtain ⟨_, h₁, rfl⟩ := h.sat
  obtain ⟨_, h₂, rfl⟩ := h'.sat
  exact h₁.unique h₂

/-! ## What a step keeps -/

/-- A node below the roots goes on to hold what it did. -/
theorem Inv.sat_below (hinv : s.Inv) (hth : s.threads t = some th) (hc : Content s.mem m' th)
    (hr : Respects P s.mem k th) {n : NodeId} (hn : s.mem.NodeWF n) (hnr : n.isRoot = false)
    (hs : s.mem.Sat P k n) : m'.Sat P k n := by
  refine hc.sat hr (fun i c₀ c pairs hpc hf hi => ?_) hn hs
  have hok := hinv.ok hth
  simp only [Thread.Ok, hpc] at hok
  obtain ⟨k', ⟨⟨⟨hat, -⟩, -⟩, -⟩, -⟩ := hok
  have hroot : n.isRoot = true := (hat.2.2.descent n i c₀ hf).parent ▸ hat.2.2.isRoot
  rw [hroot] at hnr
  cases hnr

/-- The nodes that a sure tree is about go on to hold what they did. -/
theorem SureTree.sat_step (hinv : s.Inv) (h : SureTree P s k r) (hth : s.threads t = some th)
    (hc : Content s.mem m' th) (hr : Respects P s.mem k th) {n : NodeId} (hn : s.mem.NodeWF n)
    (hnr : n = r ∨ n.isRoot = false) (hs : s.mem.Sat P k n) : m'.Sat P k n := by
  rcases hnr with rfl | hnr
  · refine hc.sat hr (fun i c₀ c pairs hpc hf hi => ?_) hn hs
    -- the pairs are those of a rebuild of the tree itself
    have hw : th.subWalker = some (n, i, ⟨[], false, pairs⟩) := by
      rw [Thread.subWalker, hpc, hf]
      rfl
    exact (h.walks hth hw hi).done rfl
  · exact hinv.sat_below hth hc hr hn hnr hs

/-- **A step keeps a tree sure.** -/
theorem SureTree.step [LawfulKey K] (hinv : s.Inv) (h : SureTree P s k r)
    (hth : s.threads t = some th) (hstep : th.step s.config s.mem = some (m', next))
    (hr : Respects P s.mem k th) : SureTree P (s.proceed t th.call m' next) k r := by
  have hc := (step_effect hinv.headroom (hinv.ok hth) (hinv.locks hth) hstep).content
    (hinv.ok hth) (hinv.locks hth)
  have hev := hc.evolves
  have hsat : ∀ {n : NodeId}, s.mem.NodeWF n → n = r ∨ n.isRoot = false → s.mem.Sat P k n →
      m'.Sat P k n := fun hn hnr hs => h.sat_step hinv hth hc hr hn hnr hs
  refine ⟨?_, ?_, fun {t' th' i w} h' hw hi => ?_⟩
  · rw [proceed_mem]
    exact hev.wf r h.wf
  · rw [proceed_mem]
    exact hsat h.wf (Or.inl rfl) h.sat
  rw [proceed_mem] at hi ⊢
  rw [hev.slotOf h.wf.alloc] at hi
  by_cases ht : t' = t
  · -- the traversal of the operation itself
    subst ht
    have hnext := step_next hinv.headroom hinv.root (hinv.ok hth) (hinv.locks hth) hstep
    rw [proceed_threads_self h'] at hnext
    have hok := hinv.ok hth
    cases hnext.owns with
    | none hl => cases (Thread.subWalker_lock hw).symm.trans hl
    | @freeze p j c₀ c hpc hf hp hn =>
      subst hn
      have hpj : p = r ∧ j = i ∧ .start c = w := by
        obtain ⟨f, hf', he⟩ := Option.map_eq_some_iff.1 hw
        cases hf.symm.trans hf'
        cases he
        exact ⟨rfl, rfl, rfl⟩
      obtain ⟨rfl, rfl, rfl⟩ := hpj
      simp only [Thread.Ok, hpc] at hok
      obtain ⟨k', ⟨⟨hat, -⟩, -⟩⟩ := hok
      have hd := hat.2.2.descent p j c₀ hf
      have hch := hd.child
      obtain ⟨q, hq, hqr, -⟩ := h.wf.cell.child j hch
      obtain rfl := Option.some.inj (hp.symm.trans hq)
      have hcwf : s.mem.NodeWF c := h.wf.ofChild hch hp
      have hroot : p.isRoot = true := hd.parent ▸ hat.2.2.isRoot
      have hsc : s.mem.Sat P k c := by
        rw [← hi] at hch hp
        exact (Mem.sat_child hch hp).1 h.sat
      refine .start (hsat hcwf (Or.inr hqr) hsc) ?_
      rw [hev.routes hcwf.alloc]
      exact (h.wf.routes_child hch hp k).2 ⟨Cell.routes_root h.wf hroot k, hi⟩
    | @walk c w₀ w' hpc hm hw' hn =>
      subst hm hn
      simp only [Thread.Ok, hpc] at hok
      obtain ⟨k', -, hwok⟩ := hok
      obtain ⟨f, hf, he⟩ := Option.map_eq_some_iff.1 hw
      have hold : th.subWalker = some (r, i, w₀) := by
        rw [Thread.subWalker, hpc, Option.map_eq_some_iff]
        exact ⟨f, hf, by cases he; rfl⟩
      cases he
      exact (h.walks hth hold hi).step hwok hw'
    | @walked c w₀ hpc hm hw' hn =>
      subst hm hn
      obtain ⟨f, hf, he⟩ := Option.map_eq_some_iff.1 hw
      have hold : th.subWalker = some (r, i, w₀) := by
        rw [Thread.subWalker, hpc, Option.map_eq_some_iff]
        exact ⟨f, hf, by cases he; rfl⟩
      cases he
      exact .of_lookup ((h.walks hth hold hi).done (Walk.stack_of_done hw'))
    | claim _ _ hn => subst hn; cases hw
    | freezeRoot _ _ hn => subst hn; cases hw
    | walkRoot _ _ _ hn => subst hn; cases hw
    | walkedRoot _ _ _ hn => subst hn; cases hw
  · rw [proceed_threads_of_ne ht] at h'
    have hst := Thread.subWalker_stack (hinv.ok h') (hinv.locks h') hw
    exact (h.walks h' hw hi).mono (fun f hf => (hst f hf).1) hev fun f hf hs =>
      hsat (hst f hf).1 (Or.inr (hst f hf).2) hs

/-- **A step that keeps the root keeps the map sure.** -/
theorem SureRoot.step_same [LawfulKey K] (hinv : s.Inv) (h : SureRoot P s k)
    (hth : s.threads t = some th) (hstep : th.step s.config s.mem = some (m', next))
    (hr : Respects P s.mem k th) (hroot : m'.root.node = s.mem.root.node) :
    SureRoot P (s.proceed t th.call m' next) k := by
  have hc := (step_effect hinv.headroom (hinv.ok hth) (hinv.locks hth) hstep).content
    (hinv.ok hth) (hinv.locks hth)
  have hev := hc.evolves
  have hsat : ∀ {n : NodeId}, s.mem.NodeWF n → n = s.mem.root.node ∨ n.isRoot = false →
      s.mem.Sat P k n → m'.Sat P k n :=
    fun hn hnr hs => h.tree.sat_step hinv hth hc hr hn hnr hs
  refine ⟨?_, fun {t' th' w} h' hw => ?_⟩
  · rw [proceed_mem, hroot]
    exact h.tree.step hinv hth hstep hr
  rw [proceed_mem]
  by_cases ht : t' = t
  · subst ht
    have hnext := step_next hinv.headroom hinv.root (hinv.ok hth) (hinv.locks hth) hstep
    rw [proceed_threads_self h'] at hnext
    have hok := hinv.ok hth
    cases hnext.owns with
    | none hl => cases (Thread.rootWalker_lock hw).symm.trans hl
    | @freezeRoot r hpc hroot' hn =>
      subst hn
      cases hw
      have hnode : s.mem.root.node = r := by rw [hroot']
      rw [← hnode]
      exact .start (hsat hinv.root.1 (Or.inl rfl) h.tree.sat)
        (Cell.routes_root (hev.wf _ hinv.root.1) hinv.root.2 k)
    | @walkRoot r w₀ w' hpc hm hw' hn =>
      subst hm hn
      cases hw
      simp only [Thread.Ok, hpc] at hok
      exact (h.walks (w := w₀) hth (by rw [Thread.rootWalker, hpc])).step hok.2 hw'
    | @walkedRoot r w₀ hpc hm hw' hn =>
      subst hm hn
      cases hw
      exact .of_lookup ((h.walks (w := w₀) hth (by rw [Thread.rootWalker, hpc])).done
        (Walk.stack_of_done hw'))
    | claim _ _ hn => subst hn; cases hw
    | freeze _ _ _ hn => subst hn; cases hw
    | walk _ _ _ hn => subst hn; cases hw
    | walked _ _ _ hn => subst hn; cases hw
  · rw [proceed_threads_of_ne ht] at h'
    have hst := Thread.rootWalker_stack (hinv.ok h') (hinv.locks h') hw
    exact (h.walks h' hw).mono (fun f hf => (hst f hf).1) hev fun f hf hs =>
      hsat (hst f hf).1 (hst f hf).2 hs

/-- The roots that operations are at are in memory. -/
theorem Inv.subWalker_alloc (hinv : s.Inv) (hth : s.threads t = some th) {i : ℕ} {w : Walk K V}
    (hw : th.subWalker = some (r, i, w)) : r.alloc < s.mem.next :=
  ((hinv.ok hth).placed (Thread.subWalker_lock hw)).1

/-- What an operation on the root has collected, the map is sure of. -/
theorem SureRoot.collected (h : SureRoot P s k) (hth : s.threads t = some th)
    {pairs : List (K × V)} (hpc : th.pc = .rootSwap r pairs) : P (pairs.lookup k) :=
  (h.walks (w := ⟨[], false, pairs⟩) hth (by rw [Thread.rootWalker, hpc])).done rfl

/-- **A new root**: no rebuild is at work on it yet. -/
theorem sureRoot_of_swap [LawfulKey K] (hinv : s.Inv) (hth : s.threads t = some th)
    {pairs l : List (K × V)} {tree : Node K V} (hpc : th.pc = .rootSwap r pairs)
    (hstep : th.step s.config s.mem = some (s.mem.placeRoot tree, next)) (ht : tree.Holds l)
    (hP : P (l.lookup k)) : SureRoot P (s.proceed t th.call (s.mem.placeRoot tree) next) k := by
  obtain ⟨-, hwf, hholds⟩ := Mem.placeRoot_spec (m := s.mem) ht.wf
  have hnext := step_next hinv.headroom hinv.root (hinv.ok hth) (hinv.locks hth) hstep
  have hlock : th.lock = some .root := by rw [Thread.lock, hpc]
  -- the operation itself owns nothing any more
  have hself : ∀ {th' : Thread K V} {l : Lock},
      (s.proceed t th.call (s.mem.placeRoot tree) next).threads t = some th' →
      th'.lock ≠ some l := by
    intro th' l h' hl
    rw [proceed_threads_self h'] at hnext
    cases hnext.owns with
    | none h => cases h.symm.trans hl
    | claim h | freeze h | walk h | walked h | freezeRoot h | walkRoot h | walkedRoot h =>
      cases hpc.symm.trans h
  refine ⟨⟨?_, ?_, fun {t' th' i w} h' hw _ => ?_⟩, fun {t' th' w} h' hw => ?_⟩
  · rw [proceed_mem]
    exact hwf
  · rw [proceed_mem]
    exact ⟨_, hholds k, by rw [ht.get]; exact hP⟩
  · by_cases he : t' = t
    · subst he
      exact absurd (Thread.subWalker_lock hw) (hself h')
    · rw [proceed_threads_of_ne he] at h'
      rw [proceed_mem] at hw
      exact absurd (hinv.subWalker_alloc h' hw) (lt_irrefl _)
  · by_cases he : t' = t
    · subst he
      exact absurd (Thread.rootWalker_lock hw) (hself h')
    · rw [proceed_threads_of_ne he] at h'
      exact absurd (hinv.excl h' hth (Thread.rootWalker_lock hw) hlock) he

/-- **A step keeps the map sure**, unless it swaps in an empty root. -/
theorem SureRoot.step [LawfulKey K] (hinv : s.Inv) (h : SureRoot P s k)
    (hth : s.threads t = some th) (hstep : th.step s.config s.mem = some (m', next))
    (hr : Respects P s.mem k th)
    (hempty : ∀ r pairs, th.pc = .rootSwap r pairs → th.call = .drain ∨ th.call = .clear → P none) :
    SureRoot P (s.proceed t th.call m' next) k := by
  have he := step_effect hinv.headroom (hinv.ok hth) (hinv.locks hth) hstep
  cases he with
  | @swapRoot r pairs tree hpc hroot hd hcl ht =>
    exact sureRoot_of_swap hinv hth hpc hstep ht (h.collected hth hpc)
  | @swapEmpty r pairs hpc hroot hcall =>
    exact sureRoot_of_swap hinv hth hpc hstep emptyRoot_holds (hempty r pairs hpc hcall)
  | quiet _ _ _ hroot => exact h.step_same hinv hth hstep hr (by rw [hroot])
  | freezeRoot _ hroot => exact h.step_same hinv hth hstep hr (by rw [hroot])
  | unfreezeRoot _ hroot => exact h.step_same hinv hth hstep hr (by rw [hroot])
  | _ => exact h.step_same hinv hth hstep hr rfl

/-- A map that no thread uses yet. -/
theorem SureRoot.init [LawfulKey K] {config : Config} (hc : config.Valid) {map : LearnedMap K V}
    {pairs : List (K × V)} (hs : Starts config map pairs) (hP : P (pairs.lookup k)) :
    SureRoot P (Sys.init map) k := by
  obtain ⟨m, rfl, hr⟩ := hs.refines hc
  obtain ⟨-, hwf, hholds⟩ := Mem.placeRoot_spec (m := ⟨fun _ => .blank, 0, ⟨⟨true, 0, []⟩, false⟩,
    map.len, map.nextRootRebuild⟩) hr.wf
  refine ⟨⟨hwf, ⟨_, hholds k, ?_⟩, fun h => nomatch h⟩, fun h => nomatch h⟩
  rw [hr.get]
  exact hP

/-- An invocation changes nothing. -/
theorem SureTree.invoke {call : Call K V} (h : SureTree P s k r) (hs : s.invoke t call = some s') :
    SureTree P s' k r := by
  obtain ⟨-, rfl⟩ := invoke_eq_some hs
  refine ⟨h.wf, h.sat, fun {t' th i w} hth hw => ?_⟩
  by_cases ht : t' = t
  · subst ht
    cases (Function.update_self _ _ _).symm.trans hth
    cases call <;> cases hw
  · exact h.walks ((Function.update_of_ne ht _ _).symm.trans hth) hw

theorem SureRoot.invoke {call : Call K V} (h : SureRoot P s k) (hs : s.invoke t call = some s') :
    SureRoot P s' k := by
  obtain ⟨-, rfl⟩ := invoke_eq_some hs
  refine ⟨h.tree.invoke hs, fun {t' th w} hth hw => ?_⟩
  by_cases ht : t' = t
  · subst ht
    cases (Function.update_self _ _ _).symm.trans hth
    cases call <;> cases hw
  · exact h.walks ((Function.update_of_ne ht _ _).symm.trans hth) hw

end Sys

end Scry.Index
