/-
  What a lookup finds.

  A lookup that is at a node which holds its key goes on to nodes that do (`Finds`), under
  all changes by others that keep the key, and also in a tree that was replaced.  It
  misses the key only if it loads the state of a slot while an update of another key, or
  of this one, has claimed it (`loadsPublished`), or if a rebuild has passed the key
  before an insert that is still in flight stored it (`CarriesOver`).
-/
import Scry.Index.Proof.Kept

namespace Scry.Index

variable {K V : Type} [LinearOrder K] [Key K] {m m' : Mem K V} {th th' : Thread K V} {k : K}
  {P Q : Option V → Prop} {next : Next K V} {n : NodeId}

/-! ## Two properties at once -/

theorem Mem.Sat.and (h : m.Sat P k n) (h' : m.Sat Q k n) : m.Sat (fun o => P o ∧ Q o) k n := by
  obtain ⟨o, ho, hP⟩ := h
  obtain ⟨o', ho', hQ⟩ := h'
  exact ⟨o, ho, hP, ho.unique ho' ▸ hQ⟩

theorem Delivers.and {w : Walk K V} (h : Delivers P m k w) (h' : Delivers Q m k w) :
    Delivers (fun o => P o ∧ Q o) m k w where
  found v hv := ⟨h.found v hv, h'.found v hv⟩
  ahead f hf hr hs := (h.ahead f hf hr hs).and (h'.ahead f hf hr hs)
  missed hk hp := ⟨h.missed hk hp, h'.missed hk hp⟩

namespace Sys
variable {s s' : Sys K V} {t t' : ℕ}

theorem SureRoot.and (h : SureRoot P s k) (h' : SureRoot Q s k) :
    SureRoot (fun o => P o ∧ Q o) s k where
  tree :=
    { wf := h.tree.wf
      sat := h.tree.sat.and h'.tree.sat
      walks := fun hth hw hi => (h.tree.walks hth hw hi).and (h'.tree.walks hth hw hi) }
  walks hth hw := (h.walks hth hw).and (h'.walks hth hw)

end Sys

/-! ## The steps of a lookup -/

/-- **What the slot of a lookup leads to**: its child, what the node holds, or, while the slot
    is claimed, nothing. -/
theorem lookSlot_finds (th : Thread K V) (k : K) (hn : m.NodeWF n) :
    (lookSlot m th n k = th.goto (.lookChild n) ∧
      ((m.cells n).slots ((m.cells n).slotOf k)).isChild) ∨
    (∃ o, lookSlot m th n k = th.found o ∧ m.Holds k n o) ∨
    (lookSlot m th n k = th.found none ∧
      (m.cells n).state ((m.cells n).slotOf k) = .writing) := by
  by_cases hcl : (m.cells n).claimed ((m.cells n).slotOf k) = true
  · have hst := Cell.state_of_claimed hcl
    refine Or.inr (Or.inr ⟨?_, hst⟩)
    have hst : (m.cells n).state ((m.cells n).head.predictSlot k) = .writing := hst
    simp only [lookSlot, hst]
  · by_cases hc : ((m.cells n).slots ((m.cells n).slotOf k)).isChild
    · exact Or.inl ⟨lookSlot_child (by simpa using hcl) hc, hc⟩
    · have hc : ((m.cells n).slots ((m.cells n).slotOf k)).isChild = false := by simpa using hc
      exact Or.inr (Or.inl ⟨_, lookSlot_leaf hn (fun h => absurd h hcl) hc, .leaf hc⟩)

/-- A call that leaves the key in the map. -/
def Call.Spares (k : K) (c : Call K V) : Prop := c ≠ .remove k ∧ c ≠ .drain ∧ c ≠ .clear

/-- It looks for the key, and its next step loads the state of a slot that is claimed. -/
def Thread.loadsClaimed (m : Mem K V) (th : Thread K V) (k : K) : Bool :=
  match th.pc with
  | .look n => th.call.key = some k && (m.cells n).state ((m.cells n).slotOf k) = .writing
  | _ => false

namespace Sys
variable {s s' : Sys K V} {t t' : ℕ} {newer older : List (Event K V)}

/-- Every running rebuild whose result will take the place of the key delivers the key. -/
structure CarriesOver (s : Sys K V) (k : K) : Prop where
  root {t : ℕ} {th : Thread K V} {w : Walk K V} : s.threads t = some th →
    th.rootWalker = some w → Delivers (· ≠ none) s.mem k w
  sub {t : ℕ} {th : Thread K V} {i : ℕ} {w : Walk K V} : s.threads t = some th →
    th.subWalker = some (s.mem.root.node, i, w) →
    (s.mem.cells s.mem.root.node).slotOf k = i → Delivers (· ≠ none) s.mem k w

/-- A lookup of the key loads no slot state while the slot is claimed. -/
def loadsPublished (k : K) (s : Sys K V) : Act K V → Bool
  | .step t => ((s.threads t).map fun th => th.loadsClaimed s.mem k) != some true
  | .call _ _ => true

/-- The same for the lookups of one thread. -/
def loadsPublishedOn (t : ℕ) (k : K) (s : Sys K V) (a : Act K V) : Bool :=
  match a with
  | .step t' => t' != t || loadsPublished k s a
  | .call _ _ => true

/-- What the node holds of the key has the property, also after the rebuilds of its
    subtrees. -/
def FindsAt (P : Option V → Prop) (s : Sys K V) (k : K) (n : NodeId) : Prop :=
  s.mem.Sat P k n ∧ (n.isRoot = true → SureTree P s k n)

theorem FindsAt.imp (h : FindsAt P s k n) (hPQ : ∀ y, P y → Q y) : FindsAt Q s k n :=
  ⟨h.1.imp hPQ, fun hr => (h.2 hr).imp hPQ⟩

theorem FindsAt.invoke {call : Call K V} (h : FindsAt P s k n) (hs : s.invoke t call = some s') :
    FindsAt P s' k n := by
  have hm : s'.mem = s.mem := by
    obtain ⟨-, rfl⟩ := invoke_eq_some hs
    rfl
  exact ⟨hm ▸ h.1, fun hr => (h.2 hr).invoke hs⟩

/-- What the node holds, its child holds in the slot of the key. -/
theorem FindsAt.child (h : FindsAt P s k n)
    (hs : ((s.mem.cells n).slots ((s.mem.cells n).slotOf k)).isChild) {p : Ptr}
    (hp : (s.mem.cells n).children ((s.mem.cells n).slotOf k) = some p)
    (hpr : p.node.isRoot = false) : FindsAt P s k p.node :=
  ⟨(Mem.sat_child hs hp).1 h.1, fun hr => by cases hpr.symm.trans hr⟩

theorem SureRoot.findsAt (h : SureRoot P s k) : FindsAt P s k s.mem.root.node :=
  ⟨h.tree.sat, fun _ => h.tree⟩

/-- **A step keeps what a node holds** if it changes the key only in favour of the property. -/
theorem FindsAt.step [LawfulKey K] (hinv : s.Inv) (h : FindsAt P s k n) (hn : s.mem.NodeWF n)
    (hth : s.threads t = some th) (hr : th.Writes s.mem → Respects P s.mem k th)
    (hstep : th.step s.config s.mem = some (m', next)) :
    FindsAt P (s.proceed t th.call m' next) k n := by
  have hc := (step_effect hinv.headroom (hinv.ok hth) (hinv.locks hth) hstep).content
    (hinv.ok hth) (hinv.locks hth)
  have hresp : Respects P s.mem k th → FindsAt P (s.proceed t th.call m' next) k n := by
    intro hr
    refine ⟨?_, fun hroot => (h.2 hroot).step hinv hth hstep hr⟩
    rw [proceed_mem]
    by_cases hroot : n.isRoot = true
    · exact (h.2 hroot).sat_step hinv hth hc hr hn (Or.inl rfl) h.1
    · exact hinv.sat_below hth hc hr hn (by simpa using hroot) h.1
  by_cases hw : th.Writes s.mem
  · exact hresp (hr hw)
  · rcases respects_of_not_writes (k := k) hw hstep with ⟨-, rfl, rfl⟩ | hr'
    · refine ⟨?_, fun hroot => (h.2 hroot).goto rfl _⟩
      rw [proceed_mem]
      exact h.1
    · exact hresp (hr' P)

/-- Where a lookup of the key is, the tree is sure of it. -/
def Finds (P : Option V → Prop) (s : Sys K V) (k : K) (th : Thread K V) : Prop :=
  match th.pc with
  | .loadRoot => True
  | .look n => s.mem.Sat P k n ∧ (n.isRoot = true → SureTree P s k n)
  | .lookChild n => s.mem.Sat P k n ∧ (n.isRoot = true → SureTree P s k n)
  | _ => False

theorem Finds.imp (h : Finds P s k th) (hPQ : ∀ y, P y → Q y) : Finds Q s k th := by
  obtain ⟨call, pc, was, again, root, cur, idx, depth, first, write, reply⟩ := th
  cases pc with
  | loadRoot => trivial
  | look n => exact FindsAt.imp h hPQ
  | lookChild n => exact FindsAt.imp h hPQ
  | _ => exact h

theorem Finds.invoke {call : Call K V} (h : Finds P s k th) (hs : s.invoke t call = some s') :
    Finds P s' k th := by
  obtain ⟨call, pc, was, again, root, cur, idx, depth, first, write, reply⟩ := th
  cases pc with
  | loadRoot => trivial
  | look n => exact FindsAt.invoke h hs
  | lookChild n => exact FindsAt.invoke h hs
  | _ => exact h

/-- **Steps of other operations** do not mislead a lookup. -/
theorem Finds.other [LawfulKey K] (hinv : s.Inv) (h : Finds P s k th')
    (hth' : s.threads t' = some th') (hth : s.threads t = some th)
    (hr : th.Writes s.mem → Respects P s.mem k th)
    (hstep : th.step s.config s.mem = some (m', next)) :
    Finds P (s.proceed t th.call m' next) k th' := by
  have hok := hinv.ok hth'
  obtain ⟨call, pc, was, again, root, cur, idx, depth, first, write, reply⟩ := th'
  cases pc with
  | loadRoot => trivial
  | look n =>
    obtain ⟨k', -, hn, -⟩ := hok
    exact FindsAt.step hinv h hn hth hr hstep
  | lookChild n =>
    obtain ⟨k', ⟨-, hn, -⟩, -⟩ := hok
    exact FindsAt.step hinv h hn hth hr hstep
  | _ => exact h

/-- **A step of a lookup**: it goes on to where the key is, or returns what the map is sure of,
    or nothing from a slot that is claimed. -/
theorem Finds.own [LawfulKey K] (hinv : s.Inv) (h : Finds P s k th) (hsure : SureRoot P s k)
    (hth : s.threads t = some th) (hcall : th.call = .get k)
    (hclaimed : th.loadsClaimed s.mem k = true → P none)
    (hstep : th.step s.config s.mem = some (m', next)) :
    (∃ th', next = .goto th' ∧ Finds P (s.proceed t th.call m' next) k th') ∨
      ∃ o, next = .ret (.option o) ∧ P o := by
  have hr : Respects P s.mem k th := by
    refine respects_of_pc (fun hpc => ?_) fun hpc => ?_ <;> simp only [Finds, hpc] at h
  have hat : ∀ {n : NodeId}, FindsAt P s k n → s.mem.NodeWF n →
      FindsAt P (s.proceed t th.call m' next) k n := fun h hn =>
    h.step hinv hn hth (fun _ => hr) hstep
  have hok := hinv.ok hth
  cases hpc : th.pc <;> simp only [Finds, hpc] at h <;> simp only [Thread.Ok, hpc] at hok <;>
    simp only [Thread.step, hpc] at hstep
  case loadRoot =>
    obtain ⟨rfl, rfl⟩ := Prod.mk.inj (Option.some.inj hstep)
    simp only [stepLoadRoot, hcall] at hat ⊢
    exact Or.inl ⟨_, rfl, hat hsure.findsAt hinv.root.1⟩
  case look n =>
    obtain ⟨k', -, hn, -⟩ := hok
    obtain ⟨n', hl, hm⟩ := Option.map_eq_some_iff.1 hstep
    cases hm
    simp only [stepLook, hcall, Option.some.injEq] at hl
    rcases lookSlot_finds th k hn with ⟨he, -⟩ | ⟨o, he, ho⟩ | ⟨he, hst⟩
    · obtain rfl := he.symm.trans hl
      exact Or.inl ⟨_, rfl, hat h hn⟩
    · rw [he] at hl
      simp only [Thread.found, hcall] at hl
      obtain ⟨o', ho', hP⟩ := h.1
      exact Or.inr ⟨o, hl.symm, ho.unique ho' ▸ hP⟩
    · rw [he] at hl
      simp only [Thread.found, hcall] at hl
      refine Or.inr ⟨none, hl.symm, hclaimed ?_⟩
      simp [Thread.loadsClaimed, hpc, hcall, Call.key, hst]
  case lookChild n =>
    obtain ⟨k', ⟨hkey, hn, -⟩, hch⟩ := hok
    obtain rfl : k = k' := by
      rw [hcall] at hkey
      exact Option.some.inj hkey
    obtain ⟨n', hl, hm⟩ := Option.map_eq_some_iff.1 hstep
    cases hm
    obtain ⟨p, hp, hpr, -⟩ := hn.cell.child _ hch
    have hp' : (s.mem.cells n).children ((s.mem.cells n).head.predictSlot k) = some p := hp
    simp only [stepLookChild, hcall, lookChild, hp', Option.some.injEq] at hl
    exact Or.inl ⟨_, hl.symm, hat (FindsAt.child h hch hp hpr) (hn.ofChild hch hp)⟩

/-! ## Runs -/

/-- The schedule calls the operation. -/
def Called (sched : List (Act K V)) (c : Call K V) : Prop := ∃ t, .call t c ∈ sched

/-- The map was built with the value, or an operation that is called stores it. -/
def Supplied (pairs : List (K × V)) (sched : List (Act K V)) (k : K) (v : V) : Prop :=
  pairs.lookup k = some v ∨ ∃ c, Called sched c ∧ c.key = some k ∧ c.value = some v

/-- What a value that an operation stores fulfils, and the absence of the key as well. -/
theorem SureRoot.act [LawfulKey K] {C : Call K V → Prop} {a : Act K V} (hinv : s.Inv)
    (hrunning : ∀ t th, s.threads t = some th → C th.call)
    (hP : ∀ c v, C c → c.key = some k → c.value = some v → P (some v))
    (hnone : ∀ c, C c → c = .remove k ∨ c = .drain ∨ c = .clear → P none) (h : SureRoot P s k)
    (ha : s.act a = some s') : SureRoot P s' k := by
  cases a with
  | call t c => exact h.invoke ha
  | step t =>
    obtain ⟨th, m', next, hth, hstep, rfl⟩ := step_eq_some ha
    have hC := hrunning t th hth
    refine h.step hinv hth hstep ?_ fun _ _ _ hc => hnone _ hC (Or.inr hc)
    exact ⟨fun v _ hk hv _ => hP _ v hC hk hv, fun _ _ hc _ => hnone _ hC (Or.inl hc)⟩

/-- All values of the key are supplied. -/
theorem sureRoot_supplied [LawfulKey K] {config : Config} (hc : config.Valid)
    {map : LearnedMap K V} {pairs : List (K × V)} (hs : Starts config map pairs)
    {sched₀ sched : List (Act K V)} (hsub : ∀ a ∈ sched₀, a ∈ sched)
    (hrun : (Sys.init map).run sched₀ = some s) :
    SureRoot (fun o => ∀ v, o = some v → Supplied pairs sched k v) s k := by
  refine (Run.run_induct (C := fun _ a => a ∈ sched₀) (I := fun s => s.Inv ∧
    Calls (Called sched) s ∧ SureRoot (fun o => ∀ v, o = some v → Supplied pairs sched k v) s k)
    (fun {s a s'} h ha hact => ?_) ⟨.init hc hs, .init map, .init hc hs fun v hv => Or.inl hv⟩
    (Run.Meets.mem sched₀) hrun).2.2
  obtain ⟨hinv, hcalls, hsure⟩ := h
  refine ⟨hinv.act hact, hcalls.act hinv (fun t c he => ⟨t, he ▸ hsub a ha⟩) hact,
    hsure.act hinv (fun _ _ => hcalls.running) ?_ ?_ hact⟩
  · intro c v hcalled hk hv v' he
    cases he
    exact Or.inr ⟨c, hcalled, hk, hv⟩
  · intro c _ _ v he
    cases he

/-- While lookups of the key run on the thread `t`: the map is sure of the key, the
    lookups are where it is, and those that have returned have found it. -/
structure Finding (P : Option V → Prop) (k : K) (t : ℕ) (older : List (Event K V)) (s : Sys K V) :
    Prop where
  sure : SureRoot P s k
  running {th : Thread K V} : s.threads t = some th → th.call = .get k → Finds P s k th
  returned : ∃ newer, s.history = newer ++ older ∧
    ∀ reply, .ret t (.get k) reply ∈ newer → ∃ o, reply = .option o ∧ P o

theorem Finding.invoke {call : Call K V} (h : Finding P k t older s)
    (hs : s.invoke t' call = some s') : Finding P k t older s' := by
  obtain ⟨newer, hh, hret⟩ := h.returned
  have hfinds : ∀ {th}, Finds P s k th → Finds P s' k th := fun hf => hf.invoke hs
  have hsure := h.sure.invoke hs
  obtain ⟨-, rfl⟩ := invoke_eq_some hs
  refine ⟨hsure, fun {th} hth hc => ?_, .inv t' call :: newer, ?_, fun reply hr => ?_⟩
  · by_cases ht : t = t'
    · subst ht
      cases (Function.update_self _ _ _).symm.trans hth
      rw [show call = .get k from hc]
      trivial
    · exact hfinds (h.running ((Function.update_of_ne ht _ _).symm.trans hth) hc)
  · rw [List.cons_append, ← hh]
  · rcases List.mem_cons.1 hr with hr | hr
    · cases hr
    · exact hret reply hr

theorem Finding.step [LawfulKey K] {C : Call K V → Prop} (hinv : s.Inv)
    (hrunning : ∀ t th, s.threads t = some th → C th.call)
    (hPC : ∀ c v, C c → c.key = some k → c.value = some v → P (some v))
    (hC : ∀ c, C c → c.Spares k) (h : Finding P k t older s)
    (hpub : loadsPublishedOn t k s (.step t') = true) (hs : s.step t' = some s') :
    Finding P k t older s' := by
  have hsure : SureRoot P s' k := by
    refine h.sure.act (a := .step t') hinv hrunning hPC (fun c hc hce => ?_) hs
    obtain ⟨h₁, h₂, h₃⟩ := hC c hc
    rcases hce with he | he | he
    · exact absurd he h₁
    · exact absurd he h₂
    · exact absurd he h₃
  obtain ⟨newer, hh, hret⟩ := h.returned
  obtain ⟨th, m', next, hth, hstep, rfl⟩ := step_eq_some hs
  have hCth := hrunning _ _ hth
  have hr : Respects P s.mem k th :=
    ⟨fun v _ hk hv _ => hPC _ v hCth hk hv, fun _ _ hc _ => absurd hc (hC _ hCth).1⟩
  have hnext := step_next hinv.headroom hinv.root (hinv.ok hth) (hinv.locks hth) hstep
  -- the step of a lookup of the thread itself
  have hown : t = t' → th.call = .get k →
      (∃ th', next = .goto th' ∧ Finds P (s.proceed t' th.call m' next) k th') ∨
        ∃ o, next = .ret (.option o) ∧ P o := by
    intro ht hc
    subst ht
    refine (h.running hth hc).own hinv h.sure hth hc (fun hcl => ?_) hstep
    simp [loadsPublishedOn, loadsPublished, hth, hcl] at hpub
  refine ⟨hsure, fun {th'} hth' hc => ?_, events t' th.call next ++ newer, ?_, fun reply hr => ?_⟩
  · by_cases ht : t = t'
    · subst ht
      cases proceed_threads_self hth'
      rcases hown rfl (hnext.call.symm.trans hc) with ⟨th₁, he, hf⟩ | ⟨o, he, -⟩
      · cases he
        exact hf
      · cases he
    · rw [proceed_threads_of_ne ht] at hth'
      exact (h.running hth' hc).other hinv hth' hth (fun _ => hr) hstep
  · rw [proceed_history, List.append_assoc, ← hh]
  · rcases List.mem_append.1 hr with hr | hr
    · cases next with
      | goto => cases hr
      | ret reply' =>
        obtain ⟨rfl, hc, rfl⟩ := Event.ret.inj (List.mem_singleton.1 hr)
        rcases hown rfl hc.symm with ⟨th', he, -⟩ | ⟨o, he, ho⟩
        · cases he
        · cases he
          exact ⟨o, rfl, ho⟩
    · exact hret reply hr

theorem Finding.run [LawfulKey K] {C : Call K V → Prop} {sched : List (Act K V)} (hinv : s.Inv)
    (hrunning : ∀ t th, s.threads t = some th → C th.call)
    (hsched : ∀ t c, .call t c ∈ sched → C c)
    (hPC : ∀ c v, C c → c.key = some k → c.value = some v → P (some v))
    (hC : ∀ c, C c → c.Spares k) (h : Finding P k t older s)
    (hmeets : Run.Meets act (fun s a => loadsPublishedOn t k s a = true) s sched)
    (hrun : s.run sched = some s') : Finding P k t older s' := by
  refine (Run.run_induct (I := fun s => s.Inv ∧ (∀ t th, s.threads t = some th → C th.call) ∧
    Finding P k t older s) (fun {s a s'} h ha hact => ?_) ⟨hinv, hrunning, h⟩
    (hmeets.and (Run.Meets.mem sched)) hrun).2.2
  obtain ⟨hinv, hrunning, hf⟩ := h
  refine ⟨hinv.act hact, running_act hinv hrunning (fun t c he => hsched t c (he ▸ ha.2)) hact, ?_⟩
  cases a with
  | call t' c => exact hf.invoke hact
  | step t' => exact hf.step hinv hrunning hPC hC ha.1 hact

omit [Key K] in
/-- A lookup supplies nothing. -/
theorem Supplied.of_append {pairs : List (K × V)} {as bs : List (Act K V)} {v : V}
    (h : Supplied pairs (as ++ .call t (.get k) :: bs) k v) : Supplied pairs (as ++ bs) k v := by
  rcases h with hp | ⟨c, ⟨t', hm⟩, hk, hv⟩
  · exact Or.inl hp
  · refine Or.inr ⟨c, ⟨t', ?_⟩, hk, hv⟩
    rcases List.mem_append.1 hm with hm | hm
    · exact List.mem_append_left _ hm
    · rcases List.mem_cons.1 hm with he | hm
      · cases he
        cases hv
      · exact List.mem_append_right _ hm

/-- A lookup of a key finds it, if the map is sure that it holds the key. -/
theorem getFinds_of_sure [LawfulKey K] {config : Config} (hc : config.Valid)
    {map : LearnedMap K V} {pairs : List (K × V)} (hs : Starts config map pairs)
    {sched₀ sched : List (Act K V)} {s₀ : Sys K V} (h₀ : (Sys.init map).run sched₀ = some s₀)
    (hsure₀ : SureRoot (· ≠ none) s₀ k)
    (hspares₀ : ∀ t th, s₀.threads t = some th → th.call.Spares k)
    (hspares : ∀ t c, .call t c ∈ sched → c.Spares k)
    (hrun : s₀.run (.call t (.get k) :: sched) = some s)
    (hmeets : Run.Meets act (fun s a => loadsPublishedOn t k s a = true) s₀
      (.call t (.get k) :: sched))
    (hh : s.history = newer ++ s₀.history) {reply : Reply K V}
    (hret : .ret t (.get k) reply ∈ newer) :
    ∃ v, reply = .option (some v) ∧ Supplied pairs (sched₀ ++ sched) k v := by
  have hinv₀ := (Inv.init hc hs).run h₀
  generalize hfull : sched₀ ++ .call t (.get k) :: sched = full
  have hsub : ∀ a ∈ sched₀, a ∈ full := fun a ha => hfull ▸ List.mem_append_left _ ha
  have hcalls := (Calls.init (C := Called full) map).run (.init hc hs)
    (fun t' c hm => ⟨t', hsub _ hm⟩) h₀
  have hsure : SureRoot (fun o => o ≠ none ∧ ∀ v, o = some v → Supplied pairs full k v) s₀ k :=
    hsure₀.and (sureRoot_supplied hc hs hsub h₀)
  have hnone : s₀.threads t = none := by
    rw [run_cons, Option.bind_eq_some_iff] at hrun
    obtain ⟨s₁, h₁, -⟩ := hrun
    exact (invoke_eq_some h₁).1
  have hstart : Finding (fun o => o ≠ none ∧ ∀ v, o = some v → Supplied pairs full k v) k t
      s₀.history s₀ :=
    ⟨hsure, fun hth => absurd (hnone.symm.trans hth) (by rintro ⟨⟩), [], rfl,
      fun _ h => absurd h List.not_mem_nil⟩
  have hend := Finding.run (C := fun c => c.Spares k ∧ Called full c) hinv₀
    (fun t' th hth => ⟨hspares₀ t' th hth, hcalls.running hth⟩) (fun t' c hm => ⟨?_, t', ?_⟩) ?_
    (fun c h => h.1) hstart hmeets hrun
  · obtain ⟨newer', hh', hfound⟩ := hend.returned
    obtain rfl := List.append_cancel_right (hh.symm.trans hh')
    obtain ⟨o, hreply, hne, ho⟩ := hfound reply hret
    obtain ⟨v, rfl⟩ := Option.ne_none_iff_exists'.1 hne
    exact ⟨v, hreply, (hfull ▸ ho v rfl).of_append⟩
  · rcases List.mem_cons.1 hm with he | hm
    · cases he
      exact ⟨by rintro ⟨⟩, by rintro ⟨⟩, by rintro ⟨⟩⟩
    · exact hspares t' c hm
  · exact hfull ▸ List.mem_append_right _ hm
  · rintro c v ⟨-, hcalled⟩ hk hv
    refine ⟨Option.some_ne_none v, ?_⟩
    rintro v' ⟨⟩
    exact Or.inr ⟨c, hcalled, hk, hv⟩

/-- **A lookup of a key that stays in the map finds it**, if it loads no slot that is
    claimed and the running rebuilds carry the key over. -/
theorem run_getFinds [LawfulKey K] {config : Config} (hc : config.Valid) {map : LearnedMap K V}
    {pairs : List (K × V)} (hs : Starts config map pairs) {sched₀ sched : List (Act K V)}
    {s₀ : Sys K V} (h₀ : (Sys.init map).run sched₀ = some s₀)
    (hin : s₀.mem.Sat (· ≠ none) k s₀.mem.root.node) (hcarries : s₀.CarriesOver k)
    (hspares₀ : ∀ t th, s₀.threads t = some th → th.call.Spares k)
    (hspares : ∀ t c, .call t c ∈ sched → c.Spares k)
    (hrun : s₀.run (.call t (.get k) :: sched) = some s)
    (hmeets : Run.Meets act (fun s a => loadsPublishedOn t k s a = true) s₀
      (.call t (.get k) :: sched))
    (hh : s.history = newer ++ s₀.history) {reply : Reply K V}
    (hret : .ret t (.get k) reply ∈ newer) :
    ∃ v, reply = .option (some v) ∧ Supplied pairs (sched₀ ++ sched) k v :=
  getFinds_of_sure hc hs h₀
    ⟨⟨((Inv.init hc hs).run h₀).root.1, hin, hcarries.sub⟩, hcarries.root⟩ hspares₀ hspares hrun
    hmeets hh hret

/-- What the root holds of the key, if it has no child in the slot of the key. -/
def inRoot (s : Sys K V) (k : K) : Option V :=
  let c := s.mem.cells s.mem.root.node
  if (c.slots (c.slotOf k)).isChild then none else c.leafGet (c.slotOf k) k

theorem inRoot_sat {v : V} (h : s.inRoot k = some v) :
    s.mem.Sat (· ≠ none) k s.mem.root.node := by
  unfold inRoot at h
  dsimp only at h
  split_ifs at h with hc
  exact (Mem.sat_leaf (by simpa using hc)).2 (by rw [h]; exact Option.some_ne_none v)

/-- One thread inserts a key. -/
def insertAlone (k : K) (v : V) : List (Act K V) :=
  .call 0 (.insert k v) :: List.replicate 8 (.step 0)

/-- A lookup that is at the root while an insert attaches a child to the slot of the key. -/
def getDuringConflict (k' : K) (v' : V) : List (Act K V) :=
  .call 0 (.insert k' v') :: .step 1 :: List.replicate 4 (Act.step 0) ++ List.replicate 3 (Act.step 1)

theorem run_getFinds_duringConflict : ∃ (reply : Reply (Fin (2 ^ 8)) ℕ) (v : ℕ),
    reply = .option (some v) ∧ Supplied [] (insertAlone ⟨100, by decide⟩ 1 ++
      getDuringConflict ⟨101, by decide⟩ 2) (⟨100, by decide⟩ : Fin (2 ^ 8)) v := by
  have := lawfulKey_unsigned (show 8 ≤ 64 by decide)
  have ho : ((Sys.init (.withConfig {} : LearnedMap (Fin (2 ^ 8)) ℕ)).outcome 1
      (insertAlone ⟨100, by decide⟩ 1)).isSome ∧
      ((Sys.init (.withConfig {} : LearnedMap (Fin (2 ^ 8)) ℕ)).run
        (insertAlone ⟨100, by decide⟩ 1)).bind (fun s₀ =>
          (s₀.run (.call 1 (.get ⟨100, by decide⟩) ::
            getDuringConflict ⟨101, by decide⟩ 2)).map fun s =>
              decide (s₀.inRoot ⟨100, by decide⟩ = some 1 ∧
                Run.Meets act (fun s a =>
                  loadsPublishedOn 1 (⟨100, by decide⟩ : Fin (2 ^ 8)) s a = true) s₀
                  (.call 1 (.get ⟨100, by decide⟩) :: getDuringConflict ⟨101, by decide⟩ 2) ∧
                s.history = [.ret 1 (.get ⟨100, by decide⟩) (.option (some 1)),
                  .inv 0 (.insert ⟨101, by decide⟩ 2), .inv 1 (.get ⟨100, by decide⟩)] ++
                    s₀.history)) = some true := by
    decide +kernel
  obtain ⟨_, hq⟩ := Option.isSome_iff_exists.1 ho.1
  obtain ⟨s₀, h₀, hq, -⟩ := outcome_eq_some hq fun t c hm => by
    simp [insertAlone] at hm
    omega
  obtain ⟨-, he⟩ := ho
  rw [h₀, Option.bind_some] at he
  obtain ⟨s, hs, he⟩ := Option.map_eq_some_iff.1 he
  obtain ⟨hin, hmeets, hh⟩ := of_decide_eq_true he
  have hidle : ∀ {t th}, s₀.threads t = some th → False := fun {t th} hth => by
    cases (hq t).symm.trans hth
  refine ⟨_, run_getFinds (show ({} : Config).Valid from ⟨one_le_two, le_rfl⟩) .withConfig h₀
    (inRoot_sat hin) ⟨fun hth => (hidle hth).elim, fun hth => (hidle hth).elim⟩
    (fun t th hth => (hidle hth).elim) (fun t c hm => ?_) hs hmeets hh List.mem_cons_self⟩
  simp [getDuringConflict] at hm
  obtain ⟨-, rfl⟩ := hm
  exact ⟨by rintro ⟨⟩, by rintro ⟨⟩, by rintro ⟨⟩⟩

/-- An insert whose key predicts to the slot of another one, up to the claim of the slot,
    and a lookup of the other key; then all go on. -/
def getWhileClaimed (k k' : K) (v v' : V) : List (Act K V) :=
  insertAlone k v ++ Act.call 0 (.insert k' v') :: List.replicate 3 (Act.step 0) ++
    Act.call 1 (.get k) :: List.replicate 2 (Act.step 1) ++ List.replicate 5 (Act.step 0) ++
    Act.call 1 (.get k) :: List.replicate 4 (Act.step 1)

/-- **A claimed slot hides its key**: a lookup misses a key that no operation touches. -/
theorem get_misses :
    (Sys.init (.withConfig {} : LearnedMap (Fin (2 ^ 8)) ℕ)).outcome 2
        (getWhileClaimed ⟨100, by decide⟩ ⟨101, by decide⟩ 1 2) =
      some [.ret 1 (.get ⟨100, by decide⟩) (.option (some 1)), .inv 1 (.get ⟨100, by decide⟩),
        .ret 0 (.insert ⟨101, by decide⟩ 2) (.bool true),
        .ret 1 (.get ⟨100, by decide⟩) (.option none), .inv 1 (.get ⟨100, by decide⟩),
        .inv 0 (.insert ⟨101, by decide⟩ 2), .ret 0 (.insert ⟨100, by decide⟩ 1) (.bool true),
        .inv 0 (.insert ⟨100, by decide⟩ 1)] := by
  decide +kernel

/-! ## A key whose insert has returned -/

/-- An insert of the key on the thread `B` vouches that the key is there; once it has
    returned, the map is sure of it. -/
def Secured (k : K) (B : ℕ) (older : List (Event K V)) (s : Sys K V) : Prop :=
  (∃ th v newer, s.threads B = some th ∧ th.call = .insert k v ∧ th.pc.isDone = false ∧
    Vouches (· ≠ none) s k th ∧ s.history = newer ++ older ∧
      ∀ call reply, .ret B call reply ∉ newer) ∨
    SureRoot (· ≠ none) s k

theorem Secured.invoke {B : ℕ} {call : Call K V} (h : Secured k B older s)
    (hs : s.invoke t call = some s') : Secured k B older s' := by
  rcases h with ⟨th, v, newer, hth, hcall, hnd, hv, hh, hret⟩ | hsure
  · refine Or.inl ⟨th, v, .inv t call :: newer, ?_, hcall, hnd, hv.invoke hs, ?_, fun c r hm => ?_⟩
    · obtain ⟨hnone, rfl⟩ := invoke_eq_some hs
      have ht : B ≠ t := by
        rintro rfl
        cases hnone.symm.trans hth
      exact (Function.update_of_ne ht _ _).trans hth
    · obtain ⟨-, rfl⟩ := invoke_eq_some hs
      rw [List.cons_append, ← hh]
    · rcases List.mem_cons.1 hm with he | hm
      · cases he
      · exact hret c r hm
  · exact Or.inr (hsure.invoke hs)

theorem Secured.step [LawfulKey K] {B : ℕ} (hinv : s.Inv)
    (hrunning : ∀ t th, s.threads t = some th → th.call.Spares k) (h : Secured k B older s)
    (hs : s.step t = some s') : Secured k B older s' := by
  obtain ⟨th, m', next, hth, hstep, rfl⟩ := step_eq_some hs
  obtain ⟨hrem, hd, hcl⟩ := hrunning t th hth
  have hr : Respects (· ≠ none) s.mem k th :=
    ⟨fun v _ _ _ _ => Option.some_ne_none v, fun _ _ hc => absurd hc hrem⟩
  rcases h with ⟨thB, v, newer, hthB, hcall, hnd, hv, hh, hret⟩ | hsure
  · by_cases hB : B = t
    · subst hB
      obtain rfl := Option.some.inj (hth.symm.trans hthB)
      rcases hv.insert hinv hth hcall (Option.some_ne_none v) hnd hstep with
        ⟨th', rfl, hnd', hcall', hv'⟩ | ⟨-, hsure⟩
      · exact Or.inl ⟨th', v, newer, Function.update_self _ _ _, hcall'.trans hcall, hnd', hv',
          by rw [proceed_history]; exact hh, hret⟩
      · exact Or.inr hsure
    · refine Or.inl ⟨thB, v, events t th.call next ++ newer,
        (proceed_threads_of_ne hB _ _ _).trans hthB, hcall, hnd,
        hv.other hinv hthB (fun k' he => by cases hcall.symm.trans he) hth hstep hr, ?_,
        fun c r hm => ?_⟩
      · rw [proceed_history, List.append_assoc, ← hh]
      · rcases List.mem_append.1 hm with hm | hm
        · cases next with
          | goto => cases hm
          | ret => exact hB (Event.ret.inj (List.mem_singleton.1 hm)).1
        · exact hret c r hm
  · refine Or.inr (hsure.step hinv hth hstep hr fun r pairs _ hc => ?_)
    rcases hc with hc | hc
    · exact absurd hc hd
    · exact absurd hc hcl

/-- **Once an insert of a key has returned**, and nothing removes the key, the map is sure
    that it holds it. -/
theorem sureRoot_of_inserted [LawfulKey K] {B : ℕ} {v : V} {sched : List (Act K V)} (hinv : s.Inv)
    (hspares₀ : ∀ t th, s.threads t = some th → th.call.Spares k)
    (hspares : ∀ t c, .call t c ∈ sched → c.Spares k)
    (hrun : s.run (.call B (.insert k v) :: sched) = some s')
    (hh : s'.history = newer ++ s.history) {reply : Reply K V}
    (hret : .ret B (.insert k v) reply ∈ newer) :
    SureRoot (· ≠ none) s' k ∧ ∀ t th, s'.threads t = some th → th.call.Spares k := by
  have hcalls : ∀ t c, .call t c ∈ .call B (.insert k v) :: sched → c.Spares k := by
    intro t c hm
    rcases List.mem_cons.1 hm with he | hm
    · cases he
      exact ⟨by rintro ⟨⟩, by rintro ⟨⟩, by rintro ⟨⟩⟩
    · exact hspares t c hm
  have hstart := hrun
  rw [run_cons, Option.bind_eq_some_iff] at hstart
  obtain ⟨s₁, h₁, hrun₁⟩ := hstart
  have hsec₁ : Secured k B s.history s₁ := by
    obtain ⟨-, rfl⟩ := invoke_eq_some h₁
    refine Or.inl ⟨_, v, [.inv B (.insert k v)], Function.update_self _ _ _, rfl, rfl, trivial, rfl,
      fun c r hm => ?_⟩
    cases List.mem_singleton.1 hm
  have hrunning₁ := running_act (a := .call B (.insert k v)) hinv hspares₀
    (fun t c he => hcalls t c (he ▸ List.mem_cons_self)) h₁
  obtain ⟨-, hrunning, hsec⟩ := Run.run_induct (C := fun _ a => a ∈ sched)
    (I := fun s₁ => s₁.Inv ∧ (∀ t th, s₁.threads t = some th → th.call.Spares k) ∧
      Secured k B s.history s₁)
    (fun {s₁ a s₂} h ha hact => by
      obtain ⟨hinv, hrunning, hsec⟩ := h
      refine ⟨hinv.act hact, running_act hinv hrunning
        (fun t c he => hspares t c (he ▸ ha)) hact, ?_⟩
      cases a with
      | call t c => exact hsec.invoke hact
      | step t => exact hsec.step hinv hrunning hact)
    ⟨hinv.invoke h₁, hrunning₁, hsec₁⟩ (Run.Meets.mem sched) hrun₁
  refine ⟨?_, hrunning⟩
  rcases hsec with ⟨th, v', newer', -, -, -, -, hh', hnone⟩ | hsure
  · obtain rfl := List.append_cancel_right (hh.symm.trans hh')
    exact absurd hret (hnone _ _)
  · exact hsure

/-- **An inserted key is found**: a lookup that is called once an insert of the key has
    returned finds it, beside any rebuilds, if it loads no slot that is claimed. -/
theorem run_insertFound [LawfulKey K] {config : Config} (hc : config.Valid)
    {map : LearnedMap K V} {pairs : List (K × V)} (hs : Starts config map pairs)
    {sched₀ sched₁ sched₂ : List (Act K V)} {s₀ s₁ : Sys K V}
    (h₀ : (Sys.init map).run sched₀ = some s₀)
    (hspares₀ : ∀ t th, s₀.threads t = some th → th.call.Spares k)
    (hspares : ∀ t c, .call t c ∈ sched₁ ++ sched₂ → c.Spares k) {B : ℕ} {v : V}
    (h₁ : s₀.run (.call B (.insert k v) :: sched₁) = some s₁)
    (hh₁ : s₁.history = older ++ s₀.history) {reply₁ : Reply K V}
    (hret₁ : .ret B (.insert k v) reply₁ ∈ older)
    (h₂ : s₁.run (.call t (.get k) :: sched₂) = some s)
    (hmeets : Run.Meets act (fun s a => loadsPublishedOn t k s a = true) s₁
      (.call t (.get k) :: sched₂))
    (hh : s.history = newer ++ s₁.history) {reply : Reply K V}
    (hret : .ret t (.get k) reply ∈ newer) :
    ∃ v', reply = .option (some v') ∧
      Supplied pairs (sched₀ ++ .call B (.insert k v) :: sched₁ ++ sched₂) k v' := by
  obtain ⟨hsure, hrunning⟩ := sureRoot_of_inserted ((Inv.init hc hs).run h₀) hspares₀
    (fun t c hm => hspares t c (List.mem_append_left _ hm)) h₁ hh₁ hret₁
  have hrun₁ : (Sys.init map).run (sched₀ ++ .call B (.insert k v) :: sched₁) = some s₁ := by
    rw [run_append, h₀]
    exact h₁
  exact getFinds_of_sure hc hs hrun₁ hsure hrunning
    (fun t c hm => hspares t c (List.mem_append_right _ hm)) h₂ hmeets hh hret

/-- What follows the call of an insert on thread 0: a rebuild, which has passed the slot of
    the key before the insert stores it, and replaces the root before the insert looks at it. -/
def behindRebuild : List (Act K V) :=
  .step 0 :: .call 2 .rebuild :: List.replicate 68 (Act.step 2) ++ List.replicate 3 (Act.step 0) ++
    List.replicate 2 (Act.step 2)

/-- The insert stores its key in the new tree as well, and returns. -/
def storedAgain : List (Act K V) := behindRebuild ++ List.replicate 24 (Act.step 0)

theorem run_insertFound_storedAgain : ∃ (reply : Reply (Fin (2 ^ 8)) ℕ) (v : ℕ),
    reply = .option (some v) ∧ Supplied [] (insertAlone ⟨7, by decide⟩ 1 ++
      .call 0 (.insert ⟨100, by decide⟩ 1) :: storedAgain ++
        getDuringConflict ⟨101, by decide⟩ 2) (⟨100, by decide⟩ : Fin (2 ^ 8)) v := by
  have := lawfulKey_unsigned (show 8 ≤ 64 by decide)
  have ho : ((Sys.init (.withConfig {} : LearnedMap (Fin (2 ^ 8)) ℕ)).outcome 1
      (insertAlone ⟨7, by decide⟩ 1)).isSome ∧
      (((Sys.init (.withConfig {} : LearnedMap (Fin (2 ^ 8)) ℕ)).run
        (insertAlone ⟨7, by decide⟩ 1)).bind fun s₀ =>
          (s₀.run (.call 0 (.insert ⟨100, by decide⟩ 1) :: storedAgain)).bind fun s₁ =>
            (s₁.run (.call 1 (.get ⟨100, by decide⟩) ::
              getDuringConflict ⟨101, by decide⟩ 2)).map fun s =>
                decide (Run.Meets act (fun s a =>
                    loadsPublishedOn 1 (⟨100, by decide⟩ : Fin (2 ^ 8)) s a = true) s₁
                    (.call 1 (.get ⟨100, by decide⟩) :: getDuringConflict ⟨101, by decide⟩ 2) ∧
                  s₁.history = [.ret 0 (.insert ⟨100, by decide⟩ 1) (.bool true),
                    .ret 2 .rebuild .unit, .inv 2 .rebuild,
                    .inv 0 (.insert ⟨100, by decide⟩ 1)] ++ s₀.history ∧
                  s.history = [.ret 1 (.get ⟨100, by decide⟩) (.option (some 1)),
                    .inv 0 (.insert ⟨101, by decide⟩ 2), .inv 1 (.get ⟨100, by decide⟩)] ++
                      s₁.history)) = some true := by
    decide +kernel
  obtain ⟨_, hq⟩ := Option.isSome_iff_exists.1 ho.1
  obtain ⟨s₀, h₀, hq, -⟩ := outcome_eq_some hq fun t c hm => by
    simp [insertAlone] at hm
    omega
  obtain ⟨-, he⟩ := ho
  rw [h₀, Option.bind_some] at he
  obtain ⟨s₁, h₁, he⟩ := Option.bind_eq_some_iff.1 he
  obtain ⟨s, h₂, he⟩ := Option.map_eq_some_iff.1 he
  obtain ⟨hmeets, hh₁, hh⟩ := of_decide_eq_true he
  have hspares : ∀ t c, Act.call t c ∈ storedAgain ++
      getDuringConflict (⟨101, by decide⟩ : Fin (2 ^ 8)) 2 →
      c.Spares (⟨100, by decide⟩ : Fin (2 ^ 8)) := by
    intro t c hm
    simp [storedAgain, behindRebuild, getDuringConflict] at hm
    rcases hm with ⟨-, rfl⟩ | ⟨-, rfl⟩ <;> exact ⟨by rintro ⟨⟩, by rintro ⟨⟩, by rintro ⟨⟩⟩
  exact ⟨_, run_insertFound (show ({} : Config).Valid from ⟨one_le_two, le_rfl⟩) .withConfig h₀
    (fun t th hth => by cases (hq t).symm.trans hth) hspares h₁ hh₁ List.mem_cons_self h₂ hmeets hh
    List.mem_cons_self⟩

end Sys

end Scry.Index
