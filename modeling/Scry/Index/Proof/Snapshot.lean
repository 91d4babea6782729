/-
  When a scan is a snapshot (`iter_sorted`).

  A scan reads one slot after the other while the operations go on.  A change that is
  ahead of it in the map it takes along, one that is behind it misses.  It returns what
  the map held at one instant if it took no change along after it had missed one
  (`iterSorted_contents`); a key that is inserted behind the scan, and after it one that
  is inserted ahead, tear it (`iterSorted_torn`).
-/
import Scry.Index.Proof.Alters
import Scry.Index.Proof.Traverse

namespace Scry.Index

variable {K V : Type} [LinearOrder K] [Key K] {m m' : Mem K V} {c x : NodeId} {w w' : Walk K V}
  {th : Thread K V} {k : K} {o : Option V} {P : Option V → Prop}

/-- The contents of the map, in key order. -/
structure Mem.Contents (m : Mem K V) (pairs : List (K × V)) : Prop where
  ascending : Ascending pairs
  holds (k : K) : m.Holds k m.root.node (pairs.lookup k)

/-! ## Ahead of a scan -/

namespace Walk

/-- The scan has still to come to the node on the way of the key. -/
def Ahead (m : Mem K V) (w : Walk K V) (k : K) (x : NodeId) : Prop :=
  ∃ f ∈ w.stack, (m.cells f.1).Routes k ∧ f.2 ≤ (m.cells f.1).slotOf k ∧ m.Path k f.1 x

/-- The scan has read, or has still to read, what `o` says of each key. -/
def Meets (m : Mem K V) (w : Walk K V) (o : K → Option V) : Prop :=
  ∀ k, Delivers (· = o k) m k w

/-- What the scan has read and has still to read is what the map holds. -/
def UpToDate (m : Mem K V) (w : Walk K V) : Prop :=
  ∀ k o, m.Holds k m.root.node o → Delivers (· = o) m k w

theorem Meets.done {o : K → Option V} (h : w.Meets m o) (hs : w.stack = []) (k : K) :
    w.pairs.lookup k = o k := (h k).done hs

end Walk

/-- At one frame only a key is still ahead. -/
theorem WalkOk.ahead_unique (h : WalkOk m c w) {f g : NodeId × ℕ} (hf : f ∈ w.stack)
    (hg : g ∈ w.stack) (hfr : (m.cells f.1).Routes k) (hfs : f.2 ≤ (m.cells f.1).slotOf k)
    (hgr : (m.cells g.1).Routes k) (hgs : g.2 ≤ (m.cells g.1).slotOf k) : f = g := by
  by_contra hne
  let A (f : NodeId × ℕ) : Prop := (m.cells f.1).Routes k ∧ f.2 ≤ (m.cells f.1).slotOf k
  have hsymm : Std.Symm fun f g => ¬ (A f ∧ A g) := ⟨fun f g hfg hgf => hfg hgf.symm⟩
  have hnested : w.stack.Pairwise fun f g => ¬ (A f ∧ A g) :=
    h.nested.imp fun {f g} hfg hA => absurd (hfg k hA.1.1).2 (not_lt.2 hA.2.2)
  exact hnested.forall hf hg hne ⟨⟨hfr, hfs⟩, hgr, hgs⟩

namespace Delivers

/-- A step that changes nothing of the key. -/
theorem keep (h : Delivers P m k w) (hok : WalkOk m c w) (he : m.Evolves m')
    (hkeep : ∀ {n o}, m.NodeWF n → m.Holds k n o → m'.Holds k n o) : Delivers P m' k w := by
  refine h.mono hok.wf he fun f hf hs => ?_
  obtain ⟨o, ho, hP⟩ := hs
  exact ⟨o, hkeep (hok.wf f hf) ho, hP⟩

/-- A change that the scan does not come to. -/
theorem unseen (h : Delivers P m k w) (hok : WalkOk m c w) (he : m.Evolves m')
    (hset : m.Sets m' k x o) (hx : ¬ w.Ahead m k x) : Delivers P m' k w := by
  refine h.mono_ahead hok.wf he fun f hf hr hle hs => ?_
  obtain ⟨o', ho', hP⟩ := hs
  exact ⟨o', hset.of_not_path (hok.wf f hf) (fun hp => hx ⟨f, hf, hr, hle, hp⟩) ho', hP⟩

/-- **A change ahead** is delivered: the key was not met yet, and is met only there. -/
theorem ofAhead (hok : WalkOk m c w) (he : m.Evolves m') (hset : m.Sets m' k x o)
    (hx : w.Ahead m k x) : Delivers (· = o) m' k w := by
  obtain ⟨f, hf, hr, hle, hp⟩ := hx
  refine ⟨fun v hv => ?_, fun g hg hgr hgs => ?_, fun _ hpassed => ?_⟩
  · have ha := mem_of_lookup hv
    exact absurd (hok.behind _ ha f hf k hr hle) (lt_irrefl k)
  · rw [he.routes (hok.wf g hg).alloc] at hgr
    rw [he.slotOf (hok.wf g hg).alloc] at hgs
    obtain rfl := hok.ahead_unique hf hg hr hle hgr hgs
    exact ⟨o, hset.of_path (hok.wf f hf) hp, rfl⟩
  · have := hpassed f hf ((he.routes (hok.wf f hf).alloc k).2 hr)
    rw [he.slotOf (hok.wf f hf).alloc] at this
    exact absurd hle (not_le.2 this)

end Delivers

/-! ## Steps beside a scan -/

section Step
variable (he : Effect m th m') (hok : th.Ok m) (hl : th.Locks m) (hw : WalkOk m c w)
include he hok hl hw

/-- A step that changes nothing ahead of the scan does not disturb it. -/
theorem Effect.undisturbed (ha : ∀ k x, th.Alters m k x → ¬ w.Ahead m k x) {o : K → Option V}
    (ho : w.Meets m o) : w.Meets m' o := by
  intro k
  have hev := (he.content hok hl).evolves
  rcases he.alters hok hl k with hkeep | ⟨x, o₁, halt, hset⟩
  · exact (ho k).keep hw hev hkeep
  · exact (ho k).unseen hw hev hset (ha k x halt)

/-- **A step keeps a scan up to date** that changes the map exactly where it is ahead. -/
theorem Effect.upToDate (hroot : m.NodeWF m.root.node) (hr : ¬ th.ReplacesRoot)
    (hmap : ∀ k x, th.Alters m k x → (w.Ahead m k x ↔ m.Path k m.root.node x))
    (hu : w.UpToDate m) : w.UpToDate m' := by
  intro k o ho
  have hev := (he.content hok hl).evolves
  rw [he.root_node hr] at ho
  obtain ⟨o₀, ho₀⟩ := hroot.holds k
  rcases he.alters hok hl k with hkeep | ⟨x, o₁, halt, hset⟩
  · obtain rfl := (hkeep hroot ho₀).unique ho
    exact (hu k o₀ ho₀).keep hw hev hkeep
  · by_cases hx : w.Ahead m k x
    · obtain rfl := (hset.of_path hroot ((hmap k x halt).1 hx)).unique ho
      exact .ofAhead hw hev hset hx
    · have hp : ¬ m.Path k m.root.node x := fun hp => hx ((hmap k x halt).2 hp)
      obtain rfl := (hset.of_not_path hroot hp ho₀).unique ho
      exact (hu k o₀ ho₀).unseen hw hev hset hx

end Step

/-! ## Runs -/

namespace Sys
variable {s s' : Sys K V} {t : ℕ}

/-- The step of the thread changes the map where the scan does not come any more: behind
    it, or in a tree that it does not go through. -/
def Misses (p : Sys K V × Walk K V) (t : ℕ) : Prop :=
  ∃ th, p.1.threads t = some th ∧ (th.ReplacesRoot ∨ ∃ k x, th.Alters p.1.mem k x ∧
    p.1.mem.Path k p.1.mem.root.node x ∧ ¬ p.2.Ahead p.1.mem k x)

/-- The record of a scan: whether it has missed a change. -/
def noteMissed (p : Sys K V × Walk K V) (missed : Prop) : Turn K V → Prop
  | .act (.call _ _) => missed
  | .act (.step t) => missed ∨ Misses p t
  | .visit => missed

/-- The turns of a scan beside the operations, with the record. -/
def scanning : (Sys K V × Walk K V) × Prop → Turn K V → Option ((Sys K V × Walk K V) × Prop) :=
  Run.recording (beside fun m w => w.step m) noteMissed

/-- A step that changes something ahead of the scan changes it in the map, and no change of
    the map was missed before. -/
def MissedNothing (q : (Sys K V × Walk K V) × Prop) : Turn K V → Prop
  | .act (.call _ _) => True
  | .act (.step t) => ∀ th, q.1.1.threads t = some th → ∀ k x, th.Alters q.1.1.mem k x →
      q.1.2.Ahead q.1.1.mem k x →
        q.1.1.mem.Path k q.1.1.mem.root.node x ∧ ¬ q.2 ∧ ¬ Misses q.1 t
  | .visit => True

/-- The state of a scan of the tree at `c` beside the operations: it is up to date as long
    as it has missed nothing. -/
structure Scans (c : NodeId) (q : (Sys K V × Walk K V) × Prop) : Prop where
  inv : q.1.1.Inv
  alloc : c.alloc < q.1.1.mem.next
  walk : WalkOk q.1.1.mem c q.1.2
  upToDate : ¬ q.2 → q.1.2.UpToDate q.1.1.mem

/-- What a step of an operation does to a scan. -/
theorem Scans.step [LawfulKey K] {q : (Sys K V × Walk K V) × Prop} (h : Scans c q)
    (hc : MissedNothing q (.act (.step t))) (hs : q.1.1.act (.step t) = some s') :
    (¬ q.2 → ¬ Misses q.1 t → q.1.2.UpToDate s'.mem) ∧
      ∀ o, q.1.2.Meets q.1.1.mem o → q.1.2.Meets s'.mem o ∨ q.1.2.UpToDate s'.mem := by
  obtain ⟨th, m', next, hth, hstep, rfl⟩ := step_eq_some hs
  have hok := h.inv.ok hth
  have hl := h.inv.locks hth
  have he := step_effect h.inv.headroom hok hl hstep
  rw [proceed_mem]
  have hup : ¬ q.2 → ¬ Misses q.1 t → q.1.2.UpToDate m' := by
    intro hq hm
    refine he.upToDate hok hl h.walk h.inv.root.1 (fun hr => hm ⟨th, hth, Or.inl hr⟩)
      (fun k x halt => ⟨fun hx => (hc th hth k x halt hx).1, fun hp => ?_⟩) (h.upToDate hq)
    by_contra hx
    exact hm ⟨th, hth, Or.inr ⟨k, x, halt, hp, hx⟩⟩
  refine ⟨hup, fun o ho => ?_⟩
  by_cases ha : ∃ k x, th.Alters q.1.1.mem k x ∧ q.1.2.Ahead q.1.1.mem k x
  · -- the scan takes the change along
    obtain ⟨k, x, halt, hx⟩ := ha
    obtain ⟨-, hq, hm⟩ := hc th hth k x halt hx
    exact Or.inr (hup hq hm)
  · exact Or.inl (he.undisturbed hok hl h.walk (fun k x halt hx => ha ⟨k, x, halt, hx⟩) ho)

/-- **Step lemma**: a turn that meets the condition; the scan still meets the same, or what
    the map holds after the turn. -/
theorem Scans.turn [LawfulKey K] {q q' : (Sys K V × Walk K V) × Prop} (h : Scans c q)
    {turn : Turn K V} (hc : MissedNothing q turn) (ht : scanning q turn = some q') :
    Scans c q' ∧ ∀ o, q.1.2.Meets q.1.1.mem o →
      q'.1.2.Meets q'.1.1.mem o ∨ q'.1.2.UpToDate q'.1.1.mem := by
  obtain ⟨p', missed⟩ := q'
  obtain ⟨ht, hnote⟩ := Run.recording_eq_some.1 ht
  dsimp only at ht hnote
  cases turn with
  | visit =>
    obtain ⟨w₁, hw, rfl⟩ := Option.map_eq_some_iff.1 ht
    refine ⟨⟨h.inv, h.alloc, h.walk.step hw, fun hq k o ho => ?_⟩, fun o ho => Or.inl fun k => ?_⟩
    · rw [hnote] at hq
      exact (h.upToDate hq k o ho).step h.walk hw
    · exact (ho k).step h.walk hw
  | act a =>
    obtain ⟨s₁, ha, rfl⟩ := Option.map_eq_some_iff.1 ht
    have hev := h.inv.evolves ha
    cases a with
    | call t call =>
      have hinv := h.inv.act ha
      obtain ⟨-, rfl⟩ := invoke_eq_some ha
      refine ⟨⟨hinv, h.alloc, h.walk, fun hq => ?_⟩, fun o ho => Or.inl ho⟩
      rw [hnote] at hq
      exact h.upToDate hq
    | step t =>
      obtain ⟨hup, hmeets⟩ := h.step hc ha
      refine ⟨⟨h.inv.act ha, h.alloc.trans_le hev.next, h.walk.evolve h.alloc hev, fun hq => ?_⟩,
        hmeets⟩
      rw [hnote] at hq
      exact hup (fun hp => hq (Or.inl hp)) fun hm => hq (Or.inr hm)

/-- The map holds something for each key. -/
theorem Inv.holds (h : s.Inv) : ∃ o : K → Option V, ∀ k, s.mem.Holds k s.mem.root.node (o k) :=
  ⟨fun k => (h.root.1.holds k).choose, fun k => (h.root.1.holds k).choose_spec⟩

/-- **Run lemma**: what a scan meets at its end it met at its beginning, or the map held it
    after some turn. -/
theorem Scans.run [LawfulKey K] {turns : List (Turn K V)} {q q' : (Sys K V × Walk K V) × Prop}
    (h : Scans c q) (hm : Run.Meets scanning MissedNothing q turns)
    (hrun : turns.foldlM scanning q = some q') {o : K → Option V} (ho : q.1.2.Meets q.1.1.mem o) :
    q'.1.2.Meets q'.1.1.mem o ∨ ∃ turns₁ turns₂ q₁ o', turns = turns₁ ++ turns₂ ∧
      turns₁.foldlM scanning q = some q₁ ∧
      (∀ k, q₁.1.1.mem.Holds k q₁.1.1.mem.root.node (o' k)) ∧ q'.1.2.Meets q'.1.1.mem o' := by
  induction turns generalizing q o with
  | nil =>
    cases hrun
    exact Or.inl ho
  | cons turn turns ih =>
    rw [List.foldlM_cons, Option.bind_eq_bind, Option.bind_eq_some_iff] at hrun
    obtain ⟨q₁, ht, hrun⟩ := hrun
    have later : ∀ {turns₁ q₂}, turns₁.foldlM scanning q₁ = some q₂ →
        (turn :: turns₁).foldlM scanning q = some q₂ := by
      intro turns₁ q₂ h₂
      rw [List.foldlM_cons, Option.bind_eq_bind, ht]
      exact h₂
    obtain ⟨h₁, hmeets⟩ := h.turn hm.1 ht
    rcases hmeets o ho with ho | hu
    · -- the scan goes on as it did
      refine (ih h₁ (hm.2 q₁ ht) hrun ho).imp_right ?_
      rintro ⟨turns₁, turns₂, q₂, o', rfl, h₂, hh, ho'⟩
      exact ⟨turn :: turns₁, turns₂, q₂, o', rfl, later h₂, hh, ho'⟩
    · -- from here on it meets what the map holds now
      obtain ⟨o₁, ho₁⟩ := h₁.inv.holds
      rcases ih h₁ (hm.2 q₁ ht) hrun (fun k => hu k _ (ho₁ k)) with
        ho' | ⟨turns₁, turns₂, q₂, o', rfl, h₂, hh, ho'⟩
      · exact Or.inr ⟨[turn], turns, q₁, o₁, rfl, later rfl, ho₁, ho'⟩
      · exact Or.inr ⟨turn :: turns₁, turns₂, q₂, o', rfl, later h₂, hh, ho'⟩

/-- A scan that begins is up to date. -/
theorem Inv.start_upToDate (h : s.Inv) : (Walk.start s.mem.root.node).UpToDate s.mem :=
  fun k o ho => .start ⟨o, ho, rfl⟩ (Cell.routes_root h.root.1 h.root.2 k)

/-- **A scan that takes no change along after it has missed one is a snapshot.** -/
theorem iterSorted_contents [LawfulKey K] {config : Config} (hc : config.Valid)
    {map : LearnedMap K V} {pairs : List (K × V)} (hs : Starts config map pairs)
    {sched : List (Act K V)} (hrun : (Sys.init map).run sched = some s) {turns : List (Turn K V)}
    (hm : Run.Meets scanning MissedNothing ((s, .start s.mem.root.node), False) turns)
    (h : s.runIter turns = some (s', w)) (hdone : w.stack = []) :
    ∃ turns₁ turns₂ s₁ w₁, turns = turns₁ ++ turns₂ ∧ s.runIter turns₁ = some (s₁, w₁) ∧
      s₁.mem.Contents w.pairs := by
  have hinv := (Inv.init hc hs).run hrun
  have hscan : Scans s.mem.root.node ((s, .start s.mem.root.node), False) :=
    ⟨hinv, hinv.root.1.alloc, .start hinv.root.1, fun _ => hinv.start_upToDate⟩
  have hasc : Ascending w.pairs := (traversals_inOrder hc hs hrun turns).1 s' w h
  obtain ⟨o, ho⟩ := hinv.holds
  -- the run with the record
  have hrec := Run.recording_run (beside fun m w => w.step m) noteMissed turns
    (s, .start s.mem.root.node) False
  obtain ⟨q', hq', he⟩ := Option.map_eq_some_iff.1 (hrec.trans h)
  obtain rfl : q'.1.2 = w := by rw [he]
  rcases hscan.run hm hq' (fun k => hinv.start_upToDate k _ (ho k)) with
    hmeet | ⟨turns₁, turns₂, q₁, o', rfl, h₁, hh, hmeet⟩
  · refine ⟨[], turns, s, _, rfl, rfl, hasc, fun k => ?_⟩
    rw [hmeet.done hdone]
    exact ho k
  · refine ⟨turns₁, turns₂, q₁.1.1, q₁.1.2, rfl, ?_, hasc, fun k => ?_⟩
    · have := Run.recording_run (beside fun m w => w.step m) noteMissed turns₁
        (s, .start s.mem.root.node) False
      rw [show List.foldlM (Run.recording _ noteMissed) _ turns₁ = some q₁ from h₁] at this
      exact this.symm
    · rw [hmeet.done hdone]
      exact hh k

/-! ## Schedules -/

/-- What a step is to a scan, as far as the slots on its stack tell. -/
inductive Sight where
  | quiet
  | ahead
  | behind
  | unclear
  deriving DecidableEq

/-- A publication at the root is ahead of a scan whose frame of the root has not passed the
    slot of the key, and behind one all of whose frames have. -/
def sight (m : Mem K V) (w : Walk K V) (th : Thread K V) : Sight :=
  match th.pc with
  | .publish =>
    match th.call.key with
    | none => .unclear
    | some k =>
      if th.cur = m.root.node ∧ (m.cells th.cur).route.isEmpty ∧
        (∃ f ∈ w.stack, f.1 = th.cur ∧ f.2 ≤ (m.cells th.cur).slotOf k) then .ahead
      else if ∀ f ∈ w.stack, (m.cells f.1).slotOf k < f.2 then .behind
      else .unclear
  | .claim =>
    match th.write with
    | .bury => .unclear
    | _ => .quiet
  | .subSwap _ _ => .unclear
  | .rootSwap _ _ => .unclear
  | _ => .quiet

theorem sight_replacesRoot (h : th.ReplacesRoot) : sight m w th = .unclear := by
  obtain ⟨r, pairs, hpc, -⟩ := h
  rw [sight, hpc]

theorem sight_quiet (h : sight m w th = .quiet) : ¬ th.Alters m k x := by
  rintro (⟨hpc | ⟨hpc, hw, -⟩, hk⟩ | ⟨hpc⟩)
  · simp only [sight, hpc, hk] at h
    split_ifs at h
  · simp only [sight, hpc, hw] at h
    cases h
  · simp only [sight, hpc] at h
    cases h

theorem sight_publish (h : sight m w th = .ahead ∨ sight m w th = .behind)
    (ha : th.Alters m k x) : th.pc = .publish ∧ th.call.key = some k ∧ x = th.cur := by
  rcases ha with ⟨hpc | ⟨hpc, hw, -⟩, hk⟩ | ⟨hpc⟩
  · exact ⟨hpc, hk, rfl⟩
  · simp only [sight, hpc, hw] at h
    rcases h with h | h <;> cases h
  · simp only [sight, hpc] at h
    rcases h with h | h <;> cases h

theorem sight_ahead (h : sight m w th = .ahead) (ha : th.Alters m k x) :
    w.Ahead m k x ∧ m.Path k m.root.node x := by
  obtain ⟨hpc, hk, rfl⟩ := sight_publish (Or.inl h) ha
  simp only [sight, hpc, hk] at h
  split_ifs at h with hif
  obtain ⟨hcur, hroute, f, hf, hfc, hle⟩ := hif
  refine ⟨⟨f, hf, fun e he => ?_, hfc ▸ hle, hfc ▸ .refl _⟩, hcur ▸ .refl _⟩
  rw [hfc, List.isEmpty_iff.1 hroute] at he
  cases he

theorem sight_behind (h : sight m w th = .behind) (ha : th.Alters m k x) : ¬ w.Ahead m k x := by
  obtain ⟨hpc, hk, rfl⟩ := sight_publish (Or.inr h) ha
  simp only [sight, hpc, hk] at h
  split_ifs at h with hif hbehind
  rintro ⟨f, hf, -, hle, -⟩
  exact absurd hle (not_le.2 (hbehind f hf))

/-- The record after a turn, if the turn is not ahead of the scan after one behind it. -/
def sighted (p : Sys K V × Walk K V) (missed : Bool) : Turn K V → Option Bool
  | .act (.step t) =>
    match p.1.threads t with
    | none => some missed
    | some th =>
      match sight p.1.mem p.2 th with
      | .quiet => some missed
      | .ahead => if missed then none else some false
      | .behind => some true
      | .unclear => none
  | _ => some missed

/-- No turn is ahead of the scan after one that was behind it. -/
def checked (p : Sys K V × Walk K V) (missed : Bool) : List (Turn K V) → Bool
  | [] => true
  | turn :: turns =>
    (sighted p missed turn).any fun b =>
      (beside (fun m w => w.step m) p turn).all fun p' => checked p' b turns

theorem sighted_spec {p : Sys K V × Walk K V} {missed b : Bool} {turn : Turn K V}
    (h : sighted p missed turn = some b) {P : Prop} (hP : P → missed = true) :
    MissedNothing (p, P) turn ∧ (noteMissed p P turn → b = true) := by
  cases turn with
  | visit =>
    cases h
    exact ⟨trivial, hP⟩
  | act a =>
    cases a with
    | call t call =>
      cases h
      exact ⟨trivial, hP⟩
    | step t =>
      rw [sighted] at h
      cases hth : p.1.threads t with
      | none =>
        rw [hth] at h
        cases h
        refine ⟨fun th hth' => ?_, fun hp => hp.elim hP ?_⟩
        · cases hth.symm.trans hth'
        · rintro ⟨th, hth', -⟩
          cases hth.symm.trans hth'
      | some th =>
        rw [hth] at h
        dsimp only at h
        have hmiss : Misses p t → th.ReplacesRoot ∨ ∃ k x, th.Alters p.1.mem k x ∧
            p.1.mem.Path k p.1.mem.root.node x ∧ ¬ p.2.Ahead p.1.mem k x := by
          rintro ⟨th', hth', hm⟩
          cases hth.symm.trans hth'
          exact hm
        have hroot : sight p.1.mem p.2 th ≠ .unclear → ¬ th.ReplacesRoot :=
          fun hs hr => hs (sight_replacesRoot hr)
        cases hs : sight p.1.mem p.2 th with
        | unclear =>
          rw [hs] at h
          cases h
        | quiet =>
          rw [hs] at h
          cases h
          refine ⟨fun th' hth' k x ha => ?_, fun hp => hp.elim hP fun hm => ?_⟩
          · cases hth.symm.trans hth'
            exact absurd ha (sight_quiet hs)
          · rcases hmiss hm with hr | ⟨k, x, ha, -⟩
            · exact absurd hr (hroot (by rw [hs]; decide))
            · exact absurd ha (sight_quiet hs)
        | behind =>
          rw [hs] at h
          cases h
          refine ⟨fun th' hth' k x ha hx => ?_, fun _ => rfl⟩
          cases hth.symm.trans hth'
          exact absurd hx (sight_behind hs ha)
        | ahead =>
          rw [hs] at h
          dsimp only at h
          split_ifs at h with hm
          cases h
          have hnot : ¬ Misses p t := fun hp => by
            rcases hmiss hp with hr | ⟨k, x, ha, -, hx⟩
            · exact absurd hr (hroot (by rw [hs]; decide))
            · exact hx (sight_ahead hs ha).1
          refine ⟨fun th' hth' k x ha _ => ?_, fun hp => absurd hp ?_⟩
          · cases hth.symm.trans hth'
            exact ⟨(sight_ahead hs ha).2, fun hp => hm (hP hp), hnot⟩
          · exact not_or.2 ⟨fun hp => hm (hP hp), hnot⟩

theorem meets_of_checked {turns : List (Turn K V)} {p : Sys K V × Walk K V} {missed : Bool}
    (h : checked p missed turns = true) {P : Prop} (hP : P → missed = true) :
    Run.Meets scanning MissedNothing (p, P) turns := by
  induction turns generalizing p missed P with
  | nil => trivial
  | cons turn turns ih =>
    rw [checked] at h
    cases hb : sighted p missed turn with
    | none =>
      rw [hb] at h
      cases h
    | some b =>
      rw [hb] at h
      obtain ⟨hc, hnote⟩ := sighted_spec hb hP
      refine ⟨hc, fun q' hq => ?_⟩
      obtain ⟨p', P'⟩ := q'
      obtain ⟨ht, hP'⟩ := Run.recording_eq_some.1 hq
      dsimp only at ht hP'
      replace h : (beside (fun m w => w.step m) p turn).all (fun p' => checked p' b turns) = true :=
        h
      rw [ht] at h
      exact ih h fun hp => hnote (hP' ▸ hp)

/-- A scan of an empty map: when it has passed the slot of one byte, a thread inserts this
    byte and then another one that is still ahead. -/
def tornScan : List (Turn (Fin (2 ^ 8)) ℕ) :=
  List.replicate 10 .visit ++
    (.act (.call 0 (.insert ⟨3, by decide⟩ 1)) :: List.replicate 8 (.act (.step 0))) ++
    (.act (.call 0 (.insert ⟨60, by decide⟩ 2)) :: List.replicate 8 (.act (.step 0))) ++
    List.replicate 55 .visit

/-- The later byte is in the map only together with the earlier one. -/
def inOrder (p : Sys (Fin (2 ^ 8)) ℕ × Walk (Fin (2 ^ 8)) ℕ) : Bool :=
  let c := p.1.mem.cells p.1.mem.root.node
  let held (k : Fin (2 ^ 8)) : Bool := (c.leafGet (c.slotOf k) k).isSome
  !(c.slots (c.slotOf ⟨3, by decide⟩)).isChild && !(c.slots (c.slotOf ⟨60, by decide⟩)).isChild &&
    (held ⟨3, by decide⟩ || !held ⟨60, by decide⟩)

theorem inOrder_contents {p : Sys (Fin (2 ^ 8)) ℕ × Walk (Fin (2 ^ 8)) ℕ} (h : inOrder p = true)
    {pairs : List (Fin (2 ^ 8) × ℕ)} (hp : p.1.mem.Contents pairs)
    (h₁ : (pairs.lookup ⟨60, by decide⟩).isSome) : (pairs.lookup ⟨3, by decide⟩).isSome := by
  simp only [inOrder, Bool.and_eq_true, Bool.or_eq_true, Bool.not_eq_true'] at h
  obtain ⟨⟨hc₁, hc₂⟩, hh⟩ := h
  have h₃ := (Mem.holds_leaf hc₁).1 (hp.holds ⟨3, by decide⟩)
  have h₆₀ := (Mem.holds_leaf hc₂).1 (hp.holds ⟨60, by decide⟩)
  rw [← h₃, ← h₆₀] at hh
  rcases hh with hh | hh
  · exact hh
  · rw [h₁] at hh
    cases hh

/-- **A torn scan**: at no instant does the map hold what it returns. -/
theorem iterSorted_torn : ∃ s' w,
    (Sys.init (.withConfig {} : LearnedMap (Fin (2 ^ 8)) ℕ)).runIter tornScan = some (s', w) ∧
      w.stack = [] ∧ w.pairs = [(⟨60, by decide⟩, 2)] ∧
      ∀ turns₁ turns₂ s₁ w₁, tornScan = turns₁ ++ turns₂ →
        (Sys.init (.withConfig {})).runIter turns₁ = some (s₁, w₁) → ¬ s₁.mem.Contents w.pairs := by
  have he : ((Sys.init (.withConfig {} : LearnedMap (Fin (2 ^ 8)) ℕ)).runIter tornScan).map
      (fun p => (p.2.stack, p.2.pairs)) = some ([], [(⟨60, by decide⟩, 2)]) := by decide +kernel
  have hall : ∀ i ≤ tornScan.length, ((Sys.init (.withConfig {} : LearnedMap (Fin (2 ^ 8)) ℕ)).runIter
      (tornScan.take i)).all inOrder = true := by decide +kernel
  obtain ⟨⟨s', w⟩, hrun, hw⟩ := Option.map_eq_some_iff.1 he
  obtain ⟨hs, hp⟩ := Prod.mk.inj hw
  refine ⟨s', w, hrun, hs, hp, fun turns₁ turns₂ s₁ w₁ ht h₁ hcon => ?_⟩
  have hi := hall turns₁.length (by rw [ht, List.length_append]; exact Nat.le_add_right _ _)
  rw [ht, List.take_left, h₁] at hi
  have := inOrder_contents hi hcon (by rw [show w.pairs = _ from hp]; decide)
  rw [show w.pairs = _ from hp] at this
  revert this
  decide

/-- A scan of an empty map: when it has passed ten slots, a thread inserts a byte that is
    still ahead and then one that is behind. -/
def seenScan : List (Turn (Fin (2 ^ 8)) ℕ) :=
  List.replicate 10 Turn.visit ++
    (Turn.act (.call 0 (.insert ⟨60, by decide⟩ 2)) :: List.replicate 8 (.act (.step 0))) ++
    (Turn.act (.call 0 (.insert ⟨3, by decide⟩ 1)) :: List.replicate 8 (.act (.step 0))) ++
    List.replicate 55 Turn.visit

/-- The scan takes along the first byte and misses the second: it returns what the map held
    between the two insertions. -/
theorem iterSorted_contents_bytes : ∃ turns₁ turns₂ s₁ w₁, seenScan = turns₁ ++ turns₂ ∧
    (Sys.init (.withConfig {} : LearnedMap (Fin (2 ^ 8)) ℕ)).runIter turns₁ = some (s₁, w₁) ∧
      s₁.mem.Contents [(⟨60, by decide⟩, 2)] := by
  have := lawfulKey_unsigned (show 8 ≤ 64 by decide)
  have he : ((Sys.init (.withConfig {} : LearnedMap (Fin (2 ^ 8)) ℕ)).runIter seenScan).map
      (fun p => (p.2.stack, p.2.pairs)) = some ([], [(⟨60, by decide⟩, 2)]) := by decide +kernel
  have hc : checked (Sys.init (.withConfig {} : LearnedMap (Fin (2 ^ 8)) ℕ),
      .start (Sys.init (.withConfig {} : LearnedMap (Fin (2 ^ 8)) ℕ)).mem.root.node) false
        seenScan = true := by
    decide +kernel
  obtain ⟨⟨s', w⟩, hrun, hw⟩ := Option.map_eq_some_iff.1 he
  obtain ⟨hs, hp⟩ := Prod.mk.inj hw
  have hrun₀ : (Sys.init (.withConfig {} : LearnedMap (Fin (2 ^ 8)) ℕ)).run [] =
      some (Sys.init (.withConfig {})) := rfl
  have hcon := iterSorted_contents (show ({} : Config).Valid from ⟨one_le_two, le_rfl⟩)
    .withConfig hrun₀ (meets_of_checked hc False.elim) hrun hs
  rw [show w.pairs = _ from hp] at hcon
  exact hcon

end Sys

end Scry.Index
