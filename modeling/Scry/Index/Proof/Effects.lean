/-
  The updates of a key and what they read.

  An insert or a remove takes effect when it first changes the slot of its key, whichever
  tree it is in.  What may go wrong is the change of an attempt that a rebuild has
  overtaken, since it is made again in the new tree (`TakesEffectOnce`).  Until it changes
  its slot, an update is at nodes that hold what the map held of the key at some time
  since it was called (`Seeks`); from then on its reply is settled (`WillReturn`).
-/
import Scry.Index.Proof.Serial
import Scry.Index.Proof.Turns

namespace Scry.Index

variable {K V : Type} [LinearOrder K] [Key K] {m m' : Mem K V} {th th' : Thread K V} {k : K}
  {P Q : Option V → Prop} {next : Next K V} {n : NodeId}

/-! ## The record of a run -/

/-- An insert or a remove of the key. -/
def Call.IsUpdate (k : K) (c : Call K V) : Prop := (∃ v, c = .insert k v) ∨ c = .remove k

omit [LinearOrder K] [Key K] in
theorem Call.IsUpdate.key {c : Call K V} (h : c.IsUpdate k) : c.key = some k := by
  rcases h with ⟨v, rfl⟩ | rfl <;> rfl

omit [LinearOrder K] [Key K] in
theorem Call.IsUpdate.not_get {c : Call K V} (h : c.IsUpdate k) (k' : K) : c ≠ .get k' := by
  rcases h with ⟨v, rfl⟩ | rfl <;> rintro ⟨⟩

omit [LinearOrder K] [Key K] in
theorem Call.IsUpdate.not_empties {c : Call K V} (h : c.IsUpdate k) :
    c ≠ .drain ∧ c ≠ .clear := by
  rcases h with ⟨v, rfl⟩ | rfl <;> exact ⟨by rintro ⟨⟩, by rintro ⟨⟩⟩

/-- The record of a key: what it is after the updates that have taken effect, whose update
    was the last to change a slot, and for each thread whether its update has taken effect,
    and has added or removed the key by that. -/
structure Effects (V : Type) where
  value : Option V
  last : Option ℕ
  took : ℕ → Option Bool

/-- The record after a change of a slot by the update. -/
def Effects.change (R : Effects V) (t : ℕ) (c : Call K V) : Effects V where
  value := (c.keyStep R.value).1
  last := some t
  took := Function.update R.took t (some ((R.took t).getD (R.value.isSome != c.isInsert)))

namespace Thread

/-- Its next step changes the slot of its key. -/
def writes (m : Mem K V) (th : Thread K V) : Bool :=
  match th.pc with
  | .publish => true
  | .claim =>
    match th.write with
    | .bury => (m.cells th.cur).state th.idx = .data
    | _ => false
  | _ => false

/-- What its node holds in the slot of the key. -/
def held (m : Mem K V) (k : K) (th : Thread K V) : Option V :=
  (m.cells th.cur).leafGet ((m.cells th.cur).slotOf k) k

/-- The record of the key after the next step of the operation. -/
def noteEffect (m : Mem K V) (k : K) (t : ℕ) (R : Effects V) (th : Thread K V) : Effects V :=
  if th.call.key = some k ∧ th.writes m = true then R.change t th.call else R

/-- A change that the next step makes goes with the record: the first one of an update finds
    the key in the node or not as the record says, and so does one that it repeats, which
    is still the last one, unless the update has added or removed the key. -/
def inEffect (m : Mem K V) (k : K) (t : ℕ) (R : Effects V) (th : Thread K V) : Bool :=
  !th.writes m ||
    match R.took t with
    | none => (th.held m k).isSome == R.value.isSome
    | some fresh => R.last == some t && (fresh || (th.held m k).isSome == R.value.isSome)

/-- The next step of a lookup loads the state of a slot that held the key when it was
    claimed. -/
def overlooks (m : Mem K V) (k : K) (th : Thread K V) : Bool :=
  match th.pc with
  | .look n =>
    let c := m.cells n
    c.claimed (c.slotOf k) && (c.leafGet (c.slotOf k) k).isSome
  | _ => false

omit [LinearOrder K] [Key K] in
theorem writes_iff : th.writes m = true ↔ th.Writes m := by
  unfold writes Writes
  split
  · rename_i hpc
    simp [hpc]
  · rename_i hpc
    split
    · rename_i hw
      simp [hpc, hw]
    · rename_i hw
      simp only [Bool.false_eq_true, false_iff]
      rintro (he | ⟨-, hb, -⟩)
      · cases hpc.symm.trans he
      · exact hw hb
  · rename_i h₁ h₂
    simp only [Bool.false_eq_true, false_iff]
    rintro (he | ⟨he, -⟩)
    · exact h₁ he
    · exact h₂ he

end Thread

namespace Sys
variable {s s' : Sys K V} {t t' : ℕ} {o : Option V} {R R' : Effects V}

/-- The record of the key after an action. -/
def noteEffect (k : K) (s : Sys K V) (R : Effects V) : Act K V → Effects V
  | .call t c => if c.key = some k then { R with took := Function.update R.took t none } else R
  | .step t => (s.threads t).elim R fun th => th.noteEffect s.mem k t R

/-- **The updates of the key take effect once**: they change slots in keeping with the
    record, and what reads the key is called while the map is sure of what is recorded, and
    does not overlook it. -/
def TakesEffectOnce (k : K) (p : Sys K V × Effects V) : Act K V → Prop
  | .call _ c => c.key = some k → c.isInsert = false → SureRoot (· = p.2.value) p.1 k
  | .step t => ∀ th, p.1.threads t = some th → th.call.key = some k →
      th.inEffect p.1.mem k t p.2 = true ∧ th.overlooks p.1.mem k = false

/-! ## What an operation reads -/

theorem SureRoot.kept [LawfulKey K] (hinv : s.Inv) (h : SureRoot P s k)
    (hth : s.threads t = some th) (hd : th.call ≠ .drain) (hcl : th.call ≠ .clear)
    (hr : th.Writes s.mem → Respects P s.mem k th)
    (hstep : th.step s.config s.mem = some (m', next)) :
    SureRoot P (s.proceed t th.call m' next) k := by
  have hempty : ∀ r pairs, th.pc = .rootSwap r pairs → th.call = .drain ∨ th.call = .clear →
      P none := fun _ _ _ hc => (hc.elim (absurd · hd) (absurd · hcl))
  by_cases hw : th.Writes s.mem
  · exact h.step hinv hth hstep (hr hw) hempty
  · exact h.unwritten hinv hth hw hempty hstep

/-- The map is sure of what nothing contradicts. -/
theorem Inv.sureRoot (hinv : s.Inv) (hP : ∀ y, P y) : SureRoot P s k := by
  have hsat : ∀ {n : NodeId}, s.mem.NodeWF n → s.mem.Sat P k n := fun hn =>
    (hn.holds k).imp fun y hy => ⟨hy, hP y⟩
  refine ⟨⟨hinv.root.1, hsat hinv.root.1, fun {t th i w} hth hw _ => ?_⟩, fun {t th w} hth hw => ?_⟩
  · exact ⟨fun _ _ => hP _, fun f hf _ _ =>
      hsat (Thread.subWalker_stack (hinv.ok hth) (hinv.locks hth) hw f hf).1, fun _ _ => hP _⟩
  · exact ⟨fun _ _ => hP _, fun f hf _ _ =>
      hsat (Thread.rootWalker_stack (hinv.ok hth) (hinv.locks hth) hw f hf).1, fun _ _ => hP _⟩

/-- A lookup that loads a claimed slot without the key does not miss it. -/
theorem Finds.unclaimed (hinv : s.Inv) (h : Finds P s k th) (hth : s.threads t = some th)
    (hover : th.overlooks s.mem k = false) (hcl : th.loadsClaimed s.mem k = true) : P none := by
  have hok := hinv.ok hth
  cases hpc : th.pc <;> simp only [Thread.loadsClaimed, hpc] at hcl
  case look n =>
    simp only [Finds, hpc] at h
    simp only [Thread.Ok, hpc] at hok
    obtain ⟨-, -, hn, -⟩ := hok
    have hst : (s.mem.cells n).state ((s.mem.cells n).slotOf k) = .writing := by
      simpa using (Bool.and_eq_true_iff.1 hcl).2
    have hc : (s.mem.cells n).claimed ((s.mem.cells n).slotOf k) = true := by
      by_contra hidle
      rw [Cell.state, if_neg hidle] at hst
      exact hn.cell.idle _ hst
    simp only [Thread.overlooks, hpc, hc, Bool.true_and, Option.isSome_eq_false_iff,
      Option.isNone_iff_eq_none] at hover
    have hP := (Mem.sat_leaf (hn.cell.claimed _ hc)).1 h.1
    rwa [hover] at hP
  all_goals cases hcl

/-- Where an update that has changed nothing yet is, the node has the property; a remove that
    stops has read that the key is absent. -/
def Seeks (P : Option V → Prop) (s : Sys K V) (k : K) (th : Thread K V) : Prop :=
  match th.pc with
  | .loadRoot => True
  | .readSlot => FindsAt P s k th.cur
  | .loadChild => FindsAt P s k th.cur
  | .claim => FindsAt P s k th.cur
  | .publish => True
  | .validateRoot _ _ => th.call = .remove k ∧ P none
  | _ => False

theorem Seeks.imp (h : Seeks P s k th) (hPQ : ∀ y, P y → Q y) : Seeks Q s k th := by
  obtain ⟨call, pc, was, again, root, cur, idx, depth, first, write, reply⟩ := th
  cases pc with
  | readSlot | loadChild | claim => exact FindsAt.imp h hPQ
  | validateRoot => exact ⟨h.1, hPQ _ h.2⟩
  | _ => exact h

theorem Seeks.invoke {call : Call K V} (h : Seeks P s k th) (hs : s.invoke t call = some s') :
    Seeks P s' k th := by
  obtain ⟨call, pc, was, again, root, cur, idx, depth, first, write, reply⟩ := th
  cases pc with
  | readSlot | loadChild | claim => exact FindsAt.invoke h hs
  | _ => exact h

/-- **Steps of other operations**. -/
theorem Seeks.other [LawfulKey K] (hinv : s.Inv) (h : Seeks P s k th')
    (hth' : s.threads t' = some th') (hth : s.threads t = some th)
    (hr : th.Writes s.mem → Respects P s.mem k th)
    (hstep : th.step s.config s.mem = some (m', next)) :
    Seeks P (s.proceed t th.call m' next) k th' := by
  have hok := hinv.ok hth'
  obtain ⟨call, pc, was, again, root, cur, idx, depth, first, write, reply⟩ := th'
  cases pc with
  | readSlot =>
    obtain ⟨k', hat⟩ := hok
    exact FindsAt.step hinv h hat.2.2.curWF hth hr hstep
  | loadChild =>
    obtain ⟨k', hat, -⟩ := hok
    exact FindsAt.step hinv h hat.1.2.2.curWF hth hr hstep
  | claim =>
    obtain ⟨k', hat, -⟩ := hok
    exact FindsAt.step hinv h hat.1.2.2.curWF hth hr hstep
  | _ => exact h

/-- **A step of an update that has changed nothing** and goes on like that, or of a remove that
    returns that the key is absent. -/
theorem Seeks.own [LawfulKey K] (hinv : s.Inv) (hs : SureRoot P s k) (h : Seeks P s k th)
    (hth : s.threads t = some th) (hc : th.call.IsUpdate k) (hm : th.marked = false)
    (hw : ¬ th.Writes s.mem) (hstep : th.step s.config s.mem = some (m', next)) :
    (∃ th', next = .goto th' ∧ th'.marked = false ∧
      Seeks P (s.proceed t th.call m' next) k th') ∨
      (next = .ret (.bool false) ∧ th.call = .remove k ∧ P none) := by
  have hkey := hc.key
  have hat : ∀ {n}, FindsAt P s k n → s.mem.NodeWF n →
      FindsAt P (s.proceed t th.call m' next) k n := fun h hn =>
    h.step hinv hn hth (fun h => absurd h hw) hstep
  have hok := hinv.ok hth
  have hnd : th.pc.isDone = false := by
    cases hpc : th.pc <;> simp only [Seeks, hpc] at h <;> rfl
  have hnl : th.pc.isLook = false := by
    cases hpc : th.pc <;> simp only [Seeks, hpc] at h <;> rfl
  have hgo : ∀ {th'}, next = .goto th' → th'.pc.isDone = false → th'.marked = false := by
    rintro th' rfl hnd'
    rcases step_marked (hinv.ok hth) hc.not_get hnd (fun hl => absurd hl (by simp [hnl])) hstep hnd'
      with ⟨-, he⟩ | ⟨h, -⟩
    · rw [he, hm]
    · exact absurd h hw
  cases hpc : th.pc <;> simp only [Seeks, hpc] at h <;> simp only [Thread.Ok, hpc] at hok <;>
    simp only [Thread.step, hpc] at hstep
  case loadRoot =>
    obtain ⟨rfl, hn⟩ := Prod.mk.inj (Option.some.inj hstep)
    have hroot := hat hs.findsAt hinv.root.1
    unfold stepLoadRoot at hn
    split at hn
    · exact absurd ‹_› (hc.not_get _)
    · split_ifs at hn <;> cases hn
      · exact Or.inl ⟨_, rfl, hgo rfl rfl, trivial⟩
      · exact Or.inl ⟨_, rfl, hgo rfl rfl, hroot⟩
  case readSlot =>
    obtain ⟨k', ha⟩ := hok
    obtain ⟨n', hn, he⟩ := Option.map_eq_some_iff.1 hstep
    cases he
    obtain ⟨th', rfl, hnd⟩ := stepReadSlot_not_done hn
    refine Or.inl ⟨th', rfl, hgo rfl hnd, ?_⟩
    obtain ⟨i, w, pc, rfl⟩ := stepReadSlot_same hn
    rcases stepReadSlot_cases ha.2.2.curWF hkey hn with (rfl | rfl) | ⟨hsl, rfl | ⟨rfl, hstop⟩⟩
    · exact hat h ha.2.2.curWF
    · exact hat h ha.2.2.curWF
    · exact hat h ha.2.2.curWF
    · rcases hstop with ⟨hr, hget⟩ | ⟨v, v', hg, -⟩
      · exact ⟨hr, hget ▸ (Mem.sat_leaf hsl).1 h.1⟩
      · rcases hc with ⟨v₁, hc⟩ | hc <;> cases hc.symm.trans hg
  case loadChild =>
    obtain ⟨k', ⟨ha, hidx⟩, hch⟩ := hok
    obtain rfl := Option.some.inj (ha.1.symm.trans hkey)
    obtain ⟨p, hp, hpr, -⟩ := ha.2.2.curWF.cell.child _ hch
    simp only [stepLoadChild, hp] at hstep
    rw [hidx] at hch hp
    split_ifs at hstep <;> cases hstep
    · exact Or.inl ⟨_, rfl, hgo rfl rfl, hat h ha.2.2.curWF⟩
    · exact Or.inl ⟨_, rfl, hgo rfl rfl, hat (h.child hch hp hpr) (ha.2.2.curWF.ofChild hch hp)⟩
  case claim =>
    obtain ⟨k', ha, -⟩ := hok
    simp only [stepClaim, Option.some.injEq] at hstep
    split_ifs at hstep with hst
    · split at hstep
      · rename_i hb
        rw [hb] at hst
        exact absurd (Or.inr ⟨hpc, hb, hst⟩) hw
      · cases hstep
        exact Or.inl ⟨_, rfl, hgo rfl rfl, trivial⟩
    · cases hstep
      exact Or.inl ⟨_, rfl, hgo rfl rfl, hat h ha.1.2.2.curWF⟩
  case publish => exact absurd (Or.inl hpc) hw
  case validateRoot isNew val =>
    simp only [Thread.marked, hpc, Bool.or_eq_false_iff] at hm
    simp only [stepValidateRoot, hm.1, hm.2, Bool.or_self, Bool.false_eq_true, if_false,
      Option.some.injEq] at hstep
    split_ifs at hstep <;> cases hstep
    · refine Or.inr ⟨?_, h⟩
      simp only [Thread.result, h.1]
    · exact Or.inl ⟨_, rfl, hgo rfl rfl, trivial⟩

/-! ## Updates that have taken effect -/

/-- An update changes a slot without a child. -/
theorem Writes.leaf (hw : th.Writes s.mem) (hok : th.Ok s.mem) (hl : th.Locks s.mem)
    (hkey : th.call.key = some k) :
    ((s.mem.cells th.cur).slots ((s.mem.cells th.cur).slotOf k)).isChild = false := by
  rcases hw with hpc | ⟨hpc, hb, hd⟩ <;> simp only [Thread.Ok, hpc] at hok <;>
    obtain ⟨k', hat, hwr⟩ := hok <;> obtain rfl := Option.some.inj (hat.1.1.symm.trans hkey) <;>
    rw [← hat.2]
  · simp only [Thread.Locks, hpc] at hl
    rw [hl.2]
    exact hwr.prev.2
  · rw [((Cell.state_eq (by decide)).1 hd).2]
    rfl

/-- **A change of the slot** adds a key that the node does not hold, or removes one that it
    holds. -/
theorem isNew_of_held (hinv : s.Inv) (hth : s.threads t = some th) (hu : th.call.IsUpdate k)
    (hw : th.Writes s.mem) (hstep : th.step s.config s.mem = some (m', next)) :
    th.write.isNew = ((th.held s.mem k).isSome != th.call.isInsert) := by
  have hok := hinv.ok hth
  have hl := hinv.locks hth
  have hx : s.mem.Sat (· = th.held s.mem k) k th.cur :=
    (Mem.sat_leaf (Writes.leaf hw hok hl hu.key)).2 rfl
  rcases Writes.isNew hw hok hl hu.key hx hstep with ⟨-, hnew, v, hv⟩ | ⟨-, hnew, hsome, hc⟩
  · rcases hu with ⟨v', hc⟩ | hc <;> rw [hc] at hv
    · rw [hnew, hc]
      cases th.held s.mem k <;> rfl
    · cases hv
  · rw [hnew, hsome, hc]
    rfl

/-- The update that has taken effect returns `b`. -/
structure WillReturn (th : Thread K V) (b : Bool) : Prop where
  marked : th.pc.isDone = false → th.marked = b
  reply : th.pc.isDone = true → th.reply = .bool b

/-- **A step of an update that has taken effect**: it goes on to return what it would have. -/
theorem WillReturn.step [LawfulKey K] (hinv : s.Inv) {b : Bool} (h : WillReturn th b)
    (hth : s.threads t = some th) (hc : th.call.IsUpdate k)
    (hnew : th.Writes s.mem → th.write.isNew = true → th.marked = true)
    (hstep : th.step s.config s.mem = some (m', next)) :
    (∃ th', next = .goto th' ∧ WillReturn th' b) ∨ next = .ret (.bool b) := by
  have hok := hinv.ok hth
  have hg := hc.not_get
  by_cases hnd : th.pc.isDone = false
  · have hm := h.marked hnd
    rcases step_update hg hnd hstep with ⟨th', rfl, hnd'⟩ | ⟨isNew, val, hpc, hroot, -⟩
    · refine Or.inl ⟨th', rfl, fun _ => ?_, fun hd => absurd hd (by simp [hnd'])⟩
      have hf : th.forgets s.mem = false := by
        unfold Thread.forgets
        split
        · rcases hc with ⟨v, hc⟩ | hc <;> rw [hc]
        · rfl
      rcases step_marked hok hg hnd (fun hl => marked_of_look hok hg hf hl hstep) hstep hnd' with
        ⟨-, he⟩ | ⟨hw, he⟩
      · rw [he, hm]
      · have hnew := hnew hw
        rw [he]
        cases hi : th.write.isNew with
        | false => rw [Bool.or_false, hm]
        | true => rw [Bool.or_true, ← hnew hi, hm]
    · have hb : (isNew || th.was) = b := by
        rw [← hm, Bool.or_comm]
        simp only [Thread.marked, hpc]
      have hres : th.result b val = .bool b := by
        rcases hc with ⟨v, hc⟩ | hc <;> simp only [Thread.result, hc]
      simp only [Thread.step, hpc, stepValidateRoot, hroot, if_true, hb, hres] at hstep
      split_ifs at hstep <;> cases hstep
      · exact Or.inl ⟨_, rfl, ⟨fun hd => (by cases hd), fun _ => rfl⟩⟩
      · exact Or.inr rfl
  · have hd := h.reply (by simpa using hnd)
    rcases done_step (fun _ _ _ => hc.not_empties) (by simpa using hnd) hstep with ⟨pc, rfl, hpc⟩ | rfl
    · exact Or.inl ⟨_, rfl, ⟨fun h => absurd hpc (by simpa using h), fun _ => hd⟩⟩
    · exact Or.inr (by rw [hd])

/-- **An update takes effect** with its first change of a slot, which settles its reply. -/
theorem WillReturn.start [LawfulKey K] (hinv : s.Inv) (hth : s.threads t = some th)
    (hc : th.call.IsUpdate k) (hm : th.marked = false) (hw : th.Writes s.mem)
    (hstep : th.step s.config s.mem = some (m', next)) :
    ∃ th', next = .goto th' ∧ WillReturn th' th.write.isNew := by
  have hnd := hw.not_done
  have hnl : th.pc.isLook ≠ true := by
    rcases hw with hpc | ⟨hpc, -⟩ <;> rw [hpc] <;> rintro ⟨⟩
  rcases step_update hc.not_get hnd hstep with ⟨th', rfl, hnd'⟩ | ⟨isNew, val, hpc, -⟩
  · refine ⟨th', rfl, fun _ => ?_, fun hd => absurd hd (by simp [hnd'])⟩
    rcases step_marked (hinv.ok hth) hc.not_get hnd (fun hl => absurd hl hnl) hstep hnd' with
      ⟨hn, -⟩ | ⟨-, he⟩
    · exact absurd hw hn
    · rw [he, hm, Bool.false_or]
  · rcases hw with hp | ⟨hp, -⟩ <;> cases hpc.symm.trans hp

end Sys

end Scry.Index
