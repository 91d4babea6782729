/-
  Updates that have to see to it that their key gets a property.

  An update is obliged (`Obliged`) if what it makes of its key has the property, and, as
  long as it looks for the slot, it is at its root, or what it looks at still lacks the
  property, or its tree is sure of it.  It stays obliged in its own steps until the map is
  sure of the property, and so it does in the steps of others that respect it.
-/
import Scry.Index.Proof.Settle

namespace Scry.Index

variable {K V : Type} [LinearOrder K] [Key K] {m m' : Mem K V} {th th' : Thread K V} {k : K}
  {P : Option V → Prop} {next : Next K V}

/-- What the update makes of its key, or finds there when it stops, has the property. -/
def Call.Aims (P : Option V → Prop) : Call K V → Prop
  | .insert _ v => P (some v)
  | .getOrInsert _ _ => ∀ v, P (some v)
  | .remove _ => P none
  | _ => False

namespace Call.Aims

omit [LinearOrder K] [Key K] in
theorem not_get {c : Call K V} (h : c.Aims P) (k' : K) : c ≠ .get k' := by
  rintro rfl
  exact h

omit [LinearOrder K] [Key K] in
theorem value {c : Call K V} (h : c.Aims P) {v : V} (hv : c.value = some v) : P (some v) := by
  cases c with
  | insert => cases hv; exact h
  | getOrInsert => exact h v
  | _ => cases hv

omit [LinearOrder K] [Key K] in
theorem remove {c : Call K V} (h : c.Aims P) (hc : c = .remove k) : P none := by
  subst hc
  exact h

theorem respects (h : th.call.Aims P) : Respects P m k th where
  publish _ _ _ hv _ := h.value hv
  bury _ _ hc _ := h.remove hc

end Call.Aims

/-- A step that does not change the slot respects everything, or is a CAS that fails. -/
theorem respects_of_not_writes {config : Config} (hw : ¬ th.Writes m)
    (h : th.step config m = some (m', next)) :
    (th.pc = .claim ∧ m' = m ∧ next = .goto { th with pc := .readSlot }) ∨
      ∀ P, Respects P m k th := by
  have hpub : th.pc ≠ .publish := fun he => hw (Or.inl he)
  by_cases hb : th.pc = .claim ∧ th.write = .bury
  · left
    obtain ⟨hpc, hb⟩ := hb
    have hs : (m.cells th.cur).state th.idx ≠ .data := fun hd => hw (Or.inr ⟨hpc, hb, hd⟩)
    simp only [Thread.step, hpc, stepClaim, hb, Write.prev, if_neg hs] at h
    cases h
    exact ⟨hpc, rfl, rfl⟩
  · exact Or.inr fun P => ⟨fun _ hpc => absurd hpc hpub, fun hpc hwr => absurd ⟨hpc, hwr⟩ hb⟩

omit [LinearOrder K] [Key K] in
theorem Thread.Writes.not_done (hw : th.Writes m) : th.pc.isDone = false := by
  rcases hw with hpc | ⟨hpc, -⟩ <;> rw [hpc] <;> rfl

/-- The update looks for its slot. -/
def Pc.reads : Pc K V → Bool
  | .readSlot => true
  | .loadChild => true
  | .claim => true
  | _ => false

omit [LinearOrder K] [Key K] in
theorem Next.Passes.not_reads (h : next.Passes th) (hn : next = .goto th') :
    th'.pc.reads = false := by
  obtain ⟨pc, rfl, hpc⟩ := h
  cases hn
  cases pc <;> first | rfl | cases hpc

/-- An update that begins to look for its slot again is at the root, or it comes from its
    own lookup. -/
theorem step_reads (hg : ∀ k', th.call ≠ .get k') (hnd : th.pc.isDone = false)
    {config : Config} (h : th.step config m = some (m', .goto th')) (hpc : th.pc.reads = false)
    (hr : th'.pc.reads = true) : th'.first = none ∨ th.pc.isLook = true := by
  have hpasses : ∀ {next : Next K V}, next.Passes th → next = .goto th' → th'.first = none := by
    intro next hp hn
    rw [hp.not_reads hn] at hr
    cases hr
  cases hpc' : th.pc <;> simp only [Thread.step, hpc'] at h
  case readSlot | loadChild | claim => rw [hpc'] at hpc; cases hpc
  case ownChild | look | lookChild => exact Or.inr rfl
  all_goals left
  case loadRoot =>
    have hn := (Prod.mk.inj (Option.some.inj h)).2
    unfold stepLoadRoot at hn
    split at hn
    · exact absurd ‹_› (hg _)
    · split_ifs at hn <;> cases hn
      · cases hr
      · rfl
  case publish =>
    unfold stepPublish at h
    split at h
    · cases h
      cases hr
    · cases h
      split_ifs at hr <;> cases hr
    · cases h
  case countTombstone => cases h; cases hr
  case validateChild =>
    have hn := (Prod.mk.inj (Option.some.inj h)).2
    rcases (stepValidateChild_cases : _ ∨ ∃ again, stepValidateChild config m th = th.retry again)
      with ⟨-, hp⟩ | ⟨again, he⟩
    · exact hpasses hp hn
    · rw [he] at hn
      cases hn
      rfl
  case checkRatio =>
    exact hpasses finishes_stepCheckRatio.passes (Prod.mk.inj (Option.some.inj h)).2
  case subState =>
    exact hpasses finishes_stepSubState.passes (Prod.mk.inj (Option.some.inj h)).2
  case subLoad =>
    exact hpasses finishes_stepSubLoad.passes (Prod.mk.inj (Option.some.inj h)).2
  case subFreeze c =>
    exact hpasses (finishes_stepSubFreeze c).passes (congrArg Prod.snd (Option.some.inj h))
  case subWalk c w =>
    exact hpasses (finishes_stepSubWalk c w).passes (Prod.mk.inj (Option.some.inj h)).2
  case subSwap => exact hpasses (finishes_stepSubSwap h).passes rfl
  case validateRoot isNew val =>
    simp only [stepValidateRoot] at h
    split_ifs at h <;> cases h <;> cases hr
  all_goals rw [hpc'] at hnd; cases hnd

namespace Sys
variable {s s' : Sys K V} {t t' : ℕ}

/-- A step that does not change the slot keeps the map sure. -/
theorem SureTree.unwritten [LawfulKey K] (hinv : s.Inv) {r : NodeId} (h : SureTree P s k r)
    (hth : s.threads t = some th) (hw : ¬ th.Writes s.mem)
    (hstep : th.step s.config s.mem = some (m', next)) :
    SureTree P (s.proceed t th.call m' next) k r := by
  rcases respects_of_not_writes (k := k) hw hstep with ⟨-, rfl, rfl⟩ | hr
  · exact h.goto rfl _
  · exact h.step hinv hth hstep (hr P)

theorem SureRoot.unwritten [LawfulKey K] (hinv : s.Inv) (h : SureRoot P s k)
    (hth : s.threads t = some th) (hw : ¬ th.Writes s.mem)
    (hempty : ∀ r pairs, th.pc = .rootSwap r pairs → th.call = .drain ∨ th.call = .clear → P none)
    (hstep : th.step s.config s.mem = some (m', next)) :
    SureRoot P (s.proceed t th.call m' next) k := by
  rcases respects_of_not_writes (k := k) hw hstep with ⟨-, rfl, rfl⟩ | hr
  · exact h.goto rfl _
  · exact h.step hinv hth hstep (hr P) hempty

/-- An update that has to see to it that its key gets the property. -/
structure Obliged (P : Option V → Prop) (s : Sys K V) (k : K) (th : Thread K V) : Prop where
  key : th.call.key = some k
  aims : th.call.Aims P
  notDone : th.pc.isDone = false
  vouches : Vouches P s k th
  reads : th.pc.reads = true → th.first = none ∨ SureTree P s k th.root ∨
    s.mem.Sat (fun o => ¬ P o) k th.cur

/-- An invoked update is obliged to what it makes of its key. -/
theorem Obliged.start {call : Call K V} (hs : s.invoke t call = some s') (hkey : call.key = some k)
    (haims : call.Aims P) : ∃ t th, s'.threads t = some th ∧ Obliged P s' k th := by
  obtain ⟨-, rfl⟩ := invoke_eq_some hs
  refine ⟨t, _, Function.update_self _ _ _, hkey, haims, ?_, ?_, fun hr => ?_⟩ <;>
    cases call with
    | insert | getOrInsert | remove => first | rfl | trivial
    | _ => exact haims.elim

theorem Obliged.invoke {call : Call K V} (h : Obliged P s k th) (hs : s.invoke t call = some s') :
    Obliged P s' k th where
  key := h.key
  aims := h.aims
  notDone := h.notDone
  vouches := h.vouches.invoke hs
  reads hr := by
    have hm : s'.mem = s.mem := by
      obtain ⟨-, rfl⟩ := invoke_eq_some hs
      rfl
    rw [hm]
    exact (h.reads hr).imp_right (Or.imp_left fun ht => ht.invoke hs)

/-- **An update that changes the slot of its key** is obliged afterwards. -/
theorem Obliged.of_writes [LawfulKey K] (hinv : s.Inv) (hth : s.threads t = some th)
    (hkey : th.call.key = some k) (haims : th.call.Aims P) (hw : th.Writes s.mem)
    (hstep : th.step s.config s.mem = some (m', .goto th')) :
    Obliged P (s.proceed t th.call m' (.goto th')) k th' := by
  have hcall := (step_next hinv.headroom hinv.root (hinv.ok hth) (hinv.locks hth) hstep).call
  have hv : Vouches P (s.proceed t th.call m' (.goto th')) k th' := by
    rcases hw with hpc | ⟨hpc, -⟩
    · exact .publish hinv hth hpc hkey (fun v hv => haims.value hv) hstep
    · exact .claim hinv hth hpc hkey (fun hc => haims.remove hc) hstep
  have hpc' : th'.pc = .validateChild ∨ th'.pc = .countTombstone := by
    rcases hw with hpc | ⟨hpc, hb, hd⟩
    · simp only [Thread.step, hpc, stepPublish] at hstep
      split at hstep
      · cases hstep
        exact Or.inl rfl
      · cases hstep
        split_ifs
        · exact Or.inr rfl
        · exact Or.inl rfl
      · cases hstep
    · simp only [Thread.step, hpc, stepClaim, hb, Write.prev, hd, if_true] at hstep
      cases hstep
      exact Or.inr rfl
  refine ⟨hcall ▸ hkey, hcall ▸ haims, ?_, hv, fun hr => ?_⟩
  · rcases hpc' with hpc' | hpc' <;> rw [hpc'] <;> rfl
  · rcases hpc' with hpc' | hpc' <;> rw [hpc'] at hr <;> cases hr

/-- **The look of an obliged update at its slot.** -/
theorem Obliged.readSlot [LawfulKey K] (hinv : s.Inv) (h : Obliged P s k th)
    (hth : s.threads t = some th) (hpc : th.pc = .readSlot)
    (hstep : th.step s.config s.mem = some (m', .goto th')) (hnd : th'.pc.isDone = false) :
    Obliged P (s.proceed t th.call m' (.goto th')) k th' := by
  have hok := hinv.ok hth
  have hr : Respects P s.mem k th := h.aims.respects
  have htree : ∀ {r}, SureTree P s k r → SureTree P (s.proceed t th.call m' (.goto th')) k r :=
    fun h => h.step hinv hth hstep hr
  have hpos := h.reads (by rw [hpc]; rfl)
  simp only [Thread.Ok, hpc] at hok
  obtain ⟨k₁, hat⟩ := hok
  simp only [Thread.step, hpc] at hstep
  obtain ⟨n, hn, hm⟩ := Option.map_eq_some_iff.1 hstep
  cases hm
  obtain ⟨i, w, pc, rfl⟩ := stepReadSlot_same hn
  have hgo : pc = .readSlot ∨ pc = .loadChild ∨ pc = .claim →
      Obliged P (s.proceed t th.call s.mem (.goto { th with idx := i, write := w, pc := pc })) k
        { th with idx := i, write := w, pc := pc } := by
    intro hpc'
    refine ⟨h.key, h.aims, hnd, ?_, fun _ => ?_⟩
    · rcases hpc' with rfl | rfl | rfl <;> trivial
    · rw [proceed_mem]
      exact hpos.imp_right (Or.imp_left htree)
  rcases stepReadSlot_cases hat.2.2.curWF h.key hn with (hp | hp) | ⟨hs, hp | ⟨hp, hstop⟩⟩
  · exact hgo (Or.inl hp)
  · exact hgo (Or.inr (Or.inl hp))
  · exact hgo (Or.inr (Or.inr hp))
  · -- it stops, since the slot has the property
    have hP : P ((s.mem.cells th.cur).leafGet ((s.mem.cells th.cur).slotOf k) k) := by
      have ha := h.aims
      rcases hstop with ⟨hc, hget⟩ | ⟨v, v', hc, hget⟩ <;> rw [hc] at ha <;> rw [hget]
      · exact ha
      · exact ha v'
    obtain rfl : pc = _ := hp
    refine ⟨h.key, h.aims, hnd, ?_, fun hp' => (by cases hp')⟩
    show SureTree P _ k th.root
    rcases hpos with hf | ht | hns
    · have hcur := hat.2.2.start hf
      rw [hcur] at hs hP
      exact htree (.of_leaf hinv hat.2.2.rootWF hs ((Mem.sat_leaf hs).2 hP))
    · exact htree ht
    · exact absurd hP ((Mem.sat_leaf hs).1 hns)

/-- **The descent of an obliged update.** -/
theorem Obliged.loadChild [LawfulKey K] (hinv : s.Inv) (h : Obliged P s k th)
    (hth : s.threads t = some th) (hpc : th.pc = .loadChild)
    (hstep : th.step s.config s.mem = some (m', .goto th')) (hnd : th'.pc.isDone = false) :
    Obliged P (s.proceed t th.call m' (.goto th')) k th' := by
  have hok := hinv.ok hth
  have hr : Respects P s.mem k th := h.aims.respects
  have htree : ∀ {r}, SureTree P s k r → SureTree P (s.proceed t th.call m' (.goto th')) k r :=
    fun h => h.step hinv hth hstep hr
  have hpos := h.reads (by rw [hpc]; rfl)
  simp only [Thread.Ok, hpc] at hok
  obtain ⟨k₁, ⟨hat, hidx⟩, hs⟩ := hok
  obtain rfl := Option.some.inj (hat.1.symm.trans h.key)
  obtain ⟨p, hp, hpr, -⟩ := hat.2.2.curWF.cell.child _ hs
  simp only [Thread.step, hpc, stepLoadChild, hp] at hstep
  rw [hidx] at hs hp
  split_ifs at hstep with hfr
  · cases hstep
    refine ⟨h.key, h.aims, hnd, trivial, fun _ => ?_⟩
    rw [proceed_mem]
    exact hpos.imp_right (Or.imp_left htree)
  · cases hstep
    refine ⟨h.key, h.aims, hnd, trivial, fun _ => Or.inr ?_⟩
    rw [proceed_mem]
    rcases hpos with hf | ht | ht
    · -- the first descent: the child is in place
      have hcur := hat.2.2.start hf
      have hwf : s.mem.NodeWF p.node := hat.2.2.curWF.ofChild hs hp
      obtain ⟨o, ho⟩ := hwf.holds k₁
      by_cases hP : P o
      · have hpf : p = ⟨p.node, false⟩ := by
          cases p
          simp only [Bool.not_eq_true] at hfr
          rw [hfr]
        rw [hcur] at hs hp
        rw [hpf] at hp
        exact Or.inl (htree (.of_child hinv hat.2.2.rootWF
          ⟨rfl, rfl, hs, hwf, .refl _, hpr⟩ hp ⟨_, ho, hP⟩))
      · exact Or.inr ⟨_, ho, hP⟩
    · exact Or.inl (htree ht)
    · exact Or.inr ((Mem.sat_child hs hp).1 ht)

/-- The CAS of an obliged update that does not change the slot. -/
theorem Obliged.claim [LawfulKey K] (hinv : s.Inv) (h : Obliged P s k th)
    (hth : s.threads t = some th) (hpc : th.pc = .claim) (hw : ¬ th.Writes s.mem)
    (hstep : th.step s.config s.mem = some (m', .goto th')) :
    Obliged P (s.proceed t th.call m' (.goto th')) k th' := by
  have hpos := h.reads (by rw [hpc]; rfl)
  have htree : ∀ {r}, SureTree P s k r → SureTree P (s.proceed t th.call m' (.goto th')) k r :=
    fun h' => h'.unwritten hinv hth hw hstep
  simp only [Thread.step, hpc, stepClaim, Option.some.injEq] at hstep
  split_ifs at hstep with hs
  · split at hstep
    · rename_i hb
      rw [hb] at hs
      exact absurd (Or.inr ⟨hpc, hb, hs⟩) hw
    · cases hstep
      exact ⟨h.key, h.aims, rfl, trivial, fun hr => (by cases hr)⟩
  · cases hstep
    refine ⟨h.key, h.aims, rfl, trivial, fun _ => ?_⟩
    rw [proceed_mem]
    exact hpos.imp_right (Or.imp_left htree)

/-- **A step of an obliged update**: it stays obliged, or the map is sure of the property. -/
theorem Obliged.step [LawfulKey K] (hinv : s.Inv) (h : Obliged P s k th)
    (hth : s.threads t = some th) (hstep : th.step s.config s.mem = some (m', next)) :
    (∃ th', next = .goto th' ∧ Obliged P (s.proceed t th.call m' next) k th') ∨
      SureRoot P (s.proceed t th.call m' next) k := by
  have hg := h.aims.not_get
  rcases step_update hg h.notDone hstep with ⟨th', rfl, hnd⟩ | ⟨isNew, val, hpc, hroot, rfl⟩
  · refine Or.inl ⟨th', rfl, ?_⟩
    by_cases hw : th.Writes s.mem
    · exact .of_writes hinv hth h.key h.aims hw hstep
    by_cases h₁ : th.pc = .readSlot
    · exact h.readSlot hinv hth h₁ hstep hnd
    by_cases h₂ : th.pc = .loadChild
    · exact h.loadChild hinv hth h₂ hstep hnd
    by_cases h₃ : th.pc = .claim
    · exact h.claim hinv hth h₃ hw hstep
    have hcall := (step_next hinv.headroom hinv.root (hinv.ok hth) (hinv.locks hth) hstep).call
    have hreads : th.pc.reads = false := by
      cases hpc : th.pc <;> first | rfl | exact absurd hpc ‹_›
    refine ⟨hcall ▸ h.key, hcall ▸ h.aims, hnd, h.vouches.step hinv hth h.key hg
      (fun v hv => h.aims.value hv) (fun hc => h.aims.remove hc) hstep fun he => absurd he h₁,
      fun hr => ?_⟩
    rcases step_reads hg h.notDone hstep hreads hr with hf | hlook
    · exact Or.inl hf
    · -- the tree of the lookup is sure of the property
      refine Or.inr (Or.inl ?_)
      have hroot : th'.root = th.root :=
        step_root h.notDone (by intro he; rw [he] at hlook; cases hlook) hstep
      have hv := h.vouches
      have ht : SureTree P s k th.root := by
        cases hpc : th.pc <;> simp only [Vouches, hpc] at hv <;>
          first | exact hv.2 | (rw [hpc] at hlook; cases hlook)
      rw [hroot]
      exact ht.unwritten hinv hth hw hstep
  · exact Or.inr (h.vouches.root hinv hth hstep hpc hroot)

/-- **Steps of others that respect the property**, and its absence, keep an update obliged. -/
theorem Obliged.other [LawfulKey K] (hinv : s.Inv) (h : Obliged P s k th')
    (hth' : s.threads t' = some th') (hth : s.threads t = some th)
    (hstep : th.step s.config s.mem = some (m', next)) (hr : Respects P s.mem k th)
    (hr' : Respects (fun o => ¬ P o) s.mem k th) :
    Obliged P (s.proceed t th.call m' next) k th' where
  key := h.key
  aims := h.aims
  notDone := h.notDone
  vouches := h.vouches.other hinv hth' h.aims.not_get hth hstep hr
  reads hp := by
    have hc := (step_effect hinv.headroom (hinv.ok hth) (hinv.locks hth) hstep).content
      (hinv.ok hth) (hinv.locks hth)
    have hat : ∃ k', th'.At s.mem k' := by
      have hok := hinv.ok hth'
      cases hpc : th'.pc <;> rw [hpc] at hp <;> simp only [Thread.Ok, hpc] at hok
      case readSlot => exact hok
      case loadChild | claim => exact hok.imp fun _ h => h.1.1
      all_goals cases hp
    obtain ⟨k', hat⟩ := hat
    cases hf : th'.first with
    | none => exact Or.inl rfl
    | some f =>
      rcases h.reads hp with hn | ht | hs
      · rw [hf] at hn
        cases hn
      · exact Or.inr (Or.inl (ht.step hinv hth hstep hr))
      · refine Or.inr (Or.inr ?_)
        rw [proceed_mem]
        exact hinv.sat_below hth hc hr' hat.2.2.curWF (hat.2.2.descent _ _ _ hf).below hs

theorem Vouches.goto (h : Vouches P s k th') (hown : th.lock = none) (call : Call K V) :
    Vouches P (s.proceed t call s.mem (.goto th)) k th' := by
  have htree : ∀ {r : NodeId}, SureTree P s k r →
      SureTree P (s.proceed t call s.mem (.goto th)) k r := fun h => h.goto hown call
  obtain ⟨call, pc, was, again, root, cur, idx, depth, first, write, reply⟩ := th'
  cases pc with
  | countTombstone | validateChild => exact ⟨h.1, fun hf => htree (h.2 hf)⟩
  | checkRatio | subState | subLoad | subFreeze | subWalk | subSwap | ownChild | look
  | lookChild => exact ⟨h.1, htree h.2⟩
  | validateRoot => exact htree h
  | _ => trivial

/-- So do their steps that change no slot. -/
theorem Obliged.unwritten [LawfulKey K] (hinv : s.Inv) (h : Obliged P s k th')
    (hth' : s.threads t' = some th') (hth : s.threads t = some th) (hw : ¬ th.Writes s.mem)
    (hstep : th.step s.config s.mem = some (m', next)) :
    Obliged P (s.proceed t th.call m' next) k th' := by
  rcases respects_of_not_writes (k := k) hw hstep with ⟨-, rfl, rfl⟩ | hr
  · refine ⟨h.key, h.aims, h.notDone, ?_, fun hp => ?_⟩
    · exact Vouches.goto h.vouches rfl _
    · rw [proceed_mem]
      exact (h.reads hp).imp_right (Or.imp_left fun ht => ht.goto rfl _)
  · exact h.other hinv hth' hth hstep (hr P) (hr _)

/-- A write of a slot goes on. -/
theorem goto_of_writes (hw : th.Writes s.mem)
    (hstep : th.step s.config s.mem = some (m', next)) : ∃ th', next = .goto th' := by
  rcases hw with hpc | ⟨hpc, -⟩
  · simp only [Thread.step, hpc, stepPublish] at hstep
    split at hstep <;> cases hstep <;> exact ⟨_, rfl⟩
  · have hn := congrArg Prod.snd (Option.some.inj ((by rw [Thread.step, hpc] :
      th.step s.config s.mem = some (stepClaim s.mem th)).symm.trans hstep))
    unfold stepClaim at hn
    split_ifs at hn
    · split at hn <;> exact ⟨_, hn.symm⟩
    · exact ⟨_, hn.symm⟩

/-- An operation that changes a slot is an update. -/
theorem Inv.not_get (hinv : s.Inv) (hth : s.threads t = some th) (hw : th.Writes s.mem) (k' : K) :
    th.call ≠ .get k' := by
  have hok := hinv.ok hth
  rcases hw with hpc | ⟨hpc, -⟩ <;> simp only [Thread.Ok, hpc] at hok <;>
    obtain ⟨_, hat, -⟩ := hok <;> exact hat.1.2.1 k'

/-- The map is sure of the property, or an update has to see to it. -/
def Pursued (P : Option V → Prop) (s : Sys K V) (k : K) : Prop :=
  (∃ t th, s.threads t = some th ∧ Obliged P s k th) ∨ SureRoot P s k

theorem Pursued.invoke {call : Call K V} (h : Pursued P s k) (hs : s.invoke t call = some s') :
    Pursued P s' k := by
  rcases h with ⟨t', th', hth', hob⟩ | hsure
  · refine Or.inl ⟨t', th', ?_, hob.invoke hs⟩
    obtain ⟨hnone, rfl⟩ := invoke_eq_some hs
    have ht : t' ≠ t := by
      rintro rfl
      cases hnone.symm.trans hth'
    exact (Function.update_of_ne ht _ _).trans hth'
  · exact Or.inr (hsure.invoke hs)

/-- An update that changes the slot of its key pursues what it makes of it. -/
theorem Pursued.of_writes [LawfulKey K] (hinv : s.Inv) (hth : s.threads t = some th)
    (hkey : th.call.key = some k) (haims : th.call.Aims P) (hw : th.Writes s.mem)
    (hstep : th.step s.config s.mem = some (m', next)) :
    Pursued P (s.proceed t th.call m' next) k := by
  obtain ⟨th', rfl⟩ := goto_of_writes hw hstep
  exact Or.inl ⟨t, th', Function.update_self _ _ _, .of_writes hinv hth hkey haims hw hstep⟩

/-- **Step lemma**: what is pursued stays pursued if the changes of the key aim at it, or leave
    it as it is, and empty roots are swapped in only for a map that is not sure of it. -/
theorem Pursued.step [LawfulKey K] (hinv : s.Inv) (h : Pursued P s k) (hth : s.threads t = some th)
    (hwrite : th.Writes s.mem → th.call.key = some k → th.call.Aims P ∨
      Respects P s.mem k th ∧ Respects (fun o => ¬ P o) s.mem k th)
    (hempty : ∀ r pairs, th.pc = .rootSwap r pairs → th.call = .drain ∨ th.call = .clear →
      SureRoot P s k → P none)
    (hstep : th.step s.config s.mem = some (m', next)) :
    Pursued P (s.proceed t th.call m' next) k := by
  by_cases haims : th.Writes s.mem ∧ th.call.key = some k ∧ th.call.Aims P
  · obtain ⟨hw, hkey, ha⟩ := haims
    exact .of_writes hinv hth hkey ha hw hstep
  have hresp : th.Writes s.mem →
      Respects P s.mem k th ∧ Respects (fun o => ¬ P o) s.mem k th := by
    intro hw
    by_cases hkey : th.call.key = some k
    · exact (hwrite hw hkey).resolve_left fun ha => haims ⟨hw, hkey, ha⟩
    · exact ⟨respects_of_key hkey, respects_of_key hkey⟩
  rcases h with ⟨t', th', hth', hob⟩ | hsure
  · by_cases ht : t' = t
    · subst ht
      obtain rfl := Option.some.inj (hth.symm.trans hth')
      rcases hob.step hinv hth hstep with ⟨th₁, rfl, hob₁⟩ | hsure
      · exact Or.inl ⟨t', th₁, Function.update_self _ _ _, hob₁⟩
      · exact Or.inr hsure
    · refine Or.inl ⟨t', th', (proceed_threads_of_ne ht _ _ _).trans hth', ?_⟩
      by_cases hw : th.Writes s.mem
      · exact hob.other hinv hth' hth hstep (hresp hw).1 (hresp hw).2
      · exact hob.unwritten hinv hth' hth hw hstep
  · right
    by_cases hw : th.Writes s.mem
    · exact hsure.step hinv hth hstep (hresp hw).1 fun r pairs hpc hc => hempty r pairs hpc hc hsure
    · exact hsure.unwritten hinv hth hw (fun r pairs hpc hc => hempty r pairs hpc hc hsure) hstep

/-- Once no operation is in flight, the map is sure of what is pursued. -/
theorem Pursued.quiescent (h : Pursued P s k) (hq : s.Quiescent) : SureRoot P s k := by
  rcases h with ⟨t, th, hth, -⟩ | hsure
  · cases (hq t).symm.trans hth
  · exact hsure

end Sys

end Scry.Index
