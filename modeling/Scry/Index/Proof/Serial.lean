/-
  A key that one operation at a time uses.

  While an update of the key is the only operation on it, its flag says whether it has
  changed the presence of the key (`Serving`), in whichever trees its attempts were.  So
  the operations on the key return what they do on a map of their own, whatever happens to
  other keys and however often the trees are rebuilt.
-/
import Scry.Index.Proof.Settle
import Scry.Index.Proof.Find

namespace Scry.Index

variable {K V : Type} [LinearOrder K] [Key K] {m m' : Mem K V} {th th' : Thread K V} {k : K}
  {P : Option V → Prop} {o : Option V} {next : Next K V}

/-! ## One key -/

/-- What an operation on a key does to what a map holds of the key, and what it returns. -/
def Call.keyStep (c : Call K V) (o : Option V) : Option V × Reply K V :=
  match c with
  | .insert _ v => (some v, .bool o.isNone)
  | .getOrInsert _ v => (o.or (some v), .value (o.getD v))
  | .remove _ => (none, .bool o.isSome)
  | _ => (o, .option o)

/-- What a map holds of the key after the operations of a history that have returned. -/
def keyAfter (k : K) (o : Option V) : List (Event K V) → Option V
  | [] => o
  | .inv _ _ :: h => keyAfter k o h
  | .ret _ c _ :: h =>
    if c.key = some k then (c.keyStep (keyAfter k o h)).1 else keyAfter k o h

/-- The operations on the key returned what they do one after the other. -/
def KeySerial (k : K) (o : Option V) : List (Event K V) → Prop
  | [] => True
  | .inv _ _ :: h => KeySerial k o h
  | .ret _ c reply :: h =>
    (c.key = some k → reply = (c.keyStep (keyAfter k o h)).2) ∧ KeySerial k o h

/-! ## Lookups of a get_or_insert -/

/-- A `get_or_insert` publishes only a key that was absent. -/
theorem isNew_of_getOrInsert (hok : th.Ok m) (hpc : th.pc = .publish) {v : V}
    (hc : th.call = .getOrInsert k v) : th.write ≠ .bury ∧ th.write.isNew = true := by
  simp only [Thread.Ok, hpc] at hok
  obtain ⟨k', hat, hw⟩ := hok
  obtain rfl := Option.some.inj ((congrArg Call.key hc).symm.trans hat.1.1)
  generalize th.write = w at hw
  cases hw with
  | inline => exact ⟨by rintro ⟨⟩, rfl⟩
  | tombstone => exact ⟨by rintro ⟨⟩, rfl⟩
  | data _ _ _ _ _ hg => exact ⟨by rintro ⟨⟩, decide_eq_true (hg ⟨v, hc⟩)⟩
  | bury hb => cases hc.symm.trans hb

/-- A call that has a result which it did not find in a slot has added its key. -/
theorem marked_of_result {config : Config} (hok : th.Ok m) {v : V}
    (hc : th.call = .getOrInsert k v) (hread : th.pc ≠ .readSlot)
    (h : th.step config m = some (m', .goto th')) {isNew : Bool} {val : Option V}
    (hpc' : th'.pc = .validateRoot isNew val) : th.marked = true := by
  have hcompared : th.marked = false → th.pc = .loadRoot ∨ th.pc = .readSlot ∨
      th.pc = .loadChild ∨ th.pc = .claim ∨ th.pc = .publish ∨ th.pc = .countTombstone ∨
      th.pc = .validateChild ∨ ∃ isNew val, th.pc = .validateRoot isNew val := by
    intro hm
    unfold Thread.marked at hm
    cases hpc : th.pc <;> simp [hpc] at hm ⊢
  by_contra hm
  rcases hcompared (by simpa using hm) with hpc | hpc | hpc | hpc | hpc | hpc | hpc | ⟨b, o, hpc⟩ <;>
    simp only [Thread.step, hpc] at h
  · simp only [stepLoadRoot, hc] at h
    split_ifs at h <;> cases h <;> cases hpc'
  · exact hread hpc
  · simp only [stepLoadChild, hc] at h
    split at h
    · cases h; cases hpc'
    · split_ifs at h <;> cases h <;> cases hpc'
  · have hn := congrArg Prod.snd (Option.some.inj h)
    unfold stepClaim at hn
    split_ifs at hn
    · split at hn <;> cases hn <;> cases hpc'
    · cases hn; cases hpc'
  · unfold stepPublish at h
    split at h
    · cases h; cases hpc'
    · cases h
      split_ifs at hpc'
    · cases h
  · cases h; cases hpc'
  · obtain ⟨-, hnew⟩ := getOrInsert_isNew hok hpc hc
    simp [Thread.marked, hpc, hnew] at hm
  · simp only [stepValidateRoot] at h
    split_ifs at h <;> cases h <;> cases hpc'

namespace Sys
variable {s s' : Sys K V} {t t' : ℕ} {x : Option V}

/-- **The lookup at the end of a `get_or_insert`** goes on to where the key is, and finds it. -/
theorem Vouches.looks (hinv : s.Inv) (h : Vouches (· = x) s k th) (hth : s.threads t = some th)
    (hkey : th.call.key = some k) (hg : ∀ k', th.call ≠ .get k')
    (hx : ∀ v, th.call = .getOrInsert k v → x ≠ none) (hlook : th.pc.isLook = true)
    (hpub : th.loadsClaimed s.mem k = false)
    (hstep : th.step s.config s.mem = some (m', next)) :
    ∃ pc, next = .goto { th with pc := pc } ∧
      (pc.isLook = true ∨ ∃ v, x = some v ∧ pc = .validateRoot true (some v)) := by
  have hok := hinv.ok hth
  cases hpc : th.pc <;> simp only [Thread.Ok, hpc] at hok <;> simp only [Vouches, hpc] at h <;>
    simp only [Thread.step, hpc] at hstep
  case ownChild =>
    obtain ⟨k', hat, hs⟩ := hok
    obtain ⟨p, hp, -⟩ := hat.1.2.2.curWF.cell.child _ hs
    simp only [stepOwnChild, hp] at hstep
    cases hstep
    exact ⟨_, rfl, Or.inl rfl⟩
  case look n =>
    obtain ⟨k', -, hn, -⟩ := hok
    obtain ⟨n', hl, hm⟩ := Option.map_eq_some_iff.1 hstep
    cases hm
    unfold stepLook at hl
    split at hl
    · exact absurd ‹_› (hg _)
    · rename_i key value hc
      obtain rfl : key = k := by rw [hc] at hkey; exact Option.some.inj hkey
      cases hl
      have hst : (s.mem.cells n).state ((s.mem.cells n).slotOf key) ≠ .writing := by
        simpa [Thread.loadsClaimed, hpc, hkey] using hpub
      rcases lookSlot_finds th key hn with ⟨he, -⟩ | ⟨o, he, ho⟩ | ⟨-, hw⟩
      · exact ⟨_, he, Or.inl rfl⟩
      · obtain ⟨_, hx', rfl⟩ := h.1
        obtain ⟨v, rfl⟩ := Option.ne_none_iff_exists'.1 (hx _ hc)
        rw [ho.unique hx'] at he
        have hfound : th.found (some v) = th.goto (.validateRoot true (some v)) := by
          simp only [Thread.found, hc]
        exact ⟨_, he.trans hfound, Or.inr ⟨v, rfl, rfl⟩⟩
      · exact absurd hw hst
    · cases hl
  case lookChild n =>
    obtain ⟨k', ⟨hkey', hn, -⟩, hch⟩ := hok
    obtain rfl := Option.some.inj (hkey'.symm.trans hkey)
    obtain ⟨n', hl, hm⟩ := Option.map_eq_some_iff.1 hstep
    cases hm
    obtain ⟨p, hp, -⟩ := hn.cell.child _ hch
    unfold stepLookChild at hl
    split at hl
    · exact absurd ‹_› (hg _)
    · rename_i key value hc
      obtain rfl : key = k' := by rw [hc] at hkey; exact Option.some.inj hkey
      have hp' : (s.mem.cells n).children ((s.mem.cells n).head.predictSlot key) = some p := hp
      cases hl
      simp only [Index.lookChild, hp']
      exact ⟨_, rfl, Or.inl rfl⟩
    · cases hl
  all_goals rw [hpc] at hlook; cases hlook

/-! ## Where the tree of an attempt stands -/

/-- The map is sure of the property, and so is the tree of the attempt. -/
def Stands (P : Option V → Prop) (s : Sys K V) (k : K) (th : Thread K V) : Prop :=
  SureRoot P s k ∧ (th.pc ≠ .loadRoot → SureTree P s k th.root)

theorem Stands.invoke {call : Call K V} (h : Stands P s k th) (hs : s.invoke t call = some s') :
    Stands P s' k th :=
  ⟨h.1.invoke hs, fun hpc => (h.2 hpc).invoke hs⟩

theorem Stands.other [LawfulKey K] (hinv : s.Inv) (h : Stands P s k th')
    (hth : s.threads t = some th) (hstep : th.step s.config s.mem = some (m', next))
    (hne : th.call.key ≠ some k) (hd : th.call ≠ .drain) (hcl : th.call ≠ .clear) :
    Stands P (s.proceed t th.call m' next) k th' :=
  ⟨h.1.step hinv hth hstep (respects_of_key hne) fun _ _ _ hc =>
      (hc.elim (absurd · hd) (absurd · hcl)),
    fun hpc => (h.2 hpc).step hinv hth hstep (respects_of_key hne)⟩

/-- The step of the attempt itself. -/
theorem Stands.own [LawfulKey K] (hinv : s.Inv) (h : Stands P s k th) (hth : s.threads t = some th)
    (hg : ∀ k', th.call ≠ .get k') (hkey : th.call.key = some k) (hnd : th.pc.isDone = false)
    (hr : Respects P s.mem k th) (hstep : th.step s.config s.mem = some (m', .goto th')) :
    Stands P (s.proceed t th.call m' (.goto th')) k th' := by
  have htree : ∀ {r}, SureTree P s k r → SureTree P (s.proceed t th.call m' (.goto th')) k r :=
    fun h => h.step hinv hth hstep hr
  refine ⟨h.1.step hinv hth hstep hr fun _ _ _ hc => ?_, fun hpc' => ?_⟩
  · rcases hc with hc | hc <;> rw [hc] at hkey <;> cases hkey
  · by_cases hpc : th.pc = .loadRoot
    · simp only [Thread.step, hpc] at hstep
      have hn := (Prod.mk.inj (Option.some.inj hstep)).2
      unfold stepLoadRoot at hn
      split at hn
      · exact absurd ‹_› (hg _)
      · split_ifs at hn <;> cases hn
        · exact absurd rfl hpc'
        · exact htree h.1.tree
    · rw [step_root hnd hpc hstep]
      exact htree (h.2 hpc)

theorem Stands.quiet [LawfulKey K] (hinv : s.Inv) (h : Stands P s k th) (hth : s.threads t = some th)
    (hg : ∀ k', th.call ≠ .get k') (hkey : th.call.key = some k) (hnd : th.pc.isDone = false)
    (hw : ¬ th.Writes s.mem) (hstep : th.step s.config s.mem = some (m', .goto th')) :
    Stands P (s.proceed t th.call m' (.goto th')) k th' := by
  rcases respects_of_not_writes (k := k) hw hstep with ⟨hpc, rfl, he⟩ | hr
  · cases he
    have hroot : th.pc ≠ .loadRoot := by rw [hpc]; rintro ⟨⟩
    exact ⟨h.1.goto rfl _, fun _ => (h.2 hroot).goto rfl _⟩
  · exact h.own hinv hth hg hkey hnd (hr P) hstep

/-- An update of the key that is not done, while no other operation uses the key; `o` is
    what the map held of the key before. -/
structure Serving (o : Option V) (s : Sys K V) (k : K) (th : Thread K V) : Prop where
  settled : Settled s k th
  vouches : Vouches (· = (th.call.keyStep o).1) s k th
  unmarked : th.marked = false → Stands (fun x => x.isSome = o.isSome) s k th
  marked : th.marked = true → (th.call.keyStep o).1.isSome ≠ o.isSome
  values (v : V) : th.call = .getOrInsert k v →
    Stands (fun x => x = o ∨ x = o.or (some v)) s k th ∧
      ∀ isNew val, th.pc = .validateRoot isNew val → val = o.or (some v)

theorem Serving.invoke {call : Call K V} (h : Serving o s k th) (hs : s.invoke t call = some s') :
    Serving o s' k th where
  settled := h.settled.invoke hs
  vouches := h.vouches.invoke hs
  unmarked hm := (h.unmarked hm).invoke hs
  marked := h.marked
  values v hc := ⟨(h.values v hc).1.invoke hs, (h.values v hc).2⟩

/-- **Steps of operations that do not use the key** keep it. -/
theorem Serving.other [LawfulKey K] (hinv : s.Inv) (h : Serving o s k th')
    (hth' : s.threads t' = some th') (hg : ∀ k', th'.call ≠ .get k') (hth : s.threads t = some th)
    (hstep : th.step s.config s.mem = some (m', next)) (hne : th.call.key ≠ some k)
    (hd : th.call ≠ .drain) (hcl : th.call ≠ .clear) :
    Serving o (s.proceed t th.call m' next) k th' where
  settled := h.settled.other hinv hth' hth hstep hne
  vouches := h.vouches.other hinv hth' hg hth hstep (respects_of_key hne)
  unmarked hm := (h.unmarked hm).other hinv hth hstep hne hd hcl
  marked := h.marked
  values v hc := ⟨(h.values v hc).1.other hinv hth hstep hne hd hcl, (h.values v hc).2⟩

/-- The node of an update that changes its slot holds something exactly. -/
theorem Settled.exact (h : Settled s k th) (hw : th.Writes s.mem) : ∃ x, ExactAt s k th x := by
  rcases hw with hpc | ⟨hpc, -⟩ <;> simpa only [Settled, hpc] using h

/-- **What a change of the slot does** to the presence of the key. -/
theorem Writes.isNew (hw : th.Writes s.mem) (hok : th.Ok s.mem) (hl : th.Locks s.mem)
    (hkey : th.call.key = some k) (hx : s.mem.Sat (· = x) k th.cur)
    (hstep : th.step s.config s.mem = some (m', next)) :
    (th.pc = .publish ∧ th.write.isNew = x.isNone ∧ ∃ v, th.call.value = some v) ∨
      (th.pc = .claim ∧ th.write.isNew = true ∧ x.isSome = true ∧ th.call = .remove k) := by
  rcases hw with hpc | ⟨hpc, hb, hd⟩
  · left
    have hb : th.write ≠ .bury := by
      intro hb
      simp only [Thread.step, hpc, stepPublish, hb] at hstep
      cases hstep
    refine ⟨hpc, isNew_of_publish hok hl hpc hkey hb hx, ?_⟩
    simp only [Thread.Ok, hpc] at hok
    obtain ⟨k', -, hwr⟩ := hok
    generalize th.write = w at hwr hb
    cases hwr with
    | inline hv => exact ⟨_, hv⟩
    | tombstone hv => exact ⟨_, hv⟩
    | data hv => exact ⟨_, hv⟩
    | bury => exact absurd rfl hb
  · refine Or.inr ⟨hpc, by rw [hb]; rfl, isSome_of_bury hok hpc hkey hb hd hx, ?_⟩
    simp only [Thread.Ok, hpc, hb] at hok
    obtain ⟨k', hat, hwr⟩ := hok
    obtain rfl := Option.some.inj (hat.1.1.symm.trans hkey)
    cases hwr with
    | bury hc => exact hc

theorem Stands.exact (h : Stands P s k th) (hpc : th.pc ≠ .loadRoot) (hx : ExactAt s k th x) :
    P x := by
  obtain ⟨_, h₁, hP⟩ := (h.2 hpc).sat
  obtain ⟨_, h₂, rfl⟩ := hx.1.sat
  exact h₁.unique h₂ ▸ hP

/-- A `get_or_insert` that changes its slot does so for a key that the map did not hold. -/
theorem Serving.absent (h : Serving o s k th) (hok : th.Ok s.mem) (hl : th.Locks s.mem)
    (hkey : th.call.key = some k) {v : V} (hc : th.call = .getOrInsert k v)
    (hw : th.Writes s.mem) (hstep : th.step s.config s.mem = some (m', next)) : o = none := by
  obtain ⟨x, hx⟩ := h.settled.exact hw
  rcases Writes.isNew hw hok hl hkey hx.2 hstep with ⟨hpc, hnew, -⟩ | ⟨-, -, -, he⟩
  · rw [(isNew_of_getOrInsert hok hpc hc).2] at hnew
    obtain rfl : x = none := by simpa using hnew.symm
    have hP := (h.values v hc).1.exact (by rw [hpc]; rintro ⟨⟩) hx
    cases o with
    | none => rfl
    | some w => simp at hP
  · cases hc.symm.trans he

/-- What an update reads that stops there, its key is meant to become. -/
theorem Serving.read (hinv : s.Inv) (h : Serving o s k th) {k' : K} (hat : th.At s.mem k')
    (hpc : th.pc = .readSlot)
    (hs : ((s.mem.cells th.cur).slots ((s.mem.cells th.cur).slotOf k)).isChild = false)
    (hstop : (th.call = .remove k ∧ (s.mem.cells th.cur).leafGet ((s.mem.cells th.cur).slotOf k) k = none) ∨
      ∃ v v', th.call = .getOrInsert k v ∧
        (s.mem.cells th.cur).leafGet ((s.mem.cells th.cur).slotOf k) k = some v') :
    (s.mem.cells th.cur).leafGet ((s.mem.cells th.cur).slotOf k) k = (th.call.keyStep o).1 ∧
      SureTree (· = (th.call.keyStep o).1) s k th.root := by
  have hset := h.settled
  simp only [Settled, hpc] at hset
  have hx := ExactAt.of_leaf hinv hset hat hs
  have hget : (s.mem.cells th.cur).leafGet ((s.mem.cells th.cur).slotOf k) k =
      (th.call.keyStep o).1 := by
    rcases hstop with ⟨hc, hget⟩ | ⟨v, v', hc, hget⟩
    · rw [hget, hc]
      rfl
    · have hP := (h.values v hc).1.exact (by rw [hpc]; rintro ⟨⟩) hx
      rw [hget] at hP ⊢
      rw [hc]
      rcases hP with hP | hP
      · rw [← hP]
        rfl
      · exact hP
  exact ⟨hget, hget ▸ hx.1⟩

/-- What an update of the key vouches for, it goes on to vouch for. -/
theorem Serving.vouches_step [LawfulKey K] (hinv : s.Inv) (h : Serving o s k th)
    (hth : s.threads t = some th) (hkey : th.call.key = some k) (hg : ∀ k', th.call ≠ .get k')
    (hstep : th.step s.config s.mem = some (m', .goto th')) :
    Vouches (· = (th.call.keyStep o).1) (s.proceed t th.call m' (.goto th')) k th' := by
  have hok := hinv.ok hth
  have hl := hinv.locks hth
  by_cases h₁ : th.pc = .publish
  · refine .publish hinv hth h₁ hkey (fun v hv => ?_) hstep
    cases hc : th.call with
    | insert k' v' => rw [hc] at hv; exact hv.symm
    | getOrInsert k' v' =>
      obtain rfl : k' = k := by rw [hc] at hkey; exact Option.some.inj hkey
      rw [hc] at hv
      rw [h.absent hok hl hkey hc (Or.inl h₁) hstep]
      exact hv.symm
    | _ => rw [hc] at hv; cases hv
  by_cases h₂ : th.pc = .claim
  · exact .claim hinv hth h₂ hkey (fun hc => by rw [hc]; rfl) hstep
  by_cases h₃ : th.pc = .readSlot
  · have hstep' := hstep
    simp only [Thread.Ok, h₃] at hok
    obtain ⟨k', hat⟩ := hok
    simp only [Thread.step, h₃] at hstep'
    obtain ⟨n, hn, hm⟩ := Option.map_eq_some_iff.1 hstep'
    cases hm
    obtain ⟨i, w, pc, rfl⟩ := stepReadSlot_same hn
    rcases stepReadSlot_cases hat.2.2.curWF hkey hn with (rfl | rfl) | ⟨hs, rfl | ⟨rfl, hstop⟩⟩
    · trivial
    · trivial
    · trivial
    · exact (h.read hinv hat h₃ hs hstop).2.step hinv hth hstep (respects_of_pc h₁ h₂)
  · exact h.vouches.own hinv hth hkey hg hstep h₁ h₂ h₃

/-- The lookup of an update finds what its key is meant to become. -/
theorem Serving.looks (hinv : s.Inv) (h : Serving o s k th) (hth : s.threads t = some th)
    (hkey : th.call.key = some k) (hg : ∀ k', th.call ≠ .get k')
    (hpub : th.loadsClaimed s.mem k = false)
    (hstep : th.step s.config s.mem = some (m', .goto th')) (hlook : th.pc.isLook = true) :
    th'.pc.isLook = true ∨ ∃ v, th'.pc = .validateRoot true (some v) := by
  have hx : ∀ v, th.call = .getOrInsert k v → (th.call.keyStep o).1 ≠ none := by
    rintro v hc
    rw [hc]
    cases o <;> exact Option.some_ne_none _
  obtain ⟨pc, hn, hpc⟩ := h.vouches.looks hinv hth hkey hg hx hlook hpub hstep
  cases hn
  exact hpc.imp_right (Exists.imp fun v hv => hv.2)

/-- **While an update has not changed the presence of its key**, nothing has. -/
theorem Serving.unmarked_step [LawfulKey K] (hinv : s.Inv) (h : Serving o s k th)
    (hth : s.threads t = some th) (hkey : th.call.key = some k) (hg : ∀ k', th.call ≠ .get k')
    (hnd : th.pc.isDone = false) (hpub : th.loadsClaimed s.mem k = false)
    (hstep : th.step s.config s.mem = some (m', .goto th')) (hnd' : th'.pc.isDone = false)
    (hm : th'.marked = false) :
    Stands (fun x => x.isSome = o.isSome) (s.proceed t th.call m' (.goto th')) k th' := by
  have hok := hinv.ok hth
  rcases step_marked hok hg hnd (fun hl => marked_of_looks (h.looks hinv hth hkey hg hpub hstep hl))
    hstep hnd' with ⟨hw, he⟩ | ⟨hw, he⟩
  · exact (h.unmarked (he ▸ hm)).quiet hinv hth hg hkey hnd hw hstep
  · obtain ⟨hm₀, hnew⟩ := Bool.or_eq_false_iff.1 (he.symm.trans hm)
    have hstands := h.unmarked hm₀
    obtain ⟨x, hx⟩ := h.settled.exact hw
    rcases Writes.isNew hw hok (hinv.locks hth) hkey hx.2 hstep with ⟨hpc, hx', -⟩ | ⟨-, hb, -⟩
    · -- it publishes a key that was there already
      have hsame := hstands.exact (by rw [hpc]; rintro ⟨⟩) hx
      refine hstands.own hinv hth hg hkey hnd ⟨fun v _ _ _ _ => ?_, fun he => ?_⟩ hstep
      · rw [← hsame]
        rw [hnew] at hx'
        simpa [Option.isSome_iff_ne_none] using hx'
      · cases hpc.symm.trans he
    · cases hnew.symm.trans hb

/-- **An update that has changed the presence of its key** was meant to. -/
theorem Serving.marked_step [LawfulKey K] (hinv : s.Inv) (h : Serving o s k th)
    (hth : s.threads t = some th) (hkey : th.call.key = some k) (hg : ∀ k', th.call ≠ .get k')
    (hnd : th.pc.isDone = false) (hpub : th.loadsClaimed s.mem k = false)
    (hstep : th.step s.config s.mem = some (m', .goto th')) (hnd' : th'.pc.isDone = false)
    (hm : th'.marked = true) : (th.call.keyStep o).1.isSome ≠ o.isSome := by
  have hok := hinv.ok hth
  by_cases hm₀ : th.marked = true
  · exact h.marked hm₀
  rw [Bool.not_eq_true] at hm₀
  rcases step_marked hok hg hnd (fun hl => marked_of_looks (h.looks hinv hth hkey hg hpub hstep hl))
    hstep hnd' with ⟨-, he⟩ | ⟨hw, he⟩
  · cases hm₀.symm.trans (he.symm.trans hm)
  · obtain ⟨x, hx⟩ := h.settled.exact hw
    have hsame := (h.unmarked hm₀).exact (by
      rcases hw with hpc | ⟨hpc, -⟩ <;> rw [hpc] <;> rintro ⟨⟩) hx
    rw [hm₀, Bool.false_or] at he
    rcases Writes.isNew hw hok (hinv.locks hth) hkey hx.2 hstep with
      ⟨-, hnew, v, hv⟩ | ⟨-, -, hsome, hc⟩
    · have hnone : x.isSome = false := by
        rw [← he, hm] at hnew
        simpa using hnew.symm
      rw [← hsame, hnone]
      cases hc : th.call with
      | insert => rintro ⟨⟩
      | getOrInsert => cases o <;> rintro ⟨⟩
      | _ => rw [hc] at hv; cases hv
    · rw [← hsame, hsome, hc]
      rintro ⟨⟩

/-- **The value of a `get_or_insert`** is the one that its key is meant to have. -/
theorem Serving.values_step [LawfulKey K] (hinv : s.Inv) (h : Serving o s k th)
    (hth : s.threads t = some th) (hg : ∀ k', th.call ≠ .get k') (hnd : th.pc.isDone = false)
    (hstep : th.step s.config s.mem = some (m', .goto th')) {v : V}
    (hc : th.call = .getOrInsert k v) :
    Stands (fun x => x = o ∨ x = o.or (some v)) (s.proceed t th.call m' (.goto th')) k th' ∧
      ∀ isNew val, th'.pc = .validateRoot isNew val → val = o.or (some v) := by
  have hok := hinv.ok hth
  have hkey : th.call.key = some k := by rw [hc]; rfl
  have hn : (th.call.keyStep o).1 = o.or (some v) := by rw [hc]; rfl
  obtain ⟨hstands, -⟩ := h.values v hc
  constructor
  · by_cases hw : th.Writes s.mem
    · have ho := h.absent hok (hinv.locks hth) hkey hc hw hstep
      refine hstands.own hinv hth hg hkey hnd ⟨fun v' _ _ hv _ => ?_, fun _ _ he => ?_⟩ hstep
      · rw [hc] at hv
        cases hv
        rw [ho]
        exact Or.inr rfl
      · cases hc.symm.trans he
    · exact hstands.quiet hinv hth hg hkey hnd hw hstep
  · intro isNew val hpc'
    by_cases hread : th.pc = .readSlot
    · have hstep' := hstep
      simp only [Thread.Ok, hread] at hok
      obtain ⟨k', hat⟩ := hok
      simp only [Thread.step, hread] at hstep'
      obtain ⟨n, hgo, hm⟩ := Option.map_eq_some_iff.1 hstep'
      cases hm
      rcases stepReadSlot_cases hat.2.2.curWF hkey hgo with (he | he) | ⟨hs, he | ⟨he, hstop⟩⟩
      · cases he.symm.trans hpc'
      · cases he.symm.trans hpc'
      · cases he.symm.trans hpc'
      · cases he.symm.trans hpc'
        rw [← hn]
        exact (h.read hinv hat hread hs hstop).1
    · rcases getOrInsert_result hok hc hnd hstep hpc' with he | rfl | ⟨n, v', hlook, rfl, hh⟩
      · exact absurd he hread
      · have hadded := h.marked (marked_of_result hok hc hread hstep hpc')
        rw [hn] at hadded
        cases o with
        | none => rfl
        | some w => exact absurd rfl hadded
      · have hv := h.vouches
        simp only [Vouches, hlook] at hv
        obtain ⟨_, hx, hxn⟩ := hv.1
        rw [← hn, ← hxn]
        exact hh.unique hx

/-- **A step of an update that goes on.** -/
theorem Serving.own [LawfulKey K] (hinv : s.Inv) (h : Serving o s k th)
    (hth : s.threads t = some th) (hkey : th.call.key = some k) (hg : ∀ k', th.call ≠ .get k')
    (hnd : th.pc.isDone = false) (hpub : th.loadsClaimed s.mem k = false)
    (hstep : th.step s.config s.mem = some (m', .goto th')) (hnd' : th'.pc.isDone = false) :
    Serving o (s.proceed t th.call m' (.goto th')) k th' := by
  have hcall : th'.call = th.call :=
    (step_next hinv.headroom hinv.root (hinv.ok hth) (hinv.locks hth) hstep).call
  refine ⟨?_, ?_, fun hm => ?_, fun hm => ?_, fun v hc => ?_⟩
  · exact h.settled.own hinv hth hkey hg hnd (h.looks hinv hth hkey hg hpub hstep) hstep
  · rw [hcall]
    exact h.vouches_step hinv hth hkey hg hstep
  · exact h.unmarked_step hinv hth hkey hg hnd hpub hstep hnd' hm
  · rw [hcall]
    exact h.marked_step hinv hth hkey hg hnd hpub hstep hnd' hm
  · rw [hcall] at hc
    exact h.values_step hinv hth hg hnd hstep hc

/-- **The end of an update**: the map is sure of what its key was meant to become, and the
    reply is that of the operation on its own. -/
theorem Serving.root [LawfulKey K] (hinv : s.Inv) (h : Serving o s k th)
    (hth : s.threads t = some th) (hkey : th.call.key = some k) (hg : ∀ k', th.call ≠ .get k')
    {isNew : Bool} {val : Option V} (hpc : th.pc = .validateRoot isNew val)
    (hroot : s.mem.root = ⟨th.root, false⟩)
    (hstep : th.step s.config s.mem = some (m', next)) :
    SureRoot (· = (th.call.keyStep o).1) (s.proceed t th.call m' next) k ∧
      ((∃ th', next = .goto th' ∧ th'.pc = .count ∧ th'.reply = (th.call.keyStep o).2 ∧
        (th.call.keyStep o).1.isSome ≠ o.isSome) ∨
        (next = .ret (th.call.keyStep o).2 ∧ (th.call.keyStep o).1.isSome = o.isSome)) := by
  refine ⟨h.vouches.root hinv hth hstep hpc hroot, ?_⟩
  have hm : th.marked = (isNew || th.was) := by
    simp only [Thread.marked, hpc]
    exact Bool.or_comm _ _
  -- the flag says whether the presence of the key was to change
  have hdid : th.marked = true ↔ (th.call.keyStep o).1.isSome ≠ o.isSome := by
    refine ⟨h.marked, fun hne => ?_⟩
    by_contra hun
    have htree := (h.unmarked (by simpa using hun)).2 (by rw [hpc]; rintro ⟨⟩)
    have hv := h.vouches
    simp only [Vouches, hpc] at hv
    obtain ⟨_, h₁, hP⟩ := htree.sat
    obtain ⟨_, h₂, rfl⟩ := hv.sat
    exact hne (h₁.unique h₂ ▸ hP)
  have hreply : th.result (isNew || th.was) val = (th.call.keyStep o).2 := by
    rw [← hm]
    cases hc : th.call with
    | insert key v =>
      rw [hc] at hdid
      simp only [Thread.result, hc, Call.keyStep]
      congr 1
      rw [Bool.eq_iff_iff, hdid]
      cases o <;> simp [Call.keyStep]
    | remove key =>
      rw [hc] at hdid
      simp only [Thread.result, hc, Call.keyStep]
      congr 1
      rw [Bool.eq_iff_iff, hdid]
      cases o <;> simp [Call.keyStep]
    | getOrInsert key v =>
      obtain rfl : key = k := by rw [hc] at hkey; exact Option.some.inj hkey
      rw [(h.values v hc).2 _ _ hpc]
      simp only [Thread.result, hc, Call.keyStep]
      cases o <;> rfl
    | get key => exact absurd hc (hg key)
    | _ => rw [hc] at hkey; cases hkey
  simp only [Thread.step, hpc, stepValidateRoot, hroot, if_true] at hstep
  rw [hreply, ← hm] at hstep
  split_ifs at hstep with hd <;> cases hstep
  · exact Or.inl ⟨_, rfl, rfl, rfl, hdid.1 hd⟩
  · refine Or.inr ⟨rfl, ?_⟩
    by_contra hne
    exact hd (hdid.2 hne)

/-! ## Runs -/

/-- No other thread runs an operation on the key. -/
def OnlyUser (s : Sys K V) (k : K) (t : ℕ) : Prop :=
  ∀ t' th, s.threads t' = some th → th.call.key = some k → t' = t

/-- How the key is used; the map held `o` of it before the operation that is running. -/
inductive Use (o : Option V) (s : Sys K V) (k : K) : Prop
  | idle (hno : ∀ t th, s.threads t = some th → th.call.key ≠ some k)
      (hs : SureRoot (· = o) s k)
  | looking {t : ℕ} {th : Thread K V} (hth : s.threads t = some th) (hc : th.call = .get k)
      (honly : OnlyUser s k t) (hs : SureRoot (· = o) s k) (hf : Finds (· = o) s k th)
  | serving {t : ℕ} {th : Thread K V} (hth : s.threads t = some th) (hkey : th.call.key = some k)
      (hg : ∀ k', th.call ≠ .get k') (honly : OnlyUser s k t) (hnd : th.pc.isDone = false)
      (h : Serving o s k th)
  | done {t : ℕ} {th : Thread K V} (hth : s.threads t = some th) (hkey : th.call.key = some k)
      (hg : ∀ k', th.call ≠ .get k') (honly : OnlyUser s k t) (hd : th.pc.isDone = true)
      (hs : SureRoot (· = (th.call.keyStep o).1) s k) (hr : th.reply = (th.call.keyStep o).2)
      (hne : (th.call.keyStep o).1.isSome ≠ o.isSome)

omit [LinearOrder K] [Key K] in
/-- An operation that has been invoked uses the key alone. -/
theorem onlyUser_invoke {c : Call K V} (hs : s.invoke t c = some s')
    (hno : ∀ t th, s.threads t = some th → th.call.key ≠ some k) : OnlyUser s' k t := by
  obtain ⟨-, rfl⟩ := invoke_eq_some hs
  intro t' th' hth' hk
  by_contra ht
  exact hno _ _ ((Function.update_of_ne ht _ _).symm.trans hth') hk

/-- An update that has been invoked. -/
theorem Serving.start (h : SureRoot (· = o) s k) {c : Call K V}
    (hpc : (Thread.start c).pc = .loadRoot) : Serving o s k (Thread.start c) where
  settled := by simp only [Settled, hpc]
  vouches := by simp only [Vouches, hpc]
  unmarked _ := ⟨h.imp fun x hx => by rw [hx], fun hne => absurd hpc hne⟩
  marked hm := by
    simp only [Thread.marked, hpc] at hm
    cases hm
  values v _ := ⟨⟨h.imp fun x hx => Or.inl hx, fun hne => absurd hpc hne⟩, fun _ _ he => by
    cases hpc.symm.trans he⟩

theorem Use.invoke {c : Call K V} (h : Use o s k) (hs : s.invoke t c = some s')
    (hno : c.key = some k → ∀ t th, s.threads t = some th → th.call.key ≠ some k) :
    Use o s' k := by
  have hnone := (invoke_eq_some hs).1
  have hthreads : ∀ {t' th}, t' ≠ t → (s'.threads t' = some th ↔ s.threads t' = some th) := by
    intro t' th ht
    obtain ⟨-, rfl⟩ := invoke_eq_some hs
    exact iff_of_eq (congrArg (· = some th) (Function.update_of_ne ht _ _))
  have hself : s'.threads t = some (Thread.start c) := by
    obtain ⟨-, rfl⟩ := invoke_eq_some hs
    exact Function.update_self _ _ _
  have hrunning : ∀ {t' th}, s.threads t' = some th → t' ≠ t := by
    rintro t' th hth rfl
    cases hnone.symm.trans hth
  -- an operation on the key that is running goes on to be the only one
  have honly' : ∀ {t' th}, s.threads t' = some th → th.call.key = some k → OnlyUser s k t' →
      OnlyUser s' k t' := by
    intro t' th hth hk honly t'' th'' hth'' hk''
    by_cases ht : t'' = t
    · subst ht
      cases hself.symm.trans hth''
      exact absurd hk (hno hk'' _ _ hth)
    · exact honly _ _ ((hthreads ht).1 hth'') hk''
  cases h with
  | idle hidle hsure =>
    by_cases hk : c.key = some k
    · have honly := onlyUser_invoke hs (k := k) hidle
      cases c with
      | get k' =>
        obtain rfl := Option.some.inj hk
        exact .looking hself rfl honly (hsure.invoke hs) trivial
      | insert | getOrInsert | remove =>
        exact .serving hself hk (by rintro _ ⟨⟩) honly rfl (.start (hsure.invoke hs) rfl)
      | _ => cases hk
    · refine .idle (fun t' th' hth' => ?_) (hsure.invoke hs)
      by_cases ht : t' = t
      · subst ht
        cases hself.symm.trans hth'
        exact hk
      · exact hidle _ _ ((hthreads ht).1 hth')
  | looking hth hc honly hsure hf =>
    exact .looking ((hthreads (hrunning hth)).2 hth) hc (honly' hth (by rw [hc]; rfl) honly)
      (hsure.invoke hs) (hf.invoke hs)
  | serving hth hkey hg honly hnd hserve =>
    exact .serving ((hthreads (hrunning hth)).2 hth) hkey hg (honly' hth hkey honly) hnd
      (hserve.invoke hs)
  | done hth hkey hg honly hd hsure hr hne =>
    exact .done ((hthreads (hrunning hth)).2 hth) hkey hg (honly' hth hkey honly) hd
      (hsure.invoke hs) hr hne

/-- A step changes no call. -/
theorem Inv.call_of_step [LawfulKey K] (hinv : s.Inv) (hth : s.threads t = some th)
    (hstep : th.step s.config s.mem = some (m', next)) {t' : ℕ} {th' : Thread K V}
    (hth' : (s.proceed t th.call m' next).threads t' = some th') :
    ∃ th₀, s.threads t' = some th₀ ∧ th'.call = th₀.call := by
  by_cases ht : t' = t
  · subst ht
    have hnext := step_next hinv.headroom hinv.root (hinv.ok hth) (hinv.locks hth) hstep
    rw [proceed_threads_self hth'] at hnext
    exact ⟨th, hth, hnext.call⟩
  · exact ⟨th', (proceed_threads_of_ne ht _ _ _).symm.trans hth', rfl⟩

theorem OnlyUser.step [LawfulKey K] (hinv : s.Inv) (h : OnlyUser s k t')
    (hth : s.threads t = some th) (hstep : th.step s.config s.mem = some (m', next)) :
    OnlyUser (s.proceed t th.call m' next) k t' := by
  intro t'' th'' hth'' hk
  obtain ⟨th₀, hth₀, hc⟩ := hinv.call_of_step hth hstep hth''
  exact h _ _ hth₀ (hc ▸ hk)

/-- Once the only operation on the key has returned, there is none. -/
theorem OnlyUser.returned [LawfulKey K] (hinv : s.Inv) (h : OnlyUser s k t)
    (hth : s.threads t = some th) {reply : Reply K V}
    (hstep : th.step s.config s.mem = some (m', .ret reply)) :
    ∀ t' th', (s.proceed t th.call m' (.ret reply)).threads t' = some th' →
      th'.call.key ≠ some k := by
  intro t' th' hth' hk
  obtain rfl := h.step hinv hth hstep _ _ hth' hk
  cases (Function.update_self _ _ _).symm.trans hth'

/-- **A step while at most one operation uses the key**: if that one returns, it returns what it
    does on its own. -/
theorem Use.step [LawfulKey K] (hinv : s.Inv) (h : Use o s k) (hth : s.threads t = some th)
    (hd : th.call ≠ .drain) (hcl : th.call ≠ .clear) (hpub : th.loadsClaimed s.mem k = false)
    (hstep : th.step s.config s.mem = some (m', next)) :
    (Use o (s.proceed t th.call m' next) k ∧ (th.call.key = some k → ∃ th', next = .goto th')) ∨
      (th.call.key = some k ∧ next = .ret (th.call.keyStep o).2 ∧
        Use (th.call.keyStep o).1 (s.proceed t th.call m' next) k) := by
  have hsure : ∀ {P}, SureRoot P s k → Respects P s.mem k th →
      SureRoot P (s.proceed t th.call m' next) k := fun h hr =>
    h.step hinv hth hstep hr fun _ _ _ hc => (hc.elim (absurd · hd) (absurd · hcl))
  have hcall : ∀ {th'}, next = .goto th' → th'.call = th.call := by
    rintro th' rfl
    exact (step_next hinv.headroom hinv.root (hinv.ok hth) (hinv.locks hth) hstep).call
  have hself : ∀ {th'}, next = .goto th' →
      (s.proceed t th.call m' next).threads t = some th' := by
    rintro th' rfl
    exact Function.update_self _ _ _
  -- an operation on the key by another thread
  have hother : ∀ {t₀ th₀}, s.threads t₀ = some th₀ → OnlyUser s k t₀ → t ≠ t₀ →
      th.call.key ≠ some k ∧ (s.proceed t th.call m' next).threads t₀ = some th₀ :=
    fun hth₀ honly ht => ⟨fun hk => ht (honly _ _ hth hk),
      (proceed_threads_of_ne (Ne.symm ht) _ _ _).trans hth₀⟩
  cases h with
  | idle hno hs =>
    have hne := hno _ _ hth
    refine Or.inl ⟨.idle (fun t' th' hth' => ?_) (hsure hs (respects_of_key hne)),
      fun hk => absurd hk hne⟩
    obtain ⟨th₀, hth₀, hc⟩ := hinv.call_of_step hth hstep hth'
    rw [hc]
    exact hno _ _ hth₀
  | @looking t₀ th₀ hth₀ hc honly hs hf =>
    by_cases ht : t = t₀
    · subst ht
      obtain rfl := Option.some.inj (hth.symm.trans hth₀)
      have hkey : th.call.key = some k := by rw [hc]; rfl
      have hr : ∀ {P}, Respects P s.mem k th := fun {P} =>
        ⟨fun _ _ _ hv => (by rw [hc] at hv; cases hv), fun _ _ hb => (by cases hc.symm.trans hb)⟩
      rcases hf.own hinv hs hth hc (fun hcl => absurd hcl (by simp [hpub])) hstep with
        ⟨th', hn, hf'⟩ | ⟨x, hn, hx⟩
      · exact Or.inl ⟨.looking (hself hn) ((hcall hn).trans hc) (honly.step hinv hth hstep)
          (hsure hs hr) hf', fun _ => ⟨th', hn⟩⟩
      · have hreply : next = .ret (th.call.keyStep o).2 := by
          rw [hn, hc, hx]
          rfl
        have hsame : (th.call.keyStep o).1 = o := by
          rw [hc]
          rfl
        refine Or.inr ⟨hkey, hreply, ?_⟩
        rw [hsame]
        refine .idle ?_ (hsure hs hr)
        subst hn
        exact honly.returned hinv hth hstep
    · obtain ⟨hne, hth₀'⟩ := hother hth₀ honly ht
      exact Or.inl ⟨.looking hth₀' hc (honly.step hinv hth hstep) (hsure hs (respects_of_key hne))
        (hf.other hinv hth₀ hth (fun _ => respects_of_key hne) hstep), fun hk => absurd hk hne⟩
  | @serving t₀ th₀ hth₀ hkey hg honly hnd hserve =>
    by_cases ht : t = t₀
    · subst ht
      obtain rfl := Option.some.inj (hth.symm.trans hth₀)
      rcases step_update hg hnd hstep with ⟨th', hn, hnd'⟩ | ⟨isNew, val, hpc, hroot, -⟩
      · subst hn
        have hc := hcall rfl
        exact Or.inl ⟨.serving (hself rfl) (hc ▸ hkey) (hc ▸ hg) (honly.step hinv hth hstep) hnd'
          (hserve.own hinv hth hkey hg hnd hpub hstep hnd'), fun _ => ⟨th', rfl⟩⟩
      · obtain ⟨hs, ⟨th', hn, hpc', hr, hne⟩ | ⟨hn, -⟩⟩ := hserve.root hinv hth hkey hg hpc hroot hstep
        · have hc := hcall hn
          refine Or.inl ⟨.done (hself hn) (hc ▸ hkey) (hc ▸ hg) (honly.step hinv hth hstep)
            (by rw [hpc']; rfl) (hc ▸ hs) (hc ▸ hr) (hc ▸ hne), fun _ => ⟨th', hn⟩⟩
        · refine Or.inr ⟨hkey, hn, .idle ?_ hs⟩
          subst hn
          exact honly.returned hinv hth hstep
    · obtain ⟨hne, hth₀'⟩ := hother hth₀ honly ht
      exact Or.inl ⟨.serving hth₀' hkey hg (honly.step hinv hth hstep) hnd
        (hserve.other hinv hth₀ hg hth hstep hne hd hcl), fun hk => absurd hk hne⟩
  | @done t₀ th₀ hth₀ hkey hg honly hdone hs hr hne =>
    by_cases ht : t = t₀
    · subst ht
      obtain rfl := Option.some.inj (hth.symm.trans hth₀)
      have hresp : ∀ {P}, Respects P s.mem k th := fun {P} =>
        respects_of_pc (fun hpc => by rw [hpc] at hdone; cases hdone)
          (fun hpc => by rw [hpc] at hdone; cases hdone)
      rcases done_step (fun _ _ _ => ⟨hd, hcl⟩) hdone hstep with ⟨pc, hn, hpc⟩ | hn
      · exact Or.inl ⟨.done (hself hn) hkey hg (honly.step hinv hth hstep) hpc (hsure hs hresp) hr hne,
          fun _ => ⟨_, hn⟩⟩
      · refine Or.inr ⟨hkey, by rw [hn, hr], .idle ?_ (hsure hs hresp)⟩
        subst hn
        exact honly.returned hinv hth hstep
    · obtain ⟨hne', hth₀'⟩ := hother hth₀ honly ht
      exact Or.inl ⟨.done hth₀' hkey hg (honly.step hinv hth hstep) hdone
        (hsure hs (respects_of_key hne')) hr hne, fun hk => absurd hk hne'⟩

/-- An operation on the key is invoked only while none is in flight. -/
def InvokedAlone (k : K) (s : Sys K V) : Act K V → Prop
  | .call _ c => c.key = some k → ∀ t th, s.threads t = some th → th.call.key ≠ some k
  | .step _ => True

/-- The operations on the key that have returned did so one after the other. -/
structure SerialKey (k : K) (o : Option V) (s : Sys K V) : Prop where
  history : KeySerial k o s.history
  use : Use (keyAfter k o s.history) s k

theorem SerialKey.act [LawfulKey K] {a : Act K V} (hinv : s.Inv) (h : SerialKey k o s)
    (hops : ∀ t th, s.threads t = some th → th.call ≠ .drain ∧ th.call ≠ .clear)
    (halone : InvokedAlone k s a) (hpub : loadsPublished k s a = true) (ha : s.act a = some s') :
    SerialKey k o s' := by
  cases a with
  | call t c =>
    have huse := h.use.invoke ha halone
    obtain ⟨-, rfl⟩ := invoke_eq_some ha
    exact ⟨h.history, huse⟩
  | step t =>
    obtain ⟨th, m', next, hth, hstep, rfl⟩ := step_eq_some ha
    have hpub : th.loadsClaimed s.mem k = false := by
      simpa [loadsPublished, hth] using hpub
    obtain ⟨hd, hcl⟩ := hops _ _ hth
    rcases h.use.step hinv hth hd hcl hpub hstep with ⟨huse, hgoes⟩ | ⟨hkey, rfl, huse⟩
    · cases next with
      | goto th' => exact ⟨h.history, huse⟩
      | ret reply =>
        have hne : th.call.key ≠ some k := by
          intro hk
          obtain ⟨th', hn⟩ := hgoes hk
          cases hn
        refine ⟨⟨fun hk => absurd hk hne, h.history⟩, ?_⟩
        simp only [proceed, keyAfter, if_neg hne] at huse ⊢
        exact huse
    · refine ⟨⟨fun _ => rfl, h.history⟩, ?_⟩
      simp only [proceed, keyAfter, if_pos hkey] at huse ⊢
      exact huse

/-- What the map holds of a key that no operation uses. -/
theorem SerialKey.holds (h : SerialKey k o s)
    (hno : ∀ t th, s.threads t = some th → th.call.key ≠ some k) :
    s.mem.Holds k s.mem.root.node (keyAfter k o s.history) := by
  have huse := h.use
  cases huse with
  | idle _ hs =>
    obtain ⟨x, hx, rfl⟩ := hs.tree.sat
    exact hx
  | looking hth hc => exact absurd (by rw [hc]; rfl) (hno _ _ hth)
  | serving hth hkey => exact absurd hkey (hno _ _ hth)
  | done hth hkey => exact absurd hkey (hno _ _ hth)

/-- **A key that is used by one operation at a time** behaves as in a map of its own, under any
    operations on other keys and any rebuilds. -/
theorem run_serialKey [LawfulKey K] {config : Config} (hc : config.Valid) {map : LearnedMap K V}
    {pairs : List (K × V)} (hs : Starts config map pairs) {sched : List (Act K V)}
    (hops : ∀ t c, .call t c ∈ sched → c ≠ .drain ∧ c ≠ .clear)
    (hrun : (Sys.init map).run sched = some s)
    (hmeets : Run.Meets act (fun s a => InvokedAlone k s a ∧ loadsPublished k s a = true)
      (Sys.init map) sched) :
    KeySerial k (pairs.lookup k) s.history ∧
      ((∀ t th, s.threads t = some th → th.call.key ≠ some k) →
        s.mem.Holds k s.mem.root.node (keyAfter k (pairs.lookup k) s.history)) := by
  have hstart : SerialKey k (pairs.lookup k) (Sys.init map) :=
    ⟨trivial, .idle (fun _ _ hth => (nomatch hth)) (.init hc hs rfl)⟩
  have hnone : ∀ t th, (Sys.init map).threads t = some th →
      th.call ≠ .drain ∧ th.call ≠ .clear := by
    intro t th hth
    cases hth
  obtain ⟨-, -, hend⟩ := Run.run_induct (I := fun s => s.Inv ∧
    (∀ t th, s.threads t = some th → th.call ≠ .drain ∧ th.call ≠ .clear) ∧
    SerialKey k (pairs.lookup k) s)
    (fun {s a s'} h ha hact => ⟨h.1.act hact, running_act (C := fun c => c ≠ .drain ∧ c ≠ .clear)
      h.1 h.2.1 (fun t c he => hops t c (he ▸ ha.2)) hact,
      h.2.2.act h.1 h.2.1 ha.1.1 ha.1.2 hact⟩)
    ⟨.init hc hs, hnone, hstart⟩ (hmeets.and (Run.Meets.mem sched)) hrun
  exact ⟨hend.history, hend.holds⟩

/-- A thread that owns the key invokes its operations one at a time. -/
theorem meets_invokedAlone [LawfulKey K] {sched : List (Act K V)} (hinv : s.Inv)
    (h : OnlyUser s k t) (howner : ∀ t' c, .call t' c ∈ sched → c.key = some k → t' = t)
    (hrun : s.run sched = some s') : Run.Meets act (InvokedAlone k) s sched := by
  induction sched generalizing s with
  | nil => trivial
  | cons a as ih =>
    rw [run_cons, Option.bind_eq_some_iff] at hrun
    obtain ⟨s₁, hact, hrun⟩ := hrun
    have howner' : ∀ t' c, .call t' c ∈ as → c.key = some k → t' = t := fun t' c hm =>
      howner t' c (List.mem_cons_of_mem _ hm)
    cases a with
    | call t' c =>
      obtain ⟨hnone, rfl⟩ := invoke_eq_some hact
      refine .cons hact (fun hk t'' th hth hk' => ?_) (ih (hinv.act hact) ?_ howner' hrun)
      · obtain rfl := howner t' c List.mem_cons_self hk
        obtain rfl := h _ _ hth hk'
        cases hnone.symm.trans hth
      · intro t'' th hth hk
        by_cases ht : t'' = t'
        · subst ht
          cases (Function.update_self _ _ _).symm.trans hth
          exact howner _ c List.mem_cons_self hk
        · exact h _ _ ((Function.update_of_ne ht _ _).symm.trans hth) hk
    | step t' =>
      obtain ⟨th, m', next, hth, hstep, rfl⟩ := step_eq_some hact
      exact .cons hact trivial (ih (hinv.act hact) (h.step hinv hth hstep) howner' hrun)

/-- An insert whose tree a rebuild replaces after the pair was stored, and a remove. -/
def insertRebuiltRemove (k : K) (v : V) : List (Act K V) :=
  .call 0 (.insert k v) :: List.replicate 4 (Act.step 0) ++
    Act.call 1 .rebuild :: List.replicate 70 (Act.step 1) ++ List.replicate 10 (Act.step 0) ++
    Act.call 0 (.remove k) :: List.replicate 10 (Act.step 0)

theorem run_serialKey_rebuilt : ∃ s : Sys (Fin (2 ^ 8)) ℕ,
    (Sys.init (.withConfig {})).run (insertRebuiltRemove ⟨100, by decide⟩ 1) = some s ∧
    KeySerial ⟨100, by decide⟩ none s.history ∧
      ((∀ t th, s.threads t = some th → th.call.key ≠ some ⟨100, by decide⟩) →
        s.mem.Holds ⟨100, by decide⟩ s.mem.root.node
          (keyAfter ⟨100, by decide⟩ none s.history)) := by
  have := lawfulKey_unsigned (show 8 ≤ 64 by decide)
  have hconf : ({} : Config).Valid := ⟨one_le_two, le_rfl⟩
  have hrun : ((Sys.init (.withConfig {} : LearnedMap (Fin (2 ^ 8)) ℕ)).run
      (insertRebuiltRemove ⟨100, by decide⟩ 1)).isSome := by
    decide +kernel
  obtain ⟨s, hrun⟩ := Option.isSome_iff_exists.1 hrun
  have hpub : Run.Meets act (fun s a => loadsPublished (⟨100, by decide⟩ : Fin (2 ^ 8)) s a = true)
      (Sys.init (.withConfig {} : LearnedMap (Fin (2 ^ 8)) ℕ))
      (insertRebuiltRemove ⟨100, by decide⟩ 1) := by
    decide +kernel
  have hcalls : ∀ t c, Act.call t c ∈ insertRebuiltRemove (⟨100, by decide⟩ : Fin (2 ^ 8)) 1 →
      c ≠ .drain ∧ c ≠ .clear ∧ (c.key = some (⟨100, by decide⟩ : Fin (2 ^ 8)) → t = 0) := by
    intro t c hm
    simp [insertRebuiltRemove] at hm
    rcases hm with ⟨rfl, rfl⟩ | ⟨rfl, rfl⟩ | ⟨rfl, rfl⟩
    · exact ⟨by rintro ⟨⟩, by rintro ⟨⟩, fun _ => rfl⟩
    · exact ⟨by rintro ⟨⟩, by rintro ⟨⟩, by rintro ⟨⟩⟩
    · exact ⟨by rintro ⟨⟩, by rintro ⟨⟩, fun _ => rfl⟩
  have halone := meets_invokedAlone (t := 0) (k := (⟨100, by decide⟩ : Fin (2 ^ 8)))
    (Inv.init hconf .withConfig) (fun _ _ hth => nomatch hth) (fun t c hm => (hcalls t c hm).2.2) hrun
  exact ⟨s, hrun, run_serialKey hconf .withConfig
    (fun t c hm => ⟨(hcalls t c hm).1, (hcalls t c hm).2.1⟩) hrun (halone.and hpub)⟩

end Sys

end Scry.Index
