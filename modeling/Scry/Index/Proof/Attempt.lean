/-
  An operation that runs alone returns (`Sys.run_completes`).

  It may wait for a slot that another operation has claimed, or for a pointer that
  another has frozen; if no other operation owns anything, its own steps lead to a reply.
  What an attempt reads of the tree stays as it is until its own CAS, so that one that
  starts at the current root succeeds; an older one succeeds or starts again.
-/
import Scry.Index.Proof.Alone

namespace Scry.Index

variable {K V : Type} [LinearOrder K] [Key K] {m m' : Mem K V} {th th' : Thread K V} {k : K}

/-! ## One attempt -/

/-- An attempt: the operation, the root pointer, and the root that the attempt starts at. -/
structure Attempt (K V : Type) where
  call : Call K V
  ptr : Ptr
  root : NodeId

namespace Sys
variable {s s' : Sys K V} {t : ℕ} {a : Attempt K V}

/-- The operation of thread `t` runs alone and is in the attempt. -/
structure Within (a : Attempt K V) (t : ℕ) (s : Sys K V) (th : Thread K V) : Prop
    extends Alone t s th where
  call : th.call = a.call
  ptr : s.mem.root = a.ptr
  root : th.root = a.root

/-- The attempt leads to a reply once the update compares its root. -/
def Leaves (a : Attempt K V) (t : ℕ) : Prop :=
  ∀ {s : Sys K V} {th : Thread K V} {isNew val}, Within a t s th →
    th.pc = .validateRoot isNew val → s.Completes t

/-- It leads to a reply if the update reads the slot of its node once more. -/
def Rereads (a : Attempt K V) (t : ℕ) : Prop :=
  ∀ {s : Sys K V} {th : Thread K V}, Within a t s th → th.pc = .readSlot → s.Completes t

/-- It leads to a reply if the update starts at the root once more. -/
def Retries (a : Attempt K V) (t : ℕ) : Prop :=
  ∀ {s : Sys K V} {th : Thread K V}, Within a t s th → th.pc = .readSlot → th.first = none →
    s.Completes t

/-- The first descent is in place, or the update may start again. -/
def Firm (a : Attempt K V) (t : ℕ) (s : Sys K V) (th : Thread K V) : Prop :=
  Retries a t ∨ ∀ p i c, th.first = some (p, i, c) →
    (s.mem.cells p).children i = some ⟨c, false⟩

/-- The lookup of a `get_or_insert` finds the key at its node, or it may read the slot again. -/
def KeyHeld (a : Attempt K V) (t : ℕ) (s : Sys K V) (th : Thread K V) : Prop :=
  Rereads a t ∨ ∀ k v, th.call = .getOrInsert k v → s.mem.Sat (· ≠ none) k th.cur

namespace Within
variable [LawfulKey K]

/-- **Step rule** within an attempt. -/
theorem goes (h : Within a t s th) (hnd : th.pc.isDone = false) (hl : th.pc ≠ .loadRoot)
    (hr : ∀ {s' : Sys K V} {m' : Mem K V} {th' : Thread K V},
      th.step s.config s.mem = some (m', .goto th') → s'.mem = m' → Within a t s' th' →
        s'.Completes t) : s.Completes t := by
  refine h.toAlone.goes fun {s' m' th'} hstep hm h' => hr hstep hm ⟨h', ?_, ?_, ?_⟩
  · have hnext := step_next h.sound.inv.headroom h.sound.inv.root (h.sound.inv.ok h.thread)
      (h.sound.inv.locks h.thread) hstep
    rw [Goes.call hnext, h.call]
  · rw [hm, (step_effect h.sound.inv.headroom (h.sound.inv.ok h.thread)
      (h.sound.inv.locks h.thread) hstep).root_kept hnd, h.ptr]
  · rw [step_root hnd hl hstep, h.root]

theorem firm_step (h : Within a t s th) (hsub : th.pc.isSub = false) (hat : th.At s.mem k)
    (hstep : th.step s.config s.mem = some (m', .goto th')) (hm : s'.mem = m')
    (hf : th'.first = th.first) (hfirm : Firm a t s th) : Firm a t s' th' := by
  refine hfirm.imp id fun hfirst p i c hc => ?_
  rw [hf] at hc
  rw [hm, (step_effect h.sound.inv.headroom (h.sound.inv.ok h.thread)
    (h.sound.inv.locks h.thread) hstep).first_kept hsub hat hc, hfirst p i c hc]

theorem held_step (h : Within a t s th) (hpub : th.pc ≠ .publish) (hclaim : th.pc ≠ .claim)
    (hat : th.At s.mem k) (hstep : th.step s.config s.mem = some (m', .goto th'))
    (hm : s'.mem = m') (h' : Within a t s' th') (hcur : th'.cur = th.cur)
    (hheld : KeyHeld a t s th) : KeyHeld a t s' th' := by
  refine hheld.imp id fun hs k v hc => ?_
  rw [h'.call, ← h.call] at hc
  rw [hm, hcur]
  exact (step_effect h.sound.inv.headroom (h.sound.inv.ok h.thread)
    (h.sound.inv.locks h.thread) hstep).sat_own (h.sound.inv.ok h.thread)
    (h.sound.inv.locks h.thread) hat (respects_of_pc hpub hclaim) (hs k v hc)

/-! ### The lookup -/

/-- A lookup descends to the leaf of its key. -/
theorem completes_look (hleave : Leaves a t) (h : Within a t s th) {n : NodeId}
    (hpc : th.pc = .look n) (hkey : th.call.key = some k) {o : Option V}
    (ho : s.mem.Holds k n o) (hnone : o = none → (∃ v, th.call = .getOrInsert k v) → Rereads a t) :
    s.Completes t := by
  generalize hm : s.mem = m at ho
  induction ho generalizing s th with
  | @leaf n hs =>
    refine h.goes (by rw [hpc]; rfl) (by rw [hpc]; rintro ⟨⟩) fun {s' m' th'} hstep _ h' => ?_
    have hok := h.sound.inv.ok h.thread
    simp only [Thread.Ok, hpc] at hok
    obtain ⟨-, -, hn, -⟩ := hok
    rw [hm] at hn
    have hidle := h.idle (by rw [hpc]; rintro ⟨⟩)
    rw [hm] at hidle
    have hslot : lookSlot m th n k = th.found ((m.cells n).leafGet ((m.cells n).slotOf k) k) := by
      refine lookSlot_leaf hn (fun hcl => ?_) hs
      rw [hidle n _ hn.alloc] at hcl
      cases hcl
    simp only [Thread.step, hpc, hm] at hstep
    obtain ⟨next, hlook, he⟩ := Option.map_eq_some_iff.1 hstep
    obtain ⟨-, rfl⟩ := Prod.mk.inj he
    have hfound := (stepLook_eq hkey hlook).trans hslot
    generalize (m.cells n).leafGet ((m.cells n).slotOf k) k = o at hfound hnone
    unfold Thread.found at hfound
    split at hfound
    · rename_i key v hc
      obtain rfl : key = k := by rw [hc] at hkey; exact Option.some.inj hkey
      cases o with
      | some v' => cases hfound; exact hleave h' rfl
      | none => cases hfound; exact hnone rfl ⟨v, hc⟩ h' rfl
    · cases hfound
  | @child n p o hs hp ho ih =>
    refine h.goes (by rw [hpc]; rfl) (by rw [hpc]; rintro ⟨⟩) fun {s₁ m₁ th₁} hstep hm₁ h₁ => ?_
    have hok := h.sound.inv.ok h.thread
    simp only [Thread.Ok, hpc] at hok
    obtain ⟨-, -, hn, -⟩ := hok
    rw [hm] at hn
    have hidle := h.idle (by rw [hpc]; rintro ⟨⟩)
    rw [hm] at hidle
    have hslot : lookSlot m th n k = th.goto (.lookChild n) :=
      lookSlot_child (hidle n _ hn.alloc) hs
    simp only [Thread.step, hpc, hm] at hstep
    obtain ⟨next, hlook, he⟩ := Option.map_eq_some_iff.1 hstep
    obtain ⟨rfl, rfl⟩ := Prod.mk.inj he
    cases (stepLook_eq hkey hlook).trans hslot
    refine h₁.goes rfl (by rintro ⟨⟩) fun {s₂ m₂ th₂} hstep₂ hm₂ h₂ => ?_
    obtain ⟨next, hlook₂, he⟩ := Option.map_eq_some_iff.1 hstep₂
    obtain ⟨rfl, rfl⟩ := Prod.mk.inj he
    cases stepLookChild_eq (k := k) (p := p) hkey (by rw [hm₁]; exact hp) hlook₂
    exact ih h₂ rfl hkey hnone (hm₂.trans hm₁)

/-- The child that a `get_or_insert` attached. -/
theorem completes_ownChild (hleave : Leaves a t) (h : Within a t s th) (hpc : th.pc = .ownChild)
    (hheld : KeyHeld a t s th) : s.Completes t := by
  have hok := h.sound.inv.ok h.thread
  simp only [Thread.Ok, hpc] at hok
  obtain ⟨k, ⟨hat, hidx⟩, hs⟩ := hok
  obtain ⟨p, hp, -⟩ := hat.2.2.curWF.cell.child _ hs
  refine h.goes (by rw [hpc]; rfl) (by rw [hpc]; rintro ⟨⟩) fun {s' m' th'} hstep hm h' => ?_
  simp only [Thread.step, hpc, stepOwnChild, hp] at hstep
  cases hstep
  rw [hidx] at hs hp
  obtain ⟨o, ho⟩ := (hat.2.2.curWF.ofChild hs hp).holds k
  refine h'.completes_look hleave rfl hat.1 (by rw [hm]; exact ho) fun hnone hcall => ?_
  obtain ⟨v, hcall⟩ := hcall
  refine hheld.resolve_right fun hsat => ?_
  obtain ⟨o', ho', hne⟩ := (Mem.sat_child hs hp).1 (hsat k v hcall)
  exact hne ((ho'.unique ho).trans hnone)

/-! ### The end of the tree operation -/

/-- The tree operation is done. -/
theorem completes_finish (hleave : Leaves a t) (h : Within a t s th')
    (hf : th.finish = .goto th') (hheld : KeyHeld a t s th') : s.Completes t := by
  unfold Thread.finish at hf
  split at hf
  · cases hf; exact hleave h rfl
  · cases hf; exact h.completes_ownChild hleave rfl hheld
  · cases hf; exact hleave h rfl

/-! ### Rebuilds of a subtree -/

theorem completes_subSwap (hleave : Leaves a t) (h : Within a t s th) {c : NodeId}
    {pairs : List (K × V)} (hpc : th.pc = .subSwap c pairs) (hheld : KeyHeld a t s th) :
    s.Completes t := by
  have hok := h.sound.inv.ok h.thread
  simp only [Thread.Ok, hpc] at hok
  obtain ⟨k, ⟨⟨⟨hat, -⟩, -⟩, -⟩, -⟩ := hok
  refine h.goes (by rw [hpc]; rfl) (by rw [hpc]; rintro ⟨⟩) fun {s' m' th'} hstep hm h' => ?_
  have hfin : th.finish = .goto th' := by
    simp only [Thread.step, hpc] at hstep
    exact (stepSubSwap_finish hstep).symm
  exact h'.completes_finish hleave hfin (h.held_step (by rw [hpc]; rintro ⟨⟩) (by rw [hpc]; rintro ⟨⟩) hat
    hstep hm h' (Thread.finish_cur hfin) hheld)

theorem completes_subWalk (hleave : Leaves a t) (h : Within a t s th) {c : NodeId} {w : Walk K V}
    (hpc : th.pc = .subWalk c w) (hheld : KeyHeld a t s th) : s.Completes t := by
  have hok := h.sound.inv.ok h.thread
  simp only [Thread.Ok, hpc] at hok
  obtain ⟨-, -, hwalk⟩ := hok
  have hends := hwalk.ends (h.idle (by rw [hpc]; rintro ⟨⟩))
  generalize hm : s.mem = m at hends
  clear hwalk
  induction hends generalizing s th with
  | @done w₁ hw =>
    have hok := h.sound.inv.ok h.thread
    simp only [Thread.Ok, hpc] at hok
    obtain ⟨k, ⟨⟨⟨hat, -⟩, -⟩, -⟩, -⟩ := hok
    refine h.goes (by rw [hpc]; rfl) (by rw [hpc]; rintro ⟨⟩) fun {s' m' th'} hstep hm' h' => ?_
    have hth' : th' = { th with pc := .subSwap c w₁.pairs } := by
      simp only [Thread.step, hpc, stepSubWalk, hm, hw] at hstep
      cases hstep
      rfl
    subst hth'
    exact h'.completes_subSwap hleave rfl (h.held_step (by rw [hpc]; rintro ⟨⟩) (by rw [hpc]; rintro ⟨⟩) hat
      hstep hm' h' rfl hheld)
  | step hw _ ih =>
    have hok := h.sound.inv.ok h.thread
    simp only [Thread.Ok, hpc] at hok
    obtain ⟨k, ⟨⟨⟨hat, -⟩, -⟩, -⟩, -⟩ := hok
    refine h.goes (by rw [hpc]; rfl) (by rw [hpc]; rintro ⟨⟩) fun {s' m' th'} hstep hm' h' => ?_
    have hgo := hstep
    simp only [Thread.step, hpc, stepSubWalk, hm, hw] at hgo
    cases hgo
    exact ih h' rfl (h.held_step (by rw [hpc]; rintro ⟨⟩) (by rw [hpc]; rintro ⟨⟩) hat hstep hm' h' rfl
      hheld) hm'

/-- A part of the rebuild that is followed by the end of the tree operation, or by a part that
    is known to lead to a reply. -/
theorem completes_of_finishes (hleave : Leaves a t) (h : Within a t s th)
    (hnd : th.pc.isDone = false) (hl : th.pc ≠ .loadRoot) (hpub : th.pc ≠ .publish)
    (hclaim : th.pc ≠ .claim) (hat : th.At s.mem k) (hheld : KeyHeld a t s th)
    (hgo : ∀ (s' : Sys K V) {m' : Mem K V} {th' : Thread K V},
      th.step s.config s.mem = some (m', .goto th') → th.finish = .goto th' ∨
        ∃ pc, th' = { th with pc := pc } ∧ (Within a t s' th' → KeyHeld a t s' th' → s'.Completes t)) :
    s.Completes t := by
  refine h.goes hnd hl fun {s' m' th'} hstep hm h' => ?_
  rcases hgo s' hstep with hfin | ⟨pc, rfl, hpc⟩
  · exact h'.completes_finish hleave hfin (h.held_step hpub hclaim hat hstep hm h'
      (Thread.finish_cur hfin) hheld)
  · exact hpc h' (h.held_step hpub hclaim hat hstep hm h' rfl hheld)

theorem completes_subFreeze (hleave : Leaves a t) (h : Within a t s th) {c : NodeId}
    (hpc : th.pc = .subFreeze c) (hheld : KeyHeld a t s th) : s.Completes t := by
  have hok := h.sound.inv.ok h.thread
  simp only [Thread.Ok, hpc] at hok
  obtain ⟨k, ⟨⟨hat, -⟩, -⟩⟩ := hok
  refine h.completes_of_finishes hleave (by rw [hpc]; rfl) (by rw [hpc]; rintro ⟨⟩) (by rw [hpc]; rintro ⟨⟩)
    (by rw [hpc]; rintro ⟨⟩) hat hheld fun s' {m' th'} hstep => ?_
  simp only [Thread.step, hpc, stepSubFreeze] at hstep
  split at hstep
  · exact Or.inl (Prod.mk.inj (Option.some.inj hstep)).2
  · split_ifs at hstep
    · cases hstep
      exact Or.inr ⟨_, rfl, fun h' hf => h'.completes_subWalk hleave rfl hf⟩
    · exact Or.inl (Prod.mk.inj (Option.some.inj hstep)).2

theorem completes_subLoad (hleave : Leaves a t) (h : Within a t s th) (hpc : th.pc = .subLoad)
    (hheld : KeyHeld a t s th) : s.Completes t := by
  have hok := h.sound.inv.ok h.thread
  simp only [Thread.Ok, hpc] at hok
  obtain ⟨k, ⟨⟨hat, -⟩, -⟩⟩ := hok
  refine h.completes_of_finishes hleave (by rw [hpc]; rfl) (by rw [hpc]; rintro ⟨⟩) (by rw [hpc]; rintro ⟨⟩)
    (by rw [hpc]; rintro ⟨⟩) hat hheld fun s' {m' th'} hstep => ?_
  simp only [Thread.step, hpc, stepSubLoad] at hstep
  have hn := (Prod.mk.inj (Option.some.inj hstep)).2
  split at hn
  · exact Or.inl hn
  · split at hn
    · exact Or.inl hn
    · split_ifs at hn
      · exact Or.inl hn
      · cases hn
        exact Or.inr ⟨_, rfl, fun h' hf => h'.completes_subFreeze hleave rfl hf⟩

theorem completes_subState (hleave : Leaves a t) (h : Within a t s th) (hpc : th.pc = .subState)
    (hheld : KeyHeld a t s th) : s.Completes t := by
  have hok := h.sound.inv.ok h.thread
  simp only [Thread.Ok, hpc] at hok
  obtain ⟨k, ⟨⟨hat, -⟩, -⟩⟩ := hok
  refine h.completes_of_finishes hleave (by rw [hpc]; rfl) (by rw [hpc]; rintro ⟨⟩) (by rw [hpc]; rintro ⟨⟩)
    (by rw [hpc]; rintro ⟨⟩) hat hheld fun s' {m' th'} hstep => ?_
  simp only [Thread.step, hpc, stepSubState] at hstep
  have hn := (Prod.mk.inj (Option.some.inj hstep)).2
  split at hn
  · exact Or.inl hn
  · split_ifs at hn
    · cases hn
      exact Or.inr ⟨_, rfl, fun h' hf => h'.completes_subLoad hleave rfl hf⟩
    · exact Or.inl hn

theorem completes_checkRatio (hleave : Leaves a t) (h : Within a t s th)
    (hpc : th.pc = .checkRatio) (hheld : KeyHeld a t s th) : s.Completes t := by
  have hok := h.sound.inv.ok h.thread
  simp only [Thread.Ok, hpc] at hok
  obtain ⟨k, ⟨⟨hat, -⟩, -⟩⟩ := hok
  refine h.completes_of_finishes hleave (by rw [hpc]; rfl) (by rw [hpc]; rintro ⟨⟩) (by rw [hpc]; rintro ⟨⟩)
    (by rw [hpc]; rintro ⟨⟩) hat hheld fun s' {m' th'} hstep => ?_
  simp only [Thread.step, hpc, stepCheckRatio] at hstep
  have hn := (Prod.mk.inj (Option.some.inj hstep)).2
  split_ifs at hn
  · cases hn
    exact Or.inr ⟨_, rfl, fun h' hf => h'.completes_subState hleave rfl hf⟩
  · exact Or.inl hn

/-! ### The change of the slot -/

/-- The comparison of the first descent. -/
theorem completes_validateChild (hleave : Leaves a t) (h : Within a t s th)
    (hpc : th.pc = .validateChild) (hfirm : Firm a t s th) (hheld : KeyHeld a t s th) :
    s.Completes t := by
  have hok := h.sound.inv.ok h.thread
  simp only [Thread.Ok, hpc] at hok
  obtain ⟨k, ⟨⟨hat, -⟩, -⟩⟩ := hok
  refine h.goes (by rw [hpc]; rfl) (by rw [hpc]; rintro ⟨⟩) fun {s' m' th'} hstep hm h' => ?_
  have hkeep : th'.cur = th.cur → KeyHeld a t s' th' := fun hcur =>
    h.held_step (by rw [hpc]; rintro ⟨⟩) (by rw [hpc]; rintro ⟨⟩) hat hstep hm h' hcur hheld
  simp only [Thread.step, hpc] at hstep
  have hn := (Prod.mk.inj (Option.some.inj hstep)).2
  have hdone : stepValidateChild s.config s.mem th = th.goto .checkRatio ∨
      stepValidateChild s.config s.mem th = th.afterInsert s.config ∨
      stepValidateChild s.config s.mem th = th.goto (.validateRoot th.again none) →
      s'.Completes t := by
    rintro (he | he | he) <;> rw [he] at hn
    · cases hn
      exact h'.completes_checkRatio hleave rfl (hkeep rfl)
    · unfold Thread.afterInsert at hn
      split_ifs at hn
      · cases hn
        exact h'.completes_subState hleave rfl (hkeep rfl)
      · exact h'.completes_finish hleave hn (hkeep (Thread.finish_cur hn))
    · cases hn
      exact hleave h' rfl
  rcases hfirm with hretry | hfirst
  · rcases stepValidateChild_next s.config s.mem th with ⟨-, he⟩ | ⟨again, he⟩
    · exact hdone he
    · rw [he] at hn
      cases hn
      exact hretry h' rfl rfl
  · exact hdone (stepValidateChild_firm hfirst)

theorem completes_countTombstone (hleave : Leaves a t) (h : Within a t s th)
    (hpc : th.pc = .countTombstone) (hfirm : Firm a t s th) (hheld : KeyHeld a t s th) :
    s.Completes t := by
  have hok := h.sound.inv.ok h.thread
  simp only [Thread.Ok, hpc] at hok
  obtain ⟨k, ⟨⟨hat, -⟩, -⟩⟩ := hok
  refine h.goes (by rw [hpc]; rfl) (by rw [hpc]; rintro ⟨⟩) fun {s' m' th'} hstep hm h' => ?_
  have hth' : th' = { th with pc := .validateChild } := by
    simp only [Thread.step, hpc, stepCountTombstone] at hstep
    cases hstep
    rfl
  subst hth'
  exact h'.completes_validateChild hleave rfl
    (h.firm_step (by rw [hpc]; rfl) hat hstep hm rfl hfirm)
    (h.held_step (by rw [hpc]; rintro ⟨⟩) (by rw [hpc]; rintro ⟨⟩) hat hstep hm h' rfl hheld)

/-- The publication: the node holds the key. -/
theorem completes_publish (hleave : Leaves a t) (h : Within a t s th) (hpc : th.pc = .publish)
    (hfirm : Firm a t s th) : s.Completes t := by
  have hok := h.sound.inv.ok h.thread
  have hlk := h.sound.inv.locks h.thread
  simp only [Thread.Ok, hpc] at hok
  obtain ⟨k, ⟨hat, -⟩, -⟩ := hok
  refine h.goes (by rw [hpc]; rfl) (by rw [hpc]; rintro ⟨⟩) fun {s' m' th'} hstep hm h' => ?_
  obtain ⟨k', v, hk', -, hw⟩ := (step_effect h.sound.inv.headroom (h.sound.inv.ok h.thread) hlk
    hstep).writes (h.sound.inv.ok h.thread) hlk hpc
  obtain ⟨pc, rfl, hto⟩ : ∃ pc, th' = { th with pc := pc } ∧
      (pc = .countTombstone ∨ pc = .validateChild) := by
    simp only [Thread.step, hpc, stepPublish] at hstep
    split at hstep
    · cases hstep
      exact ⟨_, rfl, Or.inr rfl⟩
    · split_ifs at hstep <;> cases hstep
      · exact ⟨_, rfl, Or.inl rfl⟩
      · exact ⟨_, rfl, Or.inr rfl⟩
    · cases hstep
  have hheld : KeyHeld a t s' { th with pc := pc } := by
    refine Or.inr fun k₁ v₁ hc => ?_
    have hc : th.call = .getOrInsert k₁ v₁ := hc
    rw [hc] at hk'
    cases hk'
    exact ⟨some v, by rw [hm]; exact hw.self, Option.some_ne_none v⟩
  have hfirm' : Firm a t s' { th with pc := pc } :=
    h.firm_step (by rw [hpc]; rfl) hat hstep hm rfl hfirm
  rcases hto with rfl | rfl
  · exact h'.completes_countTombstone hleave rfl hfirm' hheld
  · exact h'.completes_validateChild hleave rfl hfirm' hheld

/-- The CAS succeeds on a slot that is as the update has read it. -/
theorem completes_claim (hleave : Leaves a t) (h : Within a t s th) (hpc : th.pc = .claim)
    (hfresh : (s.mem.cells th.cur).state th.idx = th.write.prev) (hfirm : Firm a t s th) :
    s.Completes t := by
  have hok := h.sound.inv.ok h.thread
  simp only [Thread.Ok, hpc] at hok
  obtain ⟨k, ⟨hat, -⟩, hw⟩ := hok
  refine h.goes (by rw [hpc]; rfl) (by rw [hpc]; rintro ⟨⟩) fun {s' m' th'} hstep hm h' => ?_
  have hfirm' : th'.first = th.first → Firm a t s' th' := fun hf =>
    h.firm_step (by rw [hpc]; rfl) hat hstep hm hf hfirm
  simp only [Thread.step, hpc, stepClaim, if_pos hfresh] at hstep
  split at hstep
  · rename_i hbury
    rw [hbury] at hw
    cases hw with
    | bury hc =>
      cases hstep
      refine h'.completes_countTombstone hleave rfl (hfirm' rfl) (Or.inr fun k₁ v hcall => ?_)
      have hcall : th.call = .getOrInsert k₁ v := hcall
      rw [hc] at hcall
      cases hcall
  · cases hstep
    exact h'.completes_publish hleave rfl (hfirm' rfl)

/-! ### The descent -/

/-- **The descent of an update** ends at a leaf, which it changes. -/
theorem completes_readSlot (hleave : Leaves a t) (h : Within a t s th) (hpc : th.pc = .readSlot)
    (hfirm : Firm a t s th) : s.Completes t := by
  have hok := h.sound.inv.ok h.thread
  simp only [Thread.Ok, hpc] at hok
  obtain ⟨k, hat⟩ := hok
  have hwf := hat.2.2.curWF
  generalize hm : s.mem = m at hwf
  generalize hcur : th.cur = n at hwf
  clear hat
  induction hwf generalizing s th with
  | @mk n alloc cell below ih =>
    have hidle := h.idle (by rw [hpc]; rintro ⟨⟩)
    refine h.goes (by rw [hpc]; rfl) (by rw [hpc]; rintro ⟨⟩) fun {s₁ m₁ th₁} hstep hm₁ h₁ => ?_
    simp only [Thread.step, hpc] at hstep
    obtain ⟨next, hread, he⟩ := Option.map_eq_some_iff.1 hstep
    obtain ⟨rfl, rfl⟩ := Prod.mk.inj he
    obtain ⟨hcur₁, hfirst₁, hto⟩ := stepReadSlot_fresh hread
    have hfirm₁ : Firm a t s₁ th₁ := by
      refine hfirm.imp id fun hf p i c hc => ?_
      rw [hm₁]
      exact hf p i c (hfirst₁ ▸ hc)
    rcases hto with ⟨-, i, hst⟩ | hpc₁ | ⟨isNew, val, hpc₁⟩ | ⟨hpc₁, hfresh⟩
    · -- no slot is claimed
      have hi := hidle n i (by rw [hm]; exact alloc)
      have hs := cell.idle i
      rw [hcur, hm, Cell.state] at hst
      rw [hm] at hi
      rw [hi] at hst
      exact absurd hst hs
    · have hok₁ := h₁.sound.inv.ok h₁.thread
      simp only [Thread.Ok, hpc₁] at hok₁
      obtain ⟨k, ⟨hat, -⟩, hs⟩ := hok₁
      obtain ⟨p, hp, -⟩ := hat.2.2.curWF.cell.child _ hs
      have hfree : p.frozen = false := by
        have := h₁.free (l := .edge th₁.cur th₁.idx) hat.2.2.curWF.alloc
          (by rw [Thread.lock, hpc₁]; rintro ⟨⟩) p.node
        by_contra hf
        refine this (hp.trans (congrArg some ?_))
        cases p
        rw [Bool.not_eq_false] at hf
        exact congrArg _ hf
      refine h₁.goes (by rw [hpc₁]; rfl) (by rw [hpc₁]; rintro ⟨⟩) fun {s₂ m₂ th₂} hstep₂ hm₂ h₂ => ?_
      simp only [Thread.step, hpc₁, stepLoadChild, hp, hfree] at hstep₂
      obtain ⟨hmem, hgo⟩ := Prod.mk.inj (Option.some.inj hstep₂)
      cases hgo
      have hcells : s₂.mem = m := by rw [hm₂, ← hmem, hm₁, hm]
      rw [hm₁, hm, hcur₁, hcur] at hs hp
      refine ih th₁.idx p hs hp h₂ rfl ?_ hcells rfl
      refine hfirm₁.imp id fun hf p' i' c' hc => ?_
      rw [hcells]
      cases hfo : th₁.first with
      | none =>
        rw [hfo] at hc
        cases hc
        rw [hcur₁, hcur, hp]
        cases p
        exact congrArg (fun b => some (Ptr.mk _ b)) hfree
      | some f =>
        rw [hfo] at hc
        cases hc
        have := hf _ _ _ hfo
        rwa [hm₁, hm] at this
    · exact hleave h₁ hpc₁
    · refine h₁.completes_claim hleave hpc₁ ?_ hfirm₁
      rw [hm₁]
      exact hfresh

/-- An attempt that starts at the root. -/
theorem retries (hleave : Leaves a t) : Retries a t := fun h hpc hf =>
  h.completes_readSlot hleave hpc (Or.inr fun p i c hc => by rw [hf] at hc; cases hc)

/-- An attempt that goes on from its node. -/
theorem rereads (hleave : Leaves a t) : Rereads a t := fun h hpc =>
  h.completes_readSlot hleave hpc (Or.inl (retries hleave))

/-- **An attempt leads to a reply** from wherever it is. -/
theorem completes (hleave : Leaves a t) (h : Within a t s th) (hnd : th.pc.isDone = false)
    (hl : th.pc ≠ .loadRoot) : s.Completes t := by
  have hfirm : Firm a t s th := Or.inl (retries hleave)
  have hheld : KeyHeld a t s th := Or.inl (rereads hleave)
  have hok := h.sound.inv.ok h.thread
  cases hpc : th.pc with
  | loadRoot => exact absurd hpc hl
  | readSlot => exact rereads hleave h hpc
  | loadChild =>
    refine h.goes (by rw [hpc]; rfl) (by rw [hpc]; rintro ⟨⟩) fun {s' m' th'} hstep _ h' => ?_
    simp only [Thread.step, hpc] at hstep
    have hn := (Prod.mk.inj (Option.some.inj hstep)).2
    unfold stepLoadChild at hn
    split at hn
    · split at hn <;> cases hn
      · exact hleave h' rfl
      · exact rereads hleave h' rfl
    · split_ifs at hn <;> cases hn <;> exact rereads hleave h' rfl
  | claim =>
    by_cases hfresh : (s.mem.cells th.cur).state th.idx = th.write.prev
    · exact h.completes_claim hleave hpc hfresh hfirm
    · refine h.goes (by rw [hpc]; rfl) (by rw [hpc]; rintro ⟨⟩) fun {s' m' th'} hstep _ h' => ?_
      simp only [Thread.step, hpc, stepClaim, if_neg hfresh] at hstep
      cases hstep
      exact rereads hleave h' rfl
  | publish => exact h.completes_publish hleave hpc hfirm
  | countTombstone => exact h.completes_countTombstone hleave hpc hfirm hheld
  | validateChild => exact h.completes_validateChild hleave hpc hfirm hheld
  | checkRatio => exact h.completes_checkRatio hleave hpc hheld
  | subState => exact h.completes_subState hleave hpc hheld
  | subLoad => exact h.completes_subLoad hleave hpc hheld
  | subFreeze c => exact h.completes_subFreeze hleave hpc hheld
  | subWalk c w => exact h.completes_subWalk hleave hpc hheld
  | subSwap c pairs => exact h.completes_subSwap hleave hpc hheld
  | ownChild => exact h.completes_ownChild hleave hpc hheld
  | look n =>
    simp only [Thread.Ok, hpc] at hok
    obtain ⟨k, hkey, hn, -⟩ := hok
    obtain ⟨o, ho⟩ := hn.holds k
    exact h.completes_look hleave hpc hkey ho fun _ _ => rereads hleave
  | lookChild n =>
    simp only [Thread.Ok, hpc] at hok
    obtain ⟨k, ⟨hkey, hn, -⟩, hs⟩ := hok
    obtain ⟨p, hp, -⟩ := hn.cell.child _ hs
    obtain ⟨o, ho⟩ := (hn.ofChild hs hp).holds k
    refine h.goes (by rw [hpc]; rfl) (by rw [hpc]; rintro ⟨⟩) fun {s' m' th'} hstep hm h' => ?_
    simp only [Thread.step, hpc] at hstep
    obtain ⟨next, hlook, he⟩ := Option.map_eq_some_iff.1 hstep
    obtain ⟨rfl, rfl⟩ := Prod.mk.inj he
    cases stepLookChild_eq hkey hp hlook
    exact h'.completes_look hleave rfl hkey (by rw [hm]; exact ho) fun _ _ => rereads hleave
  | validateRoot isNew val => exact hleave h hpc
  | _ => rw [hpc] at hnd; cases hnd

end Within

/-! ## Whole operations -/

namespace Alone

/-- The attempt that the operation is in. -/
theorem within (h : s.Alone t th) : Within ⟨th.call, s.mem.root, th.root⟩ t s th :=
  ⟨h, rfl, rfl, rfl⟩

/-- Lookups compare no root. -/
theorem leaves_get (hc : a.call = .get k) : Leaves a t := fun {s th _ _} h hpc => by
  have hok := h.sound.inv.ok h.thread
  simp only [Thread.Ok, hpc] at hok
  obtain ⟨-, -, hg⟩ := hok
  exact absurd (h.call.trans hc) (hg k)

variable [LawfulKey K]

/-- **An attempt at the current root** is the last one. -/
theorem leaves_inPlace (hroot : a.ptr = ⟨a.root, false⟩) : Leaves a t := fun {s th _ _} h hpc => by
  refine h.toAlone.goes fun {s' m' th'} hstep _ h' => ?_
  have hr : s.mem.root = ⟨th.root, false⟩ := by rw [h.ptr, h.root, hroot]
  simp only [Thread.step, hpc, stepValidateRoot, hr, if_true] at hstep
  split_ifs at hstep
  · cases hstep
    exact h'.completes_count rfl
  · cases hstep

/-- The next attempt starts at the current root, which is not frozen. -/
theorem completes_loadRoot (h : s.Alone t th) (hpc : th.pc = .loadRoot) : s.Completes t := by
  have hfree : s.mem.root.frozen = false :=
    h.free (l := .root) trivial (by rw [Thread.lock, hpc]; rintro ⟨⟩)
  have hroot : s.mem.root = ⟨s.mem.root.node, false⟩ := by rw [← hfree]
  refine h.goes fun {s' m' th'} hstep hm h' => ?_
  simp only [Thread.step, hpc] at hstep
  obtain ⟨rfl, hn⟩ := Prod.mk.inj (Option.some.inj hstep)
  unfold stepLoadRoot at hn
  split at hn
  · rename_i k hc
    cases hn
    exact h'.within.completes (leaves_get (k := k) hc) rfl (by rintro ⟨⟩)
  · rw [if_neg (by rw [hfree]; rintro ⟨⟩)] at hn
    cases hn
    refine h'.within.completes (leaves_inPlace ?_) rfl (by rintro ⟨⟩)
    rw [hm]
    exact hroot

/-- **Every attempt** leads to a reply, or to one that does. -/
theorem leaves : Leaves a t := fun {s th _ _} h hpc => by
  by_cases hroot : s.mem.root = ⟨th.root, false⟩
  · exact leaves_inPlace (a := a) (by rw [← h.ptr, ← h.root, hroot]) h hpc
  · refine h.toAlone.goes fun {s' m' th'} hstep _ h' => ?_
    simp only [Thread.step, hpc, stepValidateRoot, if_neg hroot] at hstep
    cases hstep
    exact h'.completes_loadRoot rfl

/-- **An operation that runs alone returns.** -/
theorem completes (h : s.Alone t th) : s.Completes t := by
  by_cases hnd : th.pc.isDone = false
  · by_cases hl : th.pc = .loadRoot
    · exact h.completes_loadRoot hl
    · exact h.within.completes leaves hnd hl
  · cases hpc : th.pc with
    | count => exact h.completes_count hpc
    | loadThreshold n => exact h.completes_loadThreshold hpc
    | casThreshold n => exact h.completes_casThreshold hpc
    | rootLoad => exact h.completes_rootLoad hpc
    | rootFreeze r => exact h.completes_rootFreeze hpc
    | rootWalk r w => exact h.completes_rootWalk hpc
    | rootSwap r pairs => exact h.completes_rootSwap hpc
    | subtract n => exact h.completes_subtract hpc
    | storeThreshold n => exact h.completes_storeThreshold hpc
    | _ => rw [hpc] at hnd; exact absurd rfl hnd

end Alone

/-- **Only what another operation owns keeps an operation from its reply**: in every state of
    every run, an operation returns by its own steps if no other operation holds a claimed
    slot or a frozen pointer. -/
theorem run_completes [LawfulKey K] {config : Config} (hc : config.Valid) {map : LearnedMap K V}
    {pairs : List (K × V)} (hs : Starts config map pairs) {sched : List (Act K V)}
    (hrun : (Sys.init map).run sched = some s) (hth : s.threads t = some th)
    (hothers : ∀ t' th', t' ≠ t → s.threads t' = some th' → th'.lock = none) :
    ∃ n s', s.run (List.replicate n (.step t)) = some s' ∧ s'.threads t = none :=
  (Alone.completes ⟨(Sound.init hc hs).run hrun, hth, hothers⟩).run

/-- An insert stops before its CAS, and a rebuild replaces the tree that it is in. -/
def replaced (k k' : K) (v : V) : List (Act K V) :=
  .call 1 (.insert k' v) :: List.replicate 8 (Act.step 1) ++ Act.call 0 (.insert k v) ::
    List.replicate 2 (Act.step 0) ++ Act.call 1 .rebuild :: List.replicate 70 (Act.step 1)

/-- The insert goes on in the old tree, and starts again in the new one. -/
theorem run_completes_replaced : ∃ s : Sys (Fin (2 ^ 8)) ℕ,
    (Sys.init (.withConfig {})).run (replaced ⟨100, by decide⟩ ⟨200, by decide⟩ 1) = some s ∧
      ∃ n s', s.run (List.replicate n (.step 0)) = some s' ∧ s'.threads 0 = none := by
  have := lawfulKey_unsigned (show 8 ≤ 64 by decide)
  have hconf : ({} : Config).Valid := ⟨one_le_two, le_rfl⟩
  have he : ((Sys.init (.withConfig {} : LearnedMap (Fin (2 ^ 8)) ℕ)).run
      (replaced ⟨100, by decide⟩ ⟨200, by decide⟩ 1)).map (fun s => ((s.threads 0).isSome, (s.threads 1).isNone)) =
      some (true, true) := by
    decide +kernel
  obtain ⟨s, hs, he⟩ := Option.map_eq_some_iff.1 he
  obtain ⟨h₀, h₁⟩ := Prod.mk.inj he
  obtain ⟨th, hth⟩ := Option.isSome_iff_exists.1 h₀
  refine ⟨s, hs, run_completes hconf .withConfig hs hth fun t' th' ht hth' => ?_⟩
  have hnone : s.threads t' = none := by
    by_cases ht₁ : t' = 1
    · rw [ht₁]
      exact Option.isNone_iff_eq_none.1 h₁
    · refine threads_none rfl hs fun c hm => ?_
      simp [replaced, ht, ht₁] at hm
  cases hnone.symm.trans hth'

end Sys

end Scry.Index
