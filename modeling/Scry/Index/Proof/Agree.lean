/-
  Agreement of get_or_insert.

  If only `get_or_insert` stores a key, the first call that finds its root in place fixes
  the value: the map is sure of it from then on (`Agreement`).  A call that takes the value
  from an entry it finds does not check whether its first descent is still in place
  (`takesInPlace`), and a rebuild may have frozen or replaced the subtree of that entry.
-/
import Scry.Index.Proof.Quiescent

namespace Scry.Index

variable {K V : Type} [LinearOrder K] [Key K] {m m' : Mem K V} {th th' : Thread K V} {k : K}
  {next : Next K V}

namespace Thread

/-- Its next step finds the key in a slot and takes the value from there. -/
def takes (m : Mem K V) (th : Thread K V) (k : K) : Bool :=
  match th.pc, th.call with
  | .readSlot, .getOrInsert key _ =>
    key = k && (m.cells th.cur).state ((m.cells th.cur).slotOf k) = .data &&
      ((m.cells th.cur).inline ((m.cells th.cur).slotOf k)).map Prod.fst = some k
  | _, _ => false

/-- The child of the first descent was neither frozen nor replaced since. -/
def inPlace (m : Mem K V) (th : Thread K V) : Bool :=
  match th.first with
  | none => true
  | some (p, i, c) => (m.cells p).children i = some ⟨c, false⟩

end Thread

/-! ## The result of a call -/

omit [LinearOrder K] [Key K] in
theorem finish_result {v : V} (hc : th.call = .getOrInsert k v) (hn : th.finish = .goto th')
    {isNew : Bool} {val : Option V} (hpc : th'.pc = .validateRoot isNew val) : val = some v := by
  cases hw : th.write with
  | inline key value =>
    simp only [Thread.finish, hc, hw] at hn
    cases hn
    cases hpc
    rfl
  | attach prev child isNew' =>
    simp only [Thread.finish, hc, hw] at hn
    cases hn
    cases hpc
  | bury =>
    simp only [Thread.finish, hc, hw] at hn
    cases hn
    cases hpc

omit [LinearOrder K] [Key K] in
theorem found_result {v : V} (hc : th.call = .getOrInsert k v) {o : Option V}
    (hn : th.found o = .goto th') {isNew : Bool} {val : Option V}
    (hpc : th'.pc = .validateRoot isNew val) : val = o ∧ o.isSome := by
  simp only [Thread.found, hc] at hn
  cases o with
  | none => cases hn; cases hpc
  | some v' => cases hn; cases hpc; exact ⟨rfl, rfl⟩

/-- What a slot shows of the key, the tree at the node holds. -/
theorem holds_of_data {n : NodeId} {v : V} (hs : (m.cells n).state ((m.cells n).slotOf k) = .data)
    (hi : (m.cells n).inline ((m.cells n).slotOf k) = some (k, v)) : m.Holds k n (some v) := by
  have hd := ((Cell.state_eq (by decide)).1 hs).2
  have hleaf := Cell.leafGet_data hd hi k
  rw [if_pos rfl] at hleaf
  rw [← hleaf]
  exact .leaf (by rw [hd]; rfl)

theorem lookSlot_result {v : V} (hc : th.call = .getOrInsert k v) {n : NodeId}
    (hn : lookSlot m th n k = .goto th') {isNew : Bool} {val : Option V}
    (hpc : th'.pc = .validateRoot isNew val) : ∃ v', val = some v' ∧ m.Holds k n (some v') := by
  have hslot : (m.cells n).head.predictSlot k = (m.cells n).slotOf k := rfl
  simp only [lookSlot, hslot] at hn
  split at hn
  · rename_i hs
    split at hn
    · rename_i k₁ v₁ hi
      split_ifs at hn with hk
      · subst hk
        exact ⟨v₁, (found_result hc hn hpc).1, holds_of_data hs hi⟩
      · cases (found_result hc hn hpc).2
    · cases (found_result hc hn hpc).2
  · cases hn; cases hpc
  · cases hn; cases hpc
  · cases (found_result hc hn hpc).2

theorem lookChild_result {v : V} (hc : th.call = .getOrInsert k v) {n : NodeId}
    (hn : lookChild m th n k = .goto th') {isNew : Bool} {val : Option V} :
    th'.pc ≠ .validateRoot isNew val := by
  intro hpc
  unfold lookChild at hn
  dsimp only at hn
  split at hn
  · cases (found_result hc hn hpc).2
  · cases hn; cases hpc

/-- A `get_or_insert` attaches a child only for a key that was absent. -/
theorem getOrInsert_isNew (hok : th.Ok m) (hpc : th.pc = .validateChild) {v : V}
    (hc : th.call = .getOrInsert k v) : th.write ≠ .bury ∧ th.write.isNew = true := by
  simp only [Thread.Ok, hpc] at hok
  obtain ⟨k', hat, hw, -⟩ := hok
  obtain rfl := Option.some.inj ((congrArg Call.key hc).symm.trans hat.1.1)
  generalize th.write = w at hw
  cases hw with
  | inline => exact ⟨by rintro ⟨⟩, rfl⟩
  | tombstone => exact ⟨by rintro ⟨⟩, rfl⟩
  | data _ _ _ _ _ hg => exact ⟨by rintro ⟨⟩, decide_eq_true (hg ⟨v, hc⟩)⟩
  | bury hb => cases hc.symm.trans hb

omit [LinearOrder K] [Key K] in
theorem stepValidateChild_isNew {config : Config} (hb : th.write ≠ .bury)
    (hnew : th.write.isNew = true) : stepValidateChild config m th = th.afterInsert config ∨
      ∃ again, stepValidateChild config m th = th.retry again := by
  unfold stepValidateChild
  dsimp only
  split
  · split
    · exact absurd ‹_› hb
    · exact Or.inl (if_pos hnew)
  · split_ifs
    · split
      · exact absurd ‹_› hb
      · exact Or.inl (if_pos hnew)
    · exact Or.inr ⟨_, rfl⟩

/-- **A call takes its own value**, or what it finds in a slot or below the child that it
    attached. -/
theorem getOrInsert_result {config : Config} (hok : th.Ok m) {v : V}
    (hc : th.call = .getOrInsert k v) (hnd : th.pc.isDone = false)
    (h : th.step config m = some (m', .goto th'))
    {isNew : Bool} {val : Option V} (hpc' : th'.pc = .validateRoot isNew val) :
    th.pc = .readSlot ∨ val = some v ∨ ∃ n v', th.pc = .look n ∧ val = some v' ∧
      m.Holds k n (some v') := by
  have hfinish : ∀ {next : Next K V}, next.Finishes th → next = .goto th' → val = some v := by
    rintro next (rfl | ⟨pc, rfl, hpc⟩) hn
    · exact finish_result hc hn hpc'
    · cases hn
      cases hpc'
      cases hpc
  cases hpc : th.pc <;> simp only [Thread.step, hpc] at h
  case readSlot => exact Or.inl rfl
  case look n =>
    obtain ⟨next, hn, hm⟩ := Option.map_eq_some_iff.1 h
    cases hm
    simp only [stepLook, hc, Option.some.injEq] at hn
    obtain ⟨v', hval, hv'⟩ := lookSlot_result hc hn hpc'
    exact Or.inr (Or.inr ⟨n, v', rfl, hval, hv'⟩)
  all_goals right; left
  case loadRoot =>
    simp only [stepLoadRoot, hc] at h
    split_ifs at h <;> cases h <;> cases hpc'
  case loadChild =>
    simp only [stepLoadChild, hc] at h
    split at h
    · cases h; cases hpc'
    · split_ifs at h <;> cases h <;> cases hpc'
  case claim =>
    have hn := congrArg Prod.snd (Option.some.inj h)
    unfold stepClaim at hn
    split_ifs at hn
    · split at hn <;> cases hn <;> cases hpc'
    · cases hn; cases hpc'
  case publish =>
    unfold stepPublish at h
    split at h
    · cases h; cases hpc'
    · cases h
      split_ifs at hpc'
    · cases h
  case countTombstone => cases h; cases hpc'
  case validateChild =>
    have hn := (Prod.mk.inj (Option.some.inj h)).2
    obtain ⟨hb, hnew⟩ := getOrInsert_isNew hok hpc hc
    rcases stepValidateChild_isNew hb hnew with he | ⟨again, he⟩
    · exact hfinish (he ▸ finishes_afterInsert) hn
    · rw [he] at hn
      cases hn
      cases hpc'
  case checkRatio => exact hfinish finishes_stepCheckRatio (Prod.mk.inj (Option.some.inj h)).2
  case subState => exact hfinish finishes_stepSubState (Prod.mk.inj (Option.some.inj h)).2
  case subLoad => exact hfinish finishes_stepSubLoad (Prod.mk.inj (Option.some.inj h)).2
  case subFreeze c =>
    exact hfinish (finishes_stepSubFreeze c) (congrArg Prod.snd (Option.some.inj h))
  case subWalk c w => exact hfinish (finishes_stepSubWalk c w) (Prod.mk.inj (Option.some.inj h)).2
  case subSwap => exact hfinish (finishes_stepSubSwap h) rfl
  case ownChild =>
    simp only [stepOwnChild] at h
    split at h <;> cases h <;> cases hpc'
  case lookChild n =>
    obtain ⟨next, hn, hm⟩ := Option.map_eq_some_iff.1 h
    cases hm
    simp only [stepLookChild, hc, Option.some.injEq] at hn
    exact absurd hpc' (lookChild_result hc hn)
  case validateRoot isNew' val' =>
    simp only [stepValidateRoot] at h
    split_ifs at h <;> cases h <;> cases hpc'
  all_goals rw [hpc] at hnd; cases hnd

/-- What the slot of a `get_or_insert` leads to. -/
theorem readGetOrInsert_cases {v : V} (hcur : m.NodeWF th.cur)
    (hc : th.call = .getOrInsert k v) (hpc : th.pc = .readSlot)
    (h : readGetOrInsert m th k v = some (.goto th')) :
    (th'.pc = .readSlot ∨ th'.pc = .loadChild ∨ th'.pc = .claim) ∨
    ∃ isNew v', th'.pc = .validateRoot isNew (some v') ∧ th'.root = th.root ∧
      th.takes m k = true ∧ (m.cells th.cur).state ((m.cells th.cur).slotOf k) = .data ∧
      (m.cells th.cur).inline ((m.cells th.cur).slotOf k) = some (k, v') := by
  have hslot : (m.cells th.cur).head.predictSlot k = (m.cells th.cur).slotOf k := rfl
  simp only [readGetOrInsert, hslot] at h
  split at h
  · cases h; exact Or.inl (Or.inl rfl)
  · cases h; exact Or.inl (Or.inr (Or.inr rfl))
  · cases h; exact Or.inl (Or.inr (Or.inr rfl))
  · rename_i hs
    obtain ⟨k₁, v₁, hi, -⟩ := hcur.cell.data _ ((Cell.state_eq (by decide)).1 hs).2
    simp only [hi] at h
    split_ifs at h with hk
    · subst hk
      cases h
      exact Or.inr ⟨_, v₁, rfl, rfl, by simp [Thread.takes, hpc, hc, hs, hi], hs, hi⟩
    · obtain ⟨child, -, hn⟩ := Option.bind_eq_some_iff.1 h
      cases hn
      exact Or.inl (Or.inr (Or.inr rfl))
  · cases h; exact Or.inl (Or.inr (Or.inl rfl))
  · cases h; exact Or.inl (Or.inr (Or.inl rfl))

namespace Sys
variable {s s' : Sys K V} {t t' : ℕ} {v : V} {P : V → Prop}

/-- A `get_or_insert` of the key that takes the value of an entry has its first descent
    still in place. -/
def takesInPlace (k : K) (s : Sys K V) : Act K V → Bool
  | .call _ _ => true
  | .step t =>
    match s.threads t with
    | none => true
    | some th => !th.takes s.mem k || th.inPlace s.mem

/-- The calls of a run in which the key is only looked up and stored by `get_or_insert`. -/
def OnlyGetOrInserts (k : K) (c : Call K V) : Prop :=
  c ≠ .drain ∧ c ≠ .clear ∧ (c.key = some k → c = .get k ∨ ∃ v, c = .getOrInsert k v)

/-- **A `get_or_insert` overwrites nothing.** -/
theorem OnlyGetOrInserts.respects (h : OnlyGetOrInserts k th.call) (hok : th.Ok m)
    (hl : th.Locks m) (v : V) : Respects (· = some v) m k th where
  publish v' hpc hk hv hs := by
    exfalso
    simp only [Thread.Ok, hpc] at hok
    simp only [Thread.Locks, hpc] at hl
    obtain ⟨k', hat, hw⟩ := hok
    obtain rfl := Option.some.inj (hat.1.1.symm.trans hk)
    have hleaf : ((m.cells th.cur).slots ((m.cells th.cur).slotOf k')).isChild = false := by
      rw [← hat.2, hl.2]
      exact hw.prev.2
    have hget := (Mem.sat_leaf hleaf).1 hs
    rw [← hat.2] at hget
    generalize th.write = w at hw hl
    cases hw with
    | inline => rw [Cell.leafGet_of_ne_data (by rw [hl.2]; rintro ⟨⟩)] at hget; cases hget
    | tombstone => rw [Cell.leafGet_of_ne_data (by rw [hl.2]; rintro ⟨⟩)] at hget; cases hget
    | data _ _ _ hi _ hg =>
      have hne : _ ≠ k' := hg (by
        rcases h.2.2 hk with hc | hc
        · rw [hc] at hv; cases hv
        · exact hc)
      rw [Cell.leafGet_data hl.2 hi, if_neg hne] at hget
      cases hget
    | bury hc => rw [hc] at hv; cases hv
  bury _ _ hc _ := by
    rcases h.2.2 (by rw [hc]; rfl) with hc' | ⟨v', hc'⟩
    · cases hc.symm.trans hc'
    · cases hc.symm.trans hc'

/-- What a running `get_or_insert` of the key stands for: once it has a result, its tree is
    sure of it. -/
structure Agrees (s : Sys K V) (k : K) (th : Thread K V) : Prop where
  vouches (v : V) : th.call = .getOrInsert k v →
    (∀ isNew val, th.pc ≠ .validateRoot isNew val) → Vouches (· = some v) s k th
  result (isNew : Bool) (val : Option V) : th.pc = .validateRoot isNew val →
    ∃ v, val = some v ∧ SureTree (· = some v) s k th.root

theorem Agrees.invoke {call : Call K V} (h : Agrees s k th) (hs : s.invoke t call = some s') :
    Agrees s' k th where
  vouches v hc hpc := (h.vouches v hc hpc).invoke hs
  result isNew val hpc := (h.result isNew val hpc).imp fun _ hv => ⟨hv.1, hv.2.invoke hs⟩

/-- **Steps of other operations** take nothing back. -/
theorem Agrees.other [LawfulKey K] (hinv : s.Inv) (h : Agrees s k th')
    (hth' : s.threads t' = some th') (hth : s.threads t = some th)
    (hops : OnlyGetOrInserts k th.call) (hstep : th.step s.config s.mem = some (m', next)) :
    Agrees (s.proceed t th.call m' next) k th' where
  vouches v hc hpc := (h.vouches v hc hpc).other hinv hth'
    (fun _ he => by cases hc.symm.trans he) hth hstep
    (hops.respects (hinv.ok hth) (hinv.locks hth) v)
  result isNew val hpc := (h.result isNew val hpc).imp fun v hv => ⟨hv.1, hv.2.step hinv hth hstep
    (hops.respects (hinv.ok hth) (hinv.locks hth) v)⟩

/-- **An entry that is taken in place**, the tree is sure of. -/
theorem sureTree_of_data (hinv : s.Inv) (hat : th.At s.mem k) (hin : th.inPlace s.mem = true)
    (hs : (s.mem.cells th.cur).state ((s.mem.cells th.cur).slotOf k) = .data)
    (hi : (s.mem.cells th.cur).inline ((s.mem.cells th.cur).slotOf k) = some (k, v)) :
    SureTree (· = some v) s k th.root := by
  have hsat : s.mem.Sat (· = some v) k th.cur := ⟨_, holds_of_data hs hi, rfl⟩
  cases hf : th.first with
  | none =>
    have hcur := hat.2.2.start hf
    rw [hcur] at hs hsat
    refine .of_leaf hinv hat.2.2.rootWF ?_ hsat
    rw [((Cell.state_eq (by decide)).1 hs).2]
    rfl
  | some f =>
    have hd := hat.2.2.descent _ _ _ hf
    have hpar : f.1 = th.root := hd.parent
    have hc : (s.mem.cells f.1).children f.2.1 = some ⟨f.2.2, false⟩ := by
      simpa only [Thread.inPlace, hf, decide_eq_true_eq] using hin
    rw [← hpar] at hd ⊢
    exact .of_child hinv (hpar ▸ hat.2.2.rootWF) hd hc hsat

/-- **A step of a `get_or_insert`** that goes on. -/
theorem Agrees.own [LawfulKey K] (hinv : s.Inv) (h : Agrees s k th) (hth : s.threads t = some th)
    (hc : th.call = .getOrInsert k v) (hops : OnlyGetOrInserts k th.call)
    (hnd : th.pc.isDone = false) (htakes : th.takes s.mem k = true → th.inPlace s.mem = true)
    (hstep : th.step s.config s.mem = some (m', .goto th')) :
    Agrees (s.proceed t th.call m' (.goto th')) k th' := by
  have hok := hinv.ok hth
  have hkey : th.call.key = some k := by rw [hc]; rfl
  have hg : ∀ k', th.call ≠ .get k' := by
    intro k' he
    cases hc.symm.trans he
  have hcall := (step_next hinv.headroom hinv.root hok (hinv.locks hth) hstep).call
  by_cases h₁ : th.pc = .readSlot
  · have hstep' := hstep
    simp only [Thread.Ok, h₁] at hok
    obtain ⟨k', hat⟩ := hok
    obtain rfl := Option.some.inj (hat.1.symm.trans hkey)
    simp only [Thread.step, h₁] at hstep'
    obtain ⟨n, hn, hm⟩ := Option.map_eq_some_iff.1 hstep'
    cases hm
    simp only [stepReadSlot, hc] at hn
    rcases readGetOrInsert_cases hat.2.2.curWF hc h₁ hn with
      hpc | ⟨isNew, v', hpc, hroot, htk, hs, hi⟩
    · refine ⟨fun _ _ _ => ?_, fun isNew val he => ?_⟩
      · rcases hpc with hpc | hpc | hpc <;> simp only [Vouches, hpc]
      · rcases hpc with hpc | hpc | hpc <;> cases hpc.symm.trans he
    · refine ⟨fun _ _ hne => absurd hpc (hne _ _), fun isNew' val he => ?_⟩
      cases hpc.symm.trans he
      refine ⟨v', rfl, ?_⟩
      rw [hroot]
      exact (sureTree_of_data hinv hat (htakes htk) hs hi).step hinv hth hstep
        (respects_of_pc (by rw [h₁]; rintro ⟨⟩) (by rw [h₁]; rintro ⟨⟩))
  by_cases h₂ : ∃ isNew val, th.pc = .validateRoot isNew val
  · -- the root is not in place, or the operation would be done
    obtain ⟨isNew, val, hpc⟩ := h₂
    simp only [Thread.step, hpc, stepValidateRoot] at hstep
    split_ifs at hstep <;> cases hstep <;>
      exact ⟨fun _ _ _ => trivial, by rintro _ _ ⟨⟩⟩
  push Not at h₂
  have hv := h.vouches v hc h₂
  have hv' : Vouches (· = some v) (s.proceed t th.call m' (.goto th')) k th' := by
    refine hv.step hinv hth hkey hg (fun v' hv' => ?_) (fun hb => ?_) hstep fun he => absurd he h₁
    · rw [hc] at hv'
      exact hv'.symm
    · cases hc.symm.trans hb
  refine ⟨fun v' hc' _ => ?_, fun isNew val hpc => ⟨v, ?_, ?_⟩⟩
  · rw [hcall, hc] at hc'
    cases hc'
    exact hv'
  · rcases getOrInsert_result hok hc hnd hstep hpc with he | hval | ⟨n, v', hlook, rfl, hh⟩
    · exact absurd he h₁
    · exact hval
    · simp only [Vouches, hlook] at hv
      obtain ⟨o, ho, rfl⟩ := hv.1
      exact hh.unique ho
  · simpa only [Vouches, hpc] using hv'

/-! ## Agreement -/

/-- What an operation returns that is done with its key, or is done now. -/
def Yields (C : Reply K V → Prop) : Next K V → Prop
  | .goto th' => th'.pc.isDone = true → C th'.reply
  | .ret reply => C reply

/-- What the calls of `get_or_insert` for the key return. -/
structure Returns (C : Reply K V → Prop) (s : Sys K V) (k : K) : Prop where
  running {t : ℕ} {th : Thread K V} {v : V} : s.threads t = some th →
    th.call = .getOrInsert k v → th.pc.isDone = true → C th.reply
  returned {t : ℕ} {v : V} {reply : Reply K V} : .ret t (.getOrInsert k v) reply ∈ s.history →
    C reply

variable {C : Reply K V → Prop}

omit [LinearOrder K] [Key K] in
theorem Returns.imp {D : Reply K V → Prop} (h : Returns C s k) (hCD : ∀ reply, C reply → D reply) :
    Returns D s k :=
  ⟨fun hth hc hd => hCD _ (h.running hth hc hd), fun hr => hCD _ (h.returned hr)⟩

omit [LinearOrder K] [Key K] in
theorem Returns.invoke {call : Call K V} (h : Returns C s k) (hs : s.invoke t call = some s') :
    Returns C s' k := by
  obtain ⟨-, rfl⟩ := invoke_eq_some hs
  refine ⟨fun {t' th v} hth hc hd => ?_, fun {t' v reply} hr => ?_⟩
  · by_cases ht : t' = t
    · subst ht
      cases (Function.update_self _ _ _).symm.trans hth
      rw [show call = .getOrInsert k v from hc] at hd
      cases hd
    · exact h.running ((Function.update_of_ne ht _ _).symm.trans hth) hc hd
  · rcases List.mem_cons.1 hr with hr | hr
    · cases hr
    · exact h.returned hr

theorem Returns.step [LawfulKey K] (hinv : s.Inv) (h : Returns C s k)
    (hth : s.threads t = some th) (hstep : th.step s.config s.mem = some (m', next))
    (hy : ∀ v, th.call = .getOrInsert k v → Yields C next) :
    Returns C (s.proceed t th.call m' next) k := by
  have hnext := step_next hinv.headroom hinv.root (hinv.ok hth) (hinv.locks hth) hstep
  refine ⟨fun {t' th' v} hth' hc hd => ?_, fun {t' v reply} hr => ?_⟩
  · by_cases ht : t' = t
    · subst ht
      cases proceed_threads_self hth'
      exact hy v (hnext.call.symm.trans hc) hd
    · rw [proceed_threads_of_ne ht] at hth'
      exact h.running hth' hc hd
  · cases next with
    | goto th' => exact h.returned hr
    | ret reply' =>
      rcases List.mem_cons.1 hr with hr | hr
      · obtain ⟨-, hc, rfl⟩ := Event.ret.inj hr
        exact hy v hc.symm
      · exact h.returned hr

/-- **What all calls of `get_or_insert` for the key agree on**, once one has its result. -/
structure Agreement (P : V → Prop) (s : Sys K V) (k : K) : Prop where
  supplied : SureRoot (fun o => ∀ v, o = some v → P v) s k
  running {t : ℕ} {th : Thread K V} {v : V} : s.threads t = some th →
    th.call = .getOrInsert k v → th.pc.isDone = false → Agrees s k th
  decided : Returns (fun _ => False) s k ∨
    ∃ v, P v ∧ SureRoot (· = some v) s k ∧ Returns (· = .value v) s k

theorem Agreement.invoke {call : Call K V} (h : Agreement P s k) (hs : s.invoke t call = some s') :
    Agreement P s' k where
  supplied := h.supplied.invoke hs
  running {t' th v} hth hc hnd := by
    obtain ⟨-, rfl⟩ := invoke_eq_some hs
    by_cases ht : t' = t
    · subst ht
      cases (Function.update_self _ _ _).symm.trans hth
      rw [show call = .getOrInsert k v from hc]
      exact ⟨fun _ _ _ => trivial, by rintro _ _ ⟨⟩⟩
    · exact (h.running ((Function.update_of_ne ht _ _).symm.trans hth) hc hnd).invoke hs
  decided := h.decided.imp (fun hr => hr.invoke hs) fun ⟨v, hv, hsure, hr⟩ =>
    ⟨v, hv, hsure.invoke hs, hr.invoke hs⟩

/-- **The result of a call**: the map is sure of it. -/
theorem Agrees.root (hinv : s.Inv) (h : Agrees s k th)
    (hc : th.call = .getOrInsert k v) {isNew : Bool} {val : Option V}
    (hpc : th.pc = .validateRoot isNew val) (hroot : s.mem.root = ⟨th.root, false⟩)
    (hstep : th.step s.config s.mem = some (m', next)) :
    ∃ v', SureRoot (· = some v') s k ∧ Yields (· = .value v') next := by
  obtain ⟨v', rfl, hsure⟩ := h.result isNew val hpc
  refine ⟨v', hsure.root hinv hroot, ?_⟩
  simp only [Thread.step, hpc, stepValidateRoot, hroot, if_true] at hstep
  split_ifs at hstep <;> cases hstep
  · exact fun _ => by simp only [Thread.result, hc]
  · simp only [Yields, Thread.result, hc]


/-- **A step keeps the agreement**, and the first result makes it. -/
theorem Agreement.step [LawfulKey K] (hinv : s.Inv)
    (hops : ∀ {t th}, s.threads t = some th → OnlyGetOrInserts k th.call)
    (hP : ∀ {t th v}, s.threads t = some th → th.call = .getOrInsert k v → P v)
    (h : Agreement P s k) (hin : takesInPlace k s (.step t) = true) (hs : s.step t = some s') :
    Agreement P s' k := by
  obtain ⟨th, m', next, hth, hstep, rfl⟩ := step_eq_some hs
  have hok := hops hth
  have hr : ∀ v, Respects (· = some v) s.mem k th :=
    hok.respects (hinv.ok hth) (hinv.locks hth)
  have hkeep : ∀ {Q : Option V → Prop}, Respects Q s.mem k th → SureRoot Q s k →
      SureRoot Q (s.proceed t th.call m' next) k := fun hr hsure =>
    hsure.step hinv hth hstep hr fun _ _ _ hc => by
      rcases hc with hc | hc
      · exact absurd hc hok.1
      · exact absurd hc hok.2.1
  have hnext := step_next hinv.headroom hinv.root (hinv.ok hth) (hinv.locks hth) hstep
  have htakes : th.takes s.mem k = true → th.inPlace s.mem = true := by
    intro htk
    simpa only [takesInPlace, hth, htk, Bool.not_true, Bool.false_or] using hin
  refine ⟨hkeep ⟨fun v _ hk hv _ => ?_, fun _ _ _ _ => nofun⟩ h.supplied,
    fun {t' th' v} hth' hc hnd => ?_, ?_⟩
  · rcases hok.2.2 hk with hc | ⟨v', hc⟩
    · rw [hc] at hv; cases hv
    · rw [hc] at hv
      cases hv
      rintro v' he
      cases he
      exact hP hth hc
  · by_cases ht : t' = t
    · subst ht
      cases proceed_threads_self hth'
      have hc₀ := hnext.call.symm.trans hc
      have hnd₀ : th.pc.isDone = false := by
        by_contra hd
        rcases done_step (fun _ _ _ => ⟨hok.1, hok.2.1⟩) (by simpa using hd) hstep with ⟨pc, hn, hpc⟩ | hn
        · cases hn
          cases hpc.symm.trans hnd
        · cases hn
      exact (h.running hth hc₀ hnd₀).own hinv hth hc₀ hok hnd₀ htakes hstep
    · rw [proceed_threads_of_ne ht] at hth'
      exact (h.running hth' hc hnd).other hinv hth' hth hok hstep
  · have hkept : ∀ {C : Reply K V → Prop}, Returns C s k →
        (∀ v, th.call = .getOrInsert k v → th.pc.isDone = false → Yields C next) →
        Returns C (s.proceed t th.call m' next) k := by
      intro C hret hy
      refine hret.step hinv hth hstep fun v hc => ?_
      by_cases hd : th.pc.isDone = true
      · have hC := hret.running hth hc hd
        rcases done_step (fun _ _ _ => ⟨hok.1, hok.2.1⟩) hd hstep with ⟨pc, rfl, -⟩ | rfl
        · exact fun _ => hC
        · exact hC
      · exact hy v hc (by simpa using hd)
    by_cases hend : ∃ v isNew val, th.call = .getOrInsert k v ∧ th.pc = .validateRoot isNew val ∧
        s.mem.root = ⟨th.root, false⟩
    · -- the operation finds its root in place
      obtain ⟨v, isNew, val, hc, hpc, hroot⟩ := hend
      have hag := h.running hth hc (by rw [hpc]; rfl)
      obtain ⟨v', hsure, hy⟩ := hag.root hinv hc hpc hroot hstep
      refine Or.inr ⟨v', ?_, hkeep (hr v') hsure, ?_⟩
      · obtain ⟨o, ho, hPo⟩ := h.supplied.tree.sat
        obtain ⟨_, ho', rfl⟩ := hsure.tree.sat
        exact hPo v' (ho.unique ho')
      · rcases h.decided with hret | ⟨v₀, -, hsure₀, hret⟩
        · exact hkept (hret.imp fun _ hf => hf.elim) fun _ _ _ => hy
        · cases hsure.tree.unique hsure₀.tree
          exact hkept hret fun _ _ _ => hy
    · have hgoes : ∀ {C : Reply K V → Prop} (v : V), th.call = .getOrInsert k v →
          th.pc.isDone = false → Yields C next := by
        intro C v hc hnd
        rcases step_update (fun _ he => nomatch hc.symm.trans he) hnd hstep with
          ⟨th', rfl, hnd'⟩ | ⟨isNew, val, hpc, hroot, -⟩
        · exact fun hd => nomatch hnd'.symm.trans hd
        · exact absurd ⟨v, isNew, val, hc, hpc, hroot⟩ hend
      exact h.decided.imp (fun hret => hkept hret hgoes) fun ⟨v, hv, hsure, hret⟩ =>
        ⟨v, hv, hkeep (hr v) hsure, hkept hret hgoes⟩

/-- A call of such a schedule. -/
def Scheduled (k : K) (sched : List (Act K V)) (c : Call K V) : Prop :=
  OnlyGetOrInserts k c ∧ ∃ t, .call t c ∈ sched

/-- **`get_or_insert` agrees**: if every entry of the key is taken in place, all calls return
    one value, which one of them supplied and which a lookup returns in the end. -/
theorem run_agreement [LawfulKey K] {config : Config} (hc : config.Valid) {map : LearnedMap K V}
    {pairs : List (K × V)} (hs : Starts config map pairs) (hk : pairs.lookup k = none)
    {sched : List (Act K V)} (hops : ∀ t c, .call t c ∈ sched → c ≠ .drain ∧ c ≠ .clear ∧
      (c.key = some k → c = .get k ∨ ∃ v, c = .getOrInsert k v))
    (hrun : (Sys.init map).run sched = some s)
    (hmeets : Run.Meets act (fun s a => takesInPlace k s a = true) (Sys.init map) sched)
    (hret : ∃ t v reply, .ret t (.getOrInsert k v) reply ∈ s.history) :
    ∃ v, (∃ t, .call t (.getOrInsert k v) ∈ sched) ∧
      (∀ t v' reply, .ret t (.getOrInsert k v') reply ∈ s.history → reply = .value v) ∧
      (s.Quiescent → s.Answers k (some v)) := by
  have hinit := Inv.init hc hs
  have hstart : Agreement (fun v => ∃ t, .call t (.getOrInsert k v) ∈ sched) (Sys.init map) k := by
    refine ⟨.init hc hs fun v hv => ?_, nofun, Or.inl ⟨nofun, nofun⟩⟩
    rw [hk] at hv
    cases hv
  have hsched : ∀ t th, (Sys.init map).threads t = some th → Scheduled k sched th.call := by
    intro t th hth
    cases hth
  have hend : s.Inv ∧ (∀ t th, s.threads t = some th → Scheduled k sched th.call) ∧
      Agreement (fun v => ∃ t, .call t (.getOrInsert k v) ∈ sched) s k := by
    refine Run.run_induct (I := fun s => s.Inv ∧
      (∀ t th, s.threads t = some th → Scheduled k sched th.call) ∧
      Agreement (fun v => ∃ t, .call t (.getOrInsert k v) ∈ sched) s k)
      (fun {s a s'} h ha hact => ?_) ⟨hinit, hsched, hstart⟩
      (hmeets.and (Run.Meets.mem sched)) hrun
    obtain ⟨hinv, hrunning, hag⟩ := h
    refine ⟨hinv.act hact, running_act hinv hrunning (fun t c he => ?_) hact, ?_⟩
    · have hmem := he ▸ ha.2
      exact ⟨hops t c hmem, t, hmem⟩
    · cases a with
      | call t c => exact hag.invoke hact
      | step t =>
        refine hag.step hinv (fun hth => (hrunning _ _ hth).1) (fun hth hc => ?_) ha.1 hact
        rw [← hc]
        exact (hrunning _ _ hth).2
  obtain ⟨hinv, -, hag⟩ := hend
  obtain ⟨t, v, reply, hr⟩ := hret
  rcases hag.decided with hret | ⟨v, hv, hsure, hret⟩
  · exact (hret.returned hr).elim
  · refine ⟨v, hv, fun t v' reply hr => hret.returned hr, fun hq => ?_⟩
    obtain ⟨o, rfl, hans⟩ := hsure.answers hinv hq
    exact hans

/-- Two calls for one key: the second one stores its value between the look of the first
    one and its CAS. -/
def getOrInsertTwice (k : K) (v v' : V) : List (Act K V) :=
  .call 0 (.getOrInsert k v) :: .call 1 (.getOrInsert k v') :: List.replicate 2 (Act.step 0) ++
    List.replicate 8 (Act.step 1) ++ List.replicate 3 (Act.step 0)

theorem run_agreement_twice : ∃ (s : Sys (Fin (2 ^ 8)) ℕ) (v : ℕ),
    (Sys.init (.withConfig {})).run (getOrInsertTwice ⟨5, by decide⟩ 1 2) = some s ∧
    (∃ t, Act.call t (.getOrInsert (⟨5, by decide⟩ : Fin (2 ^ 8)) v) ∈
      getOrInsertTwice ⟨5, by decide⟩ 1 2) ∧
    (∀ t v' reply, .ret t (.getOrInsert ⟨5, by decide⟩ v') reply ∈ s.history →
      reply = .value v) ∧ (s.Quiescent → s.Answers ⟨5, by decide⟩ (some v)) := by
  have := lawfulKey_unsigned (show 8 ≤ 64 by decide)
  have he : ((Sys.init (.withConfig {} : LearnedMap (Fin (2 ^ 8)) ℕ)).run
      (getOrInsertTwice ⟨5, by decide⟩ 1 2)).map (fun s => s.history) =
      some [.ret 0 (.getOrInsert ⟨5, by decide⟩ 1) (.value 2),
        .ret 1 (.getOrInsert ⟨5, by decide⟩ 2) (.value 2), .inv 1 (.getOrInsert ⟨5, by decide⟩ 2),
        .inv 0 (.getOrInsert ⟨5, by decide⟩ 1)] := by
    decide +kernel
  obtain ⟨s, hs, hh⟩ := Option.map_eq_some_iff.1 he
  have hmeets : Run.Meets act (fun s a => takesInPlace ⟨5, by decide⟩ s a = true)
      (Sys.init (.withConfig {} : LearnedMap (Fin (2 ^ 8)) ℕ))
      (getOrInsertTwice ⟨5, by decide⟩ 1 2) := by
    decide +kernel
  obtain ⟨v, hv⟩ := run_agreement (show ({} : Config).Valid from ⟨one_le_two, le_rfl⟩) .withConfig
    rfl (fun t c hm => by
      simp [getOrInsertTwice] at hm
      rcases hm with ⟨-, rfl⟩ | ⟨-, rfl⟩
      · exact ⟨by rintro ⟨⟩, by rintro ⟨⟩, fun _ => Or.inr ⟨1, rfl⟩⟩
      · exact ⟨by rintro ⟨⟩, by rintro ⟨⟩, fun _ => Or.inr ⟨2, rfl⟩⟩)
    hs hmeets ⟨0, 1, .value 2, by rw [hh]; exact List.mem_cons_self⟩
  exact ⟨s, v, hs, hv⟩

/-- Thread 0 stores the key in a subtree that the rebuild of thread 2 has read already,
    thread 1 takes the value from there, and then stores another one in the new subtree. -/
def getOrInsertOrphaned (k₁ k₂ k₃ k : K) (v₁ v₂ v₃ : V) : List (Act K V) :=
  .call 0 (.insert k₁ v₁) :: List.replicate 8 (Act.step 0) ++
    Act.call 0 (.insert k₂ v₂) :: List.replicate 8 (Act.step 0) ++
    Act.call 0 (.getOrInsert k v₁) :: List.replicate 3 (Act.step 0) ++
    Act.call 1 (.getOrInsert k v₂) :: List.replicate 3 (Act.step 1) ++
    Act.call 2 (.insert k₃ v₃) :: List.replicate 22 (Act.step 2) ++
    List.replicate 5 (Act.step 0) ++ List.replicate 6 (Act.step 1) ++ List.replicate 4 (Act.step 2) ++
    Act.call 1 (.getOrInsert k v₃) :: List.replicate 33 (Act.step 1) ++
    List.replicate 7 (Act.step 0)

/-- **Two values for one key**, from an entry in a subtree that is about to be replaced. -/
theorem getOrInsert_disagrees :
    (Sys.init (.withConfig { rebuildDepthThreshold := 0 } :
      LearnedMap (Fin (2 ^ 8)) ℕ)).outcome 3
        (getOrInsertOrphaned ⟨100, by decide⟩ ⟨101, by decide⟩ ⟨102, by decide⟩ ⟨103, by decide⟩
          1 2 3) =
      some [.ret 0 (.getOrInsert ⟨103, by decide⟩ 1) (.value 3),
        .ret 1 (.getOrInsert ⟨103, by decide⟩ 3) (.value 3),
        .inv 1 (.getOrInsert ⟨103, by decide⟩ 3),
        .ret 2 (.insert ⟨102, by decide⟩ 3) (.bool true),
        .ret 1 (.getOrInsert ⟨103, by decide⟩ 2) (.value 1),
        .inv 2 (.insert ⟨102, by decide⟩ 3), .inv 1 (.getOrInsert ⟨103, by decide⟩ 2),
        .inv 0 (.getOrInsert ⟨103, by decide⟩ 1), .ret 0 (.insert ⟨101, by decide⟩ 2) (.bool true),
        .inv 0 (.insert ⟨101, by decide⟩ 2), .ret 0 (.insert ⟨100, by decide⟩ 1) (.bool true),
        .inv 0 (.insert ⟨100, by decide⟩ 1)] := by
  decide +kernel

end Sys

end Scry.Index
