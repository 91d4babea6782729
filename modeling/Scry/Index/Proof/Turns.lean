/-
  The length of the map when no operation is in flight.

  An operation changes the presence of its key, and counts the change some steps later; a
  drain or a clear swaps in an empty root, and takes what it collected off the length
  after that.  So the length differs from the number of present keys by what the running
  operations have still to pay (`debt`).  Which keys are present is recorded along the run
  (`noteTurn`); if the changes of each key take turns (`InTurn`), the tree comes to hold
  the keys of the record, since whoever changes a key last has to see to it (`Pursued`).
-/
import Scry.Index.Proof.Clear
import Scry.Index.Proof.HandOut
import Scry.Index.Proof.Length

namespace Scry.Index

variable {K V : Type} [LinearOrder K] [Key K] {m m' : Mem K V} {th th' : Thread K V} {k : K}
  {next : Next K V} {config : Config}

/-! ## What an operation has still to pay -/

/-- What the operation counts for its key. -/
def Call.sign : Call K V → ℤ
  | .insert _ _ => 1
  | .getOrInsert _ _ => 1
  | .remove _ => -1
  | _ => 0

/-- The entries that are about to be taken off the length. -/
def Pc.emptied : Pc K V → ℕ
  | .subtract n => n
  | _ => 0

omit [LinearOrder K] [Key K] in
theorem Pc.emptied_of_ne {pc : Pc K V} (h : ∀ n, pc ≠ .subtract n) : pc.emptied = 0 := by
  cases pc with
  | subtract n => exact absurd rfl (h n)
  | _ => rfl

namespace Thread

/-- What the operation has still to add to the length. -/
def debt (th : Thread K V) : ℤ :=
  (if th.marked && !th.pc.counted then th.call.sign else 0) - th.pc.emptied

/-- What its next step adds to the length. -/
def pays (th : Thread K V) : ℤ :=
  match th.pc with
  | .count => th.call.sign
  | .subtract n => -n
  | _ => 0

/-- Its next step adds its key to a node, or removes it there. -/
def turns (m : Mem K V) (th : Thread K V) : Bool :=
  match th.pc with
  | .publish => th.write.isNew
  | .claim =>
    match th.write with
    | .bury => (m.cells th.cur).state th.idx = .data
    | _ => false
  | _ => false

/-- What its next step adds to the number of present keys. -/
def gains (m : Mem K V) (th : Thread K V) : ℤ :=
  match th.pc with
  | .rootSwap _ pairs => if th.empties then -pairs.length else 0
  | _ => if th.turns m && !th.marked then th.call.sign else 0

/-- The lookup at the end of a `get_or_insert` finds its slot claimed, or without the key, and
    the operation forgets that it has added it. -/
def forgets (m : Mem K V) (th : Thread K V) : Bool :=
  match th.pc with
  | .look n =>
    match th.call with
    | .getOrInsert key _ =>
      let c := m.cells n
      let idx := c.slotOf key
      (c.claimed idx || !((c.slots idx).isChild || (c.leafGet idx key).isSome)) &&
        !(th.was || th.again)
    | _ => false
  | _ => false

omit [LinearOrder K] [Key K] in
theorem turns_iff : th.turns m = true ↔ th.Writes m ∧ th.write.isNew = true := by
  unfold turns Writes
  split
  · rename_i hpc
    simp [hpc]
  · rename_i hpc
    split
    · rename_i hw
      simp [hpc, hw, Write.isNew]
    · rename_i hw
      simp only [Bool.false_eq_true, false_iff, not_and]
      rintro (he | ⟨-, hb, -⟩)
      · cases hpc.symm.trans he
      · exact absurd hb hw
  · rename_i h₁ h₂
    simp only [Bool.false_eq_true, false_iff, not_and]
    rintro (he | ⟨he, -⟩)
    · exact absurd he h₁
    · exact absurd he h₂

omit [LinearOrder K] [Key K] in
theorem debt_of_sign (hs : th.call.sign = 0) : th.debt = -th.pc.emptied := by
  simp [debt, hs]

omit [LinearOrder K] [Key K] in
theorem debt_of_counted (hc : th.pc.counted = true) : th.debt = -th.pc.emptied := by
  simp [debt, hc]

omit [LinearOrder K] [Key K] in
theorem Regular.emptied (h : th.Regular) (he : th.empties = false) : th.pc.emptied = 0 := by
  have hne : ¬ (th.call = .drain ∨ th.call = .clear) := by
    rw [← empties_iff, he]
    rintro ⟨⟩
  rw [not_or] at hne
  exact Pc.emptied_of_ne (h.not_subtract hne.1 hne.2)

end Thread

/-- What the operation has still to add if it goes on, or returns, like this. -/
def Next.debt : Next K V → ℤ
  | .goto th' => th'.debt
  | .ret _ => 0

/-- Only a drain or a clear that swaps in an empty root is about to take entries off. -/
theorem emptied_step (hok : th.Ok m) (hl : th.Locks m) (hr : th.Regular)
    (hcall : th'.call = th.call) (hs : th.swapsEmpty m = false)
    (h : th.step config m = some (m', .goto th')) : th'.pc.emptied = 0 := by
  by_cases he : th.empties = true
  · have hkey : th.call.key = none := by
      rcases Thread.empties_iff.1 he with hc | hc <;> rw [hc] <;> rfl
    have hdone : th.pc.isDone = true := by
      by_contra hnd
      obtain ⟨k, hk⟩ := hok.key (by simpa using hnd)
      cases hkey.symm.trans hk
    cases hpc : th.pc <;> rw [hpc] at hdone <;> simp only [Thread.step, hpc] at h
    case count =>
      obtain ⟨k, hk, -⟩ := hr.counting hpc
      cases hkey.symm.trans hk
    case rootSwap r pairs =>
      simp only [Thread.Locks, hpc] at hl
      simp [Thread.swapsEmpty, hpc, he, hl] at hs
    case loadThreshold =>
      unfold stepLoadThreshold at h
      split_ifs at h <;> cases h
      rfl
    case casThreshold =>
      unfold stepCasThreshold at h
      split_ifs at h <;> cases h
      rfl
    case rootLoad =>
      unfold stepRootLoad at h
      split_ifs at h <;> cases h
      rfl
    case rootFreeze =>
      unfold stepRootFreeze at h
      split_ifs at h <;> cases h
      rfl
    case rootWalk =>
      unfold stepRootWalk at h
      split at h <;> cases h <;> rfl
    case subtract => cases h; rfl
    case storeThreshold => cases h
    all_goals cases hdone
  · refine (hr.step hok hcall h).1.emptied ?_
    rw [Thread.empties, hcall]
    exact eq_false_of_ne_true he

/-- A lookup that does not look away keeps the flag. -/
theorem marked_of_look (hok : th.Ok m) (hg : ∀ k', th.call ≠ .get k')
    (hf : th.forgets m = false) (hlook : th.pc.isLook = true)
    (h : th.step config m = some (m', .goto th')) : th'.marked = true := by
  cases hpc : th.pc <;> rw [hpc] at hlook <;> simp only [Thread.Ok, hpc] at hok <;>
    simp only [Thread.step, hpc] at h
  case ownChild =>
    obtain ⟨k, ⟨hat, -⟩, hs⟩ := hok
    obtain ⟨p, hp, -⟩ := hat.2.2.curWF.cell.child _ hs
    simp only [stepOwnChild, hp] at h
    cases h
    exact marked_of_isLook rfl
  case look n =>
    obtain ⟨k, hkey, hn, -⟩ := hok
    obtain ⟨n', hl, hm⟩ := Option.map_eq_some_iff.1 h
    cases hm
    cases hc : th.call with
    | get k' => exact absurd hc (hg k')
    | getOrInsert key v =>
      obtain rfl : key = k := by rw [hc] at hkey; exact Option.some.inj hkey
      simp only [Thread.forgets, hpc, hc] at hf
      have hl := stepLook_eq hkey hl
      -- what the lookup finds, or that it looked away
      have hfound : ∀ o, th.found o = .goto th' → (o = none → (th.was || th.again) = true) →
          th'.marked = true := by
        intro o hn ho
        simp only [Thread.found, hc] at hn
        cases o with
        | some v' =>
          cases hn
          exact marked_of_looks (Or.inr ⟨v', rfl⟩)
        | none =>
          cases hn
          exact ho rfl
      by_cases hcl : (m.cells n).claimed ((m.cells n).slotOf key) = true
      · have hst : (m.cells n).state ((m.cells n).head.predictSlot key) = .writing :=
          Cell.state_of_claimed hcl
        simp only [lookSlot, hst] at hl
        refine hfound none hl.symm fun _ => ?_
        simpa only [hcl, Bool.true_or, Bool.true_and, Bool.not_eq_false'] using hf
      · by_cases hch : ((m.cells n).slots ((m.cells n).slotOf key)).isChild = true
        · rw [lookSlot_child (by simpa using hcl) hch] at hl
          cases hl
          exact marked_of_isLook rfl
        · rw [Bool.not_eq_true] at hch
          rw [lookSlot_leaf hn (fun h => absurd h hcl) hch] at hl
          refine hfound _ hl.symm fun hnone => ?_
          simpa only [hch, hnone, Option.isSome_none, Bool.or_self, Bool.not_false, Bool.or_true,
            Bool.true_and, Bool.not_eq_false'] using hf
    | _ => simp only [stepLook, hc] at hl; cases hl
  case lookChild n =>
    obtain ⟨k, ⟨hkey, hn, -⟩, hs⟩ := hok
    obtain ⟨p, hp, -⟩ := hn.cell.child _ hs
    obtain ⟨n', hl, hm⟩ := Option.map_eq_some_iff.1 h
    cases hm
    cases stepLookChild_eq hkey hp hl
    exact marked_of_isLook rfl
  all_goals cases hlook

/-- What a step of an update does to its debt. -/
theorem update_debt (hok : th.Ok m) (hr : th.Regular) (hg : ∀ k', th.call ≠ .get k')
    (hkey : th.call.key = some k) (hcall : ∀ th', next = .goto th' → th'.call = th.call)
    (hf : th.forgets m = false) (h : th.step config m = some (m', next)) :
    next.debt = th.debt - th.pays + th.gains m := by
  have hemp : th.empties = false := by
    unfold Thread.empties
    cases hc : th.call <;> first | rfl | (rw [hc] at hkey; cases hkey)
  have hemptied := hr.emptied hemp
  have hemptied' : ∀ th', next = .goto th' → th'.pc.emptied = 0 := by
    rintro th' rfl
    refine (hr.step hok (hcall th' rfl) h).1.emptied ?_
    rw [Thread.empties, hcall th' rfl]
    exact hemp
  by_cases hcount : th.pc = .count
  · -- it pays
    have hd : th.debt = th.call.sign := by
      simp [Thread.debt, hcount, Thread.marked, Pc.counted, Pc.emptied]
    have hg : th.gains m = 0 := by simp [Thread.gains, hcount, Thread.turns]
    have hp : th.pays = th.call.sign := by simp only [Thread.pays, hcount]
    have hn : next.debt = 0 := by
      cases next with
      | ret reply => rfl
      | goto th' =>
        rw [Next.debt, Thread.debt_of_counted (Sys.counted_of_count hcount h), hemptied' th' rfl]
        rfl
    rw [hn, hd, hg, hp]
    ring
  have hpays : th.pays = 0 := by
    unfold Thread.pays
    split
    · exact absurd ‹_› hcount
    · rename_i n hpc
      rw [hpc] at hemptied
      rw [show n = 0 from hemptied]
      rfl
    · rfl
  by_cases hnd : th.pc.isDone = false
  · have hnc := Pc.not_counted hnd
    have hd : th.debt = if th.marked = true then th.call.sign else 0 := by
      simp [Thread.debt, hnc, hemptied]
    have hgains : th.gains m = if th.turns m && !th.marked then th.call.sign else 0 := by
      unfold Thread.gains
      split
      · rename_i hpc
        rw [hpc] at hnd
        cases hnd
      · rfl
    rcases step_update hg hnd h with ⟨th', rfl, hnd'⟩ | ⟨isNew, val, hpc, hroot, -⟩
    · have hd' : Next.debt (.goto th') = if th'.marked = true then th.call.sign else 0 := by
        simp [Next.debt, Thread.debt, Pc.not_counted hnd', hemptied' th' rfl, hcall th' rfl]
      rw [hd', hd, hpays, hgains]
      have hturns : th.turns m = true ↔ _ := Thread.turns_iff
      rcases step_marked hok hg hnd (fun hl => marked_of_look hok hg hf hl h) h hnd' with
        ⟨hw, hm⟩ | ⟨hw, hm⟩
      · have ht : th.turns m = false := by
          rw [← Bool.not_eq_true, hturns]
          exact fun ht => hw ht.1
        simp [hm, ht]
      · have ht : th.turns m = th.write.isNew := by
          rw [Bool.eq_iff_iff, hturns]
          exact and_iff_right hw
        rw [hm, ht]
        cases th.marked <;> cases th.write.isNew <;> simp
    · -- it has found its root in place
      have hm : th.marked = (isNew || th.was) := by
        simp only [Thread.marked, hpc, Bool.or_comm]
      have hz : th.gains m = 0 := by
        rw [hgains]
        simp [Thread.turns, hpc]
      rw [hd, hpays, hz, hm]
      simp only [Thread.step, hpc, stepValidateRoot, hroot, if_true] at h
      split_ifs at h with hdid <;> cases h
      · simp [Next.debt, Thread.debt, Thread.marked, Pc.counted, Pc.emptied, hdid]
      · simp [Next.debt, hdid]
  · -- it has counted its key
    have hc : th.pc.counted = true := by
      rcases Pc.isDone_iff.1 (by simpa using hnd) with hc | hc
      · exact absurd hc hcount
      · exact hc
    have hz : th.gains m = 0 := by
      unfold Thread.gains
      split
      · simp [hemp]
      · have ht : th.turns m = false := by
          unfold Thread.turns
          split
          · rename_i hpc
            rw [hpc] at hc
            cases hc
          · rename_i hpc
            rw [hpc] at hc
            cases hc
          · rfl
        simp [ht]
    rw [Thread.debt_of_counted hc, hemptied, hpays, hz]
    cases next with
    | ret reply => rfl
    | goto th' =>
      rw [Next.debt, Thread.debt_of_counted (counted_step hc h), hemptied' th' rfl]
      rfl

/-- **What a step does to the debt**: what it pays is no longer owed, and what it gains is
    still to be paid. -/
theorem step_debt (hok : th.Ok m) (hl : th.Locks m) (hr : th.Regular)
    (hcall : ∀ th', next = .goto th' → th'.call = th.call) (hf : th.forgets m = false)
    (h : th.step config m = some (m', next)) : next.debt = th.debt - th.pays + th.gains m := by
  by_cases hu : ∃ k, th.call.key = some k ∧ ∀ k', th.call ≠ .get k'
  · obtain ⟨k, hkey, hg⟩ := hu
    exact update_debt hok hr hg hkey hcall hf h
  have hsign : th.call.sign = 0 := by
    cases hc : th.call with
    | insert k v | getOrInsert k v | remove k =>
      exact absurd ⟨k, by rw [hc]; rfl, fun k' he => by cases hc.symm.trans he⟩ hu
    | _ => rfl
  have hd : th.debt - th.pays = 0 := by
    rw [Thread.debt_of_sign hsign]
    unfold Thread.pays
    split
    · rename_i hpc
      rw [hpc, hsign]
      rfl
    · rename_i n hpc
      rw [hpc]
      simp [Pc.emptied]
    · rw [Pc.emptied_of_ne ‹_›]
      rfl
  rw [hd, zero_add]
  by_cases hs : th.swapsEmpty m = true
  · obtain ⟨r, pairs, reply, hpc, -, rfl⟩ := Sys.swapsEmpty_step hs h
    have hemp : th.empties = true := by
      simp only [Thread.swapsEmpty, hpc, Bool.and_eq_true] at hs
      exact hs.1
    rw [Next.debt, Thread.debt_of_sign (by exact hsign)]
    simp only [Thread.gains, hpc, hemp, if_true]
    rfl
  · have hs : th.swapsEmpty m = false := by simpa using hs
    have hz : th.gains m = 0 := by
      unfold Thread.gains
      split
      · rename_i r pairs hpc
        simp only [Thread.Locks, hpc] at hl
        simp only [Thread.swapsEmpty, hpc, hl, decide_true, Bool.and_true] at hs
        simp [hs]
      · simp [hsign]
    rw [hz]
    cases next with
    | ret reply => rfl
    | goto th' =>
      have hc := hcall th' rfl
      rw [Next.debt, Thread.debt_of_sign (by rw [hc, hsign]), emptied_step hok hl hr hc hs h]
      rfl

/-- **What a step pays**, the length gets. -/
theorem step_pays (hr : th.Regular) (h : th.step config m = some (m', next)) {x : ℤ}
    (hx : m.len = wrapUsize x) : m'.len = wrapUsize (x + th.pays) := by
  by_cases hcount : th.pc = .count
  · obtain ⟨k, hkey, hg⟩ := hr.counting hcount
    simp only [Thread.step, hcount, stepCount, Option.some.injEq] at h
    simp only [Thread.pays, hcount]
    cases hc : th.call with
    | get k' => exact absurd hc (hg k')
    | insert k v | getOrInsert k v =>
      rw [hc] at h
      obtain rfl := congrArg Prod.fst h
      show wrapUsize (m.len + 1) = _
      rw [hx, wrapUsize_add]
      rfl
    | remove k =>
      rw [hc] at h
      obtain rfl := congrArg Prod.fst h
      show wrapUsize (m.len - 1) = _
      rw [hx, sub_eq_add_neg, wrapUsize_add]
      rfl
    | _ => rw [hc] at hkey; cases hkey
  by_cases hsub : ∃ n, th.pc = .subtract n
  · obtain ⟨n, hpc⟩ := hsub
    simp only [Thread.step, hpc] at h
    cases h
    simp only [Thread.pays, hpc]
    show wrapUsize (m.len - n) = _
    rw [hx, sub_eq_add_neg, wrapUsize_add]
  · push Not at hsub
    rw [step_len hcount hsub h, hx]
    unfold Thread.pays
    split
    · exact absurd ‹_› hcount
    · exact absurd ‹_› (hsub _)
    · rw [add_zero]

/-! ## The record of a run -/

namespace Thread

/-- The record of the present keys after the next step of the operation. -/
def notePresent (m : Mem K V) (th : Thread K V) (b : K → Bool) : K → Bool :=
  match th.pc with
  | .rootSwap _ pairs => if th.empties then fun k => b k && (pairs.lookup k).isNone else b
  | _ =>
    match th.call.key with
    | some key => if th.turns m then Function.update b key th.call.isInsert else b
    | none => b

/-- The next step of the operation is in turn: the first change of its key comes after one to
    the opposite, and a change that it repeats is still the last one; what it empties the map
    of is present; it does not forget what it has added. -/
def inTurn (m : Mem K V) (th : Thread K V) (b : K → Bool) : Bool :=
  match th.pc with
  | .rootSwap _ pairs => !th.empties || pairs.all fun p => b p.1
  | _ =>
    !th.forgets m &&
      (!th.turns m || th.call.key.all fun key => (b key == th.call.isInsert) == th.marked)

end Thread

namespace Sys
variable {s s' : Sys K V} {t t' : ℕ} {b : K → Bool}

/-- The record of a run: whether each key is present, going by the last operation that has
    added or removed it. -/
def noteTurn (s : Sys K V) (b : K → Bool) : Act K V → K → Bool
  | .call _ _ => b
  | .step t => (s.threads t).elim b fun th => th.notePresent s.mem b

/-- **The changes of each key take turns.** -/
def InTurn (p : Sys K V × (K → Bool)) : Act K V → Prop :=
  AtStep (fun th => th.inTurn p.1.mem p.2 = true) p.1

instance (p : Sys K V × (K → Bool)) (a : Act K V) : Decidable (InTurn p a) :=
  inferInstanceAs (Decidable (AtStep _ _ _))

/-! ## The length -/

/-- What the operation of the thread has still to add to the length. -/
def debt (s : Sys K V) (t : ℕ) : ℤ := (s.threads t).elim 0 Thread.debt

/-- The length is the number of present keys, but for what operations have still to add. -/
def Balanced (s : Sys K V) (b : K → Bool) : Prop :=
  ∃ B : Finset K, (∀ k, k ∈ B ↔ b k = true) ∧
    ∃ D : ℕ →₀ ℤ, (∀ t, D t = s.debt t) ∧ s.mem.len = wrapUsize (B.card - D.sum fun _ d => d)

omit [LinearOrder K] [Key K] in
theorem Balanced.invoke {call : Call K V} (h : s.Balanced b) (hs : s.invoke t call = some s') :
    s'.Balanced b := by
  obtain ⟨B, hB, D, hD, hlen⟩ := h
  obtain ⟨hnone, rfl⟩ := invoke_eq_some hs
  refine ⟨B, hB, D, fun t' => (hD t').trans ?_, hlen⟩
  show (s.threads t').elim 0 Thread.debt =
    (Function.update s.threads t (some (Thread.start call)) t').elim 0 Thread.debt
  by_cases ht : t' = t
  · subst ht
    rw [hnone, Function.update_self]
    cases call <;> rfl
  · rw [Function.update_of_ne ht]

omit [LinearOrder K] [Key K] in
theorem debt_proceed (call : Call K V) :
    (s.proceed t call m' next).debt = Function.update s.debt t next.debt := by
  funext t'
  unfold debt
  by_cases ht : t' = t
  · subst ht
    rw [Function.update_self]
    cases next <;> simp [proceed, Next.debt]
  · rw [proceed_threads_of_ne ht, Function.update_of_ne ht]

omit [LinearOrder K] [Key K] in
/-- **The accounts of a step**: the number of present keys grows by what it gains. -/
theorem Balanced.step {b' : K → Bool} (h : s.Balanced b) (hth : s.threads t = some th)
    (hlen : ∀ {x}, s.mem.len = wrapUsize x → m'.len = wrapUsize (x + th.pays))
    (hdebt : next.debt = th.debt - th.pays + th.gains s.mem)
    (hb : ∀ B : Finset K, (∀ k, k ∈ B ↔ b k = true) →
      ∃ B' : Finset K, (∀ k, k ∈ B' ↔ b' k = true) ∧ (B'.card : ℤ) = B.card + th.gains s.mem) :
    (s.proceed t th.call m' next).Balanced b' := by
  obtain ⟨B, hB, D, hD, hold⟩ := h
  obtain ⟨B', hB', hcard⟩ := hb B hB
  have hDt : D t = th.debt := by rw [hD, debt, hth]; rfl
  have hsum := Finsupp.sum_update_add D t next.debt (fun _ d => d) (fun _ => rfl)
    fun _ _ _ => rfl
  refine ⟨B', hB', D.update t next.debt, fun t' => ?_, ?_⟩
  · rw [debt_proceed, Finsupp.coe_update]
    by_cases ht : t' = t
    · subst ht
      rw [Function.update_self, Function.update_self]
    · rw [Function.update_of_ne ht, Function.update_of_ne ht, hD]
  · rw [proceed_mem, hlen hold]
    congr 1
    rw [hDt] at hsum
    linarith

/-! ## The present keys -/

omit [LinearOrder K] [Key K] in
theorem sign_of_update {call : Call K V} (hkey : call.key = some k) (hg : ∀ k', call ≠ .get k') :
    call.sign = if call.isInsert then 1 else -1 := by
  cases call with
  | get k' => exact absurd rfl (hg k')
  | insert | getOrInsert | remove => rfl
  | _ => cases hkey

omit [Key K] in
theorem notePresent_of_turns (hkey : th.call.key = some k) (ht : th.turns m = true) :
    th.notePresent m b = Function.update b k th.call.isInsert := by
  unfold Thread.notePresent
  split
  · rename_i hpc
    rw [Thread.turns, hpc] at ht
    cases ht
  · rw [hkey, ht]
    rfl

omit [Key K] in
theorem notePresent_of_swap {r : NodeId} {pairs : List (K × V)} (hpc : th.pc = .rootSwap r pairs)
    (he : th.empties = true) :
    th.notePresent m b = fun k => b k && (pairs.lookup k).isNone := by
  simp only [Thread.notePresent, hpc, he, if_true]

omit [Key K] in
/-- Other steps leave the record as it is. -/
theorem notePresent_same (ht : th.turns m = false)
    (hs : ∀ r pairs, th.pc = .rootSwap r pairs → th.empties = false) :
    th.notePresent m b = b := by
  unfold Thread.notePresent
  split
  · rename_i r pairs hpc
    rw [hs r pairs hpc]
    rfl
  · rw [ht]
    split <;> rfl

omit [LinearOrder K] [Key K] in
theorem gains_same (ht : th.turns m = false)
    (hs : ∀ r pairs, th.pc = .rootSwap r pairs → th.empties = false) : th.gains m = 0 := by
  unfold Thread.gains
  split
  · rename_i r pairs hpc
    rw [hs r pairs hpc]
    rfl
  · rw [ht]
    rfl

/-- **What a step in turn gains** is what it adds to the number of present keys. -/
theorem card_note (hinv : s.Inv) (hth : s.threads t = some th)
    (hturn : th.inTurn s.mem b = true) {B : Finset K} (hB : ∀ k, k ∈ B ↔ b k = true) :
    ∃ B' : Finset K, (∀ k, k ∈ B' ↔ th.notePresent s.mem b k = true) ∧
      (B'.card : ℤ) = B.card + th.gains s.mem := by
  by_cases hswap : ∃ r pairs, th.pc = .rootSwap r pairs ∧ th.empties = true
  · -- the keys that were collected are present, and each of them was collected once
    obtain ⟨r, pairs, hpc, he⟩ := hswap
    have hok := hinv.ok hth
    simp only [Thread.Ok, hpc] at hok
    simp only [Thread.inTurn, hpc, he, Bool.not_true, Bool.false_or, List.all_eq_true] at hturn
    have hnodup : (pairs.map Prod.fst).Nodup := List.pairwise_map.2 (hok.imp fun h => h.ne)
    have hsub : (pairs.map Prod.fst).toFinset ⊆ B := by
      intro k hk
      obtain ⟨p, hp, rfl⟩ := List.mem_map.1 (List.mem_toFinset.1 hk)
      exact (hB _).2 (hturn p hp)
    refine ⟨B \ (pairs.map Prod.fst).toFinset, fun k => ?_, ?_⟩
    · rw [notePresent_of_swap hpc he, Finset.mem_sdiff, List.mem_toFinset, hB, ← lookup_isSome_iff,
        Bool.and_eq_true, Option.isNone_iff_eq_none, Option.not_isSome_iff_eq_none]
    · have hcard := Finset.card_sdiff_add_card_eq_card hsub
      rw [List.toFinset_card_of_nodup hnodup, List.length_map] at hcard
      simp only [Thread.gains, hpc, he, if_true]
      omega
  push Not at hswap
  have hswap : ∀ r pairs, th.pc = .rootSwap r pairs → th.empties = false := fun r pairs hpc => by
    simpa using hswap r pairs hpc
  by_cases ht : th.turns s.mem = true
  · obtain ⟨hw, -⟩ := Thread.turns_iff.1 ht
    have hg := hinv.not_get hth hw
    obtain ⟨k, hkey⟩ : ∃ k, th.call.key = some k := (hinv.ok hth).key hw.not_done
    have hb : (b k = th.call.isInsert) ↔ th.marked = true := by
      unfold Thread.inTurn at hturn
      split at hturn
      · rename_i hpc
        rw [Thread.turns, hpc] at ht
        cases ht
      · simp only [ht, hkey, Bool.not_true, Bool.false_or, Option.all_some, Bool.and_eq_true,
          beq_iff_eq] at hturn
        rw [← hturn.2, beq_iff_eq]
    have hgains : th.gains s.mem = if th.marked then 0 else th.call.sign := by
      unfold Thread.gains
      split
      · rename_i hpc
        rw [Thread.turns, hpc] at ht
        cases ht
      · rw [ht]
        cases th.marked <;> rfl
    rw [notePresent_of_turns hkey ht, hgains]
    by_cases hm : th.marked = true
    · -- a change that is repeated
      refine ⟨B, fun k' => ?_, by simp [hm]⟩
      rw [← hb.2 hm, Function.update_eq_self, hB]
    · rw [if_neg hm, sign_of_update hkey hg]
      have hne : b k ≠ th.call.isInsert := fun he => hm (hb.1 he)
      cases hi : th.call.isInsert with
      | true =>
        have hk : k ∉ B := by
          rw [hB]
          exact hi ▸ hne
        refine ⟨Insert.insert k B, fun k' => ?_, by simp [Finset.card_insert_of_notMem hk]⟩
        rw [Finset.mem_insert, hB, Function.update_apply]
        split_ifs with he <;> simp [he]
      | false =>
        have hk : k ∈ B := by
          rw [hB]
          simpa [hi] using hne
        refine ⟨B.erase k, fun k' => ?_, ?_⟩
        · rw [Finset.mem_erase, hB, Function.update_apply]
          split_ifs with he <;> simp [he]
        · have hcard := Finset.card_erase_add_one hk
          simp only [Bool.false_eq_true, if_false]
          omega
  · have ht : th.turns s.mem = false := by simpa using ht
    exact ⟨B, fun k => by rw [notePresent_same ht hswap, hB], by rw [gains_same ht hswap, add_zero]⟩

/-- The record says of the key that it is present, or that it is absent. -/
def Recorded (b : Bool) (o : Option V) : Prop := o.isSome = b

omit [LinearOrder K] [Key K] in
theorem aims_of_update {call : Call K V} (hkey : call.key = some k) (hg : ∀ k', call ≠ .get k') :
    call.Aims (Recorded call.isInsert) := by
  cases call with
  | get k' => exact absurd rfl (hg k')
  | insert k v => exact rfl
  | getOrInsert k v => exact fun _ => rfl
  | remove k => exact rfl
  | _ => cases hkey

/-- An insert that overwrites a value keeps the key present. -/
theorem respects_of_overwrite (hok : th.Ok m) (hl : th.Locks m) (hpc : th.pc = .publish)
    (hkey : th.call.key = some k) (hnew : th.write.isNew = false) (x : Bool) :
    Respects (Recorded x) m k th ∧ Respects (fun o => ¬ Recorded x o) m k th := by
  have hb : th.write ≠ .bury := by
    intro hb
    rw [hb] at hnew
    cases hnew
  have hsome : ∀ {o : Option V}, m.Holds k th.cur o → o.isSome = true := by
    intro o ho
    have hnone := isNew_of_publish hok hl hpc hkey hb ⟨o, ho, rfl⟩
    rw [hnew] at hnone
    cases o with
    | none => cases hnone
    | some v => rfl
  refine ⟨⟨?_, fun _ hw => absurd hw hb⟩, ⟨?_, fun _ hw => absurd hw hb⟩⟩
  · rintro v - - - ⟨o, ho, hP⟩
    exact (hsome ho).symm.trans hP
  · rintro v - - - ⟨o, ho, hP⟩ he
    exact hP ((hsome ho).trans he)

/-- **A step in turn** leads to a record that is pursued as well. -/
theorem Pursued.turn [LawfulKey K] (hinv : s.Inv) (h : ∀ k, Pursued (Recorded (b k)) s k)
    (hth : s.threads t = some th) (hstep : th.step s.config s.mem = some (m', next)) (k : K) :
    Pursued (Recorded (th.notePresent s.mem b k)) (s.proceed t th.call m' next) k := by
  have hlk := hinv.locks hth
  by_cases hswap : ∃ r pairs, th.pc = .rootSwap r pairs ∧ th.empties = true
  · obtain ⟨r, pairs, hpc, he⟩ := hswap
    have hs : th.swapsEmpty s.mem = true := by
      simp only [Thread.Locks, hpc] at hlk
      simp [Thread.swapsEmpty, hpc, he, hlk]
    rw [notePresent_of_swap hpc he]
    cases hl : pairs.lookup k with
    | some v =>
      refine Or.inr ((sureRoot_of_empty hinv hth hs hstep).imp fun o ho => ?_)
      subst ho
      simp [Recorded, hl]
    | none =>
      -- the key was not collected, so an operation in flight sees to it, or it is absent
      have hb : (b k && (pairs.lookup k).isNone) = b k := by simp [hl]
      show Pursued (Recorded (b k && (pairs.lookup k).isNone)) _ k
      rw [hb]
      refine (h k).step hinv hth (fun hw => ?_) (fun r' pairs' hpc' _ hsure => ?_) hstep
      · rcases hw with hw | ⟨hw, -⟩ <;> cases hpc.symm.trans hw
      · cases hpc.symm.trans hpc'
        exact hl ▸ hsure.collected hth hpc
  push Not at hswap
  have hswap : ∀ r pairs, th.pc = .rootSwap r pairs → th.empties = false := fun r pairs hpc => by
    simpa using hswap r pairs hpc
  have hempty : ∀ r pairs, th.pc = .rootSwap r pairs → th.call = .drain ∨ th.call = .clear →
      SureRoot (Recorded (b k)) s k → Recorded (b k) (none : Option V) := by
    intro r pairs hpc hc
    rw [← Thread.empties_iff, hswap r pairs hpc] at hc
    cases hc
  by_cases ht : th.turns s.mem = true
  · obtain ⟨hw, -⟩ := Thread.turns_iff.1 ht
    have hg := hinv.not_get hth hw
    obtain ⟨k₀, hkey⟩ : ∃ k, th.call.key = some k := (hinv.ok hth).key hw.not_done
    rw [notePresent_of_turns hkey ht]
    by_cases hk : k = k₀
    · subst hk
      rw [Function.update_self]
      exact .of_writes hinv hth hkey (aims_of_update hkey hg) hw hstep
    · rw [Function.update_of_ne hk]
      refine (h k).step hinv hth (fun _ he => ?_) hempty hstep
      exact absurd (Option.some.inj (he.symm.trans hkey)) hk
  · have ht : th.turns s.mem = false := by simpa using ht
    rw [notePresent_same ht hswap]
    refine (h k).step hinv hth (fun hw hkey => Or.inr ?_) hempty hstep
    have hnew : th.write.isNew = false := by
      rw [← Bool.not_eq_true]
      intro hn
      rw [Thread.turns_iff.2 ⟨hw, hn⟩] at ht
      cases ht
    rcases hw with hpc | ⟨-, hb, -⟩
    · exact respects_of_overwrite (hinv.ok hth) hlk hpc hkey hnew _
    · rw [hb] at hnew
      cases hnew

/-! ## Runs -/

/-- What holds of a run in which the changes of each key take turns. -/
structure TakesTurns (p : Sys K V × (K → Bool)) : Prop where
  inv : p.1.Inv
  regular : p.1.Regular
  pursued (k : K) : Pursued (Recorded (p.2 k)) p.1 k
  balanced : p.1.Balanced p.2

theorem TakesTurns.init [LawfulKey K] {config : Config} (hc : config.Valid)
    {map : LearnedMap K V} {pairs : List (K × V)} (hs : Starts config map pairs)
    (hfit : pairs.length < 2 ^ 64) :
    TakesTurns (Sys.init map, fun k => (pairs.lookup k).isSome) where
  inv := .init hc hs
  regular _ _ hth := by cases hth
  pursued k := Or.inr (.init hc hs rfl)
  balanced := by
    obtain ⟨m, hm, -⟩ := hs.refines hc
    obtain ⟨B, hcard, hB⟩ := m.exists_finset
    refine ⟨B, fun k => by rw [hB, SortedMap.get, hm], 0, fun _ => rfl, ?_⟩
    rw [hcard, SortedMap.len, hm, Finsupp.sum_zero_index, sub_zero, wrapUsize_of_lt rfl hfit]
    exact (Node.Pristine.ofStarts hs).2

/-- **Step lemma**. -/
theorem TakesTurns.act [LawfulKey K] {p p' : Sys K V × (K → Bool)} {a : Act K V}
    (h : TakesTurns p) (hturn : InTurn p a) (ha : Run.recording Sys.act noteTurn p a = some p') :
    TakesTurns p' := by
  obtain ⟨s, b⟩ := p
  obtain ⟨s', b'⟩ := p'
  obtain ⟨hact, rfl⟩ := Run.recording_eq_some.1 ha
  have hregular := h.regular.act h.inv hact
  cases a with
  | call t call =>
    exact ⟨h.inv.invoke hact, hregular, fun k => (h.pursued k).invoke hact, h.balanced.invoke hact⟩
  | step t =>
    have hinv' := h.inv.step hact
    obtain ⟨th, m', next, hth, hstep, rfl⟩ := step_eq_some hact
    have hturn : th.inTurn s.mem b = true := hturn th hth
    have hnote : noteTurn s b (.step t) = th.notePresent s.mem b := by rw [noteTurn, hth]; rfl
    have hcall : ∀ th', next = .goto th' → th'.call = th.call := by
      rintro th' rfl
      exact Goes.call (step_next h.inv.headroom h.inv.root (h.inv.ok hth) (h.inv.locks hth) hstep)
    have hforgets : th.forgets s.mem = false := by
      unfold Thread.inTurn at hturn
      split at hturn
      · rename_i hpc
        simp only [Thread.forgets, hpc]
      · simpa using (Bool.and_eq_true_iff.1 hturn).1
    refine ⟨hinv', hregular, fun k => ?_, ?_⟩
    · show Pursued (Recorded (noteTurn s b (.step t) k)) _ k
      rw [hnote]
      exact Pursued.turn h.inv h.pursued hth hstep k
    · show Balanced _ (noteTurn s b (.step t))
      rw [hnote]
      exact h.balanced.step hth (step_pays (h.regular hth) hstep)
        (step_debt (h.inv.ok hth) (h.inv.locks hth) (h.regular hth) hcall hforgets hstep)
        fun B hB => card_note h.inv hth hturn hB

/-- **The length is exact when no operation is in flight**, if the changes of each key take
    turns. -/
theorem run_len [LawfulKey K] {config : Config} (hc : config.Valid) {map : LearnedMap K V}
    {pairs : List (K × V)} (hs : Starts config map pairs) (hfit : pairs.length < 2 ^ 64)
    {sched : List (Act K V)}
    (hmeets : Run.Meets (Run.recording Sys.act noteTurn) InTurn
      (Sys.init map, fun k => (pairs.lookup k).isSome) sched)
    (hrun : (Sys.init map).run sched = some s) (hq : s.Quiescent) :
    ∃ m : SortedMap K V, s.mem.Contents m.toList ∧ s.mem.len = wrapUsize m.len := by
  obtain ⟨⟨s', b⟩, hrec, hs'⟩ := Option.map_eq_some_iff.1
    ((Run.recording_run Sys.act noteTurn sched (Sys.init map)
      fun k => (pairs.lookup k).isSome).trans hrun)
  obtain rfl : s' = s := hs'
  have hend := Run.run_induct (fun h hc ha => TakesTurns.act h hc ha) (.init hc hs hfit) hmeets hrec
  obtain ⟨B, hB, D, hD, hlen⟩ := hend.balanced
  -- what the tree holds
  have hsure : ∀ k, ∃ o, s'.mem.Holds k s'.mem.root.node o ∧ Recorded (b k) o := fun k =>
    ((hend.pursued k).quiescent hq).tree.sat
  choose o ho hrecorded using hsure
  obtain ⟨m, hget, hcard⟩ := SortedMap.exists_of_finset B o fun k => by
    rw [show (o k).isSome = b k from hrecorded k]
    exact hB k
  refine ⟨m, ⟨m.ascending, fun k => ?_⟩, ?_⟩
  · have hk := ho k
    rw [← hget k] at hk
    exact hk
  · -- nothing is owed
    have hzero : D = 0 := by
      ext t
      rw [hD, debt, hq t]
      rfl
    rw [hlen, hzero, Finsupp.sum_zero_index, sub_zero, hcard]

/-- An insert that a rebuild has overtaken, beside a remove of another key; then a drain that
    overtakes a `get_or_insert`. -/
def overtakings (k k' k₂ : K) (v v' v₂ : V) : List (Act K V) :=
  insertAlone k' v' ++ Act.call 0 (.insert k v) :: behindRebuild ++
    Act.call 1 (.remove k') :: List.replicate 4 (Act.step 1) ++ List.replicate 23 (Act.step 0) ++
    Act.call 0 (.getOrInsert k₂ v₂) :: Act.step 0 :: Act.call 2 .drain ::
    List.replicate 5 (Act.step 2) ++ List.replicate 4 (Act.step 0) ++
    List.replicate 3 (Act.step 2) ++ List.replicate 11 (Act.step 0) ++ List.replicate 7 (Act.step 1)

theorem run_len_overtakings : ∃ s : Sys (Fin (2 ^ 8)) ℕ,
    (Sys.init (.withConfig {})).run (overtakings ⟨100, by decide⟩ ⟨7, by decide⟩ ⟨200, by decide⟩
      1 2 3) = some s ∧
    ∃ m : SortedMap (Fin (2 ^ 8)) ℕ, s.mem.Contents m.toList ∧ s.mem.len = wrapUsize m.len := by
  have := lawfulKey_unsigned (show 8 ≤ 64 by decide)
  have ho : ((Sys.init (.withConfig {} : LearnedMap (Fin (2 ^ 8)) ℕ)).outcome 3
      (overtakings ⟨100, by decide⟩ ⟨7, by decide⟩ ⟨200, by decide⟩ 1 2 3)).isSome := by
    decide +kernel
  have hmeets : Run.Meets (Run.recording Sys.act noteTurn) InTurn
      (Sys.init (.withConfig {} : LearnedMap (Fin (2 ^ 8)) ℕ),
        fun k => (([] : List (Fin (2 ^ 8) × ℕ)).lookup k).isSome)
      (overtakings ⟨100, by decide⟩ ⟨7, by decide⟩ ⟨200, by decide⟩ 1 2 3) := by
    decide +kernel
  obtain ⟨_, hout⟩ := Option.isSome_iff_exists.1 ho
  obtain ⟨s, hrun, hq, -⟩ := outcome_eq_some hout fun t c hm => by
    simp [overtakings, insertAlone, behindRebuild] at hm
    omega
  exact ⟨s, hrun, run_len (show ({} : Config).Valid from ⟨one_le_two, le_rfl⟩) .withConfig
    (Nat.two_pow_pos 64) hmeets hrun hq⟩

/-- Two inserts of a key; the first one is overtaken by a rebuild, and stores it again when the
    second one has returned. -/
def countedTwice (k k' : K) (v v' : V) : List (Act K V) :=
  insertAlone k' v ++ Act.call 0 (.insert k v) :: behindRebuild ++
    Act.call 1 (.insert k v') :: List.replicate 22 (Act.step 1) ++ List.replicate 10 (Act.step 0)

/-- **A key that is counted twice**: both inserts count it, since the rebuild has dropped what
    the first one had stored. -/
theorem len_drifts : ∃ s : Sys (Fin (2 ^ 8)) ℕ,
    (Sys.init (.withConfig {})).run (countedTwice ⟨100, by decide⟩ ⟨7, by decide⟩ 1 2) = some s ∧
      s.Quiescent ∧ s.mem.len = 3 ∧
      ∀ m : SortedMap (Fin (2 ^ 8)) ℕ, s.mem.Contents m.toList → m.len ≤ 2 := by
  have := lawfulKey_unsigned (show 8 ≤ 64 by decide)
  have hc : ({} : Config).Valid := ⟨one_le_two, le_rfl⟩
  have ho : ((Sys.init (.withConfig {} : LearnedMap (Fin (2 ^ 8)) ℕ)).outcome 3
      (countedTwice ⟨100, by decide⟩ ⟨7, by decide⟩ 1 2)).isSome ∧
      ((Sys.init (.withConfig {} : LearnedMap (Fin (2 ^ 8)) ℕ)).run
        (countedTwice ⟨100, by decide⟩ ⟨7, by decide⟩ 1 2)).map (fun s => s.mem.len) = some 3 := by
    decide +kernel
  obtain ⟨_, hout⟩ := Option.isSome_iff_exists.1 ho.1
  have hcalls : ∀ t c, Act.call t c ∈
      countedTwice (⟨100, by decide⟩ : Fin (2 ^ 8)) ⟨7, by decide⟩ (1 : ℕ) 2 → t < 3 ∧
      ∀ k, c.key = some k → k = ⟨7, by decide⟩ ∨ k = (⟨100, by decide⟩ : Fin (2 ^ 8)) := by
    intro t c hm
    simp [countedTwice, insertAlone, behindRebuild] at hm
    rcases hm with ⟨rfl, rfl⟩ | ⟨rfl, rfl⟩ | ⟨rfl, rfl⟩ | ⟨rfl, rfl⟩ <;>
      refine ⟨by omega, ?_⟩ <;> rintro k ⟨⟩
    · exact Or.inl rfl
    · exact Or.inr rfl
    · exact Or.inr rfl
  obtain ⟨s, hrun, hq, -⟩ := outcome_eq_some hout fun t c hm => (hcalls t c hm).1
  obtain ⟨s', hrun', hlen⟩ := Option.map_eq_some_iff.1 ho.2
  obtain rfl := Option.some.inj (hrun.symm.trans hrun')
  refine ⟨s, hrun, hq, hlen, fun m hm => ?_⟩
  obtain ⟨B, hcard, hB⟩ := m.exists_finset
  have hsub : B ⊆ {⟨7, by decide⟩, (⟨100, by decide⟩ : Fin (2 ^ 8))} := by
    intro k hk
    obtain ⟨v, hv⟩ := Option.isSome_iff_exists.1 ((hB k).1 hk)
    -- its value was supplied by a call
    obtain ⟨o, ho, hsup⟩ := (sureRoot_supplied hc .withConfig (fun a ha => ha) hrun).tree.sat
    have hkv := hm.holds k
    rw [show m.toList.lookup k = some v from hv] at hkv
    rcases hsup v (ho.unique hkv) with hp | ⟨c, ⟨t, hc⟩, hkey, -⟩
    · cases hp
    · simpa using (hcalls t c hc).2 k hkey
  rw [← hcard]
  exact (Finset.card_le_card hsub).trans Finset.card_le_two

end Sys

end Scry.Index
