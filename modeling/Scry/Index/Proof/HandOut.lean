/-
  What drains hand out.

  A drain reads the entries of the frozen root and swaps in an empty one, so that an entry
  of the map is handed out once.  An insert that stores its entry after the freeze may be
  read as well; it finds its root replaced and stores the entry again.  If no drain hands
  out the key of an insert that has not found its root in place (`HandsOutSettled`), every
  entry is in the map or was handed out once (`Placed`).
-/
import Scry.Index.Proof.Quiescent

namespace Scry.Index

variable {K V : Type} [LinearOrder K] [Key K] {m m' : Mem K V} {th th' : Thread K V} {k : K}
  {next : Next K V}

/-! ## Vectors -/

/-- What the reply of a call hands out for the key. -/
def handedBy (k : K) : Call K V → Reply K V → Option V
  | .drain, .pairs l => l.lookup k
  | _, _ => none

/-- What the call hands out for the key if it goes on, or returns, like this. -/
def Next.hands (k : K) (call : Call K V) : Next K V → Option V
  | .goto th' => handedBy k call th'.reply
  | .ret reply => handedBy k call reply

/-- What an event hands out for the key. -/
def Event.hands (k : K) : Event K V → Option V
  | .inv _ _ => none
  | .ret _ call reply => handedBy k call reply

/-- The values that drains handed out for the key. -/
def handedOut (k : K) (history : List (Event K V)) : List V := history.filterMap (Event.hands k)

/-- The operation has swapped in a new root. -/
def Pc.isSwapped : Pc K V → Bool
  | .subtract _ => true
  | .storeThreshold _ => true
  | _ => false

/-- Its next step hands out what it collected. -/
def Thread.HandsOut (th : Thread K V) (pairs : List (K × V)) : Prop :=
  th.call = .drain ∧ ∃ r, th.pc = .rootSwap r pairs

omit [Key K] in
theorem handedBy_of_ne {call : Call K V} (h : call ≠ .drain) (reply : Reply K V) :
    handedBy k call reply = none := by
  unfold handedBy
  split
  · exact absurd rfl h
  · rfl

omit [Key K] in
theorem hands_of_ne {call : Call K V} (h : call ≠ .drain) : next.hands k call = none := by
  cases next with
  | goto th' => exact handedBy_of_ne h _
  | ret reply => exact handedBy_of_ne h _

/-- A call that is not done is about a key. -/
theorem Thread.Ok.key (hok : th.Ok m) (hnd : th.pc.isDone = false) :
    ∃ k, th.call.key = some k := by
  cases hpc : th.pc <;> simp only [Thread.Ok, hpc] at hok
  case loadRoot => exact Option.isSome_iff_exists.1 hok
  case readSlot => exact hok.imp fun k h => h.1
  case loadChild | claim | publish | ownChild => exact hok.imp fun k h => h.1.1.1
  case countTombstone | validateChild | checkRatio | subState | subLoad | subFreeze =>
    exact hok.imp fun k h => h.1.1.1
  case subWalk | subSwap => exact hok.imp fun k h => h.1.1.1.1.1
  case look | validateRoot => exact hok.imp fun k h => h.1
  case lookChild => exact hok.imp fun k h => h.1.1
  all_goals rw [hpc] at hnd; cases hnd

/-- **The step that hands out** swaps in an empty root. -/
theorem handsOut_step {config : Config} {pairs : List (K × V)} (hl : th.Locks m)
    (hh : th.HandsOut pairs) (hstep : th.step config m = some (m', next)) :
    m' = m.placeRoot LearnedMap.emptyRoot ∧
      next = .goto { th with pc := .subtract pairs.length, reply := .pairs pairs } := by
  obtain ⟨hcall, r, hpc⟩ := hh
  simp only [Thread.Locks, hpc] at hl
  simp only [Thread.step, hpc, stepRootSwap, hcall, swapEmpty, hl, if_true] at hstep
  cases hstep
  exact ⟨rfl, by rw [hcall]⟩

/-- **A step of a drain** hands out what it collected, or keeps the reply. -/
theorem drain_step {config : Config} (hok : th.Ok m) (hc : th.call = .drain)
    (hstep : th.step config m = some (m', next)) :
    (∃ pairs, th.HandsOut pairs) ∨ (∃ pc, next = th.goto pc) ∨ next = .ret th.reply := by
  by_cases hh : ∃ pairs, th.HandsOut pairs
  · exact Or.inl hh
  push Not at hh
  have hdone : th.pc.isDone = true := by
    by_contra hnd
    obtain ⟨k, hk⟩ := hok.key (by simpa using hnd)
    rw [hc] at hk
    cases hk
  exact Or.inr ((done_step (fun r pairs hpc => absurd ⟨hc, r, hpc⟩ (hh pairs)) hdone hstep).imp_left
    fun ⟨pc, hn, _⟩ => ⟨pc, hn⟩)

/-- **Other steps** hand out what they did. -/
theorem hands_step {config : Config} (hok : th.Ok m) (hh : ∀ pairs, ¬ th.HandsOut pairs)
    (hstep : th.step config m = some (m', next)) :
    next.hands k th.call = handedBy k th.call th.reply := by
  by_cases hc : th.call = .drain
  · rcases drain_step hok hc hstep with ⟨pairs, h⟩ | ⟨pc, rfl⟩ | rfl
    · exact absurd h (hh pairs)
    · rfl
    · rfl
  · rw [hands_of_ne hc, handedBy_of_ne hc]

/-- What was handed out stays handed out. -/
theorem isSwapped_step {config : Config} (hpc : th.pc.isSwapped = true)
    (hstep : th.step config m = some (m', next)) :
    (∃ pc, next = th.goto pc ∧ pc.isSwapped = true) ∨ next = .ret th.reply := by
  unfold Pc.isSwapped at hpc
  split at hpc
  · rename_i n hp
    simp only [Thread.step, hp] at hstep
    cases hstep
    exact Or.inl ⟨_, rfl, rfl⟩
  · rename_i n hp
    simp only [Thread.step, hp] at hstep
    cases hstep
    exact Or.inr rfl
  · cases hpc

namespace Sys
variable {s s' : Sys K V} {t : ℕ} {v : V}

/-! ## Entries -/

/-- No running operation hands the key out, but for thread `t`. -/
def OthersKeep (s : Sys K V) (k : K) (t : ℕ) : Prop :=
  ∀ t' th', t' ≠ t → s.threads t' = some th' → handedBy k th'.call th'.reply = none

/-- The key was not handed out. -/
structure Unhanded (s : Sys K V) (k : K) : Prop where
  running {t : ℕ} {th : Thread K V} : s.threads t = some th →
    handedBy k th.call th.reply = none
  returned : handedOut k s.history = []

/-- The key was handed out once, with the value: by a drain that is about to return, or by
    one that has returned. -/
inductive Handed (s : Sys K V) (k : K) (v : V) : Prop
  | running {t : ℕ} {th : Thread K V} (hth : s.threads t = some th)
      (hpc : th.pc.isSwapped = true) (hv : handedBy k th.call th.reply = some v)
      (ho : s.OthersKeep k t) (hr : handedOut k s.history = [])
  | returned (hth : ∀ {t : ℕ} {th : Thread K V}, s.threads t = some th →
      handedBy k th.call th.reply = none) (hr : handedOut k s.history = [v])

omit [Key K] in
theorem start_hands (call : Call K V) :
    handedBy k (Thread.start call).call (Thread.start call).reply = none := by
  cases call <;> rfl

omit [Key K] in
/-- Operations that run after a step. -/
theorem OthersKeep.proceed {call : Call K V} (h : s.OthersKeep k t)
    (hn : next.hands k call = none) (hc : ∀ th', next = .goto th' → th'.call = call)
    {t' : ℕ} {th' : Thread K V} (hth' : (s.proceed t call m' next).threads t' = some th') :
    handedBy k th'.call th'.reply = none := by
  by_cases ht : t' = t
  · subst ht
    have he := proceed_threads_self hth'
    subst he
    rw [hc th' rfl]
    exact hn
  · rw [proceed_threads_of_ne ht] at hth'
    exact h t' th' ht hth'

omit [Key K] in
theorem handedOut_proceed {call : Call K V} (hn : next.hands k call = none) :
    handedOut k (s.proceed t call m' next).history = handedOut k s.history := by
  cases next with
  | goto th' => rfl
  | ret reply => exact List.filterMap_cons_none hn

omit [Key K] in
theorem Unhanded.init (map : LearnedMap K V) : Unhanded (Sys.init map) k := ⟨nofun, rfl⟩

omit [Key K] in
theorem invoke_hands {call : Call K V} (hs : s.invoke t call = some s') {t' : ℕ}
    {th' : Thread K V} (hth' : s'.threads t' = some th') :
    handedBy k th'.call th'.reply = none ∨ s.threads t' = some th' := by
  obtain ⟨-, rfl⟩ := invoke_eq_some hs
  by_cases ht : t' = t
  · subst ht
    cases (Function.update_self _ _ _).symm.trans hth'
    exact Or.inl (start_hands call)
  · exact Or.inr ((Function.update_of_ne ht _ _).symm.trans hth')

omit [Key K] in
theorem Unhanded.invoke {call : Call K V} (h : Unhanded s k) (hs : s.invoke t call = some s') :
    Unhanded s' k := by
  refine ⟨fun {t' th'} hth' => (invoke_hands hs hth').elim id fun h' => h.running h', ?_⟩
  obtain ⟨-, rfl⟩ := invoke_eq_some hs
  exact h.returned

omit [Key K] in
theorem Handed.invoke {call : Call K V} (h : Handed s k v) (hs : s.invoke t call = some s') :
    Handed s' k v := by
  have hr : handedOut k s'.history = handedOut k s.history := by
    obtain ⟨-, rfl⟩ := invoke_eq_some hs
    rfl
  cases h with
  | @running t₀ th hth hpc hv ho hr' =>
    refine .running (t := t₀) ?_ hpc hv (fun t' th' ht hth' => ?_) (hr.trans hr')
    · obtain ⟨hnone, rfl⟩ := invoke_eq_some hs
      have ht : t₀ ≠ t := by
        rintro rfl
        cases hnone.symm.trans hth
      exact (Function.update_of_ne ht _ _).trans hth
    · exact (invoke_hands hs hth').elim id fun h' => ho t' th' ht h'
  | returned hth hr' =>
    exact .returned (fun hth' => (invoke_hands hs hth').elim id fun h' => hth h') (hr.trans hr')

theorem Unhanded.step [LawfulKey K] (hinv : s.Inv) (h : Unhanded s k)
    (hth : s.threads t = some th) (hstep : th.step s.config s.mem = some (m', next))
    (hn : next.hands k th.call = none) : Unhanded (s.proceed t th.call m' next) k := by
  have hnext := step_next hinv.headroom hinv.root (hinv.ok hth) (hinv.locks hth) hstep
  refine ⟨fun {t' th'} hth' => OthersKeep.proceed (fun t' th' _ h' => h.running h') hn ?_ hth',
    (handedOut_proceed hn).trans h.returned⟩
  rintro th' rfl
  exact hnext.call

omit [Key K] in
/-- **The step that hands the key out.** -/
theorem Unhanded.hand (h : Unhanded s k) {pairs : List (K × V)} (hh : th.HandsOut pairs)
    (hv : pairs.lookup k = some v) :
    Handed (s.proceed t th.call m'
      (.goto { th with pc := .subtract pairs.length, reply := .pairs pairs })) k v := by
  refine .running (t := t) (Function.update_self _ _ _) rfl ?_ (fun t' th' ht hth' => ?_) h.returned
  · rw [show th.call = .drain from hh.1]
    exact hv
  · rw [proceed_threads_of_ne ht] at hth'
    exact h.running hth'

/-- **A key that was handed out once** stays so. -/
theorem Handed.step [LawfulKey K] (hinv : s.Inv) (h : Handed s k v)
    (hth : s.threads t = some th) (hstep : th.step s.config s.mem = some (m', next))
    (hn : handedBy k th.call th.reply = none → next.hands k th.call = none) :
    Handed (s.proceed t th.call m' next) k v := by
  have hcall : ∀ th', next = .goto th' → th'.call = th.call := by
    rintro th' rfl
    exact (step_next hinv.headroom hinv.root (hinv.ok hth) (hinv.locks hth) hstep).call
  cases h with
  | @running t₀ th₀ hth₀ hpc hv ho hr =>
    by_cases ht : t₀ = t
    · subst ht
      obtain rfl := Option.some.inj (hth.symm.trans hth₀)
      rcases isSwapped_step hpc hstep with ⟨pc, rfl, hpc'⟩ | rfl
      · refine .running (t := t₀) (Function.update_self _ _ _) hpc' hv (fun t' th' ht h' => ?_) hr
        rw [proceed_threads_of_ne ht] at h'
        exact ho t' th' ht h'
      · refine .returned (fun {t' th'} h' => ?_) ?_
        · by_cases ht : t' = t₀
          · subst ht
            cases proceed_threads_self h'
          · rw [proceed_threads_of_ne ht] at h'
            exact ho t' th' ht h'
        · have hev : (Event.ret t₀ th.call th.reply).hands k = some v := hv
          exact (List.filterMap_cons_some hev).trans (congrArg (v :: ·) hr)
    · have hn := hn (ho t th (Ne.symm ht) hth)
      refine .running (t := t₀) ((proceed_threads_of_ne ht _ _ _).trans hth₀) hpc hv
        (fun t' th' ht' h' => ?_) ((handedOut_proceed hn).trans hr)
      by_cases he : t' = t
      · subst he
        obtain rfl := proceed_threads_self h'
        rw [hcall th' rfl]
        exact hn
      · rw [proceed_threads_of_ne he] at h'
        exact ho t' th' ht' h'
  | returned hth₀ hr =>
    have hn := hn (hth₀ hth)
    exact .returned (OthersKeep.proceed (fun t' th' _ h' => hth₀ h') hn hcall)
      ((handedOut_proceed hn).trans hr)

/-- No drain hands out the key of an insert that has not found its root in place. -/
def HandsOutSettled (s : Sys K V) : Act K V → Prop
  | .call _ _ => True
  | .step t => ∀ th pairs, s.threads t = some th → th.HandsOut pairs → ∀ t' th' k v,
      s.threads t' = some th' → th'.call = .insert k v → th'.pc.isDone = false →
      pairs.lookup k = none

/-- The operation stores nothing under the key any more. -/
def Idle (k : K) (th : Thread K V) : Prop :=
  th.call.key = some k → th.call = .get k ∨ th.pc.isDone = true

theorem Idle.respects {P : Option V → Prop} (h : Idle k th) : Respects P m k th where
  publish v hpc hk hv _ := by
    rcases h hk with hc | hd
    · rw [hc] at hv; cases hv
    · rw [hpc] at hd; cases hd
  bury hpc _ hc _ := by
    rcases h (by rw [hc]; rfl) with hc' | hd
    · cases hc.symm.trans hc'
    · rw [hpc] at hd; cases hd

/-- Every running operation but that of thread `t` is idle. -/
def OthersIdle (s : Sys K V) (k : K) (t : ℕ) : Prop :=
  ∀ t' th', t' ≠ t → s.threads t' = some th' → Idle k th'

theorem Idle.step [LawfulKey K] (hinv : s.Inv) (hth : s.threads t = some th)
    (hstep : th.step s.config s.mem = some (m', .goto th')) (h : Idle k th) : Idle k th' := by
  have hcall := (step_next hinv.headroom hinv.root (hinv.ok hth) (hinv.locks hth) hstep).call
  intro hk
  rw [hcall] at hk ⊢
  have hne : th.call ≠ .drain ∧ th.call ≠ .clear := by
    constructor <;> intro hc <;> rw [hc] at hk <;> cases hk
  refine (h hk).imp_right fun hd => ?_
  rcases done_step (fun _ _ _ => hne) hd hstep with ⟨pc, hn, hpc⟩ | hn
  · cases hn
    exact hpc
  · cases hn

omit [LinearOrder K] [Key K] in
theorem OthersIdle.proceed {call : Call K V} (h : s.OthersIdle k t)
    (hn : ∀ th', next = .goto th' → Idle k th') {t' : ℕ} {th' : Thread K V}
    (hth' : (s.proceed t call m' next).threads t' = some th') : Idle k th' := by
  by_cases ht : t' = t
  · subst ht
    exact hn th' (proceed_threads_self hth')
  · rw [proceed_threads_of_ne ht] at hth'
    exact h t' th' ht hth'

/-- **What is handed out** is what the map is sure of. -/
theorem SureRoot.handsOut {P : Option V → Prop} (h : SureRoot P s k) (hth : s.threads t = some th)
    {pairs : List (K × V)} (hh : th.HandsOut pairs) : P (pairs.lookup k) := by
  obtain ⟨-, r, hpc⟩ := hh
  exact h.collected hth hpc

/-- A key that is absent is not handed out. -/
theorem SureRoot.hands [LawfulKey K] (hinv : s.Inv) (h : SureRoot (· = none) s k)
    (hth : s.threads t = some th) (hstep : th.step s.config s.mem = some (m', next))
    (hn : handedBy k th.call th.reply = none) : next.hands k th.call = none := by
  by_cases hh : ∃ pairs, th.HandsOut pairs
  · obtain ⟨pairs, hh⟩ := hh
    obtain ⟨-, rfl⟩ := handsOut_step (hinv.locks hth) hh hstep
    rw [show th.call = .drain from hh.1]
    exact h.handsOut hth hh
  · push Not at hh
    exact (hands_step (hinv.ok hth) hh hstep).trans hn

/-- Where an entry is: about to be stored, in the map, or handed out once. -/
inductive Placed (s : Sys K V) (k : K) (v : V) : Prop
  | inserting {t : ℕ} {th : Thread K V} (hth : s.threads t = some th)
      (hcall : th.call = .insert k v) (hnd : th.pc.isDone = false)
      (hv : Vouches (· = some v) s k th) (hi : s.OthersIdle k t) (hu : Unhanded s k)
  | inMap (hs : SureRoot (· = some v) s k)
      (hi : ∀ {t : ℕ} {th : Thread K V}, s.threads t = some th → Idle k th) (hu : Unhanded s k)
  | gone (hs : SureRoot (· = none) s k)
      (hi : ∀ {t : ℕ} {th : Thread K V}, s.threads t = some th → Idle k th) (hh : Handed s k v)

/-- **An entry that no drain has taken** goes on to be stored, or is in the map. -/
theorem Placed.insert [LawfulKey K] {t₀ : ℕ} {th₀ : Thread K V} (hinv : s.Inv)
    (hth₀ : s.threads t₀ = some th₀) (hcall : th₀.call = .insert k v)
    (hnd : th₀.pc.isDone = false) (hv : Vouches (· = some v) s k th₀) (hi : s.OthersIdle k t₀)
    (hth : s.threads t = some th) (hstep : th.step s.config s.mem = some (m', next))
    (hu : Unhanded (s.proceed t th.call m' next) k) :
    Placed (s.proceed t th.call m' next) k v := by
  by_cases ht : t = t₀
  · subst ht
    obtain rfl := Option.some.inj (hth.symm.trans hth₀)
    rcases hv.insert hinv hth hcall rfl hnd hstep with ⟨th', rfl, hnd', hcall', hv'⟩ | ⟨hd, hsure⟩
    · refine .inserting (Function.update_self _ _ _) (hcall'.trans hcall) hnd' hv' ?_ hu
      intro t' th' ht hth'
      rw [proceed_threads_of_ne ht] at hth'
      exact hi t' th' ht hth'
    · exact .inMap hsure (hi.proceed fun th' hn _ => Or.inr (hd th' hn)) hu
  · have hidle := hi t th ht hth
    refine .inserting ((proceed_threads_of_ne (Ne.symm ht) _ _ _).trans hth₀) hcall hnd
      (hv.other hinv hth₀ (fun _ he => nomatch hcall.symm.trans he) hth hstep hidle.respects)
      (fun t' th' ht' hth' => ?_) hu
    by_cases he : t' = t
    · subst he
      obtain rfl := proceed_threads_self hth'
      exact hidle.step hinv hth hstep
    · rw [proceed_threads_of_ne he] at hth'
      exact hi t' th' ht' hth'

/-- **A step keeps an entry in its place**, or hands it out. -/
theorem Placed.step [LawfulKey K] (hinv : s.Inv) (h : Placed s k v)
    (hclear : ∀ {t th}, s.threads t = some th → th.call ≠ .clear)
    (hset : HandsOutSettled s (.step t)) (hs : s.step t = some s') : Placed s' k v := by
  obtain ⟨th, m', next, hth, hstep, rfl⟩ := step_eq_some hs
  have hidle : (∀ {t th}, s.threads t = some th → Idle k th) → ∀ {t' : ℕ} {th' : Thread K V},
      (s.proceed t th.call m' next).threads t' = some th' → Idle k th' := fun hi =>
    OthersIdle.proceed (fun t' th' _ h' => hi h') fun th' hn =>
      (hi hth).step hinv hth (by rw [hstep, hn])
  cases h with
  | @inserting t₀ th₀ hth₀ hcall hnd hv hi hu =>
    refine Placed.insert hinv hth₀ hcall hnd hv hi hth hstep (hu.step hinv hth hstep ?_)
    by_cases hh : ∃ pairs, th.HandsOut pairs
    · obtain ⟨pairs, hh⟩ := hh
      obtain ⟨-, rfl⟩ := handsOut_step (hinv.locks hth) hh hstep
      rw [show th.call = .drain from hh.1]
      exact hset th pairs hth hh t₀ th₀ k v hth₀ hcall hnd
    · push Not at hh
      exact (hands_step (hinv.ok hth) hh hstep).trans (hu.running hth)
  | inMap hsure hi hu =>
    by_cases hh : ∃ pairs, th.HandsOut pairs
    · -- the entry is handed out
      obtain ⟨pairs, hh⟩ := hh
      have hlook := hsure.handsOut hth hh
      obtain ⟨rfl, rfl⟩ := handsOut_step (hinv.locks hth) hh hstep
      obtain ⟨r, hpc⟩ := hh.2
      exact .gone (sureRoot_of_swap hinv hth hpc hstep emptyRoot_holds rfl) (hidle hi)
        (hu.hand hh hlook)
    · push Not at hh
      refine .inMap (hsure.step hinv hth hstep (hi hth).respects fun r pairs hpc hc => ?_)
        (hidle hi) (hu.step hinv hth hstep
          ((hands_step (hinv.ok hth) hh hstep).trans (hu.running hth)))
      rcases hc with hc | hc
      · exact absurd ⟨hc, r, hpc⟩ (hh pairs)
      · exact absurd hc (hclear hth)
  | gone hsure hi hh =>
    exact .gone (hsure.step hinv hth hstep (hi hth).respects fun _ _ _ _ => rfl) (hidle hi)
      (hh.step hinv hth hstep (hsure.hands hinv hth hstep))

/-- The key was never stored. -/
structure Unstored (s : Sys K V) (k : K) : Prop where
  absent : SureRoot (· = none) s k
  idle {t : ℕ} {th : Thread K V} : s.threads t = some th → Idle k th
  unhanded : Unhanded s k

theorem Unstored.step [LawfulKey K] (hinv : s.Inv) (h : Unstored s k) (hs : s.step t = some s') :
    Unstored s' k := by
  obtain ⟨th, m', next, hth, hstep, rfl⟩ := step_eq_some hs
  refine ⟨h.absent.step hinv hth hstep (h.idle hth).respects fun _ _ _ _ => rfl, ?_,
    h.unhanded.step hinv hth hstep (h.absent.hands hinv hth hstep (h.unhanded.running hth))⟩
  exact OthersIdle.proceed (fun t' th' _ h' => h.idle h') fun th' hn =>
    (h.idle hth).step hinv hth (by rw [hstep, hn])

/-! ## Runs -/

omit [LinearOrder K] [Key K] in
theorem invoke_idle {c : Call K V} (hc : c.key = some k → c = .get k)
    (hi : ∀ {t : ℕ} {th : Thread K V}, s.threads t = some th → Idle k th)
    (hs : s.invoke t c = some s') {t' : ℕ} {th' : Thread K V} (hth' : s'.threads t' = some th') :
    Idle k th' := by
  obtain ⟨-, rfl⟩ := invoke_eq_some hs
  by_cases ht : t' = t
  · subst ht
    cases (Function.update_self _ _ _).symm.trans hth'
    exact fun hk => Or.inl (hc hk)
  · exact hi ((Function.update_of_ne ht _ _).symm.trans hth')

theorem Unstored.invoke {c : Call K V} (h : Unstored s k) (hc : c.key = some k → c = .get k)
    (hs : s.invoke t c = some s') : Unstored s' k :=
  ⟨h.absent.invoke hs, invoke_idle hc h.idle hs, h.unhanded.invoke hs⟩

/-- **The insert of the key** is invoked. -/
theorem Unstored.insert (h : Unstored s k) (hs : s.invoke t (.insert k v) = some s') :
    Placed s' k v := by
  have hu := h.unhanded.invoke hs
  obtain ⟨-, rfl⟩ := invoke_eq_some hs
  refine .inserting (Function.update_self _ _ _) rfl rfl trivial (fun t' th' ht hth' => ?_) hu
  exact h.idle ((Function.update_of_ne ht _ _).symm.trans hth')

theorem Placed.invoke {c : Call K V} (h : Placed s k v) (hc : c.key = some k → c = .get k)
    (hs : s.invoke t c = some s') : Placed s' k v := by
  cases h with
  | @inserting t₀ th₀ hth₀ hcall hnd hv hi hu =>
    obtain ⟨hnone, hs'⟩ := invoke_eq_some hs
    have hne : t₀ ≠ t := by
      rintro rfl
      cases hnone.symm.trans hth₀
    refine .inserting (t := t₀) ?_ hcall hnd (hv.invoke hs) (fun t' th' ht hth' => ?_)
      (hu.invoke hs)
    · rw [hs']
      exact (Function.update_of_ne hne _ _).trans hth₀
    · rw [hs'] at hth'
      by_cases he : t' = t
      · subst he
        cases (Function.update_self _ _ _).symm.trans hth'
        exact fun hk => Or.inl (hc hk)
      · exact hi t' th' ht ((Function.update_of_ne he _ _).symm.trans hth')
  | inMap hsure hi hu => exact .inMap (hsure.invoke hs) (invoke_idle hc hi hs) (hu.invoke hs)
  | gone hsure hi hh => exact .gone (hsure.invoke hs) (invoke_idle hc hi hs) (hh.invoke hs)

/-- **Where an entry is in the end.** -/
theorem Placed.quiescent (hinv : s.Inv) (h : Placed s k v) (hq : s.Quiescent) :
    (handedOut k s.history = [] ∧ s.Answers k (some v)) ∨
      (handedOut k s.history = [v] ∧ s.Answers k none) := by
  cases h with
  | inserting hth => cases (hq _).symm.trans hth
  | inMap hsure _ hu =>
    obtain ⟨o, rfl, hans⟩ := hsure.answers hinv hq
    exact Or.inl ⟨hu.returned, hans⟩
  | gone hsure _ hh =>
    obtain ⟨o, rfl, hans⟩ := hsure.answers hinv hq
    cases hh with
    | running hth => cases (hq _).symm.trans hth
    | returned _ hr => exact Or.inr ⟨hr, hans⟩

/-- The calls of a run that do not store the key, and remove nothing. -/
def StoresOthers (k : K) (c : Call K V) : Prop :=
  c ≠ .clear ∧ (c.key = some k → c = .get k)

theorem Unstored.run [LawfulKey K] {sched : List (Act K V)} (hinv : s.Inv) (h : Unstored s k)
    (hops : ∀ t c, .call t c ∈ sched → c.key = some k → c = .get k)
    (hrun : s.run sched = some s') : Unstored s' k := by
  refine (Run.run_induct (C := fun _ a => a ∈ sched) (I := fun s => s.Inv ∧ Unstored s k)
    (fun {s a s'} h ha hact => ?_) ⟨hinv, h⟩ (Run.Meets.mem sched) hrun).2
  refine ⟨h.1.act hact, ?_⟩
  cases a with
  | call t c => exact h.2.invoke (hops t c ha) hact
  | step t => exact h.2.step h.1 hact

theorem Placed.run [LawfulKey K] {sched : List (Act K V)} (hinv : s.Inv) (h : Placed s k v)
    (hclear : ∀ t th, s.threads t = some th → th.call ≠ .clear)
    (hops : ∀ t c, .call t c ∈ sched → StoresOthers k c)
    (hmeets : Run.Meets act HandsOutSettled s sched) (hrun : s.run sched = some s') :
    Placed s' k v := by
  refine (Run.run_induct (I := fun s => s.Inv ∧ (∀ t th, s.threads t = some th →
    th.call ≠ .clear) ∧ Placed s k v) (fun {s a s'} h ha hact => ?_) ⟨hinv, hclear, h⟩
    (hmeets.and (Run.Meets.mem sched)) hrun).2.2
  obtain ⟨hinv, hclear, h⟩ := h
  refine ⟨hinv.act hact, running_act (C := (· ≠ .clear)) hinv hclear (fun t c he => ?_) hact, ?_⟩
  · exact (hops t c (he ▸ ha.2)).1
  · cases a with
    | call t c => exact h.invoke (hops t c ha.2).2 hact
    | step t => exact h.step hinv (fun hth => hclear _ _ hth) ha.1 hact

/-- The key that an action inserts. -/
def Act.inserts : Act K V → Option K
  | .call _ (.insert k _) => some k
  | _ => none

omit [LinearOrder K] [Key K] in
theorem mem_inserts {sched : List (Act K V)} (h : .call t (.insert k v) ∈ sched) :
    k ∈ sched.filterMap Act.inserts :=
  List.mem_filterMap.2 ⟨_, h, rfl⟩

omit [LinearOrder K] [Key K] in
theorem inserts_cons {sched : List (Act K V)} :
    (.call t (.insert k v) :: sched).filterMap Act.inserts = k :: sched.filterMap Act.inserts :=
  rfl

/-- What a drain returns ascends. -/
structure AscendingVectors (s : Sys K V) : Prop where
  running {t : ℕ} {th : Thread K V} {l : List (K × V)} : s.threads t = some th →
    th.call = .drain → th.reply = .pairs l → Ascending l
  returned {t : ℕ} {l : List (K × V)} : .ret t .drain (.pairs l) ∈ s.history → Ascending l

theorem AscendingVectors.step [LawfulKey K] (hinv : s.Inv) (h : AscendingVectors s)
    (hs : s.step t = some s') : AscendingVectors s' := by
  obtain ⟨th, m', next, hth, hstep, rfl⟩ := step_eq_some hs
  have hcall := step_next hinv.headroom hinv.root (hinv.ok hth) (hinv.locks hth) hstep
  refine ⟨fun {t' th' l} hth' hc hl => ?_, fun {t' l} hr => ?_⟩
  · by_cases ht : t' = t
    · subst ht
      obtain rfl := proceed_threads_self hth'
      have hc₀ : th.call = .drain := hcall.call.symm.trans hc
      rcases drain_step (hinv.ok hth) hc₀ hstep with ⟨pairs, hh⟩ | ⟨pc, hn⟩ | hn
      · obtain ⟨-, hn⟩ := handsOut_step (hinv.locks hth) hh hstep
        obtain ⟨r, hpc⟩ := hh.2
        have hok := hinv.ok hth
        simp only [Thread.Ok, hpc] at hok
        cases hn
        cases hl
        exact hok
      · cases hn
        exact h.running hth hc₀ hl
      · cases hn
    · rw [proceed_threads_of_ne ht] at hth'
      exact h.running hth' hc hl
  · cases next with
    | goto th' => exact h.returned hr
    | ret reply =>
      rcases List.mem_cons.1 hr with hr | hr
      · obtain ⟨-, hc, hl⟩ := Event.ret.inj hr
        rcases drain_step (hinv.ok hth) hc.symm hstep with ⟨pairs, hh⟩ | ⟨pc, hn⟩ | hn
        · cases (handsOut_step (hinv.locks hth) hh hstep).2
        · cases hn
        · cases hn
          exact h.running hth hc.symm hl.symm
      · exact h.returned hr

theorem AscendingVectors.act [LawfulKey K] (hinv : s.Inv) (h : AscendingVectors s) {a : Act K V}
    (ha : s.act a = some s') : AscendingVectors s' := by
  cases a with
  | step t => exact h.step hinv ha
  | call t c =>
    obtain ⟨-, rfl⟩ := invoke_eq_some ha
    refine ⟨fun {t' th' l} hth' hc hl => ?_, fun {t' l} hr => ?_⟩
    · by_cases ht : t' = t
      · subst ht
        cases (Function.update_self _ _ _).symm.trans hth'
        rw [show c = .drain from hc] at hl
        cases hl
        exact ascending_nil
      · exact h.running ((Function.update_of_ne ht _ _).symm.trans hth') hc hl
    · rcases List.mem_cons.1 hr with hr | hr
      · cases hr
      · exact h.returned hr

/-- **Every entry is in the map or was handed out once**, and every vector ascends. -/
theorem run_handedOut [LawfulKey K] {config : Config} (hc : config.Valid) {map : LearnedMap K V}
    {pairs : List (K × V)} (hs : Starts config map pairs) {sched : List (Act K V)}
    (hops : ∀ t c, .call t c ∈ sched →
      c = .drain ∨ c = .rebuild ∨ (∃ k, c = .get k) ∨ ∃ k v, c = .insert k v)
    (hdistinct : (sched.filterMap Act.inserts).Nodup)
    (hnew : ∀ k ∈ sched.filterMap Act.inserts, pairs.lookup k = none)
    (hrun : (Sys.init map).run sched = some s)
    (hmeets : Run.Meets act HandsOutSettled (Sys.init map) sched) (hq : s.Quiescent) :
    (∀ k v, (pairs.lookup k = some v ∨ ∃ t, .call t (.insert k v) ∈ sched) →
      (handedOut k s.history = [] ∧ s.Answers k (some v)) ∨
      (handedOut k s.history = [v] ∧ s.Answers k none)) ∧
    ∀ t l, .ret t .drain (.pairs l) ∈ s.history → Ascending l := by
  have hinit := Inv.init hc hs
  have hinv := hinit.run hrun
  have hothers : ∀ {k : K} {as : List (Act K V)}, (∀ a ∈ as, a ∈ sched) →
      k ∉ as.filterMap Act.inserts → ∀ t c, .call t c ∈ as → StoresOthers k c := by
    intro k as has hk t c hm
    rcases hops t c (has _ hm) with rfl | rfl | ⟨k', rfl⟩ | ⟨k', v', rfl⟩
    · exact ⟨nofun, nofun⟩
    · exact ⟨nofun, nofun⟩
    · exact ⟨nofun, fun he => by cases he; rfl⟩
    · refine ⟨nofun, fun he => ?_⟩
      cases he
      exact absurd (mem_inserts hm) hk
  refine ⟨fun k v hkv => ?_, fun t l hr => ?_⟩
  · refine Placed.quiescent hinv ?_ hq
    rcases hkv with hk | ⟨t, hm⟩
    · have hno : k ∉ sched.filterMap Act.inserts := fun hm => by
        cases (hnew k hm).symm.trans hk
      refine Placed.run hinit (.inMap (.init hc hs hk) ?_ (.init map)) ?_
        (hothers (fun _ => id) hno) hmeets hrun
      · exact fun h => nomatch h
      · exact fun _ _ h => nomatch h
    · obtain ⟨as, bs, rfl⟩ := List.append_of_mem hm
      have hnone : pairs.lookup k = none := hnew k (mem_inserts hm)
      rw [List.filterMap_append, inserts_cons] at hdistinct
      obtain ⟨-, hbs, hdis⟩ := List.nodup_append.1 hdistinct
      have has : k ∉ as.filterMap Act.inserts := fun hk =>
        hdis k hk k List.mem_cons_self rfl
      rw [run_append, Option.bind_eq_some_iff] at hrun
      obtain ⟨s₁, h₁, hrun⟩ := hrun
      obtain ⟨hm₁, hm₂⟩ := hmeets.of_append h₁
      rw [run_cons, Option.bind_eq_some_iff] at hrun
      obtain ⟨s₂, h₂, hrun⟩ := hrun
      have hstores := hothers (fun a ha => List.mem_append_left _ ha) has
      have hinv₁ := hinit.run h₁
      have hun : Unstored s₁ k := by
        refine Unstored.run hinit ⟨.init hc hs hnone, ?_, .init map⟩
          (fun t c hm => (hstores t c hm).2) h₁
        exact fun h => nomatch h
      have hclear := (Calls.init (C := (· ≠ .clear)) map).run hinit
        (fun t c hm => (hstores t c hm).1) h₁
      refine (hun.insert h₂).run (hinv₁.invoke h₂) (fun t th => ?_) (hothers (fun a ha =>
        List.mem_append_right _ (List.mem_cons_of_mem _ ha)) (List.nodup_cons.1 hbs).1)
        (hm₂.2 s₂ h₂) hrun
      exact (hclear.act hinv₁ (a := .call _ _) (fun _ _ he => by cases he; nofun) h₂).running
  · have hstart : AscendingVectors (Sys.init map) := ⟨nofun, nofun⟩
    exact (Run.run_induct (C := fun _ _ => True) (I := fun s => s.Inv ∧ AscendingVectors s)
      (fun h _ hact => ⟨h.1.act hact, h.2.act h.1 hact⟩) ⟨hinit, hstart⟩
      (.of_forall fun _ _ => trivial) hrun).2.returned hr

/-- `HandsOutSettled`, for the threads below `n`. -/
def settledBelow (n : ℕ) (s : Sys K V) : Act K V → Bool
  | .call _ _ => true
  | .step t => (s.threads t).all fun th =>
    match th.call, th.pc with
    | .drain, .rootSwap _ pairs => (List.range n).all fun t' => (s.threads t').all fun th' =>
      match th'.call with
      | .insert k _ => th'.pc.isDone || (pairs.lookup k).isNone
      | _ => true
    | _, _ => true

theorem meets_of_settledBelow {n : ℕ} {map : LearnedMap K V} {sched : List (Act K V)}
    (hn : ∀ t c, .call t c ∈ sched → t < n)
    (h : Run.Meets act (fun s a => settledBelow n s a = true) (Sys.init map) sched) :
    Run.Meets act HandsOutSettled (Sys.init map) sched := by
  refine (h.and (Run.Meets.mem sched)).of_invariant (I := fun s => ∀ t, n ≤ t → s.threads t = none)
    (fun {s a s'} hs ha hact t ht => ?_) (fun {s a} hs ha => ?_) fun _ _ => rfl
  · have hone : s.run [a] = some s' := by
      rw [run_cons, hact]
      rfl
    refine threads_none (hs t ht) hone fun c hc => (not_lt.2 ht) (hn t c ?_)
    rw [List.mem_singleton.1 hc]
    exact ha.2
  · cases a with
    | call t c => trivial
    | step t =>
      rintro th pairs hth ⟨hcall, r, hpc⟩ t' th' k v hth' hcall' hdone
      have hlt : t' < n := by
        by_contra ht'
        cases (hs t' (not_lt.1 ht')).symm.trans hth'
      have hset := ha.1
      simp only [settledBelow, hth, Option.all_some, hcall, hpc, List.all_eq_true] at hset
      have hset := hset t' (List.mem_range.2 hlt)
      simp only [hth', Option.all_some, hcall', hdone, Bool.false_or] at hset
      exact Option.isNone_iff_eq_none.1 hset

/-- An insert in flight, which a rebuild turns away once, and a drain of what another
    insert has stored.  The insert stores its entry in the root that the drain has frozen,
    behind the cursor of the drain, and stores it again in the empty root. -/
def insertBehindDrain (k k' : K) (v v' : V) : List (Act K V) :=
  .call 0 (.insert k v) :: List.replicate 8 (Act.step 0) ++
    Act.call 0 (.insert k' v') :: List.replicate 2 (Act.step 0) ++
    Act.call 2 .rebuild :: List.replicate 70 (Act.step 2) ++ List.replicate 6 (Act.step 0) ++
    Act.call 1 .drain :: List.replicate 4 (Act.step 1) ++ List.replicate 2 (Act.step 0) ++
    List.replicate 4 (Act.step 1) ++ List.replicate 10 (Act.step 0)

theorem run_handedOut_behindDrain : ∃ s : Sys (Fin (2 ^ 8)) ℕ,
    (Sys.init (.withConfig {})).run
      (insertBehindDrain ⟨5, by decide⟩ ⟨7, by decide⟩ 1 2) = some s ∧
    (∀ k v, (List.lookup k [] = some v ∨
        ∃ t, .call t (.insert k v) ∈ insertBehindDrain ⟨5, by decide⟩ ⟨7, by decide⟩ 1 2) →
      (handedOut k s.history = [] ∧ s.Answers k (some v)) ∨
      (handedOut k s.history = [v] ∧ s.Answers k none)) ∧
    ∀ t l, .ret t .drain (.pairs l) ∈ s.history → Ascending l := by
  have := lawfulKey_unsigned (show 8 ≤ 64 by decide)
  have hcalls : ∀ t c, Act.call t c ∈
      insertBehindDrain (⟨5, by decide⟩ : Fin (2 ^ 8)) ⟨7, by decide⟩ (1 : ℕ) 2 →
      t < 3 ∧ (c = .drain ∨ c = .rebuild ∨ (∃ k, c = .get k) ∨ ∃ k v, c = .insert k v) := by
    intro t c hm
    simp [insertBehindDrain] at hm
    rcases hm with ⟨rfl, rfl⟩ | ⟨rfl, rfl⟩ | ⟨rfl, rfl⟩ | ⟨rfl, rfl⟩ <;> simp
  have ho : ((Sys.init (.withConfig {} : LearnedMap (Fin (2 ^ 8)) ℕ)).outcome 3
      (insertBehindDrain ⟨5, by decide⟩ ⟨7, by decide⟩ 1 2)).isSome := by
    decide +kernel
  have hsettled : Run.Meets act (fun s a => settledBelow 3 s a = true)
      (Sys.init (.withConfig {} : LearnedMap (Fin (2 ^ 8)) ℕ))
      (insertBehindDrain ⟨5, by decide⟩ ⟨7, by decide⟩ 1 2) := by
    decide +kernel
  obtain ⟨_, ho⟩ := Option.isSome_iff_exists.1 ho
  obtain ⟨s, hrun, hq, -⟩ := outcome_eq_some ho fun t c hm => (hcalls t c hm).1
  exact ⟨s, hrun, run_handedOut (show ({} : Config).Valid from ⟨one_le_two, le_rfl⟩) .withConfig
    (fun t c hm => (hcalls t c hm).2) (by decide) (fun _ _ => rfl) hrun
    (meets_of_settledBelow (fun t c hm => (hcalls t c hm).1) hsettled) hq⟩

/-- A drain while an insert has stored its entry but has not compared its root. -/
def drainInFlight (k : K) (v : V) : List (Act K V) :=
  .call 0 (.insert k v) :: List.replicate 4 (Act.step 0) ++
    Act.call 1 .drain :: List.replicate 71 (Act.step 1) ++ List.replicate 10 (Act.step 0) ++
    Act.call 1 (.get k) :: List.replicate 2 (Act.step 1)

/-- **In both places**: the entry was handed out and is in the map. -/
theorem drain_duplicates :
    (Sys.init (.withConfig {} : LearnedMap (Fin (2 ^ 8)) ℕ)).outcome 2
        (drainInFlight ⟨5, by decide⟩ 1) =
      some [.ret 1 (.get ⟨5, by decide⟩) (.option (some 1)), .inv 1 (.get ⟨5, by decide⟩),
        .ret 0 (.insert ⟨5, by decide⟩ 1) (.bool true),
        .ret 1 .drain (.pairs [(⟨5, by decide⟩, 1)]), .inv 1 .drain,
        .inv 0 (.insert ⟨5, by decide⟩ 1)] := by
  decide +kernel

end Sys

end Scry.Index
