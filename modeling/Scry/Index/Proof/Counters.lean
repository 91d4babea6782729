/-
  The counters of keys and of tombstones under concurrency.

  A counter is changed by a step of its own, after the step that changed the tree, so
  another operation may take back the change before it was counted.  The record of a run
  (`Counted`) lists the keys and the slots that were counted and not taken off again.
-/
import Scry.Index.Proof.Moves

namespace Scry.Index

variable {K V : Type}

/-! ## What was counted -/

/-- The call inserts its key if it is absent. -/
def Call.isInsert : Call K V → Bool
  | .insert _ _ => true
  | .getOrInsert _ _ => true
  | _ => false

/-- The number of inserts that were called. -/
def inserts (h : List (Event K V)) : ℕ :=
  h.countP fun e =>
    match e with
    | .inv _ call => call.isInsert
    | .ret _ _ _ => false

/-- The keys and the slots that were counted and not taken off again. -/
structure Counted (K : Type) where
  keys : List K
  slots : List (NodeId × ℕ)

namespace Counted
variable [DecidableEq K]

/-- What the next step of the operation counts, or takes off. -/
def note (g : Counted K) (th : Thread K V) : Counted K :=
  match th.pc with
  | .count =>
    match th.call with
    | .remove key => { g with keys := g.keys.erase key }
    | call => { g with keys := call.key.toList ++ g.keys }
  | .countTombstone =>
    match th.write with
    | .bury => { g with slots := (th.cur, th.idx) :: g.slots }
    | _ => { g with slots := g.slots.erase (th.cur, th.idx) }
  | _ => g

/-- What the next step of the operation takes off was counted, and what it counts fits. -/
def covers (g : Counted K) (m : Mem K V) (th : Thread K V) : Bool :=
  match th.pc with
  | .count =>
    match th.call with
    | .remove key => key ∈ g.keys
    | _ => g.keys.length + 1 < 2 ^ 64
  | .countTombstone =>
    match th.write with
    | .bury => (m.cells th.cur).head.capacity < 2 ^ 64
    | _ => (th.cur, th.idx) ∈ g.slots
  | _ => true

theorem note_keys {g : Counted K} {th : Thread K V} (hpc : th.pc ≠ .count) :
    (g.note th).keys = g.keys := by
  unfold note
  split
  · exact absurd ‹_› hpc
  · split <;> rfl
  · rfl

theorem note_slots {g : Counted K} {th : Thread K V} (hpc : th.pc ≠ .countTombstone) :
    (g.note th).slots = g.slots := by
  unfold note
  split
  · split <;> rfl
  · exact absurd ‹_› hpc
  · rfl


end Counted

/-- The next step of the operation takes more off a counter than there is. -/
def Thread.Underflows (m : Mem K V) (th : Thread K V) : Prop :=
  match th.pc with
  | .count =>
    match th.call with
    | .remove _ => m.len = 0
    | _ => False
  | .countTombstone =>
    match th.write with
    | .bury => False
    | _ => (m.cells th.cur).numTombstones = 0
  | .subtract n => m.len < n
  | _ => False

theorem wrapUsize_of_lt {x : ℤ} {n : ℕ} (hx : x = n) (hn : n < 2 ^ 64) : wrapUsize x = n := by
  rw [wrapUsize, hx]
  omega

theorem wrapUsize_lt (x : ℤ) : wrapUsize x < 2 ^ 64 := by
  rw [wrapUsize]
  omega

namespace Sys
variable {s s' : Sys K V} {t : ℕ}

/-- The action is no step, or one of an operation that satisfies `P`. -/
def AtStep (P : Thread K V → Prop) (s : Sys K V) : Act K V → Prop
  | .call _ _ => True
  | .step t => ∀ th ∈ s.threads t, P th

instance {P : Thread K V → Prop} [DecidablePred P] (s : Sys K V) :
    ∀ a : Act K V, Decidable (AtStep P s a)
  | .call _ _ => inferInstanceAs (Decidable True)
  | .step t => inferInstanceAs (Decidable (∀ th ∈ s.threads t, P th))

/-- An action changes the record like the step it takes. -/
def noteCounted [DecidableEq K] (s : Sys K V) (g : Counted K) : Act K V → Counted K
  | .call _ _ => g
  | .step t => (s.threads t).elim g g.note

/-- **What is taken off was counted**: a remove takes its key off the length only after an
    insert has counted it, and an insert takes the tombstone off that it replaced only after
    the remove has counted it; no counter exceeds what a `usize` holds. -/
def CountedFirst [DecidableEq K] (p : Sys K V × Counted K) : Act K V → Prop :=
  AtStep (fun th => p.2.covers p.1.mem th = true) p.1

instance [DecidableEq K] (p : Sys K V × Counted K) (a : Act K V) : Decidable (CountedFirst p a) :=
  inferInstanceAs (Decidable (AtStep _ _ _))

/-- The action takes no more off a counter than there is. -/
def NoUnderflow (s : Sys K V) : Act K V → Prop := AtStep (fun th => ¬ th.Underflows s.mem) s

/-! ## The length -/

/-- The length is the number of keys that were counted, each for an insert of its own. -/
structure LenOk (start : ℕ) (s : Sys K V) (g : Counted K) : Prop where
  len : s.mem.len = g.keys.length
  fits : g.keys.length < 2 ^ 64
  /-- `F` holds the threads that run an insert and have not counted its key -/
  inserted : ∃ F : Finset ℕ, (∀ t th, s.threads t = some th → th.call.isInsert = true →
    th.pc.counted = false → t ∈ F) ∧ g.keys.length + F.card ≤ start + inserts s.history

theorem LenOk.invoke {start : ℕ} {g : Counted K} {call : Call K V} (h : LenOk start s g)
    (hs : s.invoke t call = some s') : LenOk start s' g := by
  have hthreads := @threads_of_invoke K V s s' t call hs
  obtain ⟨-, rfl⟩ := invoke_eq_some hs
  obtain ⟨F, hF, hle⟩ := h.inserted
  refine ⟨h.len, h.fits, ?_⟩
  by_cases hc : call.isInsert = true
  · refine ⟨Insert.insert t F, fun t' th hth hi hp => ?_, ?_⟩
    · rcases hthreads hth with ⟨rfl, -⟩ | hth
      · exact Finset.mem_insert_self _ _
      · exact Finset.mem_insert_of_mem (hF t' th hth hi hp)
    · have hins : inserts (.inv t call :: s.history) = inserts s.history + 1 :=
        List.countP_cons_of_pos hc
      have hcard := Finset.card_insert_le t F
      show _ ≤ start + inserts (.inv t call :: s.history)
      omega
  · refine ⟨F, fun t' th hth hi hp => ?_, ?_⟩
    · rcases hthreads hth with ⟨-, rfl⟩ | hth
      · exact absurd hi hc
      · exact hF t' th hth hi hp
    · have hins : inserts (.inv t call :: s.history) = inserts s.history :=
        List.countP_cons_of_neg hc
      show _ ≤ start + inserts (.inv t call :: s.history)
      omega

variable {m' : Mem K V} {th : Thread K V} {next : Next K V}

theorem inserts_proceed (call : Call K V) :
    inserts (s.proceed t call m' next).history = inserts s.history := by
  cases next with
  | goto => rfl
  | ret => exact List.countP_cons_of_neg (by simp)

variable [LinearOrder K] [Key K]

/-- **The step that counts a key** adds or takes off one. -/
theorem count_spec {g : Counted K} {start : ℕ} (h : LenOk start s g) (hr : th.Regular)
    (hpc : th.pc = .count) (hcov : g.covers s.mem th = true)
    (hstep : th.step s.config s.mem = some (m', next)) :
    m'.len = (g.note th).keys.length ∧ (g.note th).keys.length < 2 ^ 64 ∧
      (∀ th', next = .goto th' → th'.pc.counted = true) ∧
      ((th.call.isInsert = true ∧ (g.note th).keys.length = g.keys.length + 1) ∨
        (g.note th).keys.length ≤ g.keys.length) := by
  have hlen := h.len
  have hfits := h.fits
  obtain ⟨k, hk, hg⟩ := hr.counting hpc
  simp only [Thread.step, hpc, stepCount, Option.some.injEq] at hstep
  simp only [Counted.covers, hpc] at hcov
  simp only [Counted.note, hpc]
  cases hc : th.call with
  | get k' => exact absurd hc (hg k')
  | rebuild | drain | clear => rw [hc] at hk; cases hk
  | remove key =>
    rw [hc] at hstep hcov
    cases hstep
    have hin : key ∈ g.keys := of_decide_eq_true hcov
    have hpos : 0 < g.keys.length := List.length_pos_of_mem hin
    have herase : (g.keys.erase key).length = g.keys.length - 1 := List.length_erase_of_mem hin
    dsimp only
    rw [herase]
    exact ⟨wrapUsize_of_lt (by rw [hlen]; omega) (by omega), by omega,
      fun _ he => (by cases he), Or.inr (by omega)⟩
  | insert key v | getOrInsert key v =>
    rw [hc] at hstep hcov
    dsimp only at hstep
    have hbound : g.keys.length + 1 < 2 ^ 64 := of_decide_eq_true hcov
    have hcons : (Call.key th.call).toList ++ g.keys = k :: g.keys := by rw [hk]; rfl
    rw [hc] at hcons
    dsimp only
    rw [hcons, List.length_cons]
    have hwrap : wrapUsize (s.mem.len + 1) = g.keys.length + 1 :=
      wrapUsize_of_lt (by omega) hbound
    split_ifs at hstep <;> cases hstep
    · refine ⟨hwrap, hbound, ?_, Or.inl ⟨rfl, rfl⟩⟩
      rintro th' he
      cases he
      rfl
    · exact ⟨hwrap, hbound, fun _ he => (by cases he), Or.inl ⟨rfl, rfl⟩⟩

/-- **The length stays exact** when what is taken off was counted. -/
theorem LenOk.step {g : Counted K} {start : ℕ} (h : LenOk start s g) (hth : s.threads t = some th)
    (hr : th.Regular) (hd : th.call ≠ .drain) (hcl : th.call ≠ .clear) (hcall : ∀ th', next = .goto th' → th'.call = th.call)
    (hcov : g.covers s.mem th = true) (hstep : th.step s.config s.mem = some (m', next)) :
    LenOk start (s.proceed t th.call m' next) (g.note th) := by
  obtain ⟨F, hF, hle⟩ := h.inserted
  have hother : ∀ {t' : ℕ} {th' : Thread K V}, t' ≠ t →
      (s.proceed t th.call m' next).threads t' = some th' → th'.call.isInsert = true →
      th'.pc.counted = false → t' ∈ F := fun ht h' hi hp =>
    hF _ _ (by rwa [proceed_threads_of_ne ht] at h') hi hp
  by_cases hpc : th.pc = .count
  · obtain ⟨hlen, hfits, hcnt, hkeys⟩ := count_spec h hr hpc hcov hstep
    refine ⟨by rw [proceed_mem]; exact hlen, hfits, ?_⟩
    rw [inserts_proceed]
    have hself : ∀ {th' : Thread K V}, (s.proceed t th.call m' next).threads t = some th' →
        th'.pc.counted = false → False := fun h' hp => by
      rw [hcnt _ (proceed_threads_self h')] at hp
      cases hp
    rcases hkeys with ⟨hi, hkeys⟩ | hkeys
    · -- the thread has counted its key
      have ht : t ∈ F := hF t th hth hi (by rw [hpc]; rfl)
      refine ⟨F.erase t, fun t' th' h' hi' hp => ?_, ?_⟩
      · by_cases he : t' = t
        · subst he
          exact (hself h' hp).elim
        · exact Finset.mem_erase.2 ⟨he, hother he h' hi' hp⟩
      · have hcard := Finset.card_erase_of_mem ht
        have hpos := Finset.card_pos.2 ⟨t, ht⟩
        omega
    · refine ⟨F, fun t' th' h' hi' hp => ?_, by omega⟩
      by_cases he : t' = t
      · subst he
        exact (hself h' hp).elim
      · exact hother he h' hi' hp
  · have hkeys := Counted.note_keys (g := g) hpc
    refine ⟨?_, by rw [hkeys]; exact h.fits, F, fun t' th' h' hi hp => ?_, ?_⟩
    · rw [proceed_mem, step_len hpc (hr.not_subtract hd hcl) hstep, hkeys]
      exact h.len
    · by_cases he : t' = t
      · subst he
        have hn := proceed_threads_self h'
        have hc := hcall _ hn
        rw [hn] at hstep
        refine hF t' th hth (hc ▸ hi) (Bool.eq_false_iff.2 fun hcnt => ?_)
        rw [counted_step hcnt hstep] at hp
        cases hp
      · exact hother he h' hi hp
    · rw [inserts_proceed, hkeys]
      exact hle

/-! ## The tombstones -/

/-- The pairs with one first component and second components below a bound. -/
theorem count_fst_le {α : Type} [DecidableEq α] {l : List (α × ℕ)} (hl : l.Nodup) {a : α} {b : ℕ}
    (hb : ∀ p ∈ l, p.1 = a → p.2 < b) : (l.map Prod.fst).count a ≤ b := by
  set l' := l.filter fun p => p.1 = a with hl'
  have hmem : ∀ p ∈ l', p ∈ l ∧ p.1 = a := fun p hp => by
    simpa only [hl', List.mem_filter, decide_eq_true_eq] using hp
  have hnodup : (l'.map Prod.snd).Nodup := by
    refine (hl.filter _).map_on fun p hp q hq he => ?_
    exact Prod.ext ((hmem p hp).2.trans (hmem q hq).2.symm) he
  have hsub : l'.map Prod.snd ⊆ List.range b := by
    intro i hi
    obtain ⟨p, hp, rfl⟩ := List.mem_map.1 hi
    exact List.mem_range.2 (hb p (hmem p hp).1 (hmem p hp).2)
  calc (l.map Prod.fst).count a = l'.length := by
        rw [List.count, List.countP_map, List.countP_eq_length_filter]
        rfl
    _ = (l'.map Prod.snd).length := (List.length_map _).symm
    _ ≤ (List.range b).length := (hnodup.subperm hsub).length_le
    _ = b := List.length_range

/-- A node counts the buried slots that were counted, each of them once. -/
structure MarksOk (s : Sys K V) (g : Counted K) : Prop where
  nodes (n : NodeId) : (s.mem.cells n).numTombstones = (g.slots.map Prod.fst).count n
  fits (n : NodeId) : (s.mem.cells n).numTombstones < 2 ^ 64
  nodup : g.slots.Nodup
  buried : ∀ a ∈ g.slots, a.1.alloc < s.mem.next ∧ a.2 < (s.mem.cells a.1).head.capacity ∧
    (s.mem.cells a.1).Buried a.2
  burying {t : ℕ} {th : Thread K V} : s.threads t = some th → th.Burying →
    (th.cur, th.idx) ∉ g.slots ∧ (s.mem.cells th.cur).Buried th.idx
  /-- one operation has buried a slot -/
  unique {t t' : ℕ} {th th' : Thread K V} : s.threads t = some th → s.threads t' = some th' →
    th.Burying → th'.Burying → th.cur = th'.cur → th.idx = th'.idx → t = t'

namespace MarksOk
variable {g : Counted K}

omit [LinearOrder K] [Key K] in
/-- **A node counts no more tombstones than it has slots.** -/
theorem le_capacity (h : MarksOk s g) (n : NodeId) :
    (s.mem.cells n).numTombstones ≤ (s.mem.cells n).head.capacity := by
  rw [h.nodes]
  exact count_fst_le h.nodup fun p hp he => he ▸ (h.buried p hp).2.1

omit [LinearOrder K] [Key K] in
theorem invoke {call : Call K V} (h : MarksOk s g) (hs : s.invoke t call = some s') :
    MarksOk s' g := by
  have hthreads := @threads_of_invoke K V s s' t call hs
  have hmem : s'.mem = s.mem := by
    obtain ⟨-, rfl⟩ := invoke_eq_some hs
    rfl
  have hstart : ¬ (Thread.start call).Burying := by
    rintro ⟨hpc, -⟩
    cases call <;> cases hpc
  refine ⟨fun n => by rw [hmem]; exact h.nodes n, fun n => by rw [hmem]; exact h.fits n, h.nodup,
    fun a ha => by rw [hmem]; exact h.buried a ha, fun {t' th} hth hb => ?_, fun {t₁ t₂ th₁ th₂} h₁ h₂ hb₁ hb₂ => ?_⟩
  · rw [hmem]
    rcases hthreads hth with ⟨-, rfl⟩ | hth
    · exact absurd hb hstart
    · exact h.burying hth hb
  · rcases hthreads h₁ with ⟨-, rfl⟩ | h₁
    · exact absurd hb₁ hstart
    rcases hthreads h₂ with ⟨-, rfl⟩ | h₂
    · exact absurd hb₂ hstart
    exact h.unique h₁ h₂ hb₁ hb₂

theorem cur_alloc (hinv : s.Inv) (hth : s.threads t = some th) (hpc : th.pc = .countTombstone) :
    th.cur.alloc < s.mem.next ∧ th.idx < (s.mem.cells th.cur).head.capacity := by
  have hok := hinv.ok hth
  simp only [Thread.Ok, hpc] at hok
  obtain ⟨k, ⟨hat, hidx⟩, -⟩ := hok
  exact ⟨hat.2.2.curWF.alloc, hidx ▸ hat.2.2.curWF.cell.head.predictSlot_lt k⟩

omit [LinearOrder K] [Key K] in
theorem addTombstones_cells {m : Mem K V} {x : NodeId} {d : ℤ} (n : NodeId) :
    ((m.modify x fun c => c.addTombstones d).cells n).head = (m.cells n).head ∧
    ((m.modify x fun c => c.addTombstones d).cells n).slots = (m.cells n).slots ∧
    ((m.modify x fun c => c.addTombstones d).cells n).numTombstones =
      if n = x then wrapUsize ((m.cells x).numTombstones + d) else (m.cells n).numTombstones := by
  by_cases hn : n = x
  · subst hn
    rw [Mem.modify_cells_self, if_pos rfl]
    exact ⟨rfl, rfl, rfl⟩
  · rw [if_neg hn, show (m.modify x fun c => c.addTombstones d).cells n = m.cells n from
      Function.update_of_ne hn _ _]
    exact ⟨rfl, rfl, rfl⟩

/-- The step that counts a tombstone leaves a record `slots` that agrees with the counters. -/
theorem recount (h : MarksOk s g) (hinv : s.Inv) (hth : s.threads t = some th)
    (hpc : th.pc = .countTombstone) {d : ℤ} {slots : List (NodeId × ℕ)}
    (hnodes : ∀ n, (if n = th.cur then wrapUsize ((s.mem.cells th.cur).numTombstones + d)
      else (s.mem.cells n).numTombstones) = (slots.map Prod.fst).count n)
    (hnodup : slots.Nodup) (hmem : ∀ a ∈ slots, a ∈ g.slots ∨ a = (th.cur, th.idx) ∧ th.Burying)
    (hothers : ∀ t' th', t' ≠ t → s.threads t' = some th' → th'.Burying →
      (th'.cur, th'.idx) ∉ slots) :
    MarksOk (s.proceed t th.call (s.mem.modify th.cur fun c => c.addTombstones d)
      (th.goto .validateChild)) ⟨g.keys, slots⟩ := by
  have hcells := fun n => addTombstones_cells (m := s.mem) (x := th.cur) (d := d) n
  have hburied : ∀ {n : NodeId} {i : ℕ}, (s.mem.cells n).Buried i →
      ((s.mem.modify th.cur fun c => c.addTombstones d).cells n).Buried i := by
    intro n i hb
    rw [Cell.Buried, (hcells n).2.1]
    exact hb
  have hthreads : ∀ {t' : ℕ} {th' : Thread K V}, (s.proceed t th.call
      (s.mem.modify th.cur fun c => c.addTombstones d) (th.goto .validateChild)).threads t' =
      some th' → th'.Burying → t' ≠ t ∧ s.threads t' = some th' := by
    intro t' th' h' hb
    by_cases ht : t' = t
    · subst ht
      cases proceed_threads_self h'
      cases hb.1
    · exact ⟨ht, by rwa [proceed_threads_of_ne ht] at h'⟩
  refine ⟨fun n => ?_, fun n => ?_, hnodup, fun a ha => ?_, fun {t' th'} h' hb => ?_,
    fun {t₁ t₂ th₁ th₂} h₁ h₂ hb₁ hb₂ => ?_⟩
  · rw [proceed_mem, (hcells n).2.2]
    exact hnodes n
  · rw [proceed_mem, (hcells n).2.2]
    split_ifs
    · exact wrapUsize_lt _
    · exact h.fits n
  · rw [proceed_mem, (hcells _).1]
    rcases hmem a ha with ha | ⟨rfl, hb⟩
    · obtain ⟨h₁, h₂, h₃⟩ := h.buried a ha
      exact ⟨h₁, h₂, hburied h₃⟩
    · obtain ⟨h₁, h₂⟩ := cur_alloc hinv hth hpc
      exact ⟨h₁, h₂, hburied (h.burying hth hb).2⟩
  · obtain ⟨ht, h'⟩ := hthreads h' hb
    rw [proceed_mem]
    exact ⟨hothers t' th' ht h' hb, hburied (h.burying h' hb).2⟩
  · exact h.unique (hthreads h₁ hb₁).2 (hthreads h₂ hb₂).2 hb₁ hb₂

/-- **The step that counts a tombstone** adds or takes off one. -/
theorem count (h : MarksOk s g) (hinv : s.Inv) (hth : s.threads t = some th)
    (hpc : th.pc = .countTombstone) (hcov : g.covers s.mem th = true)
    (hstep : th.step s.config s.mem = some (m', next)) :
    MarksOk (s.proceed t th.call m' next) (g.note th) := by
  simp only [Thread.step, hpc, stepCountTombstone] at hstep
  simp only [Counted.covers, hpc] at hcov
  simp only [Counted.note, hpc]
  have hle := h.le_capacity th.cur
  cases hw : th.write with
  | bury =>
    rw [hw] at hstep hcov
    cases hstep
    have hcap : (s.mem.cells th.cur).head.capacity < 2 ^ 64 := of_decide_eq_true hcov
    obtain ⟨hnew, hb⟩ := h.burying hth ⟨hpc, hw⟩
    have hnodup : ((th.cur, th.idx) :: g.slots).Nodup := List.nodup_cons.2 ⟨hnew, h.nodup⟩
    have hcount : (((th.cur, th.idx) :: g.slots).map Prod.fst).count th.cur =
        (s.mem.cells th.cur).numTombstones + 1 := by
      rw [List.map_cons, List.count_cons_self, ← h.nodes]
    have hbound : (((th.cur, th.idx) :: g.slots).map Prod.fst).count th.cur ≤
        (s.mem.cells th.cur).head.capacity := by
      refine count_fst_le hnodup fun p hp he => ?_
      rcases List.mem_cons.1 hp with rfl | hp
      · exact (cur_alloc hinv hth hpc).2
      · exact he ▸ (h.buried p hp).2.1
    refine h.recount hinv hth hpc (fun n => ?_) hnodup (fun a ha => ?_) fun t' th' ht h' hb' => ?_
    · split_ifs with hn
      · rw [hn, hcount]
        exact wrapUsize_of_lt (by push_cast; rfl) (by omega)
      · rw [List.map_cons, List.count_cons_of_ne (Ne.symm hn), h.nodes]
    · rcases List.mem_cons.1 ha with rfl | ha
      · exact Or.inr ⟨rfl, hpc, hw⟩
      · exact Or.inl ha
    · refine fun hmem => ?_
      rcases List.mem_cons.1 hmem with he | hmem
      · obtain ⟨hc, hi⟩ := Prod.mk.inj he
        exact ht (h.unique h' hth hb' ⟨hpc, hw⟩ hc hi)
      · exact (h.burying h' hb').1 hmem
  | inline k v | attach prev c isNew =>
    rw [hw] at hstep hcov
    cases hstep
    have hin : (th.cur, th.idx) ∈ g.slots := of_decide_eq_true hcov
    have hperm := List.perm_cons_erase hin
    have hcount : ∀ n, (g.slots.map Prod.fst).count n =
        (th.cur :: (g.slots.erase (th.cur, th.idx)).map Prod.fst).count n := fun n =>
      (hperm.map Prod.fst).count_eq n
    have hself := hcount th.cur
    rw [List.count_cons_self, ← h.nodes] at hself
    have hfits := h.fits th.cur
    refine h.recount (d := -1) hinv hth hpc (fun n => ?_) (h.nodup.erase _)
      (fun a ha => Or.inl (List.mem_of_mem_erase ha))
      fun t' th' _ h' hb' hmem => (h.burying h' hb').1 (List.mem_of_mem_erase hmem)
    split_ifs with hn
    · rw [hn]
      exact wrapUsize_of_lt (by omega) (by omega)
    · rw [h.nodes, hcount, List.count_cons_of_ne (Ne.symm hn)]

/-- **The counters stay exact** in the steps that count no tombstone. -/
theorem step [LawfulKey K] (h : MarksOk s g) (hinv : s.Inv) (hth : s.threads t = some th)
    (hr : th.Regular) (hpc : th.pc ≠ .countTombstone)
    (hstep : th.step s.config s.mem = some (m', next)) :
    MarksOk (s.proceed t th.call m' next) (g.note th) := by
  have hok := hinv.ok hth
  have hl := hinv.locks hth
  have he := step_effect hinv.headroom hok hl hstep
  have hev := (he.content hok hl).evolves
  have hsame := step_sameTombstones hinv.headroom hok hl hr.attaches hpc hstep
  have hzero : ∀ n : NodeId, s.mem.next ≤ n.alloc → (g.slots.map Prod.fst).count n = 0 := by
    intro n hn
    refine List.count_eq_zero.2 fun hm => ?_
    obtain ⟨a, ha, rfl⟩ := List.mem_map.1 hm
    exact absurd (h.buried a ha).1 (not_lt.2 hn)
  have hnum : ∀ n, (m'.cells n).numTombstones = (g.slots.map Prod.fst).count n := by
    intro n
    rcases hsame n with ⟨hn, -⟩ | ⟨hn, h0⟩
    · rw [hn, h.nodes]
    · rw [h0.num, hzero n hn]
  -- an operation that has just buried its slot
  have hself : ∀ {th' : Thread K V}, (s.proceed t th.call m' next).threads t = some th' →
      th'.Burying → Buries s.mem m' th th' := by
    intro th' h' hb
    have hn := proceed_threads_self h'
    rw [hn] at hstep
    have hcall : th'.call = th.call := by
      have hgo := step_next hinv.headroom hinv.root hok hl hstep
      exact Goes.call hgo
    exact (hr.step hok hcall hstep).2 hb
  have hother : ∀ {t' : ℕ} {th' : Thread K V}, t' ≠ t →
      (s.proceed t th.call m' next).threads t' = some th' → s.threads t' = some th' :=
    fun ht h' => by rwa [proceed_threads_of_ne ht] at h'
  have hne : ∀ {t₁ t₂ : ℕ} {th₁ th₂ : Thread K V}, t₂ ≠ t → s.threads t₂ = some th₂ →
      Buries s.mem m' th th₁ → th₂.Burying → th₁.cur = th₂.cur → th₁.idx = th₂.idx → t₁ = t₂ := by
    intro t₁ t₂ th₁ th₂ _ h₂ hb₁ hb₂ hc hi
    have hbur := (h.burying h₂ hb₂).2
    rw [← hc, ← hi, hb₁.goes] at hbur
    exact absurd hbur (Cell.not_buried hb₁.state)
  refine ⟨fun n => ?_, fun n => ?_, ?_, fun a ha => ?_, fun {t' th'} h' hb => ?_,
    fun {t₁ t₂ th₁ th₂} h₁ h₂ hb₁ hb₂ hc hi => ?_⟩
  · rw [proceed_mem, Counted.note_slots hpc]
    exact hnum n
  · rw [proceed_mem, hnum, ← h.nodes]
    exact h.fits n
  · rw [Counted.note_slots hpc]
    exact h.nodup
  · rw [Counted.note_slots hpc] at ha
    rw [proceed_mem]
    obtain ⟨ha₁, ha₂, ha₃⟩ := h.buried a ha
    exact ⟨ha₁.trans_le hev.next, by rw [hev.head _ ha₁]; exact ha₂, he.buried hok hl ha₁ ha₃⟩
  · rw [proceed_mem, Counted.note_slots hpc]
    by_cases ht : t' = t
    · subst ht
      have hbs := hself h' hb
      rw [hbs.goes]
      refine ⟨fun hm => absurd (h.buried _ hm).2.2 (Cell.not_buried hbs.state), Or.inl ?_⟩
      rw [hbs.mem, Mem.modify_cells_self]
      exact Function.update_self _ _ _
    · have hth' := hother ht h'
      obtain ⟨hn, hbur⟩ := h.burying hth' hb
      exact ⟨hn, he.buried hok hl (cur_alloc hinv hth' hb.1).1 hbur⟩
  · by_cases ht₁ : t₁ = t
    · by_cases ht₂ : t₂ = t
      · rw [ht₁, ht₂]
      · subst ht₁
        exact hne ht₂ (hother ht₂ h₂) (hself h₁ hb₁) hb₂ hc hi
    · by_cases ht₂ : t₂ = t
      · subst ht₂
        exact (hne ht₁ (hother ht₁ h₁) (hself h₂ hb₂) hb₁ hc.symm hi.symm).symm
      · exact h.unique (hother ht₁ h₁) (hother ht₂ h₂) hb₁ hb₂ hc hi

end MarksOk

/-! ## Runs -/

/-- The counters agree with the record. -/
structure Tallied (start : ℕ) (p : Sys K V × Counted K) : Prop where
  inv : p.1.Inv
  regular : p.1.Regular
  calls {t : ℕ} {th : Thread K V} : p.1.threads t = some th →
    th.call ≠ .drain ∧ th.call ≠ .clear
  len : LenOk start p.1 p.2
  marks : MarksOk p.1 p.2

theorem Tallied.init [LawfulKey K] {config : Config} (hc : config.Valid) {map : LearnedMap K V}
    {pairs : List (K × V)} (hs : Starts config map pairs) (hfit : pairs.length < 2 ^ 64) :
    Tallied pairs.length (Sys.init map, ⟨pairs.map Prod.fst, []⟩) where
  inv := .init hc hs
  regular _ _ hth := by cases hth
  calls hth := by cases hth
  len := by
    refine ⟨?_, ?_, ∅, fun t th hth => (by cases hth), ?_⟩
    · rw [List.length_map]
      exact (Node.Pristine.ofStarts hs).2
    · rwa [List.length_map]
    · rw [List.length_map, Finset.card_empty]
      exact Nat.le_add_right _ _
  marks := by
    have hzero : ∀ n, ((Sys.init map).mem.cells n).numTombstones = 0 := by
      intro n
      rcases Mem.SameTombstones.place (m := ⟨fun _ => .blank, 0, ⟨⟨true, 0, []⟩, false⟩, map.len,
        map.nextRootRebuild⟩) (Node.Pristine.ofStarts hs).1 n with ⟨h, -⟩ | ⟨-, h⟩
      · exact h
      · exact h.num
    refine ⟨hzero, fun n => ?_, List.nodup_nil, fun a ha => (by cases ha), fun hth => (by cases hth),
      fun hth => (by cases hth)⟩
    rw [hzero]
    exact Nat.two_pow_pos 64

/-- **Step lemma**: the counters stay exact. -/
theorem Tallied.act [LawfulKey K] {start : ℕ} {p p' : Sys K V × Counted K} {a : Act K V}
    (h : Tallied start p) (hops : ∀ t c, a = .call t c → c ≠ .drain ∧ c ≠ .clear)
    (hcov : CountedFirst p a) (ha : Run.recording Sys.act noteCounted p a = some p') :
    Tallied start p' := by
  obtain ⟨s, g⟩ := p
  obtain ⟨s', g'⟩ := p'
  obtain ⟨hact, rfl⟩ := Run.recording_eq_some.1 ha
  cases a with
  | call t call =>
    refine ⟨h.inv.invoke hact, h.regular.act h.inv hact, fun {t' th} hth => ?_,
      h.len.invoke hact, h.marks.invoke hact⟩
    rcases threads_of_invoke hact hth with ⟨-, rfl⟩ | hth
    · exact hops t call rfl
    · exact h.calls hth
  | step t =>
    have hinv' := h.inv.step hact
    have hregular' := h.regular.act h.inv hact
    obtain ⟨th, m', next, hth, hstep, rfl⟩ := step_eq_some hact
    have hr := h.regular hth
    have hcov : g.covers s.mem th = true := hcov th hth
    have hnote : noteCounted s g (.step t) = g.note th := by rw [noteCounted, hth]; rfl
    have hgo := step_next h.inv.headroom h.inv.root (h.inv.ok hth) (h.inv.locks hth) hstep
    have hcall : ∀ th', next = .goto th' → th'.call = th.call := by
      rintro th' rfl
      exact Goes.call hgo
    obtain ⟨hd, hcl⟩ := h.calls hth
    refine ⟨hinv', hregular', fun {t' th'} h' => ?_, ?_, ?_⟩
    · by_cases ht : t' = t
      · subst ht
        rw [hcall th' (proceed_threads_self h')]
        exact ⟨hd, hcl⟩
      · exact h.calls (by rwa [proceed_threads_of_ne ht] at h')
    · rw [hnote]
      exact h.len.step hth hr hd hcl hcall hcov hstep
    · rw [hnote]
      by_cases hpc : th.pc = .countTombstone
      · exact h.marks.count h.inv hth hpc hcov hstep
      · exact h.marks.step h.inv hth hr hpc hstep

/-- What was counted can be taken off. -/
theorem Tallied.noUnderflow {start : ℕ} {p : Sys K V × Counted K} {a : Act K V}
    (h : Tallied start p) (hcov : CountedFirst p a) : NoUnderflow p.1 a := by
  cases a with
  | call => trivial
  | step t =>
    intro th hth
    replace hcov : p.2.covers p.1.mem th = true := hcov th hth
    unfold Counted.covers at hcov
    unfold Thread.Underflows
    split
    · rename_i hpc
      rw [hpc] at hcov
      cases hc : th.call with
      | remove key =>
        rw [hc] at hcov
        have hpos := List.length_pos_of_mem (of_decide_eq_true hcov)
        have hlen := h.len.len
        dsimp only
        omega
      | _ => exact not_false
    · rename_i hpc
      rw [hpc] at hcov
      cases hw : th.write with
      | bury => exact not_false
      | inline | attach =>
        rw [hw] at hcov
        dsimp only
        rw [h.marks.nodes]
        have hin : th.cur ∈ p.2.slots.map Prod.fst := List.mem_map_of_mem (of_decide_eq_true hcov)
        exact (List.count_pos_iff.2 hin).ne'
    · rename_i n hpc
      rcases (h.regular hth).subtract n hpc with hc | hc
      · exact absurd hc (h.calls hth).1
      · exact absurd hc (h.calls hth).2
    · exact not_false

/-- **The counters never wrap** when what is taken off was counted. -/
theorem run_counters [LawfulKey K] {config : Config} (hc : config.Valid) {map : LearnedMap K V}
    {pairs : List (K × V)} (hs : Starts config map pairs) (hfit : pairs.length < 2 ^ 64)
    {sched : List (Act K V)} (hops : ∀ t c, .call t c ∈ sched → c ≠ .drain ∧ c ≠ .clear)
    (hm : Run.Meets (Run.recording Sys.act noteCounted) CountedFirst
      (Sys.init map, ⟨pairs.map Prod.fst, []⟩) sched)
    (hrun : (Sys.init map).run sched = some s) :
    Run.Meets Sys.act NoUnderflow (Sys.init map) sched ∧
      s.mem.len ≤ pairs.length + inserts s.history ∧
      ∀ n, tombstoneRatio (s.mem.cells n).head.capacity (s.mem.cells n).numTombstones ≤ 1 := by
  have hinit := Tallied.init hc hs hfit
  have hm' := hm.and (Run.Meets.mem sched)
  have hstep : ∀ {p : Sys K V × Counted K} {a : Act K V} {p' : Sys K V × Counted K},
      Tallied pairs.length p → CountedFirst p a ∧ a ∈ sched →
      Run.recording Sys.act noteCounted p a = some p' → Tallied pairs.length p' :=
    fun h hcov ha => h.act (fun t c he => hops t c (he ▸ hcov.2)) hcov.1 ha
  refine ⟨.of_recording (hm'.of_invariant hstep (fun h hcov => h.noUnderflow hcov.1) hinit), ?_⟩
  obtain ⟨⟨s', g⟩, hrec, hs'⟩ := Option.map_eq_some_iff.1
    ((Run.recording_run Sys.act noteCounted sched (Sys.init map) ⟨pairs.map Prod.fst, []⟩).trans
      hrun)
  obtain rfl : s' = s := hs'
  have hend := Run.run_induct hstep hinit hm' hrec
  obtain ⟨F, -, hle⟩ := hend.len.inserted
  refine ⟨?_, fun n => ?_⟩
  · calc s'.mem.len = g.keys.length := hend.len.len
      _ ≤ g.keys.length + F.card := Nat.le_add_right _ _
      _ ≤ pairs.length + inserts s'.history := hle
  · have hcap := hend.marks.le_capacity n
    unfold tombstoneRatio
    split_ifs with h0
    · exact zero_le_one
    · have hpos : (0 : ℚ) < (s'.mem.cells n).head.capacity := by exact_mod_cast Nat.pos_of_ne_zero h0
      rw [div_le_one hpos]
      exact_mod_cast hcap

/-- A byte is inserted, removed and inserted again. -/
def insertAgain : List (Act (Fin (2 ^ 8)) ℕ) :=
  .call 0 (.insert ⟨9, by decide⟩ 1) :: List.replicate 8 (Act.step 0) ++
    Act.call 0 (.remove ⟨9, by decide⟩) :: List.replicate 8 (Act.step 0) ++
    Act.call 0 (.insert ⟨9, by decide⟩ 2) :: List.replicate 9 (Act.step 0)

theorem run_counters_byte : ∃ s,
    (Sys.init (.withConfig {} : LearnedMap (Fin (2 ^ 8)) ℕ)).run insertAgain = some s ∧
      s.mem.len ≤ 0 + inserts s.history ∧
      ∀ n, tombstoneRatio (s.mem.cells n).head.capacity (s.mem.cells n).numTombstones ≤ 1 := by
  have := lawfulKey_unsigned (show 8 ≤ 64 by decide)
  have he : ((Sys.init (.withConfig {} : LearnedMap (Fin (2 ^ 8)) ℕ)).run insertAgain).isSome ∧
      Run.Meets (Run.recording Sys.act noteCounted) CountedFirst
        (Sys.init (.withConfig {} : LearnedMap (Fin (2 ^ 8)) ℕ), ⟨[], []⟩) insertAgain := by
    decide +kernel
  obtain ⟨s, hs⟩ := Option.isSome_iff_exists.1 he.1
  refine ⟨s, hs, (run_counters (show ({} : Config).Valid from ⟨one_le_two, le_rfl⟩) .withConfig
    (Nat.two_pow_pos 64) (fun t c hm => ?_) he.2 hs).2⟩
  simp [insertAgain] at hm
  rcases hm with ⟨-, rfl⟩ | ⟨-, rfl⟩ | ⟨-, rfl⟩ <;> exact ⟨by decide, by decide⟩

/-- **Counters that wrap**: a remove takes its key off the length before the insert that it
    undoes has counted it, and an insert takes off the tombstone that it replaces before
    the remove that made it has counted it. -/
theorem counters_wrap :
    (∃ s, (Sys.init (.withConfig {} : LearnedMap (Fin (2 ^ 8)) ℕ)).run
      (.call 0 (.insert ⟨5, by decide⟩ 1) :: (List.replicate 6 (.step 0) ++
        .call 1 (.remove ⟨5, by decide⟩) :: List.replicate 8 (.step 1))) = some s ∧
      s.mem.len = 2 ^ 64 - 1 ∧ inserts s.history = 1) ∧
    ∃ s, (Sys.init (.withConfig {} : LearnedMap (Fin (2 ^ 8)) ℕ)).run
      (.call 0 (.insert ⟨5, by decide⟩ 1) :: (List.replicate 8 (.step 0) ++
        .call 1 (.remove ⟨5, by decide⟩) :: (List.replicate 3 (.step 1) ++
          .call 2 (.insert ⟨5, by decide⟩ 2) :: List.replicate 5 (.step 2)))) = some s ∧
      1 < tombstoneRatio (s.mem.cells s.mem.root.node).head.capacity
        (s.mem.cells s.mem.root.node).numTombstones := by
  have h₁ : ((Sys.init (.withConfig {} : LearnedMap (Fin (2 ^ 8)) ℕ)).run
      (.call 0 (.insert ⟨5, by decide⟩ 1) :: (List.replicate 6 (.step 0) ++
        .call 1 (.remove ⟨5, by decide⟩) :: List.replicate 8 (.step 1)))).map
        (fun s => (s.mem.len, inserts s.history)) = some (2 ^ 64 - 1, 1) := by
    decide +kernel
  have h₂ : ((Sys.init (.withConfig {} : LearnedMap (Fin (2 ^ 8)) ℕ)).run
      (.call 0 (.insert ⟨5, by decide⟩ 1) :: (List.replicate 8 (.step 0) ++
        .call 1 (.remove ⟨5, by decide⟩) :: (List.replicate 3 (.step 1) ++
          .call 2 (.insert ⟨5, by decide⟩ 2) :: List.replicate 5 (.step 2))))).map
        (fun s => decide (1 < tombstoneRatio (s.mem.cells s.mem.root.node).head.capacity
          (s.mem.cells s.mem.root.node).numTombstones)) = some true := by
    decide +kernel
  obtain ⟨s₁, hs₁, he₁⟩ := Option.map_eq_some_iff.1 h₁
  obtain ⟨s₂, hs₂, he₂⟩ := Option.map_eq_some_iff.1 h₂
  obtain ⟨hlen, hins⟩ := Prod.mk.inj he₁
  exact ⟨⟨s₁, hs₁, hlen, hins⟩, s₂, hs₂, of_decide_eq_true he₂⟩

end Sys

end Scry.Index
