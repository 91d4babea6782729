/-
  When an overwrite is visible as absence.

  An overwriter removes the key between its two inserts.  The key is then missing until
  the next insert of it, by whichever thread; a record of the run keeps whether it is
  (`noteGap`), and `Present` ties the record to the map.  A lookup in such a gap finds
  nothing, and every other lookup finds the old value or one that is being written.
-/
import Scry.Lsm.Overwrite

namespace Scry.Lsm.Overwrite

variable {k v₀ : Bytes} {s s' : Sys} {t : ℕ} {a : Action}

/-- The old value, or one that a call of the history writes. -/
def Written (k v₀ v : Bytes) (h : List Event) : Prop := v = v₀ ∨ .invoked (.insert k v) ∈ h

/-- Each lookup of the key found the old value or one that was being written. -/
def Answered (k v₀ : Bytes) : List Event → Prop
  | [] => True
  | .invoked _ :: h => Answered k v₀ h
  | .got key answer :: h =>
    (key = k → ∃ v, answer = some v ∧ Written k v₀ v h) ∧ Answered k v₀ h

/-- What a step does to the record: a remove of the key opens a gap, an insert of it closes
    the gap. -/
def noteGap (k : Bytes) (s : Sys) (gap : Bool) : Action → Bool
  | .call _ _ => gap
  | .step t =>
    match s.threads t with
    | some (.insert key _) => if key = k then false else gap
    | some (.reinsert key _) => if key = k then false else gap
    | some (.remove key _) => if key = k then true else gap
    | _ => gap

/-- No lookup of the key is taken in a gap. -/
def OutsideGap (k : Bytes) (p : Sys × Bool) : Action → Prop
  | .call _ _ => True
  | .step t => p.1.threads t = some (.get k) → p.2 = false

instance (p : Sys × Bool) (a : Action) : Decidable (OutsideGap k p a) :=
  match a with
  | .call _ _ => .isTrue trivial
  | .step t => inferInstanceAs (Decidable (p.1.threads t = some (.get k) → p.2 = false))

/-- The value that a running call writes to the key was announced. -/
def Announced (k v₀ : Bytes) (h : List Event) : Pc → Prop
  | .insert key value | .count key value | .remove key value | .reinsert key value =>
    key = k → Written k v₀ value h
  | .get _ => True

/-- **The record is right**: in a gap the key is absent, outside it has the old value or
    one being written. -/
structure Present (k v₀ : Bytes) (s : Sys) (gap : Bool) : Prop where
  absent : gap = true → s.map.get k = none
  present : gap = false → ∃ v, s.map.get k = some v ∧ Written k v₀ v s.history
  threads : ∀ t pc, s.threads t = some pc → Announced k v₀ s.history pc

theorem Written.mono {v : Bytes} {h : List Event} (hw : Written k v₀ v h) (e : Event) :
    Written k v₀ v (e :: h) := hw.imp_right (List.mem_cons_of_mem e)

theorem Announced.mono {pc : Pc} {h : List Event} (ha : Announced k v₀ h pc) (e : Event) :
    Announced k v₀ (e :: h) pc := by
  cases pc with
  | get key => trivial
  | insert key value => exact fun hk => (ha hk).mono e
  | count key value => exact fun hk => (ha hk).mono e
  | remove key value => exact fun hk => (ha hk).mono e
  | reinsert key value => exact fun hk => (ha hk).mono e

/-- A thread moves on to a step whose value was announced. -/
theorem Present.set {gap : Bool} (h : Present k v₀ s gap) {pc : Option Pc}
    (hpc : ∀ p, pc = some p → Announced k v₀ s.history p) (t' : ℕ) (p : Pc)
    (hp : (s.set t pc).threads t' = some p) : Announced k v₀ s.history p := by
  rw [Sys.set] at hp
  dsimp only at hp
  rw [Function.update_apply] at hp
  split_ifs at hp with ht
  · exact hpc p hp
  · exact h.threads t' p hp

theorem get_insert (m : SoundMap) (key value k : Bytes) :
    (m.insert key value).1.get k = if k = key then some value else m.get k := by
  rw [SoundMap.get_eq, SoundMap.insert_fst, SortedMap.get_insert, SoundMap.get_eq]

theorem get_remove (m : SoundMap) (key k : Bytes) :
    (m.remove key).1.get k = if k = key then none else m.get k := by
  rw [SoundMap.get_eq, SoundMap.remove_fst, SortedMap.get_erase, SoundMap.get_eq]

namespace Present
variable {gap : Bool}

theorem invoke {c : Call} (h : Present k v₀ s gap) (hact : s.invoke t c = some s') :
    Present k v₀ s' gap ∧ (Answered k v₀ s'.history ↔ Answered k v₀ s.history) := by
  unfold Sys.invoke at hact
  cases ht : s.threads t with
  | some pc =>
    rw [ht] at hact
    cases hact
  | none =>
    rw [ht] at hact
    cases hact
    refine ⟨⟨h.absent, fun hg => ?_, fun t' p hp => ?_⟩, Iff.rfl⟩
    · obtain ⟨v, hv, hw⟩ := h.present hg
      exact ⟨v, hv, hw.mono _⟩
    · replace hp : Function.update s.threads t (some c.start) t' = some p := hp
      rw [Function.update_apply] at hp
      split_ifs at hp
      · cases hp
        cases c with
        | get key => trivial
        | insert key value =>
          rintro rfl
          exact Or.inr List.mem_cons_self
      · exact (h.threads t' p hp).mono _

/-- An insert of the key closes the gap. -/
theorem insert (h : Present k v₀ s gap) {key value : Bytes}
    (hw : key = k → Written k v₀ value s.history) {pc : Option Pc}
    (hpc : ∀ p, pc = some p → Announced k v₀ s.history p) :
    Present k v₀ { s.set t pc with map := (s.map.insert key value).1 }
      (if key = k then false else gap) := by
  by_cases hk : key = k
  · subst hk
    rw [if_pos rfl]
    refine ⟨fun hg => (by cases hg), fun _ => ⟨value, ?_, hw rfl⟩, h.set hpc⟩
    exact (get_insert s.map key value key).trans (if_pos rfl)
  · rw [if_neg hk]
    have hget : (s.map.insert key value).1.get k = s.map.get k :=
      (get_insert s.map key value k).trans (if_neg fun he => hk he.symm)
    exact ⟨fun hg => hget.trans (h.absent hg), fun hg => by
      obtain ⟨v, hv, hw⟩ := h.present hg
      exact ⟨v, hget.trans hv, hw⟩, h.set hpc⟩

/-- A remove of the key opens a gap. -/
theorem remove (h : Present k v₀ s gap) {key : Bytes} {pc : Option Pc}
    (hpc : ∀ p, pc = some p → Announced k v₀ s.history p) :
    Present k v₀ { s.set t pc with map := (s.map.remove key).1 }
      (if key = k then true else gap) := by
  by_cases hk : key = k
  · subst hk
    rw [if_pos rfl]
    refine ⟨fun _ => ?_, fun hg => (by cases hg), h.set hpc⟩
    exact (get_remove s.map key key).trans (if_pos rfl)
  · rw [if_neg hk]
    have hget : (s.map.remove key).1.get k = s.map.get k :=
      (get_remove s.map key k).trans (if_neg fun he => hk he.symm)
    exact ⟨fun hg => hget.trans (h.absent hg), fun hg => by
      obtain ⟨v, hv, hw⟩ := h.present hg
      exact ⟨v, hget.trans hv, hw⟩, h.set hpc⟩

/-- A lookup of the key is answered exactly outside a gap. -/
theorem answered_got (h : Present k v₀ s gap) (key : Bytes) :
    Answered k v₀ (.got key (s.map.get key) :: s.history) ↔
      Answered k v₀ s.history ∧ (key = k → gap = false) := by
  rw [Answered, and_comm]
  refine and_congr_right fun _ => forall_congr' fun hk => ?_
  subst hk
  cases gap with
  | false => exact iff_of_true (h.present rfl) rfl
  | true =>
    refine iff_of_false ?_ (by decide)
    rw [h.absent rfl]
    rintro ⟨v, hv, -⟩
    cases hv

/-- **Step lemma**: an action keeps the record right, and the lookups stay answered exactly
    if none is taken in a gap. -/
theorem act (h : Present k v₀ s gap) (hact : act s a = some s') :
    Present k v₀ s' (noteGap k s gap a) ∧
      (Answered k v₀ s'.history ↔ Answered k v₀ s.history ∧ OutsideGap k (s, gap) a) := by
  cases a with
  | call t c =>
    obtain ⟨hp, ha⟩ := h.invoke hact
    exact ⟨hp, ha.trans (and_iff_left trivial).symm⟩
  | step t =>
    replace hact : s.step t = some s' := hact
    unfold Sys.step at hact
    simp only [noteGap, OutsideGap]
    cases ht : s.threads t with
    | none =>
      rw [ht] at hact
      cases hact
    | some pc =>
      rw [ht] at hact
      have hpc := h.threads t pc ht
      cases pc with
      | insert key value =>
        cases hact
        refine ⟨h.insert hpc fun p hp => ?_, (and_iff_left fun he => by cases he).symm⟩
        cases hp
        split_ifs
        · exact hpc
        · exact hpc
      | count key value =>
        cases hact
        exact ⟨⟨h.absent, h.present, h.set fun p hp => by cases hp⟩,
          (and_iff_left fun he => by cases he).symm⟩
      | remove key value =>
        cases hact
        refine ⟨h.remove fun p hp => ?_, (and_iff_left fun he => by cases he).symm⟩
        cases hp
        exact hpc
      | reinsert key value =>
        cases hact
        exact ⟨h.insert hpc fun p hp => (by cases hp), (and_iff_left fun he => by cases he).symm⟩
      | get key =>
        cases hact
        refine ⟨⟨h.absent, fun hg => ?_, fun t' p hp => ?_⟩, ?_⟩
        · obtain ⟨v, hv, hw⟩ := h.present hg
          exact ⟨v, hv, hw.mono _⟩
        · exact (h.set (fun p hp => by cases hp) t' p hp).mono _
        · refine (h.answered_got key).trans (and_congr_right fun _ => ?_)
          simp only [Option.some.injEq, Pc.get.injEq]

end Present

theorem run_answered_iff {gap : Bool} {sched : List Action} (h : Present k v₀ s gap)
    (hrun : s.run sched = some s') :
    Answered k v₀ s'.history ↔ Answered k v₀ s.history ∧
      Run.Meets (Run.recording act (noteGap k)) (OutsideGap k) (s, gap) sched := by
  induction sched generalizing s gap with
  | nil =>
    cases hrun
    exact (and_iff_left trivial).symm
  | cons a as ih =>
    rw [Sys.run, List.foldlM_cons, Option.bind_eq_bind, Option.bind_eq_some_iff] at hrun
    obtain ⟨s₁, hact, hrun⟩ := hrun
    obtain ⟨h₁, ha⟩ := h.act hact
    have hrec : Run.recording act (noteGap k) (s, gap) a = some (s₁, noteGap k s gap a) :=
      Run.recording_eq_some.2 ⟨hact, rfl⟩
    rw [ih h₁ hrun, ha, and_assoc]
    refine and_congr_right fun _ => ⟨fun h => Run.Meets.cons hrec h.1 h.2, fun h => ⟨h.1, ?_⟩⟩
    exact h.2 _ hrec

/-- **An overwrite is invisible to lookups of a key that is present**, which find its old
    value or one being written, exactly if none is taken after a remove of the key and
    before the next insert of it. -/
theorem run_overwrite_iff {m : LearnedMemtable} (hk : m.map.get k = some v₀)
    {sched : List Action} (hrun : (Sys.init m).run sched = some s') :
    Answered k v₀ s'.history ↔
      Run.Meets (Run.recording act (noteGap k)) (OutsideGap k) (Sys.init m, false) sched := by
  have h : Present k v₀ (Sys.init m) false :=
    ⟨fun hg => (by cases hg), fun _ => ⟨v₀, hk, Or.inl rfl⟩, fun t pc ht => by cases ht⟩
  rw [run_answered_iff h hrun]
  exact and_iff_right trivial

/-- A memtable with one key. -/
def oneKey : LearnedMemtable := LearnedMemtable.new.insert (.singleton 1) (.singleton 5)

/-- An overwrite, looked at before it begins and after it ends. -/
def lookAround : List Action :=
  [.call 1 (.get (.singleton 1)), .step 1, .call 0 (.insert (.singleton 1) (.singleton 6)),
    .step 0, .step 0, .step 0, .call 1 (.get (.singleton 1)), .step 1]

theorem run_overwrite_iff_around : ∃ s', (Sys.init oneKey).run lookAround = some s' ∧
    (Answered (.singleton 1) (.singleton 5) s'.history ↔
      Run.Meets (Run.recording act (noteGap (.singleton 1))) (OutsideGap (.singleton 1))
        (Sys.init oneKey, false) lookAround) := by
  have hrun : ((Sys.init oneKey).run lookAround).isSome := by decide +kernel
  obtain ⟨s', hrun⟩ := Option.isSome_iff_exists.1 hrun
  exact ⟨s', hrun, run_overwrite_iff (by decide +kernel) hrun⟩

/-- An overwrite, looked at between its remove and its second insert. -/
def lookBetween : List Action :=
  [.call 0 (.insert (.singleton 1) (.singleton 6)), .step 0, .step 0,
    .call 1 (.get (.singleton 1)), .step 1]

/-- **A lookup finds nothing** while the only key is being overwritten. -/
theorem lookBetween_absent : oneKey.map.get (.singleton 1) = some (.singleton 5) ∧
    ∃ s', (Sys.init oneKey).run lookBetween = some s' ∧
      .got (.singleton 1) none ∈ s'.history ∧
      ¬ Answered (.singleton 1) (.singleton 5) s'.history := by
  have hrun : ((Sys.init oneKey).run lookBetween).map Sys.history = some
      [.got (.singleton 1) none, .invoked (.get (.singleton 1)),
        .invoked (.insert (.singleton 1) (.singleton 6))] := by decide +kernel
  obtain ⟨s', hrun, hh⟩ := Option.map_eq_some_iff.1 hrun
  refine ⟨by decide +kernel, s', hrun, ?_, ?_⟩
  · rw [hh]
    exact List.mem_cons_self
  · rw [hh]
    intro h
    obtain ⟨v, hv, -⟩ := h.1 rfl
    cases hv

end Scry.Lsm.Overwrite
