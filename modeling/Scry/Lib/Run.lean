/-
  Runs of a machine that takes an action in a state or refuses it.

  A run is `List.foldlM` of the actions of a schedule.  What every action keeps under a
  condition on the state before it, every run keeps whose actions all meet the condition
  (`run_induct`).  A machine may also keep a record of what it does, which changes none
  of its runs (`recording_run`).
-/
import Mathlib.Data.List.Basic

namespace Scry.Run

variable {σ α γ : Type*}

/-- Every action of the schedule meets `C` in the state in which it is taken. -/
def Meets (act : σ → α → Option σ) (C : σ → α → Prop) (s : σ) : List α → Prop
  | [] => True
  | a :: as => C s a ∧ ∀ s', act s a = some s' → Meets act C s' as

instance Meets.decidable {act : σ → α → Option σ} {C : σ → α → Prop} [∀ s a, Decidable (C s a)] :
    ∀ (s : σ) (as : List α), Decidable (Meets act C s as)
  | _, [] => .isTrue trivial
  | s, a :: as =>
    have : Decidable (∀ s', act s a = some s' → Meets act C s' as) :=
      match act s a with
      | none => .isTrue nofun
      | some s' =>
        match Meets.decidable s' as with
        | .isTrue h => .isTrue fun _ he => Option.some.inj he ▸ h
        | .isFalse h => .isFalse fun hn => h (hn s' rfl)
    inferInstanceAs (Decidable (_ ∧ _))

theorem Meets.cons {act : σ → α → Option σ} {C : σ → α → Prop} {s s' : σ} {a : α} {as : List α}
    (h : act s a = some s') (hc : C s a) (hr : Meets act C s' as) : Meets act C s (a :: as) :=
  ⟨hc, fun s₁ h₁ => by rw [h] at h₁; cases h₁; exact hr⟩

theorem Meets.of_forall {act : σ → α → Option σ} {C : σ → α → Prop} (h : ∀ s a, C s a) {s : σ}
    {as : List α} : Meets act C s as := by
  induction as generalizing s with
  | nil => trivial
  | cons a as ih => exact ⟨h s a, fun _ _ => ih⟩

theorem Meets.and {act : σ → α → Option σ} {C D : σ → α → Prop} {s : σ} {as : List α}
    (hc : Meets act C s as) (hd : Meets act D s as) : Meets act (fun s a => C s a ∧ D s a) s as := by
  induction as generalizing s with
  | nil => trivial
  | cons a as ih => exact ⟨⟨hc.1, hd.1⟩, fun s₁ h => ih (hc.2 s₁ h) (hd.2 s₁ h)⟩

/-- Conditions for each index, all together. -/
theorem Meets.forall {ι : Type*} {act : σ → α → Option σ} {C : ι → σ → α → Prop} {s : σ}
    {as : List α} (h : ∀ i, Meets act (C i) s as) : Meets act (fun s a => ∀ i, C i s a) s as := by
  induction as generalizing s with
  | nil => trivial
  | cons a as ih => exact ⟨fun i => (h i).1, fun s₁ h₁ => ih fun i => (h i).2 s₁ h₁⟩

/-- The actions of a schedule are those of the schedule. -/
theorem Meets.mem {act : σ → α → Option σ} {s : σ} (as : List α) :
    Meets act (fun _ a => a ∈ as) s as := by
  have mono : ∀ {s : σ} {bs : List α}, (∀ b ∈ bs, b ∈ as) → Meets act (fun _ a => a ∈ as) s bs := by
    intro s bs
    induction bs generalizing s with
    | nil => exact fun _ => trivial
    | cons b bs ih =>
      exact fun h => ⟨h b List.mem_cons_self, fun _ _ => ih fun c hc =>
        h c (List.mem_cons_of_mem _ hc)⟩
  exact mono fun _ h => h

/-- The last action of a kind. -/
theorem exists_last {q : α → Prop} {as : List α} (h : ∃ a ∈ as, q a) :
    ∃ as₁ a as₂, as = as₁ ++ a :: as₂ ∧ q a ∧ ∀ b ∈ as₂, ¬ q b := by
  induction as with
  | nil => obtain ⟨a, ha, -⟩ := h; cases ha
  | cons a as ih =>
    by_cases has : ∃ b ∈ as, q b
    · obtain ⟨as₁, b, as₂, rfl, hb, hlast⟩ := ih has
      exact ⟨a :: as₁, b, as₂, rfl, hb, hlast⟩
    · obtain ⟨b, hb, hq⟩ := h
      rcases List.mem_cons.1 hb with rfl | hb
      · exact ⟨[], b, as, rfl, hq, fun c hc hqc => has ⟨c, hc, hqc⟩⟩
      · exact absurd ⟨b, hb, hq⟩ has

/-- **Run rule**: what each action keeps, a run keeps. -/
theorem run_induct {act : σ → α → Option σ} {C : σ → α → Prop} {I : σ → Prop}
    (hstep : ∀ {s a s'}, I s → C s a → act s a = some s' → I s') {sched : List α} {s s' : σ}
    (h : I s) (hc : Meets act C s sched) (hrun : sched.foldlM act s = some s') : I s' := by
  induction sched generalizing s with
  | nil => cases hrun; exact h
  | cons a as ih =>
    rw [List.foldlM_cons, Option.bind_eq_bind, Option.bind_eq_some_iff] at hrun
    obtain ⟨s₁, hact, hrun⟩ := hrun
    exact ih (hstep h hc.1 hact) (hc.2 s₁ hact) hrun

/-- A run returns if an invariant says so of each of its actions. -/
theorem run_total {act : σ → α → Option σ} {C : α → Prop} {I : σ → Prop}
    (hstep : ∀ {s a}, I s → C a → ∃ s', act s a = some s' ∧ I s') {sched : List α} {s : σ}
    (h : I s) (hc : ∀ a ∈ sched, C a) : ∃ s', sched.foldlM act s = some s' ∧ I s' := by
  induction sched generalizing s with
  | nil => exact ⟨s, rfl, h⟩
  | cons a as ih =>
    obtain ⟨s₁, hact, h₁⟩ := hstep h (hc a List.mem_cons_self)
    obtain ⟨s', hrun, h'⟩ := ih h₁ fun b hb => hc b (List.mem_cons_of_mem _ hb)
    exact ⟨s', by rw [List.foldlM_cons, hact]; exact hrun, h'⟩

/-- A run goes through if and only if all its actions are admitted. -/
theorem foldlM_isSome_iff {act : σ → α → Option σ} {C : σ → α → Prop} {I : σ → Prop}
    (hstep : ∀ {s a s'}, I s → act s a = some s' → I s')
    (hact : ∀ {s a}, I s → ((act s a).isSome ↔ C s a)) {sched : List α} {s : σ} (h : I s) :
    (sched.foldlM act s).isSome ↔ Meets act C s sched := by
  induction sched generalizing s with
  | nil => exact iff_of_true rfl trivial
  | cons a as ih =>
    rw [List.foldlM_cons, Option.bind_eq_bind, Meets, ← hact h]
    cases hs : act s a with
    | none => simp
    | some s₁ =>
      rw [Option.bind_some, ih (hstep h hs)]
      simp

/-- A schedule in two parts. -/
theorem Meets.of_append {act : σ → α → Option σ} {C : σ → α → Prop} {s s' : σ} {as bs : List α}
    (h : Meets act C s (as ++ bs)) (hrun : as.foldlM act s = some s') :
    Meets act C s as ∧ Meets act C s' bs := by
  induction as generalizing s with
  | nil => cases hrun; exact ⟨trivial, h⟩
  | cons a as ih =>
    rw [List.foldlM_cons, Option.bind_eq_bind, Option.bind_eq_some_iff] at hrun
    obtain ⟨s₁, hact, hrun⟩ := hrun
    obtain ⟨h₁, h₂⟩ := ih (h.2 s₁ hact) hrun
    exact ⟨.cons hact h.1 h₁, h₂⟩

/-- What an invariant gives together with the condition, every action of a run meets. -/
theorem Meets.of_invariant {act : σ → α → Option σ} {C D : σ → α → Prop} {I : σ → Prop}
    (hstep : ∀ {s a s'}, I s → C s a → act s a = some s' → I s')
    (hD : ∀ {s a}, I s → C s a → D s a) {s : σ} {as : List α} (h : I s) (hc : Meets act C s as) :
    Meets act D s as := by
  induction as generalizing s with
  | nil => trivial
  | cons a as ih => exact ⟨hD h hc.1, fun s' hs' => ih (hstep h hc.1 hs') (hc.2 s' hs')⟩

/-- The machine that also keeps a record; `note` sees the state before the action. -/
def recording (act : σ → α → Option σ) (note : σ → γ → α → γ) (p : σ × γ) (a : α) :
    Option (σ × γ) :=
  (act p.1 a).map fun s => (s, note p.1 p.2 a)

theorem recording_eq_some {act : σ → α → Option σ} {note : σ → γ → α → γ} {p p' : σ × γ} {a : α} :
    recording act note p a = some p' ↔ act p.1 a = some p'.1 ∧ p'.2 = note p.1 p.2 a := by
  unfold recording
  rw [Option.map_eq_some_iff]
  constructor
  · rintro ⟨s, hs, rfl⟩
    exact ⟨hs, rfl⟩
  · rintro ⟨hs, hg⟩
    exact ⟨p'.1, hs, by rw [← hg]⟩

/-- What the actions meet beside a record they meet without it. -/
theorem Meets.of_recording {act : σ → α → Option σ} {note : σ → γ → α → γ} {C : σ → α → Prop}
    {s : σ} {g : γ} {as : List α}
    (h : Meets (recording act note) (fun p a => C p.1 a) (s, g) as) : Meets act C s as := by
  induction as generalizing s g with
  | nil => trivial
  | cons a as ih =>
    refine ⟨h.1, fun s' hs' => ih (h.2 (s', note s g a) ?_)⟩
    exact recording_eq_some.2 ⟨hs', rfl⟩

/-- **A record changes no run.** -/
theorem recording_run (act : σ → α → Option σ) (note : σ → γ → α → γ) (sched : List α) (s : σ)
    (g : γ) : (sched.foldlM (recording act note) (s, g)).map Prod.fst = sched.foldlM act s := by
  induction sched generalizing s g with
  | nil => rfl
  | cons a as ih =>
    simp only [List.foldlM_cons, Option.bind_eq_bind, recording]
    cases act s a with
    | none => rfl
    | some s' => exact ih s' _

end Scry.Run
