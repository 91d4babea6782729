/-
  Linearizability.

  A history of invocations and replies is linearizable if each call can be given a point
  between the two at which it takes effect, such that the calls reply what they do one
  after the other in the order of their points (`Linearizable`, `Linearizable.order`).
  The point of a call that changes nothing may be set in hindsight, where the state was
  one that the call has met since its invocation (`Replays.hindsight`).
-/
import Mathlib.Data.List.Perm.Basic
import Mathlib.Logic.Function.Basic

namespace Scry.Linear

variable {τ ι ρ σ : Type*}

/-- An invocation or a reply. -/
inductive Event (τ ι ρ : Type*) where
  | inv (t : τ) (op : ι)
  | ret (t : τ) (op : ι) (reply : ρ)

/-- An entry of a history in which the points are set. -/
inductive Mark (τ ι ρ : Type*) where
  | event (e : Event τ ι ρ)
  | point (t : τ) (op : ι) (reply : ρ)

/-- Where the call of a thread is. -/
inductive Status (ι ρ : Type*) where
  | idle
  | called (op : ι)
  | done (op : ι) (reply : ρ)

def Event.thread : Event τ ι ρ → τ
  | .inv t _ => t
  | .ret t _ _ => t

def Event.reply? : Event τ ι ρ → Option (τ × ι × ρ)
  | .inv _ _ => none
  | .ret t op reply => some (t, op, reply)

namespace Mark

def thread : Mark τ ι ρ → τ
  | .event e => e.thread
  | .point t _ _ => t

def event? : Mark τ ι ρ → Option (Event τ ι ρ)
  | .event e => some e
  | .point _ _ _ => none

def point? : Mark τ ι ρ → Option (τ × ι × ρ)
  | .event _ => none
  | .point t op reply => some (t, op, reply)

end Mark

/-- The events of a history without the points. -/
def events (M : List (Mark τ ι ρ)) : List (Event τ ι ρ) := M.filterMap Mark.event?

/-- The calls that have taken effect, newest first. -/
def points (M : List (Mark τ ι ρ)) : List (τ × ι × ρ) := M.filterMap Mark.point?

/-- The calls that have returned, newest first. -/
def replies (h : List (Event τ ι ρ)) : List (τ × ι × ρ) := h.filterMap Event.reply?

@[simp] theorem events_event (e : Event τ ι ρ) (M : List (Mark τ ι ρ)) :
    events (.event e :: M) = e :: events M := rfl

@[simp] theorem events_point (t : τ) (op : ι) (reply : ρ) (M : List (Mark τ ι ρ)) :
    events (.point t op reply :: M) = events M := rfl

@[simp] theorem points_event (e : Event τ ι ρ) (M : List (Mark τ ι ρ)) :
    points (.event e :: M) = points M := rfl

@[simp] theorem points_point (t : τ) (op : ι) (reply : ρ) (M : List (Mark τ ι ρ)) :
    points (.point t op reply :: M) = (t, op, reply) :: points M := rfl

@[simp] theorem replies_inv (t : τ) (op : ι) (h : List (Event τ ι ρ)) :
    replies (.inv t op :: h) = replies h := rfl

@[simp] theorem replies_ret (t : τ) (op : ι) (reply : ρ) (h : List (Event τ ι ρ)) :
    replies (.ret t op reply :: h) = (t, op, reply) :: replies h := rfl

/-- The thread is at a call that has not returned; the newest event comes first. -/
def Running [DecidableEq τ] (t : τ) : List (Event τ ι ρ) → Prop
  | [] => False
  | .inv t' _ :: h => t' = t ∨ Running t h
  | .ret t' _ _ :: h => t' ≠ t ∧ Running t h

/-- The calls return what they do one after the other, from the state `x₀` to `x`. -/
def Sequential (spec : ι → σ → σ × ρ) (x₀ : σ) : List (τ × ι × ρ) → σ → Prop
  | [], x => x = x₀
  | (_, op, reply) :: L, x => ∃ y, Sequential spec x₀ L y ∧ spec op y = (x, reply)

section
variable [DecidableEq τ] (spec : ι → σ → σ × ρ)

/-- One entry: a call takes effect between its invocation and its reply. -/
inductive Step : Mark τ ι ρ → σ → (τ → Status ι ρ) → σ → (τ → Status ι ρ) → Prop
  | inv {x : σ} {st : τ → Status ι ρ} {t : τ} {op : ι} (h : st t = .idle) :
      Step (.event (.inv t op)) x st x (Function.update st t (.called op))
  | point {x x' : σ} {st : τ → Status ι ρ} {t : τ} {op : ι} {reply : ρ} (h : st t = .called op)
      (hr : spec op x = (x', reply)) :
      Step (.point t op reply) x st x' (Function.update st t (.done op reply))
  | ret {x : σ} {st : τ → Status ι ρ} {t : τ} {op : ι} {reply : ρ} (h : st t = .done op reply) :
      Step (.event (.ret t op reply)) x st x (Function.update st t .idle)

/-- The history with its points leads from the state `x₀` to `x`; newest entry first. -/
inductive Replays (x₀ : σ) : List (Mark τ ι ρ) → σ → (τ → Status ι ρ) → Prop
  | nil : Replays x₀ [] x₀ fun _ => .idle
  | cons {mk : Mark τ ι ρ} {M : List (Mark τ ι ρ)} {x x' : σ} {st st' : τ → Status ι ρ}
      (h : Replays x₀ M x st) (hs : Step spec mk x st x' st') : Replays x₀ (mk :: M) x' st'

/-- **Linearizability**: points can be set such that the history leads from `x₀` to `x`. -/
def Linearizable (x₀ : σ) (h : List (Event τ ι ρ)) (x : σ) : Prop :=
  ∃ M st, Replays spec x₀ M x st ∧ events M = h

/-- The call of the thread has met the state `y` since it was invoked, and has not taken
    effect before. -/
inductive Met (x₀ : σ) (t : τ) (y : σ) : List (Mark τ ι ρ) → Prop
  | now {M : List (Mark τ ι ρ)} {st : τ → Status ι ρ} {op : ι} (h : Replays spec x₀ M y st)
      (ht : st t = .called op) : Met x₀ t y M
  | later {mk : Mark τ ι ρ} {M : List (Mark τ ι ρ)} (h : Met x₀ t y M) (ht : mk.thread ≠ t) :
      Met x₀ t y (mk :: M)

end

variable [DecidableEq τ] {spec : ι → σ → σ × ρ} {x₀ x x' y : σ} {st st' : τ → Status ι ρ}
  {M : List (Mark τ ι ρ)} {mk : Mark τ ι ρ} {t t' : τ} {op : ι}

/-! ## Points in hindsight -/

theorem Step.unique {x₁ x₂ : σ} {st₁ st₂ : τ → Status ι ρ} (h : Step spec mk x st x₁ st₁)
    (h' : Step spec mk x st x₂ st₂) : x₁ = x₂ ∧ st₁ = st₂ := by
  cases h with
  | inv => cases h'; exact ⟨rfl, rfl⟩
  | point _ hr =>
    cases h' with
    | point _ hr' => exact ⟨(Prod.mk.inj (hr.symm.trans hr')).1, rfl⟩
  | ret => cases h'; exact ⟨rfl, rfl⟩

theorem Replays.unique (h : Replays spec x₀ M x st) (h' : Replays spec x₀ M x' st') :
    x = x' ∧ st = st' := by
  induction h generalizing x' st' with
  | nil => cases h'; exact ⟨rfl, rfl⟩
  | cons _ hs ih =>
    cases h' with
    | cons h' hs' =>
      obtain ⟨rfl, rfl⟩ := ih h'
      exact hs.unique hs'

/-- An entry is about one thread. -/
theorem Step.other (h : Step spec mk x st x' st') (ht : mk.thread ≠ t) : st' t = st t := by
  cases h <;> exact Function.update_of_ne (Ne.symm ht) _ _

theorem Step.frame (h : Step spec mk x st x' st') (ht : mk.thread ≠ t) (a : Status ι ρ) :
    Step spec mk x (Function.update st t a) x' (Function.update st' t a) := by
  have hsame : Function.update st t a mk.thread = st mk.thread := Function.update_of_ne ht _ _
  have hcomm : ∀ b, Function.update (Function.update st mk.thread b) t a =
      Function.update (Function.update st t a) mk.thread b := fun b =>
    Function.update_comm ht b a st
  cases h with
  | inv h => exact hcomm _ ▸ .inv (hsame.trans h)
  | point h hr => exact hcomm _ ▸ .point (hsame.trans h) hr
  | ret h => exact hcomm _ ▸ .ret (hsame.trans h)

/-- **A call that changes nothing takes effect in hindsight**, in a state that it has met;
    the states that other calls have met stay the same. -/
theorem Replays.hindsight (h : Replays spec x₀ M x st) (ht : st t = .called op)
    (hm : Met spec x₀ t y M) (hy : (spec op y).1 = y) :
    ∃ M', events M' = events M ∧
      Replays spec x₀ M' x (Function.update st t (.done op (spec op y).2)) ∧
      ∀ t' z, t' ≠ t → Met spec x₀ t' z M → Met spec x₀ t' z M' := by
  induction hm generalizing x st with
  | @now M st₁ op₁ h₁ ht₁ =>
    obtain ⟨rfl, rfl⟩ := h.unique h₁
    refine ⟨.point t op (spec op x).2 :: M, rfl, ?_, fun t' z hne hz => hz.later (Ne.symm hne)⟩
    exact h.cons (.point ht (Prod.ext hy rfl))
  | @later mk M hm hne ih =>
    cases h with
    | @cons _ _ x₁ _ st₁ _ h₁ hs =>
      obtain ⟨M', he, hr, hmet⟩ := ih h₁ (hs.other hne ▸ ht)
      have hr' := hr.cons (hs.frame hne (.done op (spec op y).2))
      refine ⟨mk :: M', ?_, hr', fun t' z ht' hz => ?_⟩
      · cases mk <;> simp [events, Mark.event?] at he ⊢ <;> exact he
      · cases hz with
        | now hz hc =>
          obtain ⟨rfl, rfl⟩ := hz.unique (h₁.cons hs)
          exact .now hr' ((Function.update_of_ne ht' _ _).trans hc)
        | later hz hmk => exact (hmet t' z ht' hz).later hmk

/-! ## The order of the points -/

theorem Replays.sequential (h : Replays spec x₀ M x st) :
    Sequential spec x₀ (points M) x := by
  induction h with
  | nil => rfl
  | cons _ hs ih =>
    cases hs with
    | inv => exact ih
    | point _ hr => exact ⟨_, ih, hr⟩
    | ret => exact ih

theorem Replays.running (h : Replays spec x₀ M x st) :
    Running t (events M) ↔ st t ≠ .idle := by
  induction h with
  | nil => simp [events, Running]
  | @cons mk M x x' st st' h hs ih =>
    cases hs with
    | @inv _ _ t₁ op₁ hi =>
      show (t₁ = t ∨ Running t (events M)) ↔ _
      by_cases ht : t₁ = t
      · subst ht
        simp
      · simp [ht, ih, Function.update_of_ne (Ne.symm ht)]
    | @point _ _ _ t₁ op₁ reply hc hr =>
      refine ih.trans ?_
      by_cases ht : t₁ = t
      · subst ht
        simp [hc]
      · rw [Function.update_of_ne (Ne.symm ht)]
    | @ret _ _ t₁ op₁ reply hd =>
      show (t₁ ≠ t ∧ Running t (events M)) ↔ _
      by_cases ht : t₁ = t
      · subst ht
        simp
      · simp [ht, ih, Function.update_of_ne (Ne.symm ht)]

open Classical in
/-- Each call that has taken effect has returned, or is about to. -/
theorem Replays.count (h : Replays spec x₀ M x st) (t : τ) (op : ι) (reply : ρ) :
    (points M).count (t, op, reply) =
      (replies (events M)).count (t, op, reply) + if st t = .done op reply then 1 else 0 := by
  induction h with
  | nil => simp [points, events, replies]
  | @cons mk M x x' st st' h hs ih =>
    cases hs with
    | @inv _ _ t₁ op₁ hi =>
      refine ih.trans ?_
      by_cases ht : t₁ = t
      · subst ht
        simp [hi]
      · simp [Function.update_of_ne (Ne.symm ht)]
    | @point _ _ _ t₁ op₁ reply₁ hc hr =>
      rw [points_point, List.count_cons, ih, Nat.add_assoc]
      congr 1
      by_cases ht : t₁ = t
      · subst ht
        simp [hc]
      · simp [ht, Function.update_of_ne (Ne.symm ht)]
    | @ret _ _ t₁ op₁ reply₁ hd =>
      rw [events_event, replies_ret, List.count_cons, points_event, ih, Nat.add_assoc]
      congr 1
      by_cases ht : t₁ = t
      · subst ht
        simp [hd]
      · simp [ht, Function.update_of_ne (Ne.symm ht)]

/-- **The calls of a history that all have returned** return what they do one after the
    other in some order. -/
theorem Linearizable.order {h : List (Event τ ι ρ)} (hl : Linearizable spec x₀ h x)
    (hr : ∀ t, ¬ Running t h) :
    ∃ L, L.Perm (replies h) ∧ Sequential spec x₀ L x := by
  classical
  obtain ⟨M, st, hM, rfl⟩ := hl
  refine ⟨points M, List.perm_iff_count.2 fun c => ?_, hM.sequential⟩
  obtain ⟨t, op, reply⟩ := c
  have hidle : st t = .idle := by
    by_contra hne
    exact hr t (hM.running.2 hne)
  rw [hM.count, hidle, if_neg (by rintro ⟨⟩), Nat.add_zero]

end Scry.Linear
