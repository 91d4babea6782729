/-
  Versions of a key across a list of tables.

  A store that never updates in place keeps several tables, listed oldest to
  newest, and a key may occur in several of them.  `oldest` is the version of the
  first table that holds the key, `newest` that of the last one.

  Tables are grouped in levels, and a search takes the lowest level first and the
  newest table first inside a level (`visible`).  `pushDown` replaces the tables of
  one level by a single new table of the next.
-/
import Scry.Lib.SortedMap

namespace Scry

variable {K V : Type*} [LinearOrder K]

/-- The version of `k` in the first table that holds it. -/
def oldest (ts : List (List (K × V))) (k : K) : Option V := ts.findSome? fun t => t.lookup k

/-- The version of `k` in the last table that holds it. -/
def newest (ts : List (List (K × V))) (k : K) : Option V := oldest ts.reverse k

@[simp] theorem oldest_nil (k : K) : oldest ([] : List (List (K × V))) k = none := rfl

@[simp] theorem oldest_cons (t : List (K × V)) (ts : List (List (K × V))) (k : K) :
    oldest (t :: ts) k = (t.lookup k).or (oldest ts k) := by
  simp only [oldest, List.findSome?_cons]
  cases t.lookup k <;> rfl

theorem oldest_append (ts ts' : List (List (K × V))) (k : K) :
    oldest (ts ++ ts') k = (oldest ts k).or (oldest ts' k) := by
  simp only [oldest, List.findSome?_append]

@[simp] theorem newest_nil (k : K) : newest ([] : List (List (K × V))) k = none := rfl

@[simp] theorem newest_concat (ts : List (List (K × V))) (t : List (K × V)) (k : K) :
    newest (ts ++ [t]) k = (t.lookup k).or (newest ts k) := by
  simp [newest]

theorem oldest_eq_none {ts : List (List (K × V))} {k : K} :
    oldest ts k = none ↔ ∀ t ∈ ts, t.lookup k = none := by
  simp [oldest]

theorem newest_eq_none {ts : List (List (K × V))} {k : K} :
    newest ts k = none ↔ ∀ t ∈ ts, t.lookup k = none := by
  simp [newest, oldest_eq_none]

theorem oldest_isSome_iff {ts : List (List (K × V))} {k : K} :
    (oldest ts k).isSome ↔ ∃ t ∈ ts, k ∈ t.map Prod.fst := by
  rw [← Option.ne_none_iff_isSome, Ne, oldest_eq_none]
  push Not
  simp only [← Option.isSome_iff_ne_none, lookup_isSome_iff]

/-- Changing a table changes the oldest version of a key only if it changes the
    table's lookup of that key. -/
theorem oldest_set {ts : List (List (K × V))} {i : ℕ} {t t' : List (K × V)} {k : K}
    (hi : ts[i]? = some t) (h : t'.lookup k = t.lookup k) :
    oldest (ts.set i t') k = oldest ts k := by
  induction ts generalizing i with
  | nil => simp
  | cons s ts ih =>
    cases i with
    | zero => simp at hi; subst hi; simp [h]
    | succ i => simp at hi; simp [ih hi]

/-- The oldest version is that of table `i` if no table before `i` holds the key. -/
theorem oldest_of_first {ts : List (List (K × V))} {i : ℕ} {t : List (K × V)} {k : K} {v : V}
    (hi : ts[i]? = some t) (ht : t.lookup k = some v)
    (hlt : ∀ j s, j < i → ts[j]? = some s → s.lookup k = none) : oldest ts k = some v := by
  induction ts generalizing i with
  | nil => simp at hi
  | cons s ts ih =>
    cases i with
    | zero => simp at hi; subst hi; simp [ht]
    | succ i =>
      have hs : s.lookup k = none := hlt 0 s (by omega) rfl
      rw [oldest_cons, hs, Option.none_or]
      exact ih (by simpa using hi) fun j s' hj hs' => hlt (j + 1) s' (by omega) (by simpa using hs')

/-- If no key occurs in two tables, the order of the tables does not matter. -/
theorem oldest_eq_newest_of_disjoint {ts : List (List (K × V))} {k : K}
    (h : ts.Pairwise fun t t' => t.lookup k = none ∨ t'.lookup k = none) :
    oldest ts k = newest ts k := by
  induction ts with
  | nil => rfl
  | cons t ts ih =>
    obtain ⟨ht, hts⟩ := List.pairwise_cons.1 h
    have hn : newest (t :: ts) k = (newest ts k).or (t.lookup k) := by
      simp [newest, oldest_append]
    rw [oldest_cons, hn, ← ih hts]
    rcases hk : t.lookup k with _ | v
    · simp
    · have : oldest ts k = none :=
        oldest_eq_none.2 fun t' ht' => (ht t' ht').resolve_left (by simp [hk])
      simp [this]

/-! ## Levels -/

/-- The version of `k` that a search of the levels `i, …, i + n - 1` finds. -/
def visible (T : ℕ → List (List (K × V))) (i n : ℕ) (k : K) : Option V :=
  (List.range' i n).findSome? fun L => newest (T L) k

@[simp] theorem visible_zero (T : ℕ → List (List (K × V))) (i : ℕ) (k : K) :
    visible T i 0 k = none := rfl

theorem visible_succ (T : ℕ → List (List (K × V))) (i n : ℕ) (k : K) :
    visible T i (n + 1) k = (newest (T i) k).or (visible T (i + 1) n k) := by
  simp only [visible, List.range'_succ, List.findSome?_cons]
  cases newest (T i) k <;> rfl

theorem visible_add (T : ℕ → List (List (K × V))) (i m n : ℕ) (k : K) :
    visible T i (m + n) k = (visible T i m k).or (visible T (i + m) n k) := by
  rw [visible, ← List.range'_append_1, List.findSome?_append]
  rfl

theorem visible_eq_none {T : ℕ → List (List (K × V))} {i n : ℕ} {k : K} :
    visible T i n k = none ↔ ∀ L, i ≤ L → L < i + n → newest (T L) k = none := by
  simp only [visible, List.findSome?_eq_none_iff, List.mem_range'_1, and_imp]

/-- A search passes the levels that do not hold the key. -/
theorem visible_skip {T : ℕ → List (List (K × V))} {b : ℕ} {k : K}
    (h : ∀ j < b, newest (T j) k = none) (n : ℕ) : visible T 0 (b + n) k = visible T b n k := by
  have hlow : visible T 0 b k = none := visible_eq_none.2 fun j _ hj => h j (by omega)
  rw [visible_add, hlow, Option.none_or, Nat.zero_add]

theorem visible_congr {T T' : ℕ → List (List (K × V))} {i n : ℕ} {k : K}
    (h : ∀ L, i ≤ L → L < i + n → newest (T' L) k = newest (T L) k) :
    visible T' i n k = visible T i n k := by
  induction n generalizing i with
  | zero => rfl
  | succ n ih =>
    rw [visible_succ, visible_succ, h i le_rfl (by omega),
      ih fun L h₁ h₂ => h L (by omega) (by omega)]

/-- Searching levels without tables finds nothing more. -/
theorem visible_of_le {T : ℕ → List (List (K × V))} {i n n' : ℕ} {k : K} (hn : n ≤ n')
    (h : ∀ L, i + n ≤ L → T L = []) : visible T i n' k = visible T i n k := by
  obtain ⟨d, rfl⟩ := Nat.exists_eq_add_of_le hn
  have hd : visible T (i + n) d k = none :=
    visible_eq_none.2 fun L h₁ _ => by rw [h L h₁]; rfl
  rw [visible_add, hd, Option.or_none]

/-- The tables of level `L` leave it, `out` becomes the newest table of the next
    level unless it is empty. -/
def pushDown (T : ℕ → List (List (K × V))) (L : ℕ) (out : List (K × V)) :
    ℕ → List (List (K × V)) := fun i =>
  if i = L then [] else if i = L + 1 then T i ++ (if out.isEmpty then [] else [out]) else T i

theorem newest_append_table (ts : List (List (K × V))) (out : List (K × V)) (k : K) :
    newest (ts ++ (if out.isEmpty then [] else [out])) k = (out.lookup k).or (newest ts k) := by
  cases out <;> simp

/-- **A search before a push down** takes the levels below, level `L`, the next level
    and the levels above it, in this order. -/
theorem visible_split (T : ℕ → List (List (K × V))) (L n : ℕ) (k : K) :
    visible T 0 (L + (n + 1 + 1)) k = (visible T 0 L k).or ((newest (T L) k).or
      ((newest (T (L + 1)) k).or (visible T (L + 2) n k))) := by
  rw [visible_add, visible_succ, visible_succ, Nat.zero_add]

/-- **A search after a push down** finds the merged table in the place of level `L`. -/
theorem visible_pushDown (T : ℕ → List (List (K × V))) (L n : ℕ) (out : List (K × V)) (k : K) :
    visible (pushDown T L out) 0 (L + (n + 1 + 1)) k = (visible T 0 L k).or ((out.lookup k).or
      ((newest (T (L + 1)) k).or (visible T (L + 2) n k))) := by
  have hlow : visible (pushDown T L out) 0 L k = visible T 0 L k :=
    visible_congr fun i _ hi => by
      rw [pushDown, if_neg (by omega), if_neg (by omega)]
  have hhigh : visible (pushDown T L out) (L + 2) n k = visible T (L + 2) n k :=
    visible_congr fun i hi _ => by
      rw [pushDown, if_neg (by omega), if_neg (by omega)]
  have hL : newest (pushDown T L out L) k = none := by rw [pushDown, if_pos rfl]; rfl
  have hL' : newest (pushDown T L out (L + 1)) k = (out.lookup k).or (newest (T (L + 1)) k) := by
    rw [pushDown, if_neg (by omega), if_pos rfl, newest_append_table]
  rw [visible_split, hlow, hhigh, hL, hL', Option.none_or, Option.or_assoc]

end Scry
