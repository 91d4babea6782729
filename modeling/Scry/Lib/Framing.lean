/-
  Byte strings on a stream: little-endian numbers, length-prefixed strings, and frames
  one after another.

  A frame format is an encoding that a decoder undoes wherever it stands on a stream
  (`Frame.decode_iff`).  Such an encoding is prefix-free, so what a stream of frames
  holds before a cut is determined by the cut (`Frame.exists_cut`).
-/
import Mathlib.Data.List.TakeDrop
import Mathlib.Tactic

namespace Scry

abbrev Byte := Fin 256

theorem byte_neZero : NeZero 256 := ⟨by decide⟩

attribute [local instance] byte_neZero

/-! ## Little-endian numbers -/

/-- The `w` least significant bytes of a number, lowest first. -/
def leBytes : ℕ → ℕ → List Byte
  | 0, _ => []
  | w + 1, n => Fin.ofNat 256 n :: leBytes w (n / 256)

/-- The number that bytes stand for, lowest first. -/
def ofLeBytes : List Byte → ℕ
  | [] => 0
  | b :: bs => b + 256 * ofLeBytes bs

@[simp] theorem length_leBytes (w n : ℕ) : (leBytes w n).length = w := by
  induction w generalizing n with
  | zero => rfl
  | succ w ih => rw [leBytes, List.length_cons, ih]

/-- A number is cut to its bytes. -/
theorem leBytes_mod (w n : ℕ) : leBytes w (n % 256 ^ w) = leBytes w n := by
  induction w generalizing n with
  | zero => rfl
  | succ w ih =>
    rw [leBytes, leBytes, pow_succ', Nat.mod_mul_right_div_self, ih]
    congr 1
    apply Fin.ext
    rw [Fin.val_ofNat, Fin.val_ofNat, Nat.mod_mul_right_mod]

theorem ofLeBytes_lt (bs : List Byte) : ofLeBytes bs < 256 ^ bs.length := by
  induction bs with
  | nil => exact Nat.one_pos
  | cons b bs ih =>
    have hb : (b : ℕ) < 256 := b.isLt
    rw [ofLeBytes, List.length_cons, pow_succ]
    omega

theorem ofLeBytes_leBytes {w n : ℕ} (h : n < 256 ^ w) : ofLeBytes (leBytes w n) = n := by
  induction w generalizing n with
  | zero => rw [pow_zero, Nat.lt_one_iff] at h; rw [h]; rfl
  | succ w ih =>
    have hw : n / 256 < 256 ^ w := by rw [pow_succ] at h; omega
    rw [leBytes, ofLeBytes, ih hw, Fin.val_ofNat]
    exact Nat.mod_add_div n 256

theorem leBytes_ofLeBytes (bs : List Byte) : leBytes bs.length (ofLeBytes bs) = bs := by
  induction bs with
  | nil => rfl
  | cons b bs ih =>
    have hb : (b : ℕ) < 256 := b.isLt
    have hdiv : (b + 256 * ofLeBytes bs) / 256 = ofLeBytes bs := by omega
    rw [List.length_cons, leBytes, ofLeBytes, hdiv, ih]
    congr 1
    apply Fin.ext
    rw [Fin.val_ofNat]
    omega

/-! ## Reading from a stream -/

/-- Read `n` bytes, or fail. -/
def readExact (n : ℕ) (bs : List Byte) : Option (List Byte × List Byte) :=
  if n ≤ bs.length then some (bs.take n, bs.drop n) else none

theorem readExact_eq_some {n : ℕ} {bs xs rest : List Byte} :
    readExact n bs = some (xs, rest) ↔ xs.length = n ∧ bs = xs ++ rest := by
  unfold readExact
  constructor
  · intro h
    split_ifs at h with hn
    cases h
    exact ⟨List.length_take_of_le hn, (List.take_append_drop n bs).symm⟩
  · rintro ⟨rfl, rfl⟩
    rw [if_pos (by simp), List.take_left, List.drop_left]

/-- A byte string after its length in four bytes. -/
def prefixed (xs : List Byte) : List Byte := leBytes 4 xs.length ++ xs

/-- Read a length-prefixed byte string. -/
def readPrefixed (bs : List Byte) : Option (List Byte × List Byte) := do
  let (len, bs) ← readExact 4 bs
  readExact (ofLeBytes len) bs

@[simp] theorem length_prefixed (xs : List Byte) : (prefixed xs).length = 4 + xs.length := by
  rw [prefixed, List.length_append, length_leBytes]

/-- **Reading undoes the length prefix.** -/
theorem readPrefixed_eq_some {bs xs rest : List Byte} :
    readPrefixed bs = some (xs, rest) ↔ xs.length < 2 ^ 32 ∧ bs = prefixed xs ++ rest := by
  constructor
  · intro h
    obtain ⟨⟨len, bs'⟩, h₁, h₂⟩ := Option.bind_eq_some_iff.1 h
    obtain ⟨hlen, rfl⟩ := readExact_eq_some.1 h₁
    obtain ⟨hxs, rfl⟩ := readExact_eq_some.1 h₂
    have hle : leBytes 4 xs.length = len := by
      rw [hxs, ← hlen]
      exact leBytes_ofLeBytes len
    refine ⟨?_, by rw [prefixed, hle, List.append_assoc]⟩
    have hlt := ofLeBytes_lt len
    rw [hlen] at hlt
    omega
  · rintro ⟨hlt, rfl⟩
    have hlen : readExact 4 (prefixed xs ++ rest) = some (leBytes 4 xs.length, xs ++ rest) :=
      readExact_eq_some.2 ⟨length_leBytes _ _, by rw [prefixed, List.append_assoc]⟩
    rw [readPrefixed, hlen]
    exact readExact_eq_some.2 ⟨(ofLeBytes_leBytes (by norm_num at hlt ⊢; exact hlt)).symm, rfl⟩

/-! ## Frames -/

/-- A frame format: the decoder takes exactly an encoded value off the stream. -/
structure Frame (α : Type) where
  valid : α → Prop
  encode : α → List Byte
  decode : List Byte → Option (α × List Byte)
  decode_iff (bs : List Byte) (a : α) (rest : List Byte) :
    decode bs = some (a, rest) ↔ valid a ∧ bs = encode a ++ rest
  encode_ne_nil (a : α) : encode a ≠ []

namespace Frame
variable {α : Type} (c : Frame α)

/-- The frames of a list one after another. -/
def encodeAll (l : List α) : List Byte := l.flatMap c.encode

variable {c}

@[simp] theorem encodeAll_nil : c.encodeAll [] = [] := rfl

@[simp] theorem encodeAll_cons (a : α) (l : List α) :
    c.encodeAll (a :: l) = c.encode a ++ c.encodeAll l := rfl

theorem encodeAll_append (l l' : List α) :
    c.encodeAll (l ++ l') = c.encodeAll l ++ c.encodeAll l' := List.flatMap_append

theorem decode_encode {a : α} (h : c.valid a) (rest : List Byte) :
    c.decode (c.encode a ++ rest) = some (a, rest) := (c.decode_iff _ _ _).2 ⟨h, rfl⟩

theorem decode_nil : c.decode [] = none := by
  by_contra h
  obtain ⟨⟨a, rest⟩, h⟩ := Option.ne_none_iff_exists'.1 h
  have := ((c.decode_iff _ _ _).1 h).2
  exact c.encode_ne_nil a (List.append_eq_nil_iff.1 this.symm).1

/-- **Frames are prefix-free.** -/
theorem encode_inj {a b : α} {rest rest' : List Byte} (ha : c.valid a) (hb : c.valid b)
    (h : c.encode a ++ rest = c.encode b ++ rest') : a = b ∧ rest = rest' := by
  have := (decode_encode ha rest).symm.trans (h ▸ decode_encode hb rest')
  simpa using this

/-- A part of a frame is not decoded. -/
theorem decode_part {a : α} (ha : c.valid a) {p rest : List Byte} (hp : p ++ rest = c.encode a)
    (hr : rest ≠ []) : c.decode p = none := by
  by_contra h
  obtain ⟨⟨b, r⟩, h⟩ := Option.ne_none_iff_exists'.1 h
  obtain ⟨hb, rfl⟩ := (c.decode_iff _ _ _).1 h
  have he : c.encode b ++ (r ++ rest) = c.encode a ++ [] := by
    rw [List.append_nil, ← hp, List.append_assoc]
  exact hr (List.append_eq_nil_iff.1 (encode_inj hb ha he).2).2

theorem length_encodeAll_lt {l : List α} {i j : ℕ} (hij : i < j) (hj : j ≤ l.length) :
    (c.encodeAll (l.take i)).length < (c.encodeAll (l.take j)).length := by
  have hsplit : l.take j = l.take i ++ (l.take j).drop i := by
    conv_lhs => rw [← List.take_append_drop i (l.take j), List.take_take, min_eq_left hij.le]
  have hne : (l.take j).drop i ≠ [] := by
    rw [Ne, List.drop_eq_nil_iff, List.length_take, min_eq_left hj]
    omega
  obtain ⟨a, l', he⟩ := List.exists_cons_of_ne_nil hne
  have hpos := List.length_pos_iff.2 (c.encode_ne_nil a)
  rw [hsplit, he, encodeAll_append, encodeAll_cons]
  simp only [List.length_append]
  omega

/-- **A cut through a stream of frames** leaves the frames that lie wholly before it and
    a part that does not decode. -/
theorem exists_cut {l : List α} (hl : ∀ a ∈ l, c.valid a) {p : List Byte}
    (hp : p <+: c.encodeAll l) : ∃ j ≤ l.length, ∃ t, p = c.encodeAll (l.take j) ++ t ∧
      c.decode t = none ∧ (t = [] ∨ ∃ a ∈ l, ∃ rest, rest ≠ [] ∧ t ++ rest = c.encode a) ∧
      ∀ i ≤ l.length, (c.encodeAll (l.take i)).length ≤ p.length → i ≤ j := by
  induction l generalizing p with
  | nil =>
    obtain rfl := List.prefix_nil.1 hp
    exact ⟨0, le_rfl, [], rfl, decode_nil, Or.inl rfl, fun i hi _ => hi⟩
  | cons a l ih =>
    rw [encodeAll_cons] at hp
    by_cases hlen : (c.encode a).length ≤ p.length
    · -- the first frame lies before the cut
      obtain ⟨p, rfl⟩ := List.prefix_of_prefix_length_le (List.prefix_append _ _) hp hlen
      obtain ⟨j, hj, t, rfl, ht, hpart, hmax⟩ := ih (fun b hb => hl b (List.mem_cons_of_mem a hb))
        ((List.prefix_append_right_inj _).1 hp)
      refine ⟨j + 1, Nat.succ_le_succ hj, t, by simp, ht, ?_, ?_⟩
      · exact hpart.imp_right fun ⟨b, hb, h⟩ => ⟨b, List.mem_cons_of_mem a hb, h⟩
      · intro i hi hile
        cases i with
        | zero => exact Nat.zero_le _
        | succ i =>
          refine Nat.succ_le_succ (hmax i (Nat.le_of_succ_le_succ hi) ?_)
          simpa using hile
    · -- the cut is in the first frame
      obtain ⟨rest, hrest⟩ := List.prefix_of_prefix_length_le hp (List.prefix_append _ _)
        (not_le.1 hlen).le
      have hne : rest ≠ [] := by
        rintro rfl
        rw [List.append_nil] at hrest
        exact hlen (hrest ▸ le_rfl)
      refine ⟨0, Nat.zero_le _, p, rfl, decode_part (hl a List.mem_cons_self) hrest hne,
        Or.inr ⟨a, List.mem_cons_self, rest, hne, hrest⟩, ?_⟩
      intro i hi hile
      by_contra h
      have hle := length_encodeAll_lt (c := c) (l := a :: l) (i := 0) (j := i) (by omega) hi
      cases i with
      | zero => omega
      | succ i =>
        rw [List.take_succ_cons, encodeAll_cons, List.length_append] at hile
        omega

/-! ### The frames at the front of a stream -/

/-- The stream holds these frames, and no frame follows them. -/
structure Splits (c : Frame α) (bs : List Byte) (l : List α) (rest : List Byte) : Prop where
  valid : ∀ a ∈ l, c.valid a
  eq : bs = c.encodeAll l ++ rest
  stop : c.decode rest = none

theorem Splits.nil {bs : List Byte} (h : c.decode bs = none) : c.Splits bs [] bs :=
  ⟨fun _ ha => (List.not_mem_nil ha).elim, rfl, h⟩

theorem Splits.cons {bs rest t : List Byte} {a : α} {l : List α}
    (h : c.decode bs = some (a, rest)) (hs : c.Splits rest l t) : c.Splits bs (a :: l) t := by
  obtain ⟨ha, rfl⟩ := (c.decode_iff _ _ _).1 h
  refine ⟨List.forall_mem_cons.2 ⟨ha, hs.valid⟩, ?_, hs.stop⟩
  rw [encodeAll_cons, List.append_assoc, ← hs.eq]

/-- **A stream splits in one way.** -/
theorem Splits.unique {bs rest rest' : List Byte} {l l' : List α} (h : c.Splits bs l rest)
    (h' : c.Splits bs l' rest') : l = l' ∧ rest = rest' := by
  induction l generalizing bs l' with
  | nil =>
    have hbs : bs = rest := h.eq
    cases l' with
    | nil => exact ⟨rfl, hbs.symm.trans h'.eq⟩
    | cons a l' =>
      have hdec := decode_encode (h'.valid a List.mem_cons_self) (c.encodeAll l' ++ rest')
      rw [← List.append_assoc, ← encodeAll_cons, ← h'.eq, hbs, h.stop] at hdec
      cases hdec
  | cons a l ih =>
    have ha := h.valid a List.mem_cons_self
    have hdec := decode_encode ha (c.encodeAll l ++ rest)
    rw [← List.append_assoc, ← encodeAll_cons, ← h.eq] at hdec
    cases l' with
    | nil =>
      have hbs : bs = rest' := h'.eq
      rw [hbs, h'.stop] at hdec
      cases hdec
    | cons b l' =>
      have heq := h.eq.symm.trans h'.eq
      rw [encodeAll_cons, encodeAll_cons, List.append_assoc, List.append_assoc] at heq
      obtain ⟨rfl, hrest⟩ := encode_inj ha (h'.valid b List.mem_cons_self) heq
      have hs : c.Splits (c.encodeAll l ++ rest) l rest :=
        ⟨fun x hx => h.valid x (List.mem_cons_of_mem a hx), rfl, h.stop⟩
      obtain ⟨rfl, rfl⟩ := ih hs
        ⟨fun x hx => h'.valid x (List.mem_cons_of_mem a hx), hrest, h'.stop⟩
      exact ⟨rfl, rfl⟩

variable (c)

/-- Take frames off the stream, at most `n` of them: the frames and what follows. -/
def decodeFrom : ℕ → List Byte → List α × List Byte
  | 0, bs => ([], bs)
  | n + 1, bs =>
    match c.decode bs with
    | none => ([], bs)
    | some (a, rest) => (a :: (decodeFrom n rest).1, (decodeFrom n rest).2)

/-- The frames at the front of a stream, and what follows them. -/
def decodeAll (bs : List Byte) : List α × List Byte := c.decodeFrom bs.length bs

variable {c}

theorem decodeFrom_splits {n : ℕ} {bs : List Byte} (h : bs.length ≤ n) :
    c.Splits bs (c.decodeFrom n bs).1 (c.decodeFrom n bs).2 := by
  induction n generalizing bs with
  | zero =>
    rw [List.length_eq_zero_iff.1 (Nat.le_zero.1 h)]
    exact Splits.nil decode_nil
  | succ n ih =>
    rw [decodeFrom]
    cases hdec : c.decode bs with
    | none => exact Splits.nil hdec
    | some p =>
      obtain ⟨a, rest⟩ := p
      obtain ⟨-, rfl⟩ := (c.decode_iff _ _ _).1 hdec
      have hpos := List.length_pos_iff.2 (c.encode_ne_nil a)
      rw [List.length_append] at h
      exact Splits.cons hdec (ih (by omega))

theorem decodeAll_splits (bs : List Byte) :
    c.Splits bs (c.decodeAll bs).1 (c.decodeAll bs).2 := decodeFrom_splits le_rfl

theorem Splits.decodeAll_eq {bs rest : List Byte} {l : List α} (h : c.Splits bs l rest) :
    c.decodeAll bs = (l, rest) := by
  obtain ⟨h₁, h₂⟩ := (decodeAll_splits bs).unique h
  exact Prod.ext h₁ h₂

theorem decodeAll_none {bs : List Byte} (h : c.decode bs = none) : c.decodeAll bs = ([], bs) :=
  (Splits.nil h).decodeAll_eq

theorem decodeAll_some {bs rest : List Byte} {a : α} (h : c.decode bs = some (a, rest)) :
    c.decodeAll bs = (a :: (c.decodeAll rest).1, (c.decodeAll rest).2) :=
  (Splits.cons h (decodeAll_splits rest)).decodeAll_eq

end Frame

end Scry
