/-
  Reading arbitrary bytes.

  Cursors into a buffer and streams of frames are two ways to say the same
  (`indexEntryAt_eq`, `decodeEntry_some`): at a cursor the reader finds what the format
  decodes there.  So the index parser returns the index entries at the front of its buffer
  (`parseIndex_eq`), whatever follows them, and a scan reads the entries at the front of
  each block.
-/
import Scry.Lsm.Reader
import Scry.Lsm.Proof.Layout

namespace Scry.Lsm.Machine

open Layout (IndexEntry magic footerSize slice hex entryFrame length_indexEntry)

/-! ## Machine operations -/

theorem add_eq {a b : ℕ} (h : a + b < 2 ^ 64) : add a b = .ok (a + b) := if_pos h

theorem sliceOf_eq {buf : List Byte} {a b : ℕ} (hab : a ≤ b) (hb : b ≤ buf.length) :
    sliceOf buf a b = .ok (slice buf a b) := if_pos ⟨hab, hb⟩

theorem length_slice {buf : List Byte} {a b : ℕ} (hb : b ≤ buf.length) :
    (slice buf a b).length = b - a := by
  rw [slice, List.length_take, List.length_drop]
  omega

theorem fromLeBytes_eq {buf : List Byte} {a w : ℕ} (hbuf : buf.length ≤ isizeMax)
    (h : a + w ≤ buf.length) : fromLeBytes buf a w = .ok (ofLeBytes (slice buf a (a + w))) := by
  have hadd : add a w = .ok (a + w) := add_eq (by rw [isizeMax] at hbuf; omega)
  have hlen : (slice buf a (a + w)).length = w := by rw [length_slice h]; omega
  simp only [fromLeBytes, hadd, sliceOf_eq (Nat.le_add_right a w) h, bind, Except.bind]
  rw [toArray, if_pos hlen]
  rfl

theorem ofLeBytes_slice_lt {buf : List Byte} {a w : ℕ} (h : a + w ≤ buf.length) :
    ofLeBytes (slice buf a (a + w)) < 256 ^ w := by
  have hlt := ofLeBytes_lt (slice buf a (a + w))
  rwa [length_slice h, Nat.add_sub_cancel_left] at hlt

section
variable {α β : Type} {x : Checked α} {f : α → Checked β}

@[simp] theorem returns_ok (a : α) : Returns (.ok a : Checked α) := trivial

@[simp] theorem returns_err (e : IoError) : Returns (.error (.err e) : Checked α) := trivial

@[simp] theorem not_returns_panicked : ¬ Returns (.error .panicked : Checked α) := id

theorem returns_bind : Returns (x >>= f) ↔ Returns x ∧ ∀ a, x = .ok a → Returns (f a) := by
  cases x with
  | ok a =>
    refine ⟨fun h => ⟨trivial, fun b hb => ?_⟩, fun h => h.2 a rfl⟩
    cases hb
    exact h
  | error stop =>
    refine ⟨fun h => ⟨?_, fun a ha => by cases ha⟩, fun h => ?_⟩
    · cases stop <;> exact h
    · cases stop <;> exact h.1

end

/-! ## Cursors and streams -/

theorem readExact_drop {buf : List Byte} {c : ℕ} (hc : c ≤ buf.length) (n : ℕ) :
    Scry.readExact n (buf.drop c) =
      if c + n ≤ buf.length then some (slice buf c (c + n), buf.drop (c + n)) else none := by
  rw [Scry.readExact, List.length_drop, slice, Nat.add_sub_cancel_left, List.drop_drop]
  split_ifs
  · rfl
  · omega
  · omega
  · rfl

theorem readPrefixed_drop {buf : List Byte} {c : ℕ} (hc : c ≤ buf.length) :
    readPrefixed (buf.drop c) =
      if c + 4 + ofLeBytes (slice buf c (c + 4)) ≤ buf.length ∧ c + 4 ≤ buf.length then
        some (slice buf (c + 4) (c + 4 + ofLeBytes (slice buf c (c + 4))),
          buf.drop (c + 4 + ofLeBytes (slice buf c (c + 4))))
      else none := by
  rw [readPrefixed, readExact_drop hc]
  by_cases h : c + 4 ≤ buf.length
  · rw [if_pos h]
    simp only [Option.bind_eq_bind, Option.bind_some, readExact_drop h, h, and_true]
  · rw [if_neg h, if_neg fun hc => h hc.2]
    rfl

/-- The format of an entry of the index. -/
def indexFrame : Frame IndexEntry where
  valid e := e.Fits
  encode := Layout.SsTableWriter.indexEntry
  decode bs := do
    let (key, bs) ← readPrefixed bs
    let (offset, bs) ← Scry.readExact 8 bs
    let (blockLen, bs) ← Scry.readExact 8 bs
    return (⟨.ofList key, ofLeBytes offset, ofLeBytes blockLen⟩, bs)
  decode_iff := by
    rintro bs ⟨key, offset, blockLen⟩ rest
    have hpow : (256 : ℕ) ^ 8 = 2 ^ 64 := by norm_num
    constructor
    · intro h
      obtain ⟨⟨k, bs₁⟩, h₁, h⟩ := Option.bind_eq_some_iff.1 h
      obtain ⟨⟨o, bs₂⟩, h₂, h⟩ := Option.bind_eq_some_iff.1 h
      obtain ⟨⟨b, bs₃⟩, h₃, h⟩ := Option.bind_eq_some_iff.1 h
      cases h
      obtain ⟨hk, rfl⟩ := readPrefixed_eq_some.1 h₁
      obtain ⟨ho, rfl⟩ := readExact_eq_some.1 h₂
      obtain ⟨hb, rfl⟩ := readExact_eq_some.1 h₃
      have hlo := ofLeBytes_lt o
      have hlb := ofLeBytes_lt b
      rw [ho, hpow] at hlo
      rw [hb, hpow] at hlb
      have ho' : leBytes 8 (ofLeBytes o) = o := ho ▸ leBytes_ofLeBytes o
      have hb' : leBytes 8 (ofLeBytes b) = b := hb ▸ leBytes_ofLeBytes b
      refine ⟨⟨hk, hlo, hlb⟩, ?_⟩
      rw [Layout.SsTableWriter.indexEntry, ho', hb']
      simp only [List.append_assoc, prefixed]
      rfl
    · rintro ⟨⟨hk, ho, hb⟩, rfl⟩
      have h₁ : readPrefixed (Layout.SsTableWriter.indexEntry ⟨key, offset, blockLen⟩ ++ rest) =
          some (key.toList, leBytes 8 offset ++ (leBytes 8 blockLen ++ rest)) := by
        refine readPrefixed_eq_some.2 ⟨hk, ?_⟩
        simp only [Layout.SsTableWriter.indexEntry, List.append_assoc, prefixed]
        rfl
      have h₂ (n : ℕ) (rest : List Byte) :
          Scry.readExact 8 (leBytes 8 n ++ rest) = some (leBytes 8 n, rest) :=
        readExact_eq_some.2 ⟨length_leBytes _ _, rfl⟩
      simp only [h₁, h₂, Option.bind_eq_bind, Option.bind_some]
      rw [ofLeBytes_leBytes (hpow ▸ ho), ofLeBytes_leBytes (hpow ▸ hb)]
      rfl
  encode_ne_nil e := by
    intro h
    have := congrArg List.length h
    rw [length_indexEntry] at this
    simp at this

section
variable {buf : List Byte} {c : ℕ}

/-- **A turn of the index parser** takes the entry that the format decodes at the cursor,
    and leaves the loop if there is none. -/
theorem indexEntryAt_eq (hbuf : buf.length ≤ isizeMax) (hc : c ≤ buf.length) :
    (indexFrame.decode (buf.drop c) = none ∧ indexEntryAt buf c = .ok none) ∨
      ∃ e next, indexFrame.decode (buf.drop c) = some (e, buf.drop next) ∧ c < next ∧
        next ≤ buf.length ∧ indexEntryAt buf c = .ok (some (e, next)) := by
  rw [isizeMax] at hbuf
  have hdec : indexFrame.decode (buf.drop c) = (readPrefixed (buf.drop c)).bind fun p =>
      (Scry.readExact 8 p.2).bind fun q => (Scry.readExact 8 q.2).bind fun r =>
        some (⟨.ofList p.1, ofLeBytes q.1, ofLeBytes r.1⟩, r.2) := rfl
  rw [hdec, readPrefixed_drop hc]
  have hadd : add c 4 = .ok (c + 4) := add_eq (by omega)
  by_cases h₁ : c + 4 ≤ buf.length
  · have hkey := ofLeBytes_slice_lt h₁
    rw [show 256 ^ 4 = 2 ^ 32 from rfl] at hkey
    have hle := fromLeBytes_eq (w := 4) (by rw [isizeMax]; omega) h₁
    generalize ofLeBytes (slice buf c (c + 4)) = keyLen at hkey hle
    have hadd₂ : add (c + 4) keyLen = .ok (c + 4 + keyLen) := add_eq (by omega)
    have hadd₃ : add (c + 4 + keyLen) 16 = .ok (c + 4 + keyLen + 16) := add_eq (by omega)
    by_cases h₂ : c + 4 + keyLen + 16 ≤ buf.length
    · right
      have hle₂ := fromLeBytes_eq (a := c + 4 + keyLen) (w := 8) (by rw [isizeMax]; omega)
        (by omega : _ ≤ buf.length)
      have hle₃ := fromLeBytes_eq (a := c + 4 + keyLen + 8) (w := 8) (by rw [isizeMax]; omega)
        (by omega : _ ≤ buf.length)
      have hadd₄ : add (c + 4 + keyLen) 8 = .ok (c + 4 + keyLen + 8) := add_eq (by omega)
      have hadd₅ : add (c + 4 + keyLen + 8) 8 = .ok (c + 4 + keyLen + 8 + 8) := add_eq (by omega)
      have hslice : sliceOf buf (c + 4) (c + 4 + keyLen) = .ok (slice buf (c + 4) (c + 4 + keyLen)) :=
        sliceOf_eq (by omega) (by omega)
      generalize ho : ofLeBytes (slice buf (c + 4 + keyLen) _) = offset at hle₂
      generalize hb : ofLeBytes (slice buf (c + 4 + keyLen + 8) _) = blockLen at hle₃
      refine ⟨⟨.ofList (slice buf (c + 4) (c + 4 + keyLen)), offset, blockLen⟩,
        c + 4 + keyLen + 8 + 8, ?_, by omega, by omega, ?_⟩
      · rw [if_pos ⟨by omega, h₁⟩]
        simp only [Option.bind_some]
        rw [readExact_drop (by omega), if_pos (by omega)]
        simp only [Option.bind_some]
        rw [readExact_drop (by omega), if_pos (by omega), Option.bind_some, ho, hb]
      · simp only [indexEntryAt, hadd, hadd₂, hadd₃, hadd₄, hadd₅, hle, hle₂, hle₃, hslice, bind,
          Except.bind]
        rw [if_neg (by omega), if_neg (by omega)]
        rfl
    · left
      constructor
      · split_ifs
        · simp only [Option.bind_some]
          rw [readExact_drop (by omega)]
          split_ifs
          · simp only [Option.bind_some]
            rw [readExact_drop (by omega), if_neg (by omega)]
            rfl
          · rfl
        · rfl
      · simp only [indexEntryAt, hadd, hadd₂, hadd₃, hle, bind, Except.bind]
        rw [if_neg (by omega), if_pos (by omega)]
        rfl
  · left
    rw [if_neg fun h => h₁ h.2]
    refine ⟨rfl, ?_⟩
    simp only [indexEntryAt, hadd, bind, Except.bind]
    rw [if_pos (by omega)]
    rfl

/-- The error of a block that ends within an entry. -/
def truncated : Stop := .err (.invalidData "truncated entry in data block")

/-- **Decoding at a cursor** takes the entry that the format decodes there, and fails if
    there is none. -/
theorem decodeEntry_eq (hbuf : buf.length ≤ isizeMax) (hc : c ≤ buf.length) :
    (entryFrame.decode (buf.drop c) = none ∧ decodeEntry buf c = .error truncated) ∨
      ∃ e next, entryFrame.decode (buf.drop c) = some (e, buf.drop next) ∧ c < next ∧
        next ≤ buf.length ∧ decodeEntry buf c = .ok (e.1, e.2, next) := by
  rw [isizeMax] at hbuf
  have hdec : entryFrame.decode (buf.drop c) = (readPrefixed (buf.drop c)).bind fun p =>
      (readPrefixed p.2).bind fun q => some ((.ofList p.1, .ofList q.1), q.2) := rfl
  rw [hdec, readPrefixed_drop hc]
  have hadd : add c 4 = .ok (c + 4) := add_eq (by omega)
  by_cases h₁ : c + 4 ≤ buf.length
  · have hkey := ofLeBytes_slice_lt h₁
    rw [show 256 ^ 4 = 2 ^ 32 from rfl] at hkey
    have hle := fromLeBytes_eq (w := 4) (by rw [isizeMax]; omega) h₁
    generalize ofLeBytes (slice buf c (c + 4)) = keyLen at hkey hle
    have hadd₂ : add (c + 4) keyLen = .ok (c + 4 + keyLen) := add_eq (by omega)
    have hadd₃ : add (c + 4 + keyLen) 4 = .ok (c + 4 + keyLen + 4) := add_eq (by omega)
    by_cases h₂ : c + 4 + keyLen + 4 ≤ buf.length
    · have hval := ofLeBytes_slice_lt h₂
      rw [show 256 ^ 4 = 2 ^ 32 from rfl] at hval
      have hle₂ := fromLeBytes_eq (w := 4) (by rw [isizeMax]; omega) h₂
      generalize hv : ofLeBytes (slice buf (c + 4 + keyLen) _) = valLen at hval hle₂
      have hadd₄ : add (c + 4 + keyLen + 4) valLen = .ok (c + 4 + keyLen + 4 + valLen) :=
        add_eq (by omega)
      have hslice : sliceOf buf (c + 4) (c + 4 + keyLen) = .ok (slice buf (c + 4) (c + 4 + keyLen)) :=
        sliceOf_eq (by omega) (by omega)
      rw [if_pos ⟨by omega, h₁⟩]
      simp only [Option.bind_some]
      rw [readPrefixed_drop (by omega), hv]
      by_cases h₃ : c + 4 + keyLen + 4 + valLen ≤ buf.length
      · right
        have hslice₂ : sliceOf buf (c + 4 + keyLen + 4) (c + 4 + keyLen + 4 + valLen) =
            .ok (slice buf (c + 4 + keyLen + 4) (c + 4 + keyLen + 4 + valLen)) :=
          sliceOf_eq (by omega) h₃
        refine ⟨(.ofList (slice buf (c + 4) (c + 4 + keyLen)),
            .ofList (slice buf (c + 4 + keyLen + 4) (c + 4 + keyLen + 4 + valLen))),
          c + 4 + keyLen + 4 + valLen, ?_, by omega, h₃, ?_⟩
        · rw [if_pos ⟨h₃, h₂⟩, Option.bind_some]
        · simp only [decodeEntry, hadd, hadd₂, hadd₃, hadd₄, hle, hle₂, hslice, hslice₂, bind,
            Except.bind]
          rw [if_neg (by omega), if_neg (by omega), if_neg (by omega)]
          rfl
      · left
        rw [if_neg fun h => h₃ h.1]
        refine ⟨rfl, ?_⟩
        simp only [decodeEntry, hadd, hadd₂, hadd₃, hadd₄, hle, hle₂, hslice, bind, Except.bind]
        rw [if_neg (by omega), if_neg (by omega), if_pos (by omega)]
        rfl
    · left
      constructor
      · split_ifs with h
        · simp only [Option.bind_some]
          rw [readPrefixed_drop (by omega), if_neg fun h => h₂ h.2]
          rfl
        · rfl
      · simp only [decodeEntry, hadd, hadd₂, hadd₃, hle, bind, Except.bind]
        rw [if_neg (by omega), if_pos (by omega)]
        rfl
  · left
    rw [if_neg fun h => h₁ h.2]
    refine ⟨rfl, ?_⟩
    simp only [decodeEntry, hadd, bind, Except.bind]
    rw [if_pos (by omega)]
    rfl

end

/-! ## The index parser -/

theorem parseIndexFrom_eq {buf : List Byte} (hbuf : buf.length ≤ isizeMax) {n c : ℕ}
    (hc : c ≤ buf.length) (hn : buf.length - c < n) (entries : List IndexEntry) :
    parseIndexFrom buf n c entries =
      .ok (entries ++ (indexFrame.decodeAll (buf.drop c)).1) := by
  induction n generalizing c entries with
  | zero => omega
  | succ n ih =>
    rw [parseIndexFrom]
    by_cases hlt : c < buf.length
    · rw [if_pos hlt]
      rcases indexEntryAt_eq hbuf hc with ⟨hdec, hturn⟩ | ⟨e, next, hdec, hcn, hnext, hturn⟩
      · rw [hturn, Frame.decodeAll_none hdec, List.append_nil]
        rfl
      · rw [hturn, Frame.decodeAll_some hdec]
        refine (ih hnext (by omega) _).trans ?_
        rw [List.append_assoc]
        rfl
    · rw [if_neg hlt, List.drop_eq_nil_iff.2 (not_lt.1 hlt),
        Frame.decodeAll_none Frame.decode_nil, List.append_nil]

/-- **The parser returns the entries at the front of its buffer**, whatever follows. -/
theorem parseIndex_eq {buf : List Byte} (hbuf : buf.length ≤ isizeMax) :
    parseIndex buf = .ok (indexFrame.decodeAll buf).1 :=
  parseIndexFrom_eq hbuf (Nat.zero_le _) (by omega) []

/-- The buffer is the concatenation of the encodings of these entries. -/
def Encodes (buf : List Byte) (entries : List IndexEntry) : Prop :=
  (∀ e ∈ entries, e.Fits) ∧ buf = entries.flatMap Layout.SsTableWriter.indexEntry

/-- **The parser accepts exactly its format** on the buffers that are a concatenation of
    index entries, and on no others. -/
theorem parseIndex_exact_iff (buf : List Byte) (hbuf : buf.length ≤ isizeMax) :
    (∀ entries, parseIndex buf = .ok entries ↔ Encodes buf entries) ↔
      ∃ entries, Encodes buf entries := by
  rw [parseIndex_eq hbuf]
  constructor
  · intro h
    exact ⟨_, (h _).1 rfl⟩
  · rintro ⟨es, hes, heq⟩ entries
    have hsplit : indexFrame.Splits buf es [] := ⟨hes, by rw [List.append_nil]; exact heq,
      Frame.decode_nil⟩
    rw [hsplit.decodeAll_eq]
    constructor
    · intro h
      cases h
      exact ⟨hes, heq⟩
    · rintro ⟨hes', heq'⟩
      have hsplit' : indexFrame.Splits buf entries [] :=
        ⟨hes', by rw [List.append_nil]; exact heq', Frame.decode_nil⟩
      rw [(hsplit.unique hsplit').1]

/-- The index of a file with one block. -/
theorem parseIndex_exact_iff_oneBlock :
    (∀ entries, parseIndex (Layout.SsTableWriter.indexEntry ⟨.singleton 1, 0, 9⟩) = .ok entries ↔
      Encodes (Layout.SsTableWriter.indexEntry ⟨.singleton 1, 0, 9⟩) entries) ↔
    ∃ entries, Encodes (Layout.SsTableWriter.indexEntry ⟨.singleton 1, 0, 9⟩) entries :=
  parseIndex_exact_iff _ (by decide)

/-- **One byte is an index without entries.** -/
theorem parseIndex_truncated : parseIndex [0] = .ok [] ∧ ¬ Encodes [0] [] := by
  refine ⟨rfl, fun h => ?_⟩
  have := h.2
  simp at this

end Scry.Lsm.Machine
