/-
  Which files are read safely.

  Nothing that decodes bytes goes wrong, at any cursor and on any bytes.  What goes wrong
  is arithmetic on what a file says of itself: the offset of its index against its length,
  and the number of entries and the lengths of blocks as sizes of vectors.  A scan comes
  to a block only through whole blocks before it, so that the blocks that matter are
  those of `ScanFits`.
-/
import Scry.Lsm.Proof.Reader

namespace Scry.Lsm.Machine

open Layout (IndexEntry magic footerSize slice hex entryFrame)

/-! ## Blocks -/

/-- A vector can hold the block, if its offset can be sought at all. -/
def Holdable (ie : IndexEntry) : Prop := ie.offset ≤ isizeMax → ie.blockLen ≤ isizeMax

instance (ie : IndexEntry) : Decidable (Holdable ie) := inferInstanceAs (Decidable (_ → _))

/-- The bytes of a block. -/
def blockOf (f : File) (ie : IndexEntry) : List Byte :=
  slice f.bytes ie.offset (ie.offset + ie.blockLen)

/-- The block can be read. -/
structure InFile (f : File) (ie : IndexEntry) : Prop where
  offset : ie.offset ≤ isizeMax
  inFile : ie.blockLen = 0 ∨ ie.offset + ie.blockLen ≤ f.len

/-- The block can be read, and is a sequence of entries and nothing else. -/
structure Whole (f : File) (ie : IndexEntry) : Prop extends InFile f ie where
  entries : (entryFrame.decodeAll (blockOf f ie)).2 = []

theorem InFile.blockLen_le {f : File} {ie : IndexEntry} (h : InFile f ie) :
    ie.blockLen ≤ isizeMax := by
  have hlen := f.length_le
  rcases h.inFile with h | h
  · rw [h]
    exact Nat.zero_le _
  · exact (Nat.le_add_left _ _).trans (h.trans hlen)

theorem length_blockOf_le (f : File) (ie : IndexEntry) : (blockOf f ie).length ≤ isizeMax := by
  have hlen := f.length_le
  rw [blockOf, slice, List.length_take, List.length_drop]
  omega

section
variable (r : SsTableReader) (ie : IndexEntry)

/-- **Reading a block** panics if no vector can hold it, and fails unless it lies in the
    file. -/
theorem readBlock_cases :
    (InFile r.file ie ∧ r.readBlock ie.offset ie.blockLen = .ok (blockOf r.file ie)) ∨
    (¬ InFile r.file ie ∧ Holdable ie ∧ ∃ e, r.readBlock ie.offset ie.blockLen = .error (.err e)) ∨
    (¬ InFile r.file ie ∧ ¬ Holdable ie ∧
      r.readBlock ie.offset ie.blockLen = .error .panicked) := by
  unfold SsTableReader.readBlock File.seek
  by_cases hoff : ie.offset ≤ isizeMax
  · rw [if_pos hoff, withCapacity, mul_one]
    by_cases hlen : ie.blockLen ≤ isizeMax
    · rw [if_pos hlen]
      by_cases hin : ie.blockLen = 0 ∨ ie.offset + ie.blockLen ≤ r.file.len
      · exact Or.inl ⟨⟨hoff, hin⟩, if_pos hin⟩
      · exact Or.inr (Or.inl ⟨fun h => hin h.inFile, fun _ => hlen, _, if_neg hin⟩)
    · rw [if_neg hlen]
      exact Or.inr (Or.inr ⟨fun h => hlen h.blockLen_le, fun h => hlen (h hoff), rfl⟩)
  · rw [if_neg hoff]
    exact Or.inr (Or.inl ⟨fun h => hoff h.offset, fun h => absurd h hoff, _, rfl⟩)

theorem returns_readBlock : Returns (r.readBlock ie.offset ie.blockLen) ↔ Holdable ie := by
  rcases readBlock_cases r ie with ⟨hin, h⟩ | ⟨-, hh, e, h⟩ | ⟨-, hh, h⟩
  · exact iff_of_true (h ▸ trivial) fun _ => hin.blockLen_le
  · exact iff_of_true (h ▸ trivial) hh
  · exact iff_of_false (h ▸ id) hh

end

/-! ## Decoding never goes wrong -/

section
variable {block : List Byte} (hblock : block.length ≤ isizeMax)
include hblock

theorem readEntries_eq {n c : ℕ} (hc : c ≤ block.length) (hn : block.length - c < n)
    (entries : List Entry) :
    SsTableReader.readEntries block n c entries =
      if (entryFrame.decodeAll (block.drop c)).2 = [] then
        .ok (entries ++ (entryFrame.decodeAll (block.drop c)).1)
      else .error truncated := by
  induction n generalizing c entries with
  | zero => omega
  | succ n ih =>
    rw [SsTableReader.readEntries]
    by_cases hlt : c < block.length
    · rw [if_pos hlt]
      rcases decodeEntry_eq hblock hc with ⟨hdec, hturn⟩ | ⟨⟨k, v⟩, next, hdec, hcn, hnext, hturn⟩
      · have hne : block.drop c ≠ [] := fun h => by rw [List.drop_eq_nil_iff] at h; omega
        rw [hturn, Frame.decodeAll_none hdec, if_neg hne]
        rfl
      · rw [hturn, Frame.decodeAll_some hdec]
        refine (ih hnext (by omega) _).trans ?_
        rw [List.append_assoc]
        rfl
    · rw [if_neg hlt, List.drop_eq_nil_iff.2 (not_lt.1 hlt),
        Frame.decodeAll_none Frame.decode_nil, if_pos rfl, List.append_nil]

theorem returns_getFrom (key : Bytes) {n c : ℕ} (hc : c ≤ block.length)
    (hn : block.length - c < n) : Returns (SsTableReader.getFrom block key n c) := by
  induction n generalizing c with
  | zero => omega
  | succ n ih =>
    rw [SsTableReader.getFrom]
    by_cases hlt : c < block.length
    · rw [if_pos hlt]
      rcases decodeEntry_eq hblock hc with ⟨-, hturn⟩ | ⟨⟨k, v⟩, next, -, hcn, hnext, hturn⟩
      · rw [hturn]
        trivial
      · rw [hturn]
        show Returns (Except.bind (.ok (k, v, next)) _)
        simp only [Except.bind]
        cases compare k key with
        | eq => trivial
        | gt => trivial
        | lt => exact ih hnext (by omega)
    · rw [if_neg hlt]
      trivial

end

/-! ## Scans -/

/-- A vector can hold each block that a scan of these comes to. -/
def ScanFits (f : File) : List IndexEntry → Prop
  | [] => True
  | ie :: rest => Holdable ie ∧ (Whole f ie → ScanFits f rest)

section
variable (r : SsTableReader)

theorem readWhole_cases (entries : List Entry) (ie : IndexEntry) :
    (Whole r.file ie ∧ ∃ es, r.readWhole entries ie = .ok es) ∨
    (¬ Whole r.file ie ∧ Holdable ie ∧ ∃ e, r.readWhole entries ie = .error (.err e)) ∨
    (¬ Whole r.file ie ∧ ¬ Holdable ie ∧ r.readWhole entries ie = .error .panicked) := by
  unfold SsTableReader.readWhole
  rcases readBlock_cases r ie with ⟨hin, h⟩ | ⟨hin, hh, e, h⟩ | ⟨hin, hh, h⟩
  · have hread := readEntries_eq (length_blockOf_le r.file ie) (Nat.zero_le _)
      (Nat.lt_succ_self _) entries
    rw [List.drop_zero] at hread
    by_cases hrest : (entryFrame.decodeAll (blockOf r.file ie)).2 = []
    · rw [if_pos hrest] at hread
      exact Or.inl ⟨⟨hin, hrest⟩, _, by rw [h]; exact hread⟩
    · rw [if_neg hrest] at hread
      exact Or.inr (Or.inl ⟨fun hw => hrest hw.entries, fun _ => hin.blockLen_le, _,
        by rw [h]; exact hread⟩)
  · exact Or.inr (Or.inl ⟨fun hw => hin hw.toInFile, hh, e, by rw [h]; rfl⟩)
  · exact Or.inr (Or.inr ⟨fun hw => hin hw.toInFile, hh, by rw [h]; rfl⟩)

theorem returns_readWholes (l : List IndexEntry) (entries : List Entry) :
    Returns (l.foldlM r.readWhole entries) ↔ ScanFits r.file l := by
  induction l generalizing entries with
  | nil => exact iff_of_true trivial trivial
  | cons ie l ih =>
    rw [List.foldlM_cons, ScanFits]
    rcases readWhole_cases r entries ie with ⟨hw, es, h⟩ | ⟨hw, hh, e, h⟩ | ⟨hw, hh, h⟩
    · rw [h]
      refine (ih es).trans ⟨fun hs => ⟨fun _ => hw.blockLen_le, fun _ => hs⟩, fun hs => hs.2 hw⟩
    · rw [h]
      exact iff_of_true trivial ⟨hh, fun hw' => absurd hw' hw⟩
    · rw [h]
      exact iff_of_false id fun hs => hh hs.1

/-- **`read_all` ends** exactly if vectors can hold the announced entries and each block
    that it comes to. -/
theorem returns_readAll : Returns r.readAll ↔
    r.entryCount * pairSize ≤ isizeMax ∧ ScanFits r.file r.index := by
  rw [SsTableReader.readAll, returns_bind, withCapacity]
  by_cases hcap : r.entryCount * pairSize ≤ isizeMax
  · rw [if_pos hcap]
    exact ⟨fun h => ⟨hcap, (returns_readWholes r _ _).1 (h.2 () rfl)⟩,
      fun h => ⟨trivial, fun _ _ => (returns_readWholes r _ _).2 h.2⟩⟩
  · rw [if_neg hcap]
    exact iff_of_false (fun h => h.1) fun h => hcap h.1

end

/-! ### One entry at a time -/

namespace SsTableScan

/-- Each call of `next_entry` ends. -/
def Calls (s : SsTableScan) : Prop := ∀ n, Returns (s.nthEntry n)

theorem calls_step {s : SsTableScan} : s.Calls ↔ Returns s.nextEntry.1 ∧ s.nextEntry.2.Calls := by
  refine ⟨fun h => ⟨h 0, fun n => h (n + 1)⟩, fun h n => ?_⟩
  cases n with
  | zero => exact h.1
  | succ n => exact h.2 n

/-- A call that leaves the iterator as it is can be repeated. -/
theorem calls_fixed {s : SsTableScan} (hs : s.nextEntry.2 = s) :
    s.Calls ↔ Returns s.nextEntry.1 := by
  have hadv (n : ℕ) : s.advance n = s := by
    induction n with
    | zero => rfl
    | succ n ih => rw [advance, hs, ih]
  refine ⟨fun h => h 0, fun h n => ?_⟩
  rw [nthEntry, hadv]
  exact h

/-- A turn for each block that is left, and one more, are enough. -/
theorem nextFrom_succ {n : ℕ} {s : SsTableScan} (hn : s.reader.index.length - s.blockIdx < n) :
    nextFrom (n + 1) s = nextFrom n s := by
  induction n generalizing s with
  | zero => omega
  | succ n ih =>
    rw [nextFrom, nextFrom]
    by_cases hlt : s.cursor < s.blockBuf.length
    · rw [if_pos hlt, if_pos hlt]
    · rw [if_neg hlt, if_neg hlt]
      cases hidx : s.reader.index[s.blockIdx]? with
      | none => rfl
      | some ie =>
        dsimp only
        have hb := (List.getElem?_eq_some_iff.1 hidx).1
        cases s.reader.readBlock ie.offset ie.blockLen with
        | error e => rfl
        | ok block => exact ih (by dsimp only; omega)

section
variable {s : SsTableScan}

theorem nextEntry_decode (hlt : s.cursor < s.blockBuf.length) {k v : Bytes} {next : ℕ}
    (h : decodeEntry s.blockBuf s.cursor = .ok (k, v, next)) :
    s.nextEntry = (.ok (some (k, v)), { s with cursor := next }) := by
  rw [nextEntry, nextFrom, if_pos hlt, h]

theorem nextEntry_truncated (hlt : s.cursor < s.blockBuf.length) {e : Stop}
    (h : decodeEntry s.blockBuf s.cursor = .error e) : s.nextEntry = (.error e, s) := by
  rw [nextEntry, nextFrom, if_pos hlt, h]

theorem nextEntry_end (hlt : ¬ s.cursor < s.blockBuf.length)
    (h : s.reader.index[s.blockIdx]? = none) : s.nextEntry = (.ok none, s) := by
  rw [nextEntry, nextFrom, if_neg hlt, h]

theorem nextEntry_unread (hlt : ¬ s.cursor < s.blockBuf.length) {ie : IndexEntry}
    (h : s.reader.index[s.blockIdx]? = some ie) {e : Stop}
    (hread : s.reader.readBlock ie.offset ie.blockLen = .error e) : s.nextEntry = (.error e, s) := by
  rw [nextEntry, nextFrom, if_neg hlt, h]
  dsimp only
  rw [hread]

/-- Loading a block is no call of its own. -/
theorem nextEntry_load (hlt : ¬ s.cursor < s.blockBuf.length) {ie : IndexEntry}
    (h : s.reader.index[s.blockIdx]? = some ie) {block : List Byte}
    (hread : s.reader.readBlock ie.offset ie.blockLen = .ok block) :
    s.nextEntry =
      { s with blockBuf := block, cursor := 0, blockIdx := s.blockIdx + 1 }.nextEntry := by
  rw [nextEntry, nextFrom, if_neg hlt, h]
  dsimp only
  rw [hread]
  exact (nextFrom_succ (by dsimp only; omega)).symm

end

/-- **All calls of `next_entry` end** exactly if, should what is left of the current block
    be whole, a vector can hold each block that the scan comes to after it. -/
theorem calls_iff {s : SsTableScan} (hcur : s.cursor ≤ s.blockBuf.length)
    (hbuf : s.blockBuf.length ≤ isizeMax) :
    s.Calls ↔ ((entryFrame.decodeAll (s.blockBuf.drop s.cursor)).2 = [] →
      ScanFits s.reader.file (s.reader.index.drop s.blockIdx)) := by
  -- on the blocks that are left, and within a block on its bytes
  generalize hl : s.reader.index.drop s.blockIdx = l
  induction l generalizing s with
  | nil =>
    generalize hm : s.blockBuf.length - s.cursor = m
    induction m using Nat.strong_induction_on generalizing s with
    | _ m ih =>
      refine iff_of_true ?_ fun _ => trivial
      by_cases hlt : s.cursor < s.blockBuf.length
      · rcases decodeEntry_eq hbuf hcur with ⟨-, hturn⟩ | ⟨⟨k, v⟩, next, -, hcn, hnext, hturn⟩
        · have h := nextEntry_truncated hlt hturn
          rw [calls_fixed (by rw [h]), h]
          trivial
        · rw [calls_step, nextEntry_decode hlt hturn]
          exact ⟨trivial, (ih (s.blockBuf.length - next) (by omega) (s := { s with cursor := next })
            hnext hbuf hl rfl).2 fun _ => trivial⟩
      · have hnone : s.reader.index[s.blockIdx]? = none :=
          List.getElem?_eq_none_iff.2 (List.drop_eq_nil_iff.1 hl)
        have h := nextEntry_end hlt hnone
        rw [calls_fixed (by rw [h]), h]
        trivial
  | cons ie l ihl =>
    have hidx : s.reader.index[s.blockIdx]? = some ie := by
      rw [← List.head?_drop, hl]
      rfl
    have hrest : s.reader.index.drop (s.blockIdx + 1) = l := by
      rw [← List.tail_drop, hl]
      rfl
    generalize hm : s.blockBuf.length - s.cursor = m
    induction m using Nat.strong_induction_on generalizing s with
    | _ m ih =>
      by_cases hlt : s.cursor < s.blockBuf.length
      · rcases decodeEntry_eq hbuf hcur with
          ⟨hdec, hturn⟩ | ⟨⟨k, v⟩, next, hdec, hcn, hnext, hturn⟩
        · have h := nextEntry_truncated hlt hturn
          rw [calls_fixed (by rw [h]), h, Frame.decodeAll_none hdec]
          refine iff_of_true trivial fun hnil => ?_
          rw [List.drop_eq_nil_iff] at hnil
          omega
        · rw [calls_step, nextEntry_decode hlt hturn, Frame.decodeAll_some hdec]
          exact (and_iff_right trivial).trans (ih (s.blockBuf.length - next) (by omega)
            (s := { s with cursor := next }) hnext hbuf hl hidx hrest rfl)
      · rw [List.drop_eq_nil_iff.2 (not_lt.1 hlt), Frame.decodeAll_none Frame.decode_nil, ScanFits]
        refine Iff.trans ?_ (forall_prop_of_true rfl).symm
        rcases readBlock_cases s.reader ie with ⟨hin, hread⟩ | ⟨hin, hh, e, hread⟩ | ⟨-, hh, hread⟩
        · rw [calls_step, nextEntry_load hlt hidx hread, ← calls_step,
            ihl (Nat.zero_le _) (length_blockOf_le _ _) hrest]
          dsimp only
          rw [List.drop_zero]
          exact ⟨fun h => ⟨fun _ => hin.blockLen_le, fun hw => h hw.entries⟩,
            fun h he => h.2 ⟨hin, he⟩⟩
        · have h := nextEntry_unread hlt hidx hread
          rw [calls_fixed (by rw [h]), h]
          exact iff_of_true trivial ⟨hh, fun hw => absurd hw.toInFile hin⟩
        · have h := nextEntry_unread hlt hidx hread
          rw [calls_fixed (by rw [h]), h]
          exact iff_of_false id fun hs => hh hs.1

end SsTableScan

theorem calls_scan (r : SsTableReader) : r.scan.Calls ↔ ScanFits r.file r.index := by
  rw [SsTableScan.calls_iff (Nat.zero_le _) (Nat.zero_le _)]
  exact forall_prop_of_true (by rw [show r.scan.blockBuf = [] from rfl, List.drop_nil,
    Frame.decodeAll_none Frame.decode_nil])

/-! ## Lookups -/

section
variable {α : Type} {p : α → Bool} {l : List α}

theorem narrow_lt {n base size : ℕ} (hsize : 0 < size) (hb : base + size ≤ l.length) :
    narrow p l n base size < l.length := by
  induction n generalizing base size with
  | zero => rw [narrow]; omega
  | succ n ih =>
    rw [narrow]
    split_ifs with h
    · dsimp only
      split_ifs
      · exact ih (by omega) (by omega)
      · exact ih (by omega) (by omega)
    · omega

theorem partitionPoint_le : partitionPoint p l ≤ l.length := by
  rw [partitionPoint]
  split_ifs with h
  · exact Nat.zero_le _
  · have hpos : 0 < l.length := List.length_pos_iff.2 (by rwa [List.isEmpty_iff] at h)
    have hlt : narrow p l l.length 0 l.length < l.length := narrow_lt hpos (Nat.zero_add _).le
    dsimp only
    split_ifs <;> omega

end

theorem findBlock_lt {index : List IndexEntry} {key : Bytes} {i : ℕ}
    (h : findBlock index key = some i) : i < index.length := by
  cases index with
  | nil => cases h
  | cons first rest =>
    have hle := partitionPoint_le (p := fun e : IndexEntry => decide (e.firstKey ≤ key))
      (l := first :: rest)
    simp only [findBlock] at h
    rw [List.length_cons] at hle ⊢
    split_ifs at h <;> cases h <;> omega

/-- **A lookup ends** exactly if a vector can hold the block that it finds. -/
theorem returns_get (r : SsTableReader) (key : Bytes) : Returns (r.get key) ↔
    ∀ i ie, findBlock r.index key = some i → r.index[i]? = some ie → Holdable ie := by
  unfold SsTableReader.get
  cases hfind : findBlock r.index key with
  | none => exact iff_of_true trivial fun i ie hi => by cases hi
  | some i =>
    obtain ⟨ie, hidx⟩ : ∃ ie, r.index[i]? = some ie :=
      ⟨_, List.getElem?_eq_getElem (findBlock_lt hfind)⟩
    have hentry : r.entryAt i = .ok ie := by rw [SsTableReader.entryAt, hidx]
    have hcond : (∀ j ie', some i = some j → r.index[j]? = some ie' → Holdable ie') ↔
        Holdable ie := by
      constructor
      · intro h
        exact h i ie rfl hidx
      · rintro h j ie' ⟨⟩ hie
        rw [hidx] at hie
        cases hie
        exact h
    rw [hcond]
    dsimp only
    rw [hentry]
    refine returns_bind.trans ⟨fun h => (returns_readBlock r ie).1 ?_, fun h => ⟨trivial, ?_⟩⟩
    · exact (returns_bind.1 (h.2 ie rfl)).1
    · rintro _ ⟨⟩
      refine returns_bind.2 ⟨(returns_readBlock r ie).2 h, fun block hblock => ?_⟩
      rcases readBlock_cases r ie with ⟨-, hread⟩ | ⟨-, -, e, hread⟩ | ⟨-, -, hread⟩
      · rw [hread] at hblock
        cases hblock
        exact returns_getFrom (length_blockOf_le _ _) key (Nat.zero_le _) (Nat.lt_succ_self _)
      · rw [hread] at hblock
        cases hblock
      · rw [hread] at hblock
        cases hblock

/-! ## Files -/

namespace File
variable (f : File)

def footer : List Byte := slice f.bytes (f.len - footerSize) (f.len - footerSize + footerSize)

/-- The file is long enough and ends in the magic number. -/
def Accepted : Prop := footerSize ≤ f.len ∧ ofLeBytes (slice f.footer 16 20) = magic

/-- What the footer says of the place of the index. -/
def indexOffset : ℕ := ofLeBytes (slice f.footer 0 8)

/-- What the footer says of the number of entries. -/
def entryCount : ℕ := ofLeBytes (slice f.footer 8 16)

/-- The index entries at the front of the index block. -/
def index : List IndexEntry :=
  (indexFrame.decodeAll (slice f.bytes f.indexOffset (f.len - footerSize))).1

end File

/-- **Opening** fails, panics at the offset of the index or reads the index. -/
theorem open_cases (f : File) :
    (¬ f.Accepted ∧ ∃ e, SsTableReader.open_ f = .error (.err e)) ∨
    (f.Accepted ∧ f.len < f.indexOffset + footerSize ∧
      SsTableReader.open_ f = .error .panicked) ∨
    (f.Accepted ∧ f.indexOffset + footerSize ≤ f.len ∧
      SsTableReader.open_ f = .ok ⟨f, f.index, f.entryCount⟩) := by
  have hlen := f.length_le
  rw [SsTableReader.open_]
  by_cases hsmall : f.len < footerSize
  · rw [if_pos hsmall]
    exact Or.inl ⟨fun h => not_lt.2 h.1 hsmall, _, rfl⟩
  · rw [if_neg hsmall]
    have hread : f.readExact (f.len - footerSize) footerSize = .ok f.footer :=
      if_pos (Or.inr (by omega))
    have hfooter : f.footer.length = 20 := by
      rw [File.footer, length_slice (by rw [← File.len]; omega), footerSize]
      omega
    have hle (a w : ℕ) (h : a + w ≤ 20) :
        fromLeBytes f.footer a w = .ok (ofLeBytes (slice f.footer a (a + w))) :=
      fromLeBytes_eq (by rw [hfooter]; decide) (by rw [hfooter]; exact h)
    simp only [hread, hle 0 8 (by decide), hle 8 8 (by decide), hle 16 4 (by decide), bind,
      Except.bind]
    by_cases hmagic : ofLeBytes (slice f.footer 16 20) = magic
    · have hacc : f.Accepted := ⟨not_lt.1 hsmall, hmagic⟩
      rw [if_neg (not_not.2 hmagic), sub, if_pos (not_lt.1 hsmall)]
      dsimp only
      by_cases hoff : f.indexOffset + footerSize ≤ f.len
      · right
        right
        refine ⟨hacc, hoff, ?_⟩
        have hsub : sub (f.len - footerSize) f.indexOffset =
            .ok (f.len - footerSize - f.indexOffset) := if_pos (by omega)
        have hseek : f.seek f.indexOffset = .ok f.indexOffset :=
          if_pos (by rw [← File.len] at hlen; omega)
        have hcap : withCapacity (f.len - footerSize - f.indexOffset) 1 = .ok () :=
          if_pos (by rw [← File.len] at hlen; omega)
        have hbuf : f.readExact f.indexOffset (f.len - footerSize - f.indexOffset) =
            .ok (slice f.bytes f.indexOffset (f.len - footerSize)) := by
          rw [File.readExact, if_pos (Or.inr (by omega)),
            show f.indexOffset + (f.len - footerSize - f.indexOffset) = f.len - footerSize by omega]
        have hindex : (slice f.bytes f.indexOffset (f.len - footerSize)).length ≤ isizeMax := by
          rw [length_slice (by rw [← File.len]; omega)]
          rw [← File.len] at hlen
          omega
        have hparse := parseIndex_eq hindex
        rw [File.indexOffset] at hsub hseek hcap hbuf
        simp only [hsub, hseek, hcap, hbuf]
        rw [File.indexOffset] at hparse
        rw [hparse]
        rfl
      · right
        left
        refine ⟨hacc, not_le.1 hoff, ?_⟩
        have hsub : sub (f.len - footerSize) f.indexOffset = .error .panicked :=
          if_neg (by omega)
        rw [File.indexOffset] at hsub
        rw [hsub]
    · rw [if_pos hmagic]
      exact Or.inl ⟨fun h => hmagic h.2, _, rfl⟩

/-- Opening the file, the lookup of the key, a full read and every call of `next_entry`
    end with `Ok` or `Err`. -/
structure ReadsReturn (f : File) (key : Bytes) : Prop where
  open_ : Returns (SsTableReader.open_ f)
  get : ∀ r, SsTableReader.open_ f = .ok r → Returns (r.get key)
  readAll : ∀ r, SsTableReader.open_ f = .ok r → Returns r.readAll
  nextEntry : ∀ r, SsTableReader.open_ f = .ok r → ∀ n, Returns (r.scan.nthEntry n)

/-- What a file says of itself fits: its index begins before the footer, and vectors can
    hold the entries that it announces and each block that a scan, or a lookup of the key,
    comes to. -/
structure Sane (f : File) (key : Bytes) : Prop where
  index : f.indexOffset + footerSize ≤ f.len
  count : f.entryCount * pairSize ≤ isizeMax
  scan : ScanFits f f.index
  lookup : ∀ i ie, findBlock f.index key = some i → f.index[i]? = some ie → Holdable ie

/-- **Reading arbitrary files is safe** exactly if what an accepted file says of itself
    fits. -/
theorem reads_return_iff (f : File) (key : Bytes) :
    ReadsReturn f key ↔ (f.Accepted → Sane f key) := by
  rcases open_cases f with ⟨hacc, e, h⟩ | ⟨hacc, hoff, h⟩ | ⟨hacc, hoff, h⟩
  · have hno (r : SsTableReader) : SsTableReader.open_ f ≠ .ok r := by
      rw [h]
      rintro ⟨⟩
    have hopen : Returns (SsTableReader.open_ f) := by
      rw [h]
      trivial
    exact iff_of_true ⟨hopen, fun r hr => absurd hr (hno r), fun r hr => absurd hr (hno r),
      fun r hr => absurd hr (hno r)⟩ fun ha => absurd ha hacc
  · refine iff_of_false (fun hr => ?_) fun hs => not_le.2 hoff (hs hacc).index
    have := hr.open_
    rw [h] at this
    exact this
  · obtain ⟨r, h, hfile, hindex, hcount⟩ : ∃ r, SsTableReader.open_ f = .ok r ∧ r.file = f ∧
        r.index = f.index ∧ r.entryCount = f.entryCount := ⟨_, h, rfl, rfl, rfl⟩
    have hall : Returns r.readAll ↔
        f.entryCount * pairSize ≤ isizeMax ∧ ScanFits f f.index := by
      rw [returns_readAll, hfile, hindex, hcount]
    have hget : Returns (r.get key) ↔
        ∀ i ie, findBlock f.index key = some i → f.index[i]? = some ie → Holdable ie := by
      rw [returns_get, hindex]
    have hscan : r.scan.Calls ↔ ScanFits f f.index := by rw [calls_scan, hfile, hindex]
    constructor
    · intro hr _
      have hfits := hall.1 (hr.readAll r h)
      exact ⟨hoff, hfits.1, hfits.2, hget.1 (hr.get r h)⟩
    · intro hs
      have hs := hs hacc
      have hopen : Returns (SsTableReader.open_ f) := by
        rw [h]
        trivial
      refine ⟨hopen, ?_, ?_, ?_⟩ <;> intro r' hr' <;> rw [h] at hr' <;> cases hr'
      · exact hget.2 hs.lookup
      · exact hall.2 ⟨hs.count, hs.scan⟩
      · exact hscan.2 hs.scan

/-- Twenty bytes that place the index in their own footer. -/
def strayIndex : File := ⟨leBytes 8 1 ++ leBytes 8 0 ++ leBytes 4 magic, by decide⟩

/-- **Opening underflows** on the offset of the index. -/
theorem strayIndex_panics : ¬ ReadsReturn strayIndex .empty := by
  intro h
  have := h.open_
  rw [show SsTableReader.open_ strayIndex = .error .panicked from rfl] at this
  exact this

end Scry.Lsm.Machine
