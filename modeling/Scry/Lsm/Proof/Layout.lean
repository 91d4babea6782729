/-
  Round trip of the SSTable layout.

  The writer cuts the entries into blocks (`Progress`); what it writes is the blocks, an
  index whose entry number `i` is the place and the first key of block `i`
  (`getElem?_indexFrom`), and a footer.  The reader reads the index back (`open_file`)
  and finds in each place its block (`readBlock_eq`).
-/
import Scry.Lsm.Layout
import Scry.Lsm.Proof.Store
import Scry.Lsm.Proof.Wal

namespace Scry.Lsm.Layout

/-! ## Slices -/

theorem slice_append (pre xs rest : List Byte) {buf : List Byte} {a b : ℕ}
    (hbuf : buf = pre ++ (xs ++ rest)) (ha : a = pre.length) (hb : b = a + xs.length) :
    slice buf a b = xs := by
  rw [slice, hbuf, ha, List.drop_left, hb, ha, Nat.add_sub_cancel_left, List.take_left]

theorem slice_left (xs rest : List Byte) {buf : List Byte} {n : ℕ} (hbuf : buf = xs ++ rest)
    (hn : n = xs.length) : slice buf 0 n = xs := by
  rw [slice, hbuf, hn, List.drop_zero, Nat.sub_zero, List.take_left]

/-! ## Entries as frames -/

/-- The format of an entry of a data block. -/
def entryFrame : Frame Entry where
  valid e := e.1.Short ∧ e.2.Short
  encode e := prefixed e.1.toList ++ prefixed e.2.toList
  decode bs := do
    let (key, bs) ← readPrefixed bs
    let (value, bs) ← readPrefixed bs
    return ((.ofList key, .ofList value), bs)
  decode_iff := by
    rintro bs ⟨key, value⟩ rest
    constructor
    · intro h
      obtain ⟨⟨k, bs₁⟩, h₁, h⟩ := Option.bind_eq_some_iff.1 h
      obtain ⟨⟨v, bs₂⟩, h₂, h⟩ := Option.bind_eq_some_iff.1 h
      cases h
      obtain ⟨hk, rfl⟩ := readPrefixed_eq_some.1 h₁
      obtain ⟨hv, rfl⟩ := readPrefixed_eq_some.1 h₂
      exact ⟨⟨hk, hv⟩, (List.append_assoc _ _ _).symm⟩
    · rintro ⟨⟨hk, hv⟩, rfl⟩
      have h₁ : readPrefixed (prefixed key.toList ++ prefixed value.toList ++ rest) =
          some (key.toList, prefixed value.toList ++ rest) :=
        readPrefixed_eq_some.2 ⟨hk, List.append_assoc _ _ _⟩
      have h₂ : readPrefixed (prefixed value.toList ++ rest) = some (value.toList, rest) :=
        readPrefixed_eq_some.2 ⟨hv, rfl⟩
      simp only [h₁, h₂, Option.bind_eq_bind, Option.bind_some]
      rfl
  encode_ne_nil e := by
    intro h
    have := congrArg List.length h
    simp at this

theorem length_encode (e : Entry) :
    (entryFrame.encode e).length = 4 + e.1.toList.length + (4 + e.2.toList.length) := by
  show (prefixed _ ++ prefixed _).length = _
  rw [List.length_append, length_prefixed, length_prefixed]

/-- **A cursor at an entry** reads it and moves past it. -/
theorem decodeEntry_eq {e : Entry} (he : entryFrame.valid e) (pre rest : List Byte) :
    decodeEntry (pre ++ (entryFrame.encode e ++ rest)) pre.length =
      .ok (e.1, e.2, (pre ++ entryFrame.encode e).length) := by
  obtain ⟨k, v⟩ := e
  obtain ⟨hk, hv⟩ := he
  have hk' : ofLeBytes (leBytes 4 k.toList.length) = k.toList.length :=
    ofLeBytes_leBytes (by norm_num; exact hk)
  have hv' : ofLeBytes (leBytes 4 v.toList.length) = v.toList.length :=
    ofLeBytes_leBytes (by norm_num; exact hv)
  generalize hblock : pre ++ (entryFrame.encode (k, v) ++ rest) = block
  have hsplit : block = pre ++ (leBytes 4 k.toList.length ++ (k.toList ++
      (leBytes 4 v.toList.length ++ (v.toList ++ rest)))) := by
    rw [← hblock]
    show pre ++ (leBytes 4 _ ++ k.toList ++ (leBytes 4 _ ++ v.toList) ++ rest) = _
    simp only [List.append_assoc]
  have hlen : block.length = pre.length + (4 + (k.toList.length + (4 + (v.toList.length +
      rest.length)))) := by
    rw [hsplit]
    simp only [List.length_append, length_leBytes]
  have h₁ : slice block pre.length (pre.length + 4) = leBytes 4 k.toList.length :=
    slice_append pre _ _ hsplit rfl (by rw [length_leBytes])
  have h₂ : slice block (pre.length + 4) (pre.length + 4 + k.toList.length) = k.toList :=
    slice_append (pre ++ leBytes 4 k.toList.length) _
      (leBytes 4 v.toList.length ++ (v.toList ++ rest)) (by rw [hsplit, List.append_assoc])
      (by rw [List.length_append, length_leBytes]) rfl
  have h₃ : slice block (pre.length + 4 + k.toList.length) (pre.length + 4 + k.toList.length + 4) =
      leBytes 4 v.toList.length :=
    slice_append (pre ++ leBytes 4 k.toList.length ++ k.toList) _ (v.toList ++ rest)
      (by rw [hsplit]; simp only [List.append_assoc])
      (by simp only [List.length_append, length_leBytes]) (by rw [length_leBytes])
  have h₄ : slice block (pre.length + 4 + k.toList.length + 4)
      (pre.length + 4 + k.toList.length + 4 + v.toList.length) = v.toList :=
    slice_append (pre ++ leBytes 4 k.toList.length ++ k.toList ++ leBytes 4 v.toList.length) _ rest
      (by rw [hsplit]; simp only [List.append_assoc])
      (by simp only [List.length_append, length_leBytes]) rfl
  have hnext : (pre ++ entryFrame.encode (k, v)).length =
      pre.length + 4 + k.toList.length + 4 + v.toList.length := by
    rw [List.length_append, length_encode]
    dsimp only
    omega
  rw [hnext]
  simp only [decodeEntry, h₁, h₂, h₃, h₄, hk', hv']
  rw [if_neg (by omega), if_neg (by omega), if_neg (by omega)]
  rfl

/-- What is written of the entries of a block. -/
def blockBytes (es : List Entry) : List Byte := entryFrame.encodeAll es

@[simp] theorem blockBytes_nil : blockBytes [] = [] := rfl

theorem blockBytes_cons (e : Entry) (es : List Entry) :
    blockBytes (e :: es) = entryFrame.encode e ++ blockBytes es := rfl

theorem blockBytes_append (es es' : List Entry) :
    blockBytes (es ++ es') = blockBytes es ++ blockBytes es' := Frame.encodeAll_append _ _

theorem length_le_blockBytes (es : List Entry) : es.length ≤ (blockBytes es).length := by
  induction es with
  | nil => exact le_rfl
  | cons e es ih =>
    rw [blockBytes_cons, List.length_append, length_encode, List.length_cons]
    omega

theorem drop_eq_cons {blocks : List (List Entry)} {i : ℕ} {b : List Entry}
    (hb : blocks[i]? = some b) : blocks.drop i = b :: blocks.drop (i + 1) := by
  obtain ⟨hlt, rfl⟩ := List.getElem?_eq_some_iff.1 hb
  exact (List.getElem_cons_drop hlt).symm

/-- A block, and what is written before and after it. -/
theorem blockBytes_split {blocks : List (List Entry)} {i : ℕ} {b : List Entry}
    (hb : blocks[i]? = some b) : blockBytes blocks.flatten =
      blockBytes (blocks.take i).flatten ++
        (blockBytes b ++ blockBytes (blocks.drop (i + 1)).flatten) := by
  conv_lhs => rw [← List.take_append_drop i blocks, drop_eq_cons hb]
  rw [List.flatten_append, List.flatten_cons, blockBytes_append, blockBytes_append]

section Blocks
variable {es : List Entry} (hes : ∀ e ∈ es, entryFrame.valid e)
include hes

/-- Reading on in a block appends the entries that are left. -/
theorem readEntries_eq (pre : List Byte) (n : ℕ) (hn : es.length ≤ n) (acc : List Entry) :
    SsTableReader.readEntries (pre ++ blockBytes es) n pre.length acc = .ok (acc ++ es) := by
  induction es generalizing pre n acc with
  | nil =>
    rw [List.append_nil]
    cases n with
    | zero => rfl
    | succ n =>
      rw [SsTableReader.readEntries, if_neg]
      simp
  | cons e es ih =>
    obtain ⟨n, rfl⟩ := Nat.exists_eq_succ_of_ne_zero (Nat.ne_of_gt (lt_of_lt_of_le
      (Nat.succ_pos es.length) hn))
    have hlt : pre.length < (pre ++ blockBytes (e :: es)).length := by
      rw [blockBytes_cons, List.length_append, List.length_append, length_encode]
      omega
    rw [SsTableReader.readEntries, if_pos hlt, blockBytes_cons,
      decodeEntry_eq (hes e List.mem_cons_self)]
    show SsTableReader.readEntries _ n _ _ = _
    rw [← List.append_assoc, ih (fun e' h => hes e' (List.mem_cons_of_mem e h)) _ n
      (Nat.le_of_succ_le_succ hn), List.append_assoc]
    rfl

/-- Scanning on in a block is the scan of the entries that are left. -/
theorem getFrom_eq (key : Bytes) (pre : List Byte) (n : ℕ) (hn : es.length ≤ n) :
    SsTableReader.getFrom (pre ++ blockBytes es) key n pre.length =
      .ok (Lsm.SsTableReader.getFrom key es) := by
  induction es generalizing pre n with
  | nil =>
    cases n with
    | zero => rfl
    | succ n =>
      rw [SsTableReader.getFrom, if_neg (by simp)]
      rfl
  | cons e es ih =>
    obtain ⟨n, rfl⟩ := Nat.exists_eq_succ_of_ne_zero (Nat.ne_of_gt (lt_of_lt_of_le
      (Nat.succ_pos es.length) hn))
    have hlt : pre.length < (pre ++ blockBytes (e :: es)).length := by
      rw [blockBytes_cons, List.length_append, List.length_append, length_encode]
      omega
    rw [SsTableReader.getFrom, if_pos hlt, blockBytes_cons,
      decodeEntry_eq (hes e List.mem_cons_self)]
    obtain ⟨k, v⟩ := e
    rw [Lsm.SsTableReader.getFrom]
    simp only [bind, Except.bind]
    cases compare k key with
    | eq => rfl
    | gt => rfl
    | lt =>
      show SsTableReader.getFrom _ key n _ = _
      rw [← List.append_assoc]
      exact ih (fun e' h => hes e' (List.mem_cons_of_mem _ h)) _ n (Nat.le_of_succ_le_succ hn)

end Blocks

/-! ## The writer -/

/-- The first key of a block. -/
def firstKey (b : List Entry) : Bytes := (b.head?.map Prod.fst).getD .empty

/-- The index of the blocks that begin at an offset. -/
def indexFrom : ℕ → List (List Entry) → List IndexEntry
  | _, [] => []
  | offset, b :: bs =>
    ⟨firstKey b, offset, (blockBytes b).length⟩ :: indexFrom (offset + (blockBytes b).length) bs

theorem indexFrom_append (offset : ℕ) (bs bs' : List (List Entry)) :
    indexFrom offset (bs ++ bs') =
      indexFrom offset bs ++ indexFrom (offset + (blockBytes bs.flatten).length) bs' := by
  induction bs generalizing offset with
  | nil => rfl
  | cons b bs ih =>
    rw [List.cons_append, indexFrom, ih, List.flatten_cons, blockBytes_append, List.length_append,
      ← add_assoc]
    rfl

theorem length_indexFrom (offset : ℕ) (bs : List (List Entry)) :
    (indexFrom offset bs).length = bs.length := by
  induction bs generalizing offset with
  | nil => rfl
  | cons b bs ih => rw [indexFrom, List.length_cons, ih, List.length_cons]

/-- **The index says where the blocks are.** -/
theorem getElem?_indexFrom (offset : ℕ) (bs : List (List Entry)) (i : ℕ) :
    (indexFrom offset bs)[i]? = bs[i]?.map fun b =>
      ⟨firstKey b, offset + (blockBytes (bs.take i).flatten).length, (blockBytes b).length⟩ := by
  induction bs generalizing offset i with
  | nil => rfl
  | cons b bs ih =>
    cases i with
    | zero => rfl
    | succ i =>
      rw [indexFrom, List.getElem?_cons_succ, ih, List.getElem?_cons_succ, List.take_succ_cons,
        List.flatten_cons, blockBytes_append, List.length_append, add_assoc]

/-- The writer has written the blocks `done` and buffers the entries `cur`. -/
structure Progress (w : SsTableWriter) (done : List (List Entry)) (cur : List Entry) : Prop where
  file : w.file = blockBytes done.flatten
  index : w.index = indexFrom 0 done
  buf : w.blockBuf = blockBytes cur
  first : w.blockFirstKey = cur.head?.map Prod.fst
  offset : w.blockOffset = w.file.length
  nonempty : ∀ b ∈ done, b ≠ []
  count : w.entryCount = (done.flatten ++ cur).length
  min : w.minKey = (done.flatten ++ cur).head?.map Prod.fst
  max : w.maxKey = (done.flatten ++ cur).getLast?.map Prod.fst

theorem progress_new (blockSize : ℕ) : Progress (.withBlockSize blockSize) [] [] :=
  ⟨rfl, rfl, rfl, rfl, rfl, by simp, rfl, rfl, rfl⟩

theorem Progress.flushBlock {w : SsTableWriter} {done : List (List Entry)} {cur : List Entry}
    (h : Progress w done cur) (hcur : cur ≠ []) : Progress w.flushBlock (done ++ [cur]) [] := by
  obtain ⟨e, es, rfl⟩ := List.exists_cons_of_ne_nil hcur
  have hflat : (done ++ [e :: es]).flatten = done.flatten ++ e :: es := by simp
  refine ⟨?_, ?_, rfl, rfl, ?_, ?_, ?_, ?_, ?_⟩
  · rw [hflat, blockBytes_append, ← h.file, ← h.buf]
    rfl
  · rw [indexFrom_append, ← h.index, ← h.file, zero_add, ← h.offset]
    unfold SsTableWriter.flushBlock
    dsimp only
    rw [h.first, h.buf]
    rfl
  · show w.blockOffset + w.blockBuf.length = (w.file ++ w.blockBuf).length
    rw [h.offset, List.length_append]
  · intro b hb
    rcases List.mem_append.1 hb with hb | hb
    · exact h.nonempty b hb
    · rw [List.mem_singleton.1 hb]
      exact hcur
  · rw [hflat, List.append_nil]
    exact h.count
  · rw [hflat, List.append_nil]
    exact h.min
  · rw [hflat, List.append_nil]
    exact h.max

/-- **Adding an entry** puts it into the current block, and ends the block if it has
    reached the target size. -/
theorem Progress.add {w : SsTableWriter} {done : List (List Entry)} {cur : List Entry}
    (h : Progress w done cur) (e : Entry) :
    Progress (w.add e.1 e.2) done (cur ++ [e]) ∨ Progress (w.add e.1 e.2) (done ++ [cur ++ [e]]) [] := by
  generalize hw' : ({ w with
      minKey := if w.minKey.isNone then some e.1 else w.minKey
      maxKey := some e.1
      blockFirstKey := if w.blockFirstKey.isNone then some e.1 else w.blockFirstKey
      blockBuf := w.blockBuf ++ leBytes 4 e.1.len ++ e.1.toList ++ leBytes 4 e.2.len ++ e.2.toList
      entryCount := w.entryCount + 1 } : SsTableWriter) = w'
  have hadd : w.add e.1 e.2 = if w'.blockBuf.length ≥ w'.blockSize then w'.flushBlock else w' := by
    rw [← hw']
    rfl
  have hbuffered : Progress w' done (cur ++ [e]) := by
    rw [← hw']
    refine ⟨h.file, h.index, ?_, ?_, h.offset, h.nonempty, ?_, ?_, ?_⟩
    · rw [blockBytes_append, ← h.buf]
      show w.blockBuf ++ _ ++ _ ++ _ ++ _ = w.blockBuf ++ (leBytes 4 _ ++ _ ++ (leBytes 4 _ ++ _) ++ [])
      simp only [List.append_assoc, List.append_nil]
      rfl
    · show (if w.blockFirstKey.isNone then some e.1 else w.blockFirstKey) = _
      rw [h.first]
      cases cur <;> rfl
    · show w.entryCount + 1 = _
      rw [h.count, ← List.append_assoc]
      simp only [List.length_append, List.length_singleton]
    · show (if w.minKey.isNone then some e.1 else w.minKey) = _
      rw [h.min, ← List.append_assoc]
      cases done.flatten ++ cur <;> rfl
    · rw [← List.append_assoc, List.getLast?_append]
      rfl
  rw [hadd]
  split_ifs
  · exact Or.inr (hbuffered.flushBlock (List.append_ne_nil_of_right_ne_nil _ (List.cons_ne_nil _ _)))
  · exact Or.inl hbuffered

/-- The blocks of a finished file. -/
def indexBytes (blocks : List (List Entry)) : List Byte :=
  (indexFrom 0 blocks).flatMap SsTableWriter.indexEntry

/-- The file that holds the blocks and counts `n` entries. -/
def fileWith (n : ℕ) (blocks : List (List Entry)) : List Byte :=
  blockBytes blocks.flatten ++ indexBytes blocks ++
    leBytes 8 (blockBytes blocks.flatten).length ++ leBytes 8 n ++ leBytes 4 magic

/-- The file that holds the blocks. -/
def fileOf (blocks : List (List Entry)) : List Byte := fileWith blocks.flatten.length blocks

theorem Progress.finish {w : SsTableWriter} {done : List (List Entry)} {cur : List Entry}
    (h : Progress w done cur) : ∃ blocks : List (List Entry), blocks.flatten = done.flatten ++ cur ∧
      (∀ b ∈ blocks, b ≠ []) ∧ w.finish = (fileOf blocks, blocks.flatten.length,
        (blocks.flatten.head?.map Prod.fst).getD .empty,
        (blocks.flatten.getLast?.map Prod.fst).getD .empty) := by
  -- without a block under construction
  have hdone : ∀ {w : SsTableWriter} {blocks : List (List Entry)}, Progress w blocks [] →
      w.finish = (fileOf blocks, blocks.flatten.length,
        (blocks.flatten.head?.map Prod.fst).getD .empty,
        (blocks.flatten.getLast?.map Prod.fst).getD .empty) := by
    intro w blocks h
    have hcount := h.count
    have hmin := h.min
    have hmax := h.max
    rw [List.append_nil] at hcount hmin hmax
    rw [← hmin, ← hmax, ← hcount]
    simp only [SsTableWriter.finish, h.buf, blockBytes_nil, List.isEmpty_nil, if_pos, fileOf,
      fileWith, indexBytes, h.file, h.index, h.offset, hcount]
  by_cases hcur : cur = []
  · subst hcur
    exact ⟨done, (List.append_nil _).symm, h.nonempty, hdone h⟩
  · have hf := h.flushBlock hcur
    refine ⟨done ++ [cur], by simp, hf.nonempty, ?_⟩
    rw [← hdone hf]
    have hne : w.blockBuf.isEmpty = false := by
      rw [h.buf, List.isEmpty_eq_false_iff, ← List.length_pos_iff]
      exact lt_of_lt_of_le (List.length_pos_iff.2 hcur) (length_le_blockBytes cur)
    have hemp : w.flushBlock.blockBuf.isEmpty = true := rfl
    simp only [SsTableWriter.finish, hne, hemp, if_pos, Bool.false_eq_true, if_false]

/-- **What the writer writes**: blocks that hold the entries in order, none empty. -/
theorem writeTable_eq (blockSize : ℕ) (entries : List Entry) :
    ∃ blocks : List (List Entry), blocks.flatten = entries ∧ (∀ b ∈ blocks, b ≠ []) ∧
      writeTable blockSize entries = (fileOf blocks, entries.length,
        (entries.head?.map Prod.fst).getD .empty, (entries.getLast?.map Prod.fst).getD .empty) := by
  suffices h : ∀ (w : SsTableWriter) (done : List (List Entry)) (cur : List Entry),
      Progress w done cur → ∃ done' cur', done'.flatten ++ cur' = done.flatten ++ cur ++ entries ∧
        Progress (entries.foldl (fun w e => w.add e.1 e.2) w) done' cur' by
    obtain ⟨done, cur, hflat, hp⟩ := h _ _ _ (progress_new blockSize)
    obtain ⟨blocks, hblocks, hne, hfin⟩ := hp.finish
    obtain rfl : blocks.flatten = entries := by rw [hblocks, hflat]; rfl
    exact ⟨blocks, rfl, hne, hfin⟩
  induction entries with
  | nil => exact fun w done cur h => ⟨done, cur, (List.append_nil _).symm, h⟩
  | cons e es ih =>
    intro w done cur h
    rcases h.add e with h | h
    · obtain ⟨done', cur', hflat, hp⟩ := ih _ _ _ h
      refine ⟨done', cur', ?_, hp⟩
      rw [hflat]
      simp
    · obtain ⟨done', cur', hflat, hp⟩ := ih _ _ _ h
      refine ⟨done', cur', ?_, hp⟩
      rw [hflat]
      simp

/-! ## The reader -/

theorem length_indexEntry (e : IndexEntry) :
    (SsTableWriter.indexEntry e).length = 4 + e.firstKey.toList.length + 8 + 8 := by
  simp only [SsTableWriter.indexEntry, List.length_append, length_leBytes]

/-- An index entry that its fields can hold. -/
structure IndexEntry.Fits (e : IndexEntry) : Prop where
  firstKey : e.firstKey.Short
  offset : e.offset < 2 ^ 64
  blockLen : e.blockLen < 2 ^ 64

/-- **The index is read back.** -/
theorem parseIndexFrom_eq {es : List IndexEntry} (hes : ∀ e ∈ es, e.Fits) (pre : List Byte) (n : ℕ)
    (hn : es.length ≤ n) (acc : List IndexEntry) :
    parseIndexFrom (pre ++ es.flatMap SsTableWriter.indexEntry) n pre.length acc = acc ++ es := by
  induction es generalizing pre n acc with
  | nil =>
    rw [List.flatMap_nil, List.append_nil, List.append_nil]
    cases n with
    | zero => rfl
    | succ n => rw [parseIndexFrom, if_neg (lt_irrefl _)]
  | cons e es ih =>
    obtain ⟨n, rfl⟩ := Nat.exists_eq_succ_of_ne_zero (Nat.ne_of_gt (lt_of_lt_of_le
      (Nat.succ_pos es.length) hn))
    obtain ⟨hk, ho, hb⟩ := hes e List.mem_cons_self
    have hk : ofLeBytes (leBytes 4 e.firstKey.toList.length) = e.firstKey.toList.length :=
      ofLeBytes_leBytes (by norm_num; exact hk)
    have ho : ofLeBytes (leBytes 8 e.offset) = e.offset := ofLeBytes_leBytes (by norm_num at ho ⊢; exact ho)
    have hb : ofLeBytes (leBytes 8 e.blockLen) = e.blockLen :=
      ofLeBytes_leBytes (by norm_num at hb ⊢; exact hb)
    generalize htail : es.flatMap SsTableWriter.indexEntry = tail
    generalize hbuf : pre ++ (e :: es).flatMap SsTableWriter.indexEntry = buf
    have hsplit : buf = pre ++ (leBytes 4 e.firstKey.toList.length ++ (e.firstKey.toList ++
        (leBytes 8 e.offset ++ (leBytes 8 e.blockLen ++ tail)))) := by
      rw [← hbuf, List.flatMap_cons, htail]
      simp only [SsTableWriter.indexEntry, List.append_assoc]
      rfl
    have hlen : buf.length = pre.length + 4 + e.firstKey.toList.length + 16 + tail.length := by
      rw [hsplit]
      simp only [List.length_append, length_leBytes]
      omega
    have h₁ : slice buf pre.length (pre.length + 4) = leBytes 4 e.firstKey.toList.length :=
      slice_append pre _ _ hsplit rfl (by rw [length_leBytes])
    have h₂ : slice buf (pre.length + 4) (pre.length + 4 + e.firstKey.toList.length) =
        e.firstKey.toList :=
      slice_append (pre ++ leBytes 4 e.firstKey.toList.length) _
        (leBytes 8 e.offset ++ (leBytes 8 e.blockLen ++ tail)) (by rw [hsplit, List.append_assoc])
        (by rw [List.length_append, length_leBytes]) rfl
    have h₃ : slice buf (pre.length + 4 + e.firstKey.toList.length)
        (pre.length + 4 + e.firstKey.toList.length + 8) = leBytes 8 e.offset :=
      slice_append (pre ++ leBytes 4 e.firstKey.toList.length ++ e.firstKey.toList) _
        (leBytes 8 e.blockLen ++ tail) (by rw [hsplit]; simp only [List.append_assoc])
        (by simp only [List.length_append, length_leBytes]) (by rw [length_leBytes])
    have h₄ : slice buf (pre.length + 4 + e.firstKey.toList.length + 8)
        (pre.length + 4 + e.firstKey.toList.length + 8 + 8) = leBytes 8 e.blockLen :=
      slice_append (pre ++ leBytes 4 e.firstKey.toList.length ++ e.firstKey.toList ++
        leBytes 8 e.offset) _ tail (by rw [hsplit]; simp only [List.append_assoc])
        (by simp only [List.length_append, length_leBytes]) (by rw [length_leBytes])
    have hnext : pre.length + 4 + e.firstKey.toList.length + 8 + 8 =
        (pre ++ SsTableWriter.indexEntry e).length := by
      rw [List.length_append, length_indexEntry]
      omega
    simp only [parseIndexFrom, h₁, h₂, h₃, h₄, hk, ho, hb]
    rw [if_pos (by omega), if_neg (by omega), if_neg (by omega), hnext, ← hbuf, List.flatMap_cons,
      ← List.append_assoc pre, ih (fun e' h => hes e' (List.mem_cons_of_mem e h)) _ n
        (Nat.le_of_succ_le_succ hn), List.append_assoc]
    rfl

/-- The entries of the blocks fit their length fields, no block is empty, and the length
    of the file is a `u64`. -/
structure BlocksOk (blocks : List (List Entry)) : Prop where
  valid : ∀ e ∈ blocks.flatten, entryFrame.valid e
  nonempty : ∀ b ∈ blocks, b ≠ []
  size : (fileOf blocks).length < 2 ^ 64

theorem length_fileWith (n : ℕ) (blocks : List (List Entry)) : (fileWith n blocks).length =
    (blockBytes blocks.flatten).length + (indexBytes blocks).length + footerSize := by
  simp only [fileWith, List.length_append, length_leBytes, footerSize]

/-- **Every entry of the index is that of a block**, which lies in the file. -/
theorem mem_indexFrom {offset : ℕ} {blocks : List (List Entry)} {e : IndexEntry}
    (he : e ∈ indexFrom offset blocks) : ∃ b ∈ blocks, e.firstKey = firstKey b ∧
      e.offset + e.blockLen ≤ offset + (blockBytes blocks.flatten).length := by
  obtain ⟨i, hi⟩ := List.mem_iff_getElem?.1 he
  rw [getElem?_indexFrom, Option.map_eq_some_iff] at hi
  obtain ⟨b, hb, rfl⟩ := hi
  refine ⟨b, List.mem_of_getElem? hb, rfl, ?_⟩
  rw [blockBytes_split hb, List.length_append, List.length_append]
  dsimp only
  omega

theorem BlocksOk.fits {blocks : List (List Entry)} (h : BlocksOk blocks) :
    ∀ e ∈ indexFrom 0 blocks, e.Fits := by
  intro e he
  obtain ⟨b, hmem, hfirst, hle⟩ := mem_indexFrom he
  have hsize := h.size
  rw [fileOf, length_fileWith] at hsize
  obtain ⟨a, l, rfl⟩ := List.exists_cons_of_ne_nil (h.nonempty b hmem)
  refine ⟨?_, by omega, by omega⟩
  rw [hfirst]
  exact (h.valid a (List.mem_flatten.2 ⟨_, hmem, List.mem_cons_self⟩)).1

/-- The reader of a file that counts `n` entries. -/
def readerWith (n : ℕ) (blocks : List (List Entry)) : SsTableReader :=
  ⟨fileWith n blocks, indexFrom 0 blocks, n⟩

/-- The reader of a finished file. -/
def readerOf (blocks : List (List Entry)) : SsTableReader :=
  readerWith blocks.flatten.length blocks

/-- A file is accepted, with its index, whatever number of entries it counts. -/
theorem open_fileWith {blocks : List (List Entry)} (h : BlocksOk blocks) {n : ℕ}
    (hn : n < 2 ^ 64) : SsTableReader.open_ (fileWith n blocks) = .ok (readerWith n blocks) := by
  have hsize := h.size
  rw [fileOf, length_fileWith] at hsize
  have h64 : (256 : ℕ) ^ 8 = 2 ^ 64 := by norm_num
  have hoffset : (blockBytes blocks.flatten).length < 256 ^ 8 := by omega
  have hcount : n < 256 ^ 8 := h64 ▸ hn
  -- the parts of the file
  generalize hfile : fileWith n blocks = file
  have hlen : file.length = (blockBytes blocks.flatten).length + (indexBytes blocks).length +
      footerSize := by
    rw [← hfile, length_fileWith]
  have hsplit : file = (blockBytes blocks.flatten ++ indexBytes blocks) ++
      (leBytes 8 (blockBytes blocks.flatten).length ++ (leBytes 8 n ++
        leBytes 4 magic)) := by
    rw [← hfile, fileWith]
    simp only [List.append_assoc]
  have hfooter : file.drop (file.length - footerSize) =
      leBytes 8 (blockBytes blocks.flatten).length ++ (leBytes 8 n ++
        leBytes 4 magic) := by
    rw [hlen, Nat.add_sub_cancel, ← List.length_append, hsplit, List.drop_left]
  -- the fields of the footer
  have h₁ : slice (file.drop (file.length - footerSize)) 0 8 =
      leBytes 8 (blockBytes blocks.flatten).length :=
    slice_left _ _ hfooter (by rw [length_leBytes])
  have h₂ : slice (file.drop (file.length - footerSize)) 8 16 = leBytes 8 n :=
    slice_append (leBytes 8 (blockBytes blocks.flatten).length) _ _ hfooter
      (by rw [length_leBytes]) (by rw [length_leBytes])
  have h₃ : slice (file.drop (file.length - footerSize)) 16 20 = leBytes 4 magic :=
    slice_append (leBytes 8 (blockBytes blocks.flatten).length ++ leBytes 8 n) _
      [] (by rw [hfooter, List.append_assoc, List.append_nil])
      (by rw [List.length_append, length_leBytes, length_leBytes]) (by rw [length_leBytes])
  have hmagic : ofLeBytes (leBytes 4 magic) = magic := ofLeBytes_leBytes (by norm_num [magic])
  -- the index block
  have hindexLen : (blockBytes blocks.flatten).length + (file.length - footerSize -
      (blockBytes blocks.flatten).length) = (blockBytes blocks.flatten).length +
        (indexBytes blocks).length := by
    rw [hlen]
    omega
  have hindex : slice file (blockBytes blocks.flatten).length
      ((blockBytes blocks.flatten).length + (indexBytes blocks).length) = indexBytes blocks :=
    slice_append _ _ _ (by rw [hsplit, List.append_assoc]) rfl rfl
  have hparse : parseIndex (indexBytes blocks) = indexFrom 0 blocks := by
    have hn : (indexFrom 0 blocks).length ≤ (indexBytes blocks).length := by
      rw [indexBytes, List.length_flatMap, ← List.length_map (f := fun e =>
        (SsTableWriter.indexEntry e).length)]
      refine List.length_le_sum_of_one_le _ fun i hi => ?_
      obtain ⟨e, -, rfl⟩ := List.mem_map.1 hi
      rw [length_indexEntry]
      omega
    exact parseIndexFrom_eq h.fits [] _ hn []
  unfold SsTableReader.open_
  dsimp only
  rw [if_neg (by omega), h₁, h₂, h₃, hmagic, ofLeBytes_leBytes hoffset, ofLeBytes_leBytes hcount,
    if_neg (not_not.2 rfl), if_neg (by omega), hindexLen, hindex, hparse, ← hfile]
  rfl

/-- **A finished file is accepted**, with its index. -/
theorem open_fileOf {blocks : List (List Entry)} (h : BlocksOk blocks) :
    SsTableReader.open_ (fileOf blocks) = .ok (readerOf blocks) := by
  have hsize := h.size
  rw [fileOf, length_fileWith] at hsize
  refine open_fileWith h (lt_of_le_of_lt (length_le_blockBytes blocks.flatten) ?_)
  omega

/-- **The place of a block holds the block.** -/
theorem readBlock_eq {blocks : List (List Entry)} (n : ℕ) {i : ℕ} {b : List Entry}
    (hb : blocks[i]? = some b) : (readerWith n blocks).readBlock
      (blockBytes (blocks.take i).flatten).length (blockBytes b).length = .ok (blockBytes b) := by
  have hflat := blockBytes_split hb
  obtain ⟨tail, hfile⟩ : ∃ tail, fileWith n blocks =
      blockBytes (blocks.take i).flatten ++ (blockBytes b ++ tail) := by
    refine ⟨blockBytes (blocks.drop (i + 1)).flatten ++ (indexBytes blocks ++ (leBytes 8 (blockBytes
      blocks.flatten).length ++ (leBytes 8 n ++ leBytes 4 magic))), ?_⟩
    rw [fileWith]
    conv_lhs => rw [hflat]
    simp only [List.append_assoc, hflat]
  rw [SsTableReader.readBlock, if_pos]
  · exact congrArg _ (slice_append _ _ tail hfile rfl rfl)
  · right
    show _ ≤ (fileWith n blocks).length
    rw [hfile, List.length_append, List.length_append]
    omega

section Read
variable {blocks : List (List Entry)} (h : BlocksOk blocks)
include h

theorem BlocksOk.block_valid {b : List Entry} (hb : b ∈ blocks) :
    ∀ e ∈ b, entryFrame.valid e := fun e he => h.valid e (List.mem_flatten.2 ⟨b, hb, he⟩)

/-- **`read_all` returns the entries.** -/
theorem readAll_eq (n : ℕ) : (readerWith n blocks).readAll = .ok blocks.flatten := by
  suffices hs : ∀ (pre post : List (List Entry)), blocks = pre ++ post →
      (indexFrom (blockBytes pre.flatten).length post).foldlM (fun entries ie => do
        let block ← (readerWith n blocks).readBlock ie.offset ie.blockLen
        SsTableReader.readEntries block block.length 0 entries) pre.flatten =
          (.ok blocks.flatten : Except Fault _) from hs [] blocks rfl
  intro pre post
  induction post generalizing pre with
  | nil =>
    intro hsplit
    rw [hsplit, List.append_nil]
    rfl
  | cons b post ih =>
    intro hsplit
    have hb : blocks[pre.length]? = some b := by rw [hsplit]; simp
    have hread := readBlock_eq n hb
    rw [show blocks.take pre.length = pre by rw [hsplit, List.take_left]] at hread
    have hentries := readEntries_eq (h.block_valid (List.mem_of_getElem? hb)) [] _
      (length_le_blockBytes b) pre.flatten
    have hnext := ih (pre ++ [b]) (by rw [hsplit, List.append_assoc]; rfl)
    rw [List.flatten_append, blockBytes_append, List.length_append, List.flatten_singleton] at hnext
    rw [indexFrom, List.foldlM_cons, hread]
    show (SsTableReader.readEntries (blockBytes b) (blockBytes b).length 0 pre.flatten >>= _) = _
    rw [show SsTableReader.readEntries (blockBytes b) (blockBytes b).length 0 pre.flatten = _
      from hentries]
    exact hnext

/-- A scan that has yielded the entries up to `rest`. -/
def ScanAt (blocks : List (List Entry)) (s : SsTableScan) (rest : List Entry) : Prop :=
  s.reader = readerOf blocks ∧ s.blockIdx ≤ blocks.length ∧ ∃ pre es,
    s.blockBuf = pre ++ blockBytes es ∧ s.cursor = pre.length ∧
      (∀ e ∈ es, entryFrame.valid e) ∧ rest = es ++ (blocks.drop s.blockIdx).flatten

omit h in
/-- In a block, the next entry is decoded. -/
theorem nextFrom_cons {s : SsTableScan} {pre : List Byte} {e : Entry} {es : List Entry}
    (hbuf : s.blockBuf = pre ++ blockBytes (e :: es)) (hcur : s.cursor = pre.length)
    (he : entryFrame.valid e) (n : ℕ) : SsTableScan.nextFrom (n + 1) s =
      .ok (some e, { s with cursor := (pre ++ entryFrame.encode e).length }) := by
  have hlt : s.cursor < s.blockBuf.length := by
    rw [hbuf, hcur, blockBytes_cons, List.length_append, List.length_append, length_encode]
    omega
  rw [SsTableScan.nextFrom, if_pos hlt, hbuf, hcur, blockBytes_cons, decodeEntry_eq he]
  rfl

/-- **One call of `next_entry`** yields the next entry. -/
theorem nextEntry_eq {s : SsTableScan} {rest : List Entry} (hs : ScanAt blocks s rest) :
    ∃ s', s.nextEntry = .ok (rest.head?, s') ∧ ScanAt blocks s' rest.tail := by
  obtain ⟨hr, hidx, pre, es, hbuf, hcur, hes, rfl⟩ := hs
  have hlen : s.reader.index.length = blocks.length := by rw [hr]; exact length_indexFrom 0 blocks
  rw [SsTableScan.nextEntry, hlen]
  cases es with
  | cons e es =>
    obtain ⟨n, hn⟩ := Nat.exists_eq_add_of_le' (show 1 ≤ blocks.length + 1 - s.blockIdx by omega)
    rw [hn, nextFrom_cons hbuf hcur (hes e List.mem_cons_self)]
    refine ⟨_, rfl, hr, hidx, pre ++ entryFrame.encode e, es, ?_, rfl,
      fun e' he' => hes e' (List.mem_cons_of_mem e he'), rfl⟩
    rw [List.append_assoc]
    exact hbuf
  | nil =>
    have hend : ¬ s.cursor < s.blockBuf.length := by
      rw [hbuf, hcur, blockBytes_nil, List.append_nil]
      exact lt_irrefl _
    rcases hb : blocks[s.blockIdx]? with _ | b
    · -- all blocks are read
      obtain ⟨n, hn⟩ := Nat.exists_eq_add_of_le' (show 1 ≤ blocks.length + 1 - s.blockIdx by omega)
      have hix : s.reader.index[s.blockIdx]? = none := by
        rw [hr]
        show (indexFrom 0 blocks)[_]? = _
        rw [getElem?_indexFrom, hb]
        rfl
      have hdrop : blocks.drop s.blockIdx = [] := by
        rw [List.drop_eq_nil_iff]
        exact List.getElem?_eq_none_iff.1 hb
      rw [hn, SsTableScan.nextFrom, if_neg hend, hix, hdrop]
      exact ⟨s, rfl, hr, hidx, pre, [], hbuf, hcur, hes, by rw [hdrop]; rfl⟩
    · -- the next block is loaded
      have hlt : s.blockIdx < blocks.length := (List.getElem?_eq_some_iff.1 hb).1
      obtain ⟨n, hn⟩ := Nat.exists_eq_add_of_le' (show 2 ≤ blocks.length + 1 - s.blockIdx by omega)
      have hix : s.reader.index[s.blockIdx]? = some ⟨firstKey b,
          (blockBytes (blocks.take s.blockIdx).flatten).length, (blockBytes b).length⟩ := by
        rw [hr]
        show (indexFrom 0 blocks)[_]? = _
        rw [getElem?_indexFrom, hb, zero_add]
        rfl
      have hread : s.reader.readBlock (blockBytes (blocks.take s.blockIdx).flatten).length
          (blockBytes b).length = .ok (blockBytes b) := by
        rw [hr]
        exact readBlock_eq _ hb
      have hmem := List.mem_of_getElem? hb
      have hdrop := drop_eq_cons hb
      obtain ⟨e, es, rfl⟩ := List.exists_cons_of_ne_nil (h.nonempty b hmem)
      have hvalid := h.block_valid hmem
      have hload : SsTableScan.nextFrom (n + 2) s = SsTableScan.nextFrom (n + 1)
          { s with blockBuf := blockBytes (e :: es), cursor := 0, blockIdx := s.blockIdx + 1 } := by
        rw [SsTableScan.nextFrom, if_neg hend, hix]
        dsimp only
        rw [hread]
        rfl
      have hbuf : blockBytes (e :: es) = [] ++ blockBytes (e :: es) := rfl
      rw [hn, hload, nextFrom_cons hbuf rfl (hvalid e List.mem_cons_self), hdrop]
      refine ⟨_, rfl, hr, hlt, entryFrame.encode e, es, rfl, rfl,
        fun e' he' => hvalid e' (List.mem_cons_of_mem e he'), rfl⟩

/-- **Repeated `next_entry` returns the entries one after another.** -/
theorem nthEntry_eq {s : SsTableScan} {rest : List Entry} (hs : ScanAt blocks s rest) (i : ℕ) :
    SsTableScan.nthEntry i s = .ok rest[i]? := by
  induction i generalizing s rest with
  | zero =>
    obtain ⟨s', hn, -⟩ := nextEntry_eq h hs
    rw [SsTableScan.nthEntry, hn, List.head?_eq_getElem?]
    rfl
  | succ i ih =>
    obtain ⟨s', hn, hs'⟩ := nextEntry_eq h hs
    rw [SsTableScan.nthEntry, hn]
    show SsTableScan.nthEntry i s' = _
    rw [ih hs', List.getElem?_tail]

/-! ## Point lookups -/

omit h in
theorem partitionPoint_indexFrom (key : Bytes) (offset : ℕ) (bs : List (List Entry)) :
    partitionPoint (fun e => e.firstKey ≤ key) (indexFrom offset bs) =
      (bs.takeWhile fun b => firstKey b ≤ key).length := by
  induction bs generalizing offset with
  | nil => rfl
  | cons b bs ih =>
    have ih := ih (offset + (blockBytes b).length)
    rw [partitionPoint] at ih ⊢
    rw [indexFrom, List.takeWhile_cons, List.takeWhile_cons]
    dsimp only
    split_ifs
    · rw [List.length_cons, ih, List.length_cons]
    · rfl

omit h in
/-- The candidate is the last block whose first key is not larger. -/
theorem findBlock_indexFrom (key : Bytes) (offset : ℕ) (bs : List (List Entry)) :
    findBlock (indexFrom offset bs) key =
      match (bs.takeWhile fun b => firstKey b ≤ key).length with
      | 0 => none
      | n + 1 => some n := by
  cases bs with
  | nil => rfl
  | cons b bs =>
    have hpos := partitionPoint_indexFrom key offset (b :: bs)
    rw [indexFrom] at hpos ⊢
    simp only [findBlock, hpos]
    rcases hn : ((b :: bs).takeWhile fun b => firstKey b ≤ key).length with _ | n
    · have hlt : key < firstKey b := by
        rw [List.length_eq_zero_iff, List.takeWhile_cons] at hn
        by_contra hle
        rw [if_pos (by simpa using hle)] at hn
        cases hn
      rw [if_pos rfl, if_pos hlt]
    · rw [if_neg (Nat.succ_ne_zero n)]
      rfl

/-- **`get` finds the value of a key**: earlier blocks hold smaller keys than the
    candidate, later ones larger keys than the searched one. -/
theorem get_eq (hasc : Ascending blocks.flatten) (key : Bytes) :
    (readerOf blocks).get key = .ok (blocks.flatten.lookup key) := by
  have hfind := findBlock_indexFrom key 0 blocks
  -- the blocks up to the candidate, and those after it
  generalize hA : blocks.takeWhile (fun b => firstKey b ≤ key) = A at hfind
  generalize hB : blocks.dropWhile (fun b => firstKey b ≤ key) = B
  have hsplit : blocks = A ++ B := by rw [← hA, ← hB, List.takeWhile_append_dropWhile]
  have hflat : blocks.flatten = A.flatten ++ B.flatten := by rw [hsplit, List.flatten_append]
  have hAB := ascending_append.1 (hflat ▸ hasc)
  have hafter : B.flatten.lookup key = none := by
    refine lookup_of_lt fun e he => ?_
    cases B with
    | nil => cases he
    | cons b bs =>
      have hfirst : key < firstKey b := by
        have hne : blocks.dropWhile (fun b => firstKey b ≤ key) ≠ [] := by rw [hB]; simp
        have hnot := List.head_dropWhile_not (fun b => firstKey b ≤ key) hne
        simpa [hB] using hnot
      have hb : b ≠ [] := h.nonempty b (by rw [hsplit]; simp)
      obtain ⟨a, l, rfl⟩ := List.exists_cons_of_ne_nil hb
      exact lt_of_lt_of_le hfirst (Ascending.head_le hAB.2.1 he)
  rw [hflat, lookup_append, hafter, Option.or_none, SsTableReader.get]
  rcases List.eq_nil_or_concat A with rfl | ⟨A, b, rfl⟩
  · rw [show findBlock (readerOf blocks).index key = none from hfind]
    rfl
  · rw [List.concat_eq_append] at *
    rw [List.length_append, List.length_singleton] at hfind
    have hb : blocks[A.length]? = some b := by rw [hsplit]; simp
    have hix : (readerOf blocks).index[A.length]? = some ⟨firstKey b,
        (blockBytes (blocks.take A.length).flatten).length, (blockBytes b).length⟩ := by
      show (indexFrom 0 blocks)[_]? = _
      rw [getElem?_indexFrom, hb, zero_add]
      rfl
    have hasc' := ascending_append.1 (List.flatten_append ▸ hAB.1 :
      Ascending (A.flatten ++ [b].flatten))
    rw [List.flatten_singleton] at hasc'
    have hget := getFrom_eq (h.block_valid (List.mem_of_getElem? hb)) key [] _
      (length_le_blockBytes b)
    rw [getFrom_eq_lookup key hasc'.2.1] at hget
    have hbefore : A.flatten.lookup key = none := by
      rw [lookup_eq_none]
      intro hm
      obtain ⟨e, he, rfl⟩ := List.mem_map.1 hm
      -- the first key of the candidate is in between
      have hle : firstKey b ≤ e.1 := by
        have := List.mem_takeWhile_imp (hA ▸ (by simp : b ∈ A ++ [b]))
        simpa using this
      obtain ⟨a, l, rfl⟩ := List.exists_cons_of_ne_nil (h.nonempty b (List.mem_of_getElem? hb))
      exact absurd (hasc'.2.2 e he a List.mem_cons_self) (not_lt.2 hle)
    rw [show findBlock (readerOf blocks).index key = some A.length from hfind]
    dsimp only
    rw [hix]
    dsimp only
    rw [readerOf, readBlock_eq _ hb, List.flatten_append, List.flatten_singleton, lookup_append, hbefore,
      Option.none_or]
    exact hget

end Read

/-- **SSTable round trip**: a finished file of strictly ascending entries is accepted, and
    the reader returns the entries, their number and the value of every key. -/
theorem writeTable_roundTrip (blockSize : ℕ) {entries : List Entry} (hasc : Ascending entries)
    (hlen : ∀ e ∈ entries, e.1.Short ∧ e.2.Short)
    (hsize : (writeTable blockSize entries).1.length < 2 ^ 64) :
    ∃ r, SsTableReader.open_ (writeTable blockSize entries).1 = .ok r ∧
      r.readAll = .ok entries ∧ (∀ i, SsTableScan.nthEntry i r.scan = .ok entries[i]?) ∧
      (∀ key, r.get key = .ok (entries.lookup key)) ∧ r.entryCount = entries.length ∧
      (writeTable blockSize entries).2 = (entries.length,
        (entries.head?.map Prod.fst).getD .empty, (entries.getLast?.map Prod.fst).getD .empty) := by
  obtain ⟨blocks, rfl, hne, hw⟩ := writeTable_eq blockSize entries
  rw [hw] at hsize ⊢
  have h : BlocksOk blocks := ⟨hlen, hne, hsize⟩
  have hscan : ScanAt blocks (readerOf blocks).scan blocks.flatten :=
    ⟨rfl, Nat.zero_le _, [], [], rfl, rfl, by simp, rfl⟩
  exact ⟨readerOf blocks, open_fileOf h, readAll_eq h _, nthEntry_eq h hscan, get_eq h hasc, rfl, rfl⟩

/-- A file of two blocks. -/
def twoEntries : List Entry :=
  [(.singleton 1, .singleton 7), (.singleton 2, .empty)]

theorem writeTable_roundTrip_twoEntries :
    ∃ r, SsTableReader.open_ (writeTable 0 twoEntries).1 = .ok r ∧
      r.readAll = .ok twoEntries ∧ (∀ i, SsTableScan.nthEntry i r.scan = .ok twoEntries[i]?) ∧
      (∀ key, r.get key = .ok (twoEntries.lookup key)) ∧ r.entryCount = 2 ∧
      (writeTable 0 twoEntries).2 = (2, .singleton 1, .singleton 2) := by
  refine writeTable_roundTrip 0 (by decide) (by decide) ?_
  have hlen : (writeTable 0 twoEntries).1.length = 81 := by decide
  rw [hlen]
  exact Nat.lt_of_lt_of_le (show 81 < 128 by decide) (Nat.pow_le_pow_right Nat.two_pos
    (show 7 ≤ 64 by decide))

/-- **The files of the engine's model are what the bytes stand for.** -/
theorem writeTable_refines (blockSize : ℕ) {entries : List Entry} (hasc : Ascending entries)
    (hlen : ∀ e ∈ entries, entryFrame.valid e)
    (hsize : (writeTable blockSize entries).1.length < 2 ^ 64) (d : Lsm.Disk) (p : SstPath) :
    (writeTable blockSize entries).2 =
        ((Lsm.LsmEngine.writeAll (Lsm.SsTableWriter.new d p).1 entries).finish d).1 ∧
      ∃ r, SsTableReader.open_ (writeTable blockSize entries).1 = .ok r ∧
        r.readAll = .ok entries ∧
        ∀ key, r.get key = .ok ((⟨entries⟩ : Lsm.SsTableReader).get key) := by
  obtain ⟨blocks, rfl, hne, hw⟩ := writeTable_eq blockSize entries
  rw [hw] at hsize ⊢
  have h : BlocksOk blocks := ⟨hlen, hne, hsize⟩
  obtain ⟨hok, hentries, -⟩ := writeAll_spec _ (Lsm.SsTableWriter.Ok.new d p) blocks.flatten
  have hentries : (Lsm.LsmEngine.writeAll (Lsm.SsTableWriter.new d p).1 blocks.flatten).entries =
      blocks.flatten := hentries
  constructor
  · show _ = ((Lsm.LsmEngine.writeAll _ _).entryCount, _, _)
    rw [hok.count, hok.min, hok.max, hentries]
  · refine ⟨readerOf blocks, open_fileOf h, readAll_eq h _, fun key => ?_⟩
    rw [get_eq h hasc, Lsm.SsTableReader.get, getFrom_eq_lookup key hasc]

end Scry.Lsm.Layout
