/-
  The two readers agree.

  Forgetting the bound on the length of its file turns a reader in machine arithmetic into
  one of the layout (`erase`), and every fault of the layout is one of the machine
  (`lift`).  Under these two, opening a file is the same computation in both
  (`open_lift`), and so is whatever follows it as long as the places of its blocks are in
  reach (`Fits`): only the order of the index decides whether a binary search finds the
  block that a search from the left finds (`partitionPoint_eq`).  What the writer writes
  is in reach and in order, so the round trip of the layout holds in machine arithmetic.
-/
import Scry.Lsm.Proof.Reads

namespace Scry.Lsm.Machine

open Layout (IndexEntry footerSize magic slice hex)

/-- A fault of the layout, in machine terms. -/
def Stop.ofFault : Layout.Fault → Stop
  | .invalidData msg => .err (.invalidData msg)
  | .unexpectedEof => .err .unexpectedEof
  | .panicked => .panicked

section
variable {α β : Type}

/-- A computation of the layout, in machine terms. -/
def lift : Except Layout.Fault α → Checked α
  | .ok a => .ok a
  | .error e => .error (.ofFault e)

@[simp] theorem lift_ok (a : α) : lift (.ok a) = .ok a := rfl

@[simp] theorem lift_error (e : Layout.Fault) :
    lift (.error e : Except Layout.Fault α) = .error (.ofFault e) := rfl

theorem lift_bind (x : Except Layout.Fault α) (f : α → Except Layout.Fault β) :
    lift (x >>= f) = lift x >>= fun a => lift (f a) := by
  cases x <;> rfl

end

/-! ## Cursors -/

section
variable {buf : List Byte} {c : ℕ}

/-- **Decoding at a cursor** is the same computation. -/
theorem decodeEntry_lift (hbuf : buf.length ≤ isizeMax) (hc : c ≤ buf.length) :
    decodeEntry buf c = lift (Layout.decodeEntry buf c) := by
  have hmax := hbuf
  rw [isizeMax] at hmax
  have hadd : add c 4 = .ok (c + 4) := add_eq (by omega)
  rw [decodeEntry, Layout.decodeEntry]
  simp only [hadd, bind, Except.bind]
  by_cases h₁ : c + 4 > buf.length
  · rw [if_pos h₁, if_pos h₁]
    rfl
  have h₁' : c + 4 ≤ buf.length := not_lt.1 h₁
  have hkey := ofLeBytes_slice_lt h₁'
  rw [if_neg h₁, if_neg h₁, fromLeBytes_eq hbuf h₁']
  generalize ofLeBytes (slice buf c (c + 4)) = keyLen at hkey ⊢
  have hadd₂ : add (c + 4) keyLen = .ok (c + 4 + keyLen) := add_eq (by omega)
  have hadd₃ : add (c + 4 + keyLen) 4 = .ok (c + 4 + keyLen + 4) := add_eq (by omega)
  simp only [hadd₂, hadd₃]
  by_cases h₂ : c + 4 + keyLen + 4 > buf.length
  · rw [if_pos h₂, if_pos h₂]
    rfl
  have h₂' : c + 4 + keyLen + 4 ≤ buf.length := not_lt.1 h₂
  have hval := ofLeBytes_slice_lt h₂'
  rw [if_neg h₂, if_neg h₂, sliceOf_eq (by omega) (by omega), fromLeBytes_eq hbuf h₂']
  generalize ofLeBytes (slice buf (c + 4 + keyLen) (c + 4 + keyLen + 4)) = valLen at hval ⊢
  have hadd₄ : add (c + 4 + keyLen + 4) valLen = .ok (c + 4 + keyLen + 4 + valLen) :=
    add_eq (by omega)
  simp only [hadd₄]
  by_cases h₃ : c + 4 + keyLen + 4 + valLen > buf.length
  · rw [if_pos h₃, if_pos h₃]
    rfl
  · rw [if_neg h₃, if_neg h₃, sliceOf_eq (by omega) (not_lt.1 h₃)]
    rfl

/-- What is decoded ends in the buffer, after its cursor. -/
theorem decodeEntry_next (hbuf : buf.length ≤ isizeMax) (hc : c ≤ buf.length) {k v : Bytes}
    {next : ℕ} (h : Layout.decodeEntry buf c = .ok (k, v, next)) :
    c < next ∧ next ≤ buf.length := by
  have hm : decodeEntry buf c = .ok (k, v, next) := by rw [decodeEntry_lift hbuf hc, h, lift_ok]
  rcases decodeEntry_eq hbuf hc with ⟨-, hdec⟩ | ⟨e, next', -, hlt, hle, hdec⟩
  · rw [hm] at hdec
    cases hdec
  · rw [hm] at hdec
    cases hdec
    exact ⟨hlt, hle⟩

theorem parseIndexFrom_lift (hbuf : buf.length ≤ isizeMax) {n : ℕ} (hc : c ≤ buf.length)
    (hn : buf.length - c ≤ n) (entries : List IndexEntry) :
    parseIndexFrom buf (n + 1) c entries = .ok (Layout.parseIndexFrom buf n c entries) := by
  have hmax := hbuf
  rw [isizeMax] at hmax
  induction n generalizing c entries with
  | zero =>
    rw [parseIndexFrom, if_neg (by omega)]
    rfl
  | succ n ih =>
    rw [parseIndexFrom, Layout.parseIndexFrom]
    by_cases hlt : c < buf.length
    · rw [if_pos hlt, if_pos hlt, indexEntryAt]
      have hadd : add c 4 = .ok (c + 4) := add_eq (by omega)
      simp only [hadd, bind, Except.bind]
      by_cases h₁ : c + 4 > buf.length
      · rw [if_pos h₁, if_pos h₁]
        rfl
      have h₁' : c + 4 ≤ buf.length := not_lt.1 h₁
      have hkey := ofLeBytes_slice_lt h₁'
      rw [if_neg h₁, if_neg h₁, fromLeBytes_eq hbuf h₁']
      generalize ofLeBytes (slice buf c (c + 4)) = keyLen at hkey ⊢
      have hadd₂ : add (c + 4) keyLen = .ok (c + 4 + keyLen) := add_eq (by omega)
      have hadd₃ : add (c + 4 + keyLen) 16 = .ok (c + 4 + keyLen + 16) := add_eq (by omega)
      simp only [hadd₂, hadd₃]
      by_cases h₂ : c + 4 + keyLen + 16 > buf.length
      · rw [if_pos h₂, if_pos h₂]
        rfl
      have hadd₄ : add (c + 4 + keyLen) 8 = .ok (c + 4 + keyLen + 8) := add_eq (by omega)
      have hadd₅ : add (c + 4 + keyLen + 8) 8 = .ok (c + 4 + keyLen + 8 + 8) := add_eq (by omega)
      have hslice : sliceOf buf (c + 4) (c + 4 + keyLen) =
          .ok (slice buf (c + 4) (c + 4 + keyLen)) := sliceOf_eq (by omega) (by omega)
      have hoffset := fromLeBytes_eq (a := c + 4 + keyLen) (w := 8) hbuf (by omega)
      have hblockLen := fromLeBytes_eq (a := c + 4 + keyLen + 8) (w := 8) hbuf (by omega)
      rw [if_neg h₂, if_neg h₂]
      simp only [hslice, hoffset, hblockLen, hadd₄, hadd₅]
      exact ih (by omega) (by omega) _
    · rw [if_neg hlt, if_neg hlt]

theorem parseIndex_lift (hbuf : buf.length ≤ isizeMax) :
    parseIndex buf = .ok (Layout.parseIndex buf) :=
  parseIndexFrom_lift hbuf (Nat.zero_le _) (Nat.sub_le _ _) []

theorem readEntries_lift (hbuf : buf.length ≤ isizeMax) {n : ℕ} (hc : c ≤ buf.length)
    (hn : buf.length - c ≤ n) (entries : List Entry) :
    SsTableReader.readEntries buf (n + 1) c entries =
      lift (Layout.SsTableReader.readEntries buf n c entries) := by
  induction n generalizing c entries with
  | zero =>
    rw [SsTableReader.readEntries, if_neg (by omega)]
    rfl
  | succ n ih =>
    rw [SsTableReader.readEntries, Layout.SsTableReader.readEntries]
    by_cases hlt : c < buf.length
    · rw [if_pos hlt, if_pos hlt, decodeEntry_lift hbuf hc, lift_bind]
      cases hdec : Layout.decodeEntry buf c with
      | error e => rfl
      | ok r =>
        obtain ⟨k, v, next⟩ := r
        have hnext := decodeEntry_next hbuf hc hdec
        exact ih hnext.2 (by omega) _
    · rw [if_neg hlt, if_neg hlt]
      rfl

theorem getFrom_lift (hbuf : buf.length ≤ isizeMax) (key : Bytes) {n : ℕ} (hc : c ≤ buf.length)
    (hn : buf.length - c ≤ n) :
    SsTableReader.getFrom buf key (n + 1) c =
      lift (Layout.SsTableReader.getFrom buf key n c) := by
  induction n generalizing c with
  | zero =>
    rw [SsTableReader.getFrom, if_neg (by omega)]
    rfl
  | succ n ih =>
    rw [SsTableReader.getFrom, Layout.SsTableReader.getFrom]
    by_cases hlt : c < buf.length
    · rw [if_pos hlt, if_pos hlt, decodeEntry_lift hbuf hc, lift_bind]
      cases hdec : Layout.decodeEntry buf c with
      | error e => rfl
      | ok r =>
        obtain ⟨k, v, next⟩ := r
        have hnext := decodeEntry_next hbuf hc hdec
        simp only [lift_ok, bind, Except.bind]
        cases compare k key with
        | eq => rfl
        | gt => rfl
        | lt => exact ih hnext.2 (by omega)
    · rw [if_neg hlt, if_neg hlt]
      rfl

end

/-! ## Binary search -/

section
variable {α : Type} {p : α → Bool} {l : List α}

/-- In a list that `p` partitions, `p` holds exactly before the partition point. -/
theorem any_getElem?_iff (h : l.Pairwise fun a b => p b → p a) (i : ℕ) :
    l[i]?.any p ↔ i < (l.takeWhile p).length := by
  induction l generalizing i with
  | nil => simp
  | cons a l ih =>
    obtain ⟨ha, hl⟩ := List.pairwise_cons.1 h
    rw [List.takeWhile_cons]
    by_cases hp : p a
    · rw [if_pos hp]
      cases i with
      | zero => simp [hp]
      | succ i => simpa using ih hl i
    · rw [if_neg hp]
      cases i with
      | zero => simp [hp]
      | succ i =>
        refine iff_of_false (fun hany => ?_) (Nat.not_lt_zero _)
        rw [List.getElem?_cons_succ, Option.any_eq_true] at hany
        obtain ⟨b, hb, hpb⟩ := hany
        exact hp (ha b (List.mem_of_getElem? hb) hpb)

/-- The loop narrows down to the partition point, or to the position before it. -/
theorem narrow_spec (h : l.Pairwise fun a b => p b → p a) {n base size : ℕ} (hn : size ≤ n + 1)
    (hbase : base = 0 ∨ base < (l.takeWhile p).length)
    (hsize : (l.takeWhile p).length ≤ base + size) :
    (narrow p l n base size = 0 ∨ narrow p l n base size < (l.takeWhile p).length) ∧
      (l.takeWhile p).length ≤ narrow p l n base size + 1 := by
  induction n generalizing base size with
  | zero =>
    rw [narrow]
    exact ⟨hbase, by omega⟩
  | succ n ih =>
    rw [narrow]
    by_cases hgt : size > 1
    · rw [if_pos hgt]
      dsimp only
      by_cases hmid : l[base + size / 2]?.any p
      · rw [if_pos hmid]
        exact ih (by omega) (Or.inr ((any_getElem?_iff h _).1 hmid)) (by omega)
      · rw [if_neg hmid]
        rw [any_getElem?_iff h] at hmid
        exact ih (by omega) hbase (by omega)
    · rw [if_neg hgt]
      exact ⟨hbase, by omega⟩

/-- **A binary search finds the partition point** of a partitioned list. -/
theorem partitionPoint_eq (h : l.Pairwise fun a b => p b → p a) :
    partitionPoint p l = Layout.partitionPoint p l := by
  rw [partitionPoint, Layout.partitionPoint]
  by_cases hnil : l.isEmpty
  · rw [if_pos hnil, List.isEmpty_iff.1 hnil]
    rfl
  · obtain ⟨hb, hk⟩ := narrow_spec h (Nat.le_succ l.length) (Or.inl rfl)
      ((List.takeWhile_prefix p).length_le.trans (Nat.zero_add _).ge)
    rw [if_neg hnil]
    dsimp only
    by_cases hany : l[narrow p l l.length 0 l.length]?.any p
    · rw [if_pos hany]
      rw [any_getElem?_iff h] at hany
      omega
    · rw [if_neg hany]
      rw [any_getElem?_iff h] at hany
      omega

end

/-- The index is in the order of its first keys. -/
def Sorted (index : List IndexEntry) : Prop :=
  index.Pairwise fun a b => a.firstKey ≤ b.firstKey

theorem findBlock_lift {index : List IndexEntry} (h : Sorted index) (key : Bytes) :
    findBlock index key = Layout.findBlock index key := by
  cases index with
  | nil => rfl
  | cons first rest =>
    rw [findBlock, Layout.findBlock, partitionPoint_eq]
    exact h.imp fun hab hb => decide_eq_true (hab.trans (of_decide_eq_true hb))

/-! ## Readers -/

namespace SsTableReader

/-- The reader, without the bound on the length of its file. -/
def erase (r : SsTableReader) : Layout.SsTableReader := ⟨r.file.bytes, r.index, r.entryCount⟩

end SsTableReader

/-- The place of a block is in reach. -/
structure Reachable (ie : IndexEntry) : Prop where
  offset : ie.offset ≤ isizeMax
  blockLen : ie.blockLen ≤ isizeMax

theorem readBlock_lift (r : SsTableReader) {ie : IndexEntry} (h : Reachable ie) :
    r.readBlock ie.offset ie.blockLen = lift (r.erase.readBlock ie.offset ie.blockLen) := by
  have hseek : r.file.seek ie.offset = .ok ie.offset := if_pos h.offset
  have hcap : withCapacity ie.blockLen 1 = .ok () := if_pos ((mul_one _).trans_le h.blockLen)
  rw [SsTableReader.readBlock, hseek]
  simp only [hcap, bind, Except.bind]
  rw [File.readExact, Layout.SsTableReader.readBlock]
  by_cases hin : ie.blockLen = 0 ∨ ie.offset + ie.blockLen ≤ r.file.len
  · rw [if_pos hin, if_pos (show _ ∨ _ ≤ r.erase.file.length from hin)]
    rfl
  · rw [if_neg hin, if_neg (show ¬ (_ ∨ _ ≤ r.erase.file.length) from hin)]
    rfl

/-- What is read of a block is no longer than a vector. -/
theorem length_le_of_readBlock (r : SsTableReader) {ie : IndexEntry} {block : List Byte}
    (h : r.erase.readBlock ie.offset ie.blockLen = .ok block) : block.length ≤ isizeMax := by
  rw [Layout.SsTableReader.readBlock] at h
  split_ifs at h
  cases h
  exact length_blockOf_le r.file ie

/-- Every block is in reach, and a vector can hold the entries that the file announces. -/
structure Fits (r : SsTableReader) : Prop where
  reachable : ∀ ie ∈ r.index, Reachable ie
  count : r.entryCount * pairSize ≤ isizeMax

section
variable {r : SsTableReader} (h : ∀ ie ∈ r.index, Reachable ie)
include h

/-- **A full read** is the same computation. -/
theorem readAll_lift (hcount : r.entryCount * pairSize ≤ isizeMax) :
    r.readAll = lift r.erase.readAll := by
  have hcap : withCapacity r.entryCount pairSize = .ok () := if_pos hcount
  rw [SsTableReader.readAll, hcap, Layout.SsTableReader.readAll]
  show List.foldlM _ _ r.index = lift (List.foldlM _ _ r.index)
  generalize ([] : List Entry) = entries
  generalize hl : r.index = l at h
  clear hl
  induction l generalizing entries with
  | nil => rfl
  | cons ie l ih =>
    rw [List.foldlM_cons, List.foldlM_cons, lift_bind, SsTableReader.readWhole,
      readBlock_lift r (h ie List.mem_cons_self), lift_bind]
    cases hread : r.erase.readBlock ie.offset ie.blockLen with
    | error e => rfl
    | ok block =>
      have hlen := length_le_of_readBlock r hread
      simp only [lift_ok, bind, Except.bind]
      rw [readEntries_lift hlen (Nat.zero_le _) (Nat.sub_le _ _)]
      cases Layout.SsTableReader.readEntries block block.length 0 entries with
      | error e => rfl
      | ok es => exact ih es fun ie' hie => h ie' (List.mem_cons_of_mem ie hie)

/-- **A lookup** is the same computation in an index in order. -/
theorem get_lift (hs : Sorted r.index) (key : Bytes) : r.get key = lift (r.erase.get key) := by
  rw [SsTableReader.get, Layout.SsTableReader.get, findBlock_lift hs,
    show r.erase.index = r.index from rfl]
  cases Layout.findBlock r.index key with
  | none => rfl
  | some i =>
    dsimp only
    rw [SsTableReader.entryAt]
    cases hidx : r.index[i]? with
    | none => rfl
    | some ie =>
      show (r.readBlock ie.offset ie.blockLen >>= _) = _
      rw [readBlock_lift r (h ie (List.mem_of_getElem? hidx))]
      dsimp only
      rw [lift_bind]
      cases hread : r.erase.readBlock ie.offset ie.blockLen with
      | error e => rfl
      | ok block =>
        exact getFrom_lift (length_le_of_readBlock r hread) key (Nat.zero_le _) (Nat.sub_le _ _)

end

/-! ## Scans -/

namespace SsTableScan

/-- The iterator, without the bound on the length of its file. -/
def erase (s : SsTableScan) : Layout.SsTableScan :=
  ⟨s.reader.erase, s.blockIdx, s.blockBuf, s.cursor⟩

/-- What the iterator needs to go on: its cursor is in its buffer, which is a vector, and
    the blocks are in reach. -/
structure Ok (s : SsTableScan) : Prop where
  cursor : s.cursor ≤ s.blockBuf.length
  buf : s.blockBuf.length ≤ isizeMax
  blockIdx : s.blockIdx ≤ s.reader.index.length
  reachable : ∀ ie ∈ s.reader.index, Reachable ie

/-- The loop ends with the same entry and iterator in both, or with an error that the next
    call repeats. -/
theorem nextFrom_lift {n : ℕ} {s : SsTableScan} (hs : s.Ok)
    (hn : s.reader.index.length - s.blockIdx < n) :
    (∃ x s', nextFrom n s = (.ok x, s') ∧ s'.Ok ∧
      Layout.SsTableScan.nextFrom n s.erase = .ok (x, s'.erase)) ∨
    ∃ e s', nextFrom n s = (.error (.ofFault e), s') ∧
      s'.nextEntry = (.error (.ofFault e), s') ∧
      Layout.SsTableScan.nextFrom n s.erase = .error e := by
  induction n generalizing s with
  | zero => omega
  | succ n ih =>
    rw [nextFrom, Layout.SsTableScan.nextFrom]
    by_cases hlt : s.cursor < s.blockBuf.length
    · have hdec := decodeEntry_lift hs.buf hs.cursor
      rw [if_pos hlt, if_pos (show s.erase.cursor < s.erase.blockBuf.length from hlt), hdec]
      cases h : Layout.decodeEntry s.blockBuf s.cursor with
      | error e =>
        rw [h] at hdec
        exact Or.inr ⟨e, s, rfl, nextEntry_truncated hlt hdec, by
          rw [show Layout.decodeEntry s.erase.blockBuf s.erase.cursor = _ from h]
          rfl⟩
      | ok r =>
        obtain ⟨k, v, next⟩ := r
        refine Or.inl ⟨some (k, v), { s with cursor := next }, rfl,
          ⟨(decodeEntry_next hs.buf hs.cursor h).2, hs.buf, hs.blockIdx, hs.reachable⟩, ?_⟩
        rw [show Layout.decodeEntry s.erase.blockBuf s.erase.cursor = _ from h]
        rfl
    · rw [if_neg hlt, if_neg (show ¬ s.erase.cursor < s.erase.blockBuf.length from hlt)]
      cases hidx : s.reader.index[s.blockIdx]? with
      | none =>
        rw [show s.erase.reader.index[s.erase.blockIdx]? = none from hidx]
        exact Or.inl ⟨none, s, rfl, hs, rfl⟩
      | some ie =>
        rw [show s.erase.reader.index[s.erase.blockIdx]? = some ie from hidx]
        have hread := readBlock_lift s.reader (hs.reachable ie (List.mem_of_getElem? hidx))
        dsimp only
        rw [hread]
        cases hb : s.reader.erase.readBlock ie.offset ie.blockLen with
        | error e =>
          rw [hb] at hread
          exact Or.inr ⟨e, s, rfl, nextEntry_unread hlt hidx hread, by
            rw [show s.erase.reader.readBlock ie.offset ie.blockLen = _ from hb]
            rfl⟩
        | ok block =>
          have hi := (List.getElem?_eq_some_iff.1 hidx).1
          rw [show s.erase.reader.readBlock ie.offset ie.blockLen = _ from hb]
          exact ih ⟨Nat.zero_le _, length_le_of_readBlock _ hb, hi, hs.reachable⟩
            (by dsimp only; omega)

/-- More turns than blocks are left do not matter. -/
theorem nextFrom_of_le {n m : ℕ} {s : SsTableScan} (hn : s.reader.index.length - s.blockIdx < n)
    (hm : n ≤ m) : nextFrom m s = nextFrom n s := by
  induction m, hm using Nat.le_induction with
  | base => rfl
  | succ m hm ih => rw [nextFrom_succ (by omega), ih]

/-- **A call of `next_entry`** is the same computation. -/
theorem nextEntry_lift {s : SsTableScan} (hs : s.Ok) :
    (∃ x s', s.nextEntry = (.ok x, s') ∧ s'.Ok ∧ s.erase.nextEntry = .ok (x, s'.erase)) ∨
    ∃ e s', s.nextEntry = (.error (.ofFault e), s') ∧
      s'.nextEntry = (.error (.ofFault e), s') ∧ s.erase.nextEntry = .error e := by
  have hidx := hs.blockIdx
  have hnext : s.nextEntry = nextFrom (s.reader.index.length + 1 - s.blockIdx) s :=
    nextFrom_of_le (by omega) (by omega)
  rw [hnext]
  exact nextFrom_lift hs (by omega)

/-- **A scan** is the same computation, call after call. -/
theorem nthEntry_lift {s : SsTableScan} (hs : s.Ok) (n : ℕ) :
    s.nthEntry n = lift (Layout.SsTableScan.nthEntry n s.erase) := by
  induction n generalizing s with
  | zero =>
    rw [nthEntry, advance, Layout.SsTableScan.nthEntry]
    rcases nextEntry_lift hs with ⟨x, s', h, hok, hl⟩ | ⟨e, s', h, hrepeat, hl⟩
    · rw [h, hl]
      rfl
    · rw [h, hl]
      rfl
  | succ n ih =>
    rw [nthEntry, advance, Layout.SsTableScan.nthEntry]
    rcases nextEntry_lift hs with ⟨x, s', h, hok, hl⟩ | ⟨e, s', h, hrepeat, hl⟩
    · rw [h, hl]
      exact ih hok
    · -- the iterator stays where it failed
      have hstays (n : ℕ) : s'.advance n = s' := by
        induction n with
        | zero => rfl
        | succ n ih => rw [advance, hrepeat, ih]
      rw [h, hl, hstays, hrepeat]
      rfl

end SsTableScan

/-! ## Files -/

/-- **Opening a file** is the same computation: the machine overflows where the lengths of
    the layout do. -/
theorem open_lift (f : File) : (SsTableReader.open_ f).map SsTableReader.erase =
    lift (Layout.SsTableReader.open_ f.bytes) := by
  have hlen : f.len ≤ isizeMax := f.length_le
  rw [SsTableReader.open_, Layout.SsTableReader.open_, ← File.len]
  by_cases hsmall : f.len < footerSize
  · rw [if_pos hsmall, if_pos hsmall]
    rfl
  have hsize : footerSize ≤ f.len := not_lt.1 hsmall
  have hread : f.readExact (f.len - footerSize) footerSize =
      .ok (f.bytes.drop (f.len - footerSize)) := by
    rw [File.readExact, if_pos (Or.inr (by omega)), slice, Nat.add_sub_cancel_left,
      List.take_of_length_le]
    rw [List.length_drop, ← File.len]
    omega
  have hfooter : (f.bytes.drop (f.len - footerSize)).length = 20 := by
    rw [List.length_drop, ← File.len, Nat.sub_sub_self hsize]
    rfl
  have hle (a w : ℕ) (h : a + w ≤ 20) : fromLeBytes (f.bytes.drop (f.len - footerSize)) a w =
      .ok (ofLeBytes (slice (f.bytes.drop (f.len - footerSize)) a (a + w))) :=
    fromLeBytes_eq (by rw [hfooter]; decide) (by rw [hfooter]; exact h)
  rw [if_neg hsmall, if_neg hsmall]
  simp only [hread, hle 0 8 (by decide), hle 8 8 (by decide), hle 16 4 (by decide), bind,
    Except.bind, Nat.zero_add, Nat.reduceAdd]
  generalize ofLeBytes (slice (f.bytes.drop (f.len - footerSize)) 0 8) = indexOffset
  generalize ofLeBytes (slice (f.bytes.drop (f.len - footerSize)) 8 16) = entryCount
  generalize ofLeBytes (slice (f.bytes.drop (f.len - footerSize)) 16 20) = found
  by_cases hmagic : found ≠ magic
  · rw [if_pos hmagic, if_pos hmagic]
    rfl
  rw [if_neg hmagic, if_neg hmagic, sub, if_pos hsize]
  dsimp only
  by_cases hoff : f.len - footerSize < indexOffset
  · rw [if_pos hoff, sub, if_neg (not_le.2 hoff)]
    rfl
  have hseek : f.seek indexOffset = .ok indexOffset := if_pos (by omega)
  have hcap : withCapacity (f.len - footerSize - indexOffset) 1 = .ok () := if_pos (by omega)
  have hbuf : f.readExact indexOffset (f.len - footerSize - indexOffset) =
      .ok (slice f.bytes indexOffset (indexOffset + (f.len - footerSize - indexOffset))) :=
    if_pos (Or.inr (by omega))
  have hindex : (slice f.bytes indexOffset
      (indexOffset + (f.len - footerSize - indexOffset))).length ≤ isizeMax := by
    rw [length_slice (by rw [← File.len]; omega)]
    omega
  rw [if_neg hoff, sub, if_pos (not_lt.1 hoff)]
  simp only [hseek, hcap, hbuf, parseIndex_lift hindex]
  rfl

/-- **The two readers agree** on every file: on opening it and, if its blocks are in reach
    and a vector can hold the entries that it announces, on reading all of it at once or
    one entry at a time, and on looking up a key in an index in order. -/
theorem reads_agree (f : File) :
    (SsTableReader.open_ f).map SsTableReader.erase =
        lift (Layout.SsTableReader.open_ f.bytes) ∧
      ∀ r, SsTableReader.open_ f = .ok r → Fits r →
        r.readAll = lift r.erase.readAll ∧
        (∀ n, r.scan.nthEntry n = lift (Layout.SsTableScan.nthEntry n r.erase.scan)) ∧
        (Sorted r.index → ∀ key, r.get key = lift (r.erase.get key)) := by
  refine ⟨open_lift f, fun r _ h => ⟨readAll_lift h.reachable h.count, fun n => ?_,
    fun hs key => get_lift h.reachable hs key⟩⟩
  exact SsTableScan.nthEntry_lift ⟨le_rfl, Nat.zero_le _, Nat.zero_le _, h.reachable⟩ n

/-! ## Written files -/

/-- The index of ascending entries is in order. -/
theorem sorted_indexFrom {blocks : List (List Entry)} (hne : ∀ b ∈ blocks, b ≠ [])
    (hasc : Ascending blocks.flatten) (offset : ℕ) : Sorted (Layout.indexFrom offset blocks) := by
  induction blocks generalizing offset with
  | nil => exact List.Pairwise.nil
  | cons b bs ih =>
    obtain ⟨-, hbs, hlt⟩ := ascending_append.1 (List.flatten_cons ▸ hasc)
    refine List.pairwise_cons.2 ⟨fun e he => ?_,
      ih (fun b' hb' => hne b' (List.mem_cons_of_mem b hb')) hbs _⟩
    obtain ⟨b', hb', hfirst, -⟩ := Layout.mem_indexFrom he
    obtain ⟨x, l, rfl⟩ := List.exists_cons_of_ne_nil (hne b List.mem_cons_self)
    obtain ⟨y, l', rfl⟩ := List.exists_cons_of_ne_nil (hne b' (List.mem_cons_of_mem _ hb'))
    rw [hfirst]
    exact (hlt x List.mem_cons_self y (List.mem_flatten.2 ⟨_, hb', List.mem_cons_self⟩)).le

/-- **The round trip in machine arithmetic**: a finished file of strictly ascending entries
    is opened, its scan and its lookups return what was written, and so does a full read if
    a vector can hold as many entries. -/
theorem open_written (blockSize : ℕ) {entries : List Entry} (hasc : Ascending entries)
    (hlen : ∀ e ∈ entries, e.1.Short ∧ e.2.Short)
    (hfile : (Layout.writeTable blockSize entries).1.length ≤ isizeMax) :
    ∃ r, SsTableReader.open_ ⟨(Layout.writeTable blockSize entries).1, hfile⟩ = .ok r ∧
      r.entryCount = entries.length ∧ (∀ n, r.scan.nthEntry n = .ok entries[n]?) ∧
      (∀ key, r.get key = .ok (entries.lookup key)) ∧
      (entries.length * pairSize ≤ isizeMax → r.readAll = .ok entries) := by
  obtain ⟨blocks, rfl, hne, hw⟩ := Layout.writeTable_eq blockSize entries
  generalize hf : (⟨(Layout.writeTable blockSize blocks.flatten).1, hfile⟩ : File) = f
  have hbytes : f.bytes = Layout.fileOf blocks := hf ▸ congrArg Prod.fst hw
  rw [hw] at hfile
  have hok : Layout.BlocksOk blocks :=
    ⟨hlen, hne, lt_of_le_of_lt hfile (by rw [isizeMax]; norm_num)⟩
  -- the reader of the layout, with the bound
  have hopen := open_lift f
  rw [hbytes, Layout.open_fileOf hok] at hopen
  obtain ⟨r, hr, herase⟩ : ∃ r, SsTableReader.open_ f = .ok r ∧ r.erase = Layout.readerOf blocks := by
    cases h : SsTableReader.open_ f with
    | error e =>
      rw [h] at hopen
      cases hopen
    | ok r =>
      rw [h] at hopen
      exact ⟨r, rfl, Except.ok.inj hopen⟩
  have hindex : r.index = Layout.indexFrom 0 blocks := congrArg Layout.SsTableReader.index herase
  have hcount : r.entryCount = blocks.flatten.length :=
    congrArg Layout.SsTableReader.entryCount herase
  have hreach : ∀ ie ∈ r.index, Reachable ie := by
    intro ie hie
    obtain ⟨-, -, -, hle⟩ := Layout.mem_indexFrom (hindex ▸ hie)
    rw [Layout.fileOf, Layout.length_fileWith] at hfile
    exact ⟨by omega, by omega⟩
  have hscan : Layout.ScanAt blocks (Layout.readerOf blocks).scan blocks.flatten :=
    ⟨rfl, Nat.zero_le _, [], [], rfl, rfl, by simp, rfl⟩
  refine ⟨r, hr, hcount, fun n => ?_, fun key => ?_, fun hcap => ?_⟩
  · rw [SsTableScan.nthEntry_lift ⟨le_rfl, Nat.zero_le _, Nat.zero_le _, hreach⟩,
      show r.scan.erase = r.erase.scan from rfl, herase, Layout.nthEntry_eq hok hscan]
    rfl
  · rw [get_lift hreach (hindex ▸ sorted_indexFrom hne hasc 0), herase, Layout.get_eq hok hasc]
    rfl
  · rw [readAll_lift hreach (hcount ▸ hcap), herase, Layout.readerOf, Layout.readAll_eq hok]
    rfl

/-- A file of two blocks is read back. -/
theorem open_written_twoEntries :
    ∃ r, SsTableReader.open_ ⟨(Layout.writeTable 0 Layout.twoEntries).1, by decide⟩ = .ok r ∧
      r.entryCount = 2 ∧ (∀ n, r.scan.nthEntry n = .ok Layout.twoEntries[n]?) ∧
      (∀ key, r.get key = .ok (Layout.twoEntries.lookup key)) ∧
      (2 * pairSize ≤ isizeMax → r.readAll = .ok Layout.twoEntries) :=
  open_written 0 (by decide) (by decide) (by decide)

end Scry.Lsm.Machine
