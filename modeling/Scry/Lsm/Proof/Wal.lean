/-
  Recovery of the write-ahead log.

  A record is a frame (`Wal.rawFrame`), so a cut through a log leaves whole records and a
  part that does not decode: `recover` returns exactly the whole ones
  (`recover_cut`).  What it does not do is to cut the torn part off: records appended
  after it are lost (`recover_restart_iff`).  And what a `BufWriter` holds is not in the
  file, so a crash loses it (`survives_iff`).
-/
import Scry.Lsm.Wal

namespace Scry.Lsm

namespace Wal

/-! ## Records as frames -/

/-- The format of a record, whatever its type. -/
def rawFrame : Frame (Byte × Bytes × Bytes) where
  valid r := r.2.1.Short ∧ r.2.2.Short
  encode r := r.1 :: (prefixed r.2.1.toList ++ prefixed r.2.2.toList)
  decode := readRecord
  decode_iff := by
    rintro bs ⟨type, key, value⟩ rest
    constructor
    · intro h
      obtain ⟨⟨ty, bs₁⟩, h₁, h⟩ := Option.bind_eq_some_iff.1 h
      obtain ⟨⟨k, bs₂⟩, h₂, h⟩ := Option.bind_eq_some_iff.1 h
      obtain ⟨⟨v, bs₃⟩, h₃, h⟩ := Option.bind_eq_some_iff.1 h
      cases h
      obtain ⟨hty, rfl⟩ := readExact_eq_some.1 h₁
      obtain ⟨hk, rfl⟩ := readPrefixed_eq_some.1 h₂
      obtain ⟨hv, rfl⟩ := readPrefixed_eq_some.1 h₃
      obtain ⟨b, rfl⟩ := List.length_eq_one_iff.1 hty
      refine ⟨⟨hk, hv⟩, ?_⟩
      rw [← List.append_assoc (prefixed k)]
      rfl
    · rintro ⟨⟨hk, hv⟩, rfl⟩
      have h₁ : readExact 1 (type :: (prefixed key.toList ++ prefixed value.toList) ++ rest) =
          some ([type], prefixed key.toList ++ (prefixed value.toList ++ rest)) :=
        readExact_eq_some.2 ⟨rfl, by simp⟩
      have h₂ : readPrefixed (prefixed key.toList ++ (prefixed value.toList ++ rest)) =
          some (key.toList, prefixed value.toList ++ rest) := readPrefixed_eq_some.2 ⟨hk, rfl⟩
      have h₃ : readPrefixed (prefixed value.toList ++ rest) = some (value.toList, rest) :=
        readPrefixed_eq_some.2 ⟨hv, rfl⟩
      simp only [readRecord, h₁, h₂, h₃, Option.bind_eq_bind, Option.bind_some]
      rfl
  encode_ne_nil _ := List.cons_ne_nil _ _

theorem readRecord_nil : readRecord [] = none := Frame.decode_nil (c := rawFrame)

/-- The frame of a record. -/
def raw : WalRecord → Byte × Bytes × Bytes
  | .put key value => (recordPut, key, value)
  | .delete key => (recordDelete, key, .empty)

theorem raw_valid {r : WalRecord} (h : r.Short) : rawFrame.valid (raw r) := by
  cases r with
  | put key value => exact h
  | delete key => exact ⟨h, Nat.two_pow_pos 32⟩

theorem interpret_raw (r : WalRecord) : interpret (raw r) = .ok r := by
  cases r with
  | put key value => simp only [raw, interpret, if_pos]
  | delete key => simp only [raw, interpret, if_pos, if_neg (show recordDelete ≠ recordPut by decide)]

theorem parts_flatten (r : WalRecord) : (parts r).flatten = rawFrame.encode (raw r) := by
  cases r with
  | put key value =>
    show ([recordPut] ++ (leBytes 4 key.len ++ (key.toList ++ (leBytes 4 value.len ++
      (value.toList ++ []))))) = _
    rw [List.append_nil, ← List.append_assoc (leBytes 4 key.len)]
    rfl
  | delete key =>
    show ([recordDelete] ++ (leBytes 4 key.len ++ (key.toList ++ (leBytes 4 0 ++ [])))) = _
    rw [List.append_nil, ← List.append_assoc (leBytes 4 key.len)]
    rfl

/-! ## Writing -/

theorem writeAll_bytes (w : Wal) (buf : List Byte) : (w.writeAll buf).bytes = w.bytes ++ buf := by
  unfold writeAll bytes flushBuf
  split_ifs with h₁ h₂ h₃ h₃
  · exact (List.append_assoc _ _ _).symm
  · simp
  · simp
  · -- a direct write that needs no flush meets an empty buffer
    have hb : w.buffer = [] := by
      have hcap : bufCapacity = 8192 := rfl
      rw [← List.length_eq_zero_iff]
      omega
    simp [hb]
  · simp

theorem foldl_writeAll_bytes (w : Wal) (ps : List (List Byte)) :
    (ps.foldl writeAll w).bytes = w.bytes ++ ps.flatten := by
  induction ps generalizing w with
  | nil => exact (List.append_nil _).symm
  | cons p ps ih =>
    rw [List.foldl_cons, ih, writeAll_bytes, List.append_assoc, List.flatten_cons]

theorem append_eq (w : Wal) (r : WalRecord) : w.append r = (parts r).foldl writeAll w := by
  cases r <;> rfl

/-- The bytes that records are written as. -/
def logOf (rs : List WalRecord) : List Byte := ((open_ none).appendAll rs).bytes

theorem appendAll_bytes (w : Wal) (rs : List WalRecord) :
    (w.appendAll rs).bytes = w.bytes ++ rawFrame.encodeAll (rs.map raw) := by
  induction rs generalizing w with
  | nil => exact (List.append_nil _).symm
  | cons r rs ih =>
    rw [appendAll, List.foldl_cons, ← appendAll, ih, append_eq, foldl_writeAll_bytes,
      parts_flatten, List.append_assoc, List.map_cons, Frame.encodeAll_cons]

theorem logOf_eq (rs : List WalRecord) : logOf rs = rawFrame.encodeAll (rs.map raw) :=
  appendAll_bytes _ _

theorem logOf_append (rs rs' : List WalRecord) : logOf (rs ++ rs') = logOf rs ++ logOf rs' := by
  simp only [logOf_eq, List.map_append, Frame.encodeAll_append]

/-! ## Reading -/

/-- The loop takes the records off the stream. -/
theorem recoverLoop_append {rs : List WalRecord} (hrs : ∀ r ∈ rs, r.Short) (tail : List Byte)
    (n : ℕ) (acc : List WalRecord) :
    recoverLoop (n + rs.length) (logOf rs ++ tail) acc = recoverLoop n tail (acc ++ rs) := by
  rw [logOf_eq]
  induction rs generalizing acc with
  | nil => rw [List.append_nil]; rfl
  | cons r rs ih =>
    have hdec : readRecord (rawFrame.encodeAll ((r :: rs).map raw) ++ tail) =
        some (raw r, rawFrame.encodeAll (rs.map raw) ++ tail) := by
      rw [List.map_cons, Frame.encodeAll_cons, List.append_assoc]
      exact Frame.decode_encode (raw_valid (hrs r List.mem_cons_self)) _
    rw [List.length_cons, ← add_assoc, recoverLoop, hdec]
    simp only [interpret_raw]
    show recoverLoop (n + rs.length) _ _ = _
    rw [ih (fun r' h => hrs r' (List.mem_cons_of_mem r h)), List.append_assoc]
    rfl

theorem recoverLoop_stop {bs : List Byte} (h : readRecord bs = none) (n : ℕ)
    (acc : List WalRecord) : recoverLoop n bs acc = .ok acc := by
  cases n with
  | zero => rfl
  | succ n => rw [recoverLoop, h]

theorem length_le_logOf (rs : List WalRecord) : rs.length ≤ (logOf rs).length := by
  rw [logOf_eq]
  induction rs with
  | nil => exact le_rfl
  | cons r rs ih =>
    have hpos := List.length_pos_iff.2 (rawFrame.encode_ne_nil (raw r))
    rw [List.map_cons, Frame.encodeAll_cons, List.length_append, List.length_cons]
    omega

/-- The number of iterations is enough for what a log holds. -/
theorem recover_append {rs : List WalRecord} (hrs : ∀ r ∈ rs, r.Short) (tail : List Byte) :
    ∃ n, tail.length ≤ n ∧ recover (some (logOf rs ++ tail)) = recoverLoop n tail rs := by
  obtain ⟨n, hn⟩ := Nat.exists_eq_add_of_le' (length_le_logOf rs)
  refine ⟨n + tail.length, Nat.le_add_left _ _, ?_⟩
  have hlen : (logOf rs ++ tail).length = n + tail.length + rs.length := by
    rw [List.length_append, hn]
    omega
  rw [recover, hlen, recoverLoop_append hrs]
  rfl

theorem recover_whole {rs : List WalRecord} (hrs : ∀ r ∈ rs, r.Short) {tail : List Byte}
    (ht : readRecord tail = none) : recover (some (logOf rs ++ tail)) = .ok rs := by
  obtain ⟨n, -, h⟩ := recover_append hrs tail
  rw [h, recoverLoop_stop ht]

/-- The longest prefix of the record list that is written in at most `n` bytes. -/
def wholeRecords (rs : List WalRecord) (n : ℕ) : List WalRecord :=
  rs.take (Nat.findGreatest (fun j => (logOf (rs.take j)).length ≤ n) rs.length)

/-- A cut log: the whole records, and a part of a record. -/
theorem exists_cut {rs : List WalRecord} (hrs : ∀ r ∈ rs, r.Short) {p : List Byte}
    (hp : p <+: logOf rs) : ∃ j ≤ rs.length, wholeRecords rs p.length = rs.take j ∧
      ∃ t, p = logOf (rs.take j) ++ t ∧ readRecord t = none ∧
        (t = [] ∨ ∃ r, rawFrame.valid r ∧ ∃ rest, rest ≠ [] ∧ t ++ rest = rawFrame.encode r) := by
  rw [logOf_eq] at hp
  have hvalid : ∀ a ∈ rs.map raw, rawFrame.valid a := List.forall_mem_map.2 fun r hr =>
    raw_valid (hrs r hr)
  obtain ⟨j, hj, t, rfl, ht, hpart, hmax⟩ := Frame.exists_cut hvalid hp
  rw [List.length_map] at hj hmax
  have htake : ∀ i, rawFrame.encodeAll ((rs.map raw).take i) = logOf (rs.take i) := fun i => by
    rw [logOf_eq, List.map_take]
  rw [htake] at hmax ⊢
  refine ⟨j, hj, ?_, t, rfl, ht, hpart.imp_right fun ⟨a, ha, h⟩ => ⟨a, hvalid a ha, h⟩⟩
  rw [wholeRecords]
  congr 1
  refine Nat.findGreatest_eq_iff.2 ⟨hj, fun _ => ?_, fun i hji hi h => ?_⟩
  · rw [List.length_append]
    omega
  · have := hmax i hi (htake i ▸ h)
    omega

/-- **Recovery of a log cut anywhere** returns the records that lie wholly before the
    cut, and no error. -/
theorem recover_cut {rs : List WalRecord} (hrs : ∀ r ∈ rs, r.Short) {p : List Byte}
    (hp : p <+: logOf rs) : recover (some p) = .ok (wholeRecords rs p.length) := by
  obtain ⟨j, -, hwhole, t, rfl, ht, -⟩ := exists_cut hrs hp
  rw [hwhole, recover_whole (fun r hr => hrs r (List.mem_of_mem_take hr)) ht]

/-- **Decoding undoes encoding on every prefix**: what is returned is the longest prefix
    of the record list that is written wholly inside. -/
theorem recover_longestPrefix {rs : List WalRecord} (hrs : ∀ r ∈ rs, r.Short) {p : List Byte}
    (hp : p <+: logOf rs) : ∃ j ≤ rs.length, recover (some p) = .ok (rs.take j) ∧
      logOf (rs.take j) <+: p ∧ ∀ i ≤ rs.length, logOf (rs.take i) <+: p → i ≤ j := by
  obtain ⟨j, hj, hwhole, t, rfl, ht, -⟩ := exists_cut hrs hp
  refine ⟨j, hj, recover_whole (fun r hr => hrs r (List.mem_of_mem_take hr)) ht,
    List.prefix_append _ _, fun i hi hpre => ?_⟩
  -- a longer list of whole records would have been counted
  have hle := Nat.le_findGreatest (P := fun j => (logOf (rs.take j)).length ≤ _) hi hpre.length_le
  have hlen := congrArg List.length hwhole
  rw [wholeRecords, List.length_take, List.length_take, min_eq_left hj,
    min_eq_left (Nat.findGreatest_le _)] at hlen
  rw [← hlen]
  exact hle

/-- A put and a delete. -/
def putDelete : List WalRecord := [.put (.singleton 1) .empty, .delete (.singleton 2)]

/-- A log cut in its second record. -/
theorem recover_longestPrefix_putDelete :
    ∃ j ≤ putDelete.length,
      recover (some ((logOf putDelete).take 15)) = .ok (putDelete.take j) ∧
        logOf (putDelete.take j) <+: (logOf putDelete).take 15 ∧
        ∀ i ≤ putDelete.length, logOf (putDelete.take i) <+: (logOf putDelete).take 15 → i ≤ j := by
  refine recover_longestPrefix ?_ (List.take_prefix _ _)
  intro r hr
  rcases List.mem_cons.1 hr with rfl | hr
  · exact ⟨by decide, by decide⟩
  · rw [List.mem_singleton.1 hr]
    exact (by decide : (Bytes.singleton 2).Short)

/-! ## Appending after a restart -/

/-- The log file after a restart on the file `p` appended and synced the records. -/
def logAfterRestart (p : List Byte) (rs : List WalRecord) : List Byte :=
  ((open_ (some p)).appendAll rs).sync.file

theorem logAfterRestart_eq (p : List Byte) (rs : List WalRecord) :
    logAfterRestart p rs = p ++ logOf rs := by
  have h : logAfterRestart p rs = ((open_ (some p)).appendAll rs).bytes := rfl
  rw [h, appendAll_bytes, logOf_eq, open_, bytes, List.append_nil]
  rfl

/-- The second recovery returns the whole records of the first log and all records
    appended since. -/
def SecondRecovery (rs : List WalRecord) (p : List Byte) (rs' : List WalRecord) : Prop :=
  recover (some (logAfterRestart p rs')) = .ok (wholeRecords rs p.length ++ rs')

/-- The first log was cut between two records. -/
def CutAtRecord (rs : List WalRecord) (p : List Byte) : Prop := ∃ j, p = logOf (rs.take j)

/-- The record that follows is what the loop pushes next. -/
theorem recoverLoop_eq_append {n : ℕ} {bs : List Byte} {acc l : List WalRecord} {r : WalRecord}
    (h : recoverLoop n bs acc = .ok (acc ++ r :: l)) :
    ∃ x rest, readRecord bs = some (x, rest) ∧ interpret x = .ok r := by
  -- what was pushed stays in front
  have hmono : ∀ (n : ℕ) (bs : List Byte) (acc l : List WalRecord),
      recoverLoop n bs acc = .ok l → acc <+: l := by
    intro n
    induction n with
    | zero =>
      intro bs acc l h
      cases h
      exact List.prefix_rfl
    | succ n ih =>
      intro bs acc l h
      rw [recoverLoop] at h
      split at h
      · cases h
        exact List.prefix_rfl
      · rename_i x rest hx
        cases hi : interpret x with
        | error e => rw [hi] at h; cases h
        | ok r =>
          rw [hi] at h
          exact (List.prefix_append _ _).trans (ih _ _ _ h)
  cases n with
  | zero =>
    have := Except.ok.inj h
    simp at this
  | succ n =>
    rw [recoverLoop] at h
    split at h
    · have := Except.ok.inj h
      simp at this
    · rename_i x rest hx
      refine ⟨x, rest, hx, ?_⟩
      cases hi : interpret x with
      | error e => rw [hi] at h; cases h
      | ok r' =>
        rw [hi] at h
        obtain ⟨l', hl'⟩ := hmono _ _ _ _ h
        rw [List.append_assoc, List.append_cancel_left_eq] at hl'
        cases hl'
        rfl

theorem interpret_eq_put {x : Byte × Bytes × Bytes} {key value : Bytes}
    (h : interpret x = .ok (.put key value)) : x = (recordPut, key, value) := by
  obtain ⟨type, k, v⟩ := x
  rw [interpret] at h
  split_ifs at h with h₁ h₂
  · cases h
    rw [h₁]
  · cases h

/-- A put of the empty value under the empty key. -/
def emptyPut : WalRecord := .put .empty .empty

/-- A torn record and a record after it do not decode as the latter. -/
theorem torn_append_emptyPut {x : Byte × Bytes × Bytes} (hx : rawFrame.valid x) {t rest : List Byte}
    (hr : rest ≠ []) (ht : t ≠ []) (he : t ++ rest = rawFrame.encode x) (rest' : List Byte) :
    readRecord (t ++ logOf [emptyPut]) ≠ some ((recordPut, .empty, .empty), rest') := by
  intro h
  obtain ⟨hv, h⟩ := (rawFrame.decode_iff _ _ _).1 h
  have hlog : logOf [emptyPut] = [1, 0, 0, 0, 0, 0, 0, 0, 0] := by decide
  have hput : rawFrame.encode (recordPut, .empty, .empty) = [1, 0, 0, 0, 0, 0, 0, 0, 0] := by decide
  rcases lt_or_ge t.length 9 with hlt | hge
  · -- the first byte of the second record stands where the first has a zero
    rw [hlog, hput] at h
    have hpos := List.length_pos_iff.2 ht
    have hget := congrArg (fun l => l[t.length]?) h
    simp only [List.getElem?_append_right le_rfl, Nat.sub_self] at hget
    interval_cases t.length <;> simp at hget
  · -- the torn part holds a whole record
    have hpre : rawFrame.encode (recordPut, .empty, .empty) <+: t ++ logOf [emptyPut] :=
      h ▸ List.prefix_append _ rest'
    obtain ⟨u, hu⟩ := List.prefix_of_prefix_length_le hpre (List.prefix_append t _)
      (by rw [hput]; exact hge)
    have hput' : rawFrame.encode (recordPut, .empty, .empty) ++ (u ++ rest) =
        rawFrame.encode x ++ [] := by
      rw [List.append_nil, ← he, ← hu, List.append_assoc]
    exact hr (List.append_eq_nil_iff.1 (Frame.encode_inj hv hx hput').2).2

/-- **A restart on a cut log.**  The second recovery returns the whole records and all
    that were appended since if the cut is between two records or nothing was appended;
    and it does so whatever is appended only if the cut is between two records. -/
theorem secondRecovery_iff {rs : List WalRecord} (hrs : ∀ r ∈ rs, r.Short) {p : List Byte}
    (hp : p <+: logOf rs) :
    (∀ rs', (∀ r ∈ rs', r.Short) → rs' = [] ∨ CutAtRecord rs p → SecondRecovery rs p rs') ∧
      ((∀ rs', (∀ r ∈ rs', r.Short) → SecondRecovery rs p rs') ↔ CutAtRecord rs p) := by
  obtain ⟨j, hj, hwhole, t, rfl, ht, hpart⟩ := exists_cut hrs hp
  have hshort : ∀ r ∈ rs.take j, r.Short := fun r hr => hrs r (List.mem_of_mem_take hr)
  have hdone : ∀ rs', (∀ r ∈ rs', r.Short) → rs' = [] ∨ t = [] →
      SecondRecovery rs (logOf (rs.take j) ++ t) rs' := by
    intro rs' hrs' h
    rw [SecondRecovery, logAfterRestart_eq, hwhole]
    rcases h with rfl | rfl
    · rw [List.append_nil, show logOf [] = [] from rfl, List.append_nil, recover_whole hshort ht]
    · rw [List.append_nil, ← logOf_append, ← List.append_nil (logOf _)]
      exact recover_whole (List.forall_mem_append.2 ⟨hshort, hrs'⟩) readRecord_nil
  have hcut : CutAtRecord rs (logOf (rs.take j) ++ t) → t = [] := by
    rintro ⟨i, hi⟩
    rcases hpart with rfl | ⟨x, hx, rest, hr, he⟩
    · rfl
    · by_contra hne
      -- both are streams of whole records, so the part is one too
      have hrec := recover_whole hshort ht
      rw [hi, ← List.append_nil (logOf _), recover_whole (fun r hr =>
        hrs r (List.mem_of_mem_take hr)) readRecord_nil] at hrec
      rw [Except.ok.inj hrec, List.append_right_eq_self] at hi
      exact hne hi
  refine ⟨fun rs' hrs' h => hdone rs' hrs' (h.imp_right hcut), fun h => ?_, fun h rs' hrs' =>
    hdone rs' hrs' (Or.inr (hcut h))⟩
  rcases hpart with rfl | ⟨x, hx, rest, hr, he⟩
  · exact ⟨j, List.append_nil _⟩
  · by_contra hne
    have ht' : t ≠ [] := by
      rintro rfl
      exact hne ⟨j, List.append_nil _⟩
    have hshort' : ∀ r ∈ [emptyPut], r.Short := by
      intro r hr
      rw [List.mem_singleton.1 hr]
      exact ⟨Nat.two_pow_pos 32, Nat.two_pow_pos 32⟩
    have h := h [emptyPut] hshort'
    obtain ⟨n, -, hrec⟩ := recover_append hshort (t ++ logOf [emptyPut])
    rw [SecondRecovery, logAfterRestart_eq, hwhole, List.append_assoc, hrec] at h
    obtain ⟨y, rest', hy, hput⟩ := recoverLoop_eq_append h
    rw [interpret_eq_put hput] at hy
    exact torn_append_emptyPut hx hr ht' he rest' hy

/-- A restart on a log whose only record was cut after its first byte. -/
theorem secondRecovery_iff_tornPut :
    ¬ ∀ rs', (∀ r ∈ rs', r.Short) →
      SecondRecovery [.put (.singleton 1) (.singleton 1)] [recordPut] rs' := by
  have hshort : ∀ r ∈ [WalRecord.put (.singleton 1) (.singleton 1)], r.Short := by
    intro r hr
    rw [List.mem_singleton.1 hr]
    exact ⟨by decide, by decide⟩
  rw [(secondRecovery_iff hshort (p := [recordPut]) ⟨_, rfl⟩).2]
  rintro ⟨_ | _ | j, h⟩
  · exact absurd h (by decide)
  · exact absurd h (by decide)
  · rw [List.take_of_length_le (by simp)] at h
    exact absurd h (by decide)

/-- A record appended after a torn one is lost. -/
theorem secondRecovery_loses_record :
    ¬ SecondRecovery [.put (.singleton 1) (.singleton 1)] [recordPut]
      [.put (.singleton 2) (.singleton 2)] := by
  unfold SecondRecovery
  decide

end Wal

/-! ## Crashes -/

/-- What a memtable holds of a key after the record. -/
def WalRecord.effect (k : Bytes) (v : Option Bytes) : WalRecord → Option Bytes
  | .put key value => if k = key then some value else v
  | .delete key => if k = key then some .empty else v

/-- What the last record of the key leaves in a memtable. -/
def lastRecord (rs : List WalRecord) (k : Bytes) : Option Bytes :=
  rs.foldl (WalRecord.effect k) none

namespace Session
variable {M : Type} [Memtable M]

section Lawful
variable [LawfulMemtable M]

theorem get_foldl_replay (m : M) (rs : List WalRecord) (k : Bytes) :
    Memtable.get (rs.foldl LsmEngine.replay m) k =
      rs.foldl (WalRecord.effect k) (Memtable.get m k) := by
  induction rs generalizing m with
  | nil => rfl
  | cons r rs ih =>
    rw [List.foldl_cons, List.foldl_cons, ih]
    congr 1
    cases r with
    | put key value => exact LawfulMemtable.get_insert m key value k
    | delete key => exact LawfulMemtable.get_delete m key k

theorem get_replay {m : M} (hm : ∀ k, Memtable.get m k = none) (rs : List WalRecord) (k : Bytes) :
    Memtable.get (rs.foldl LsmEngine.replay m) k = lastRecord rs k := by
  rw [get_foldl_replay, hm, lastRecord]

end Lawful

theorem write_spec {s s' : Session M} {r : WalRecord} (h : s.write r = some s') :
    s'.memtable = LsmEngine.replay s.memtable r ∧ s'.wal = s.wal.append r := by
  cases r with
  | put key value =>
    by_cases hc : Memtable.approximateBytes (Memtable.insert s.memtable key value) ≥
        s.flushThreshold
    · rw [write, if_pos hc] at h
      cases h
    · rw [write, if_neg hc, Option.some_inj] at h
      subst h
      constructor <;> dsimp only [LsmEngine.replay, Wal.append]
  | delete key =>
    rw [write, Option.some_inj] at h
    subst h
    constructor <;> dsimp only [LsmEngine.replay, Wal.append]

/-- **A session applies its writes to the memtable and to the log.** -/
theorem run_spec {s s' : Session M} {rs : List WalRecord} (h : s.run rs = some s') :
    s'.memtable = rs.foldl LsmEngine.replay s.memtable ∧ s'.wal = s.wal.appendAll rs := by
  induction rs generalizing s with
  | nil => cases h; exact ⟨rfl, rfl⟩
  | cons r rs ih =>
    rw [run, List.foldlM_cons, Option.bind_eq_bind, Option.bind_eq_some_iff] at h
    obtain ⟨s₁, hr, h⟩ := h
    obtain ⟨hm, hw⟩ := ih h
    rw [(write_spec hr).1] at hm
    rw [(write_spec hr).2] at hw
    exact ⟨hm, hw⟩

/-- The operation that a record logs. -/
def op : WalRecord → Op
  | .put key value => .put key value
  | .delete key => .delete key

/-- The session is the engine with its log in bytes. -/
structure Refines (s : Session M) (e : LsmEngine M) : Prop where
  memtable : s.memtable = e.memtable
  wal : s.wal.bytes = Wal.logOf e.wal
  flushThreshold : s.flushThreshold = e.flushThreshold

/-- **A session is a run of the engine without flushes.** -/
theorem run_engine {s s' : Session M} {e : LsmEngine M} (hs : s.Refines e)
    {rs : List WalRecord} (h : s.run rs = some s') :
    ∃ e', e.run (rs.map op) = .ok e' ∧ s'.Refines e' := by
  induction rs generalizing s e with
  | nil => cases h; exact ⟨e, rfl, hs⟩
  | cons r rs ih =>
    rw [run, List.foldlM_cons, Option.bind_eq_bind, Option.bind_eq_some_iff] at h
    obtain ⟨s₁, hr, h⟩ := h
    obtain ⟨hm, hw⟩ := write_spec hr
    have hbytes : s₁.wal.bytes = Wal.logOf (e.wal ++ [r]) := by
      rw [hw, Wal.append_eq, Wal.foldl_writeAll_bytes, hs.wal, Wal.logOf_append,
        Wal.parts_flatten, Wal.logOf_eq [r]]
      exact congrArg _ (List.append_nil _).symm
    have hstep : ∃ e₁, e.apply (op r) = .ok e₁ ∧ s₁.Refines e₁ := by
      rw [hs.memtable] at hm
      cases r with
      | put key value =>
        by_cases hc : Memtable.approximateBytes (Memtable.insert s.memtable key value) ≥
            s.flushThreshold
        · rw [write, if_pos hc] at hr
          cases hr
        · rw [write, if_neg hc, Option.some_inj] at hr
          rw [hs.memtable, hs.flushThreshold] at hc
          refine ⟨_, if_neg hc, hm, hbytes, ?_⟩
          rw [← hr]
          exact hs.flushThreshold
      | delete key =>
        rw [write, Option.some_inj] at hr
        refine ⟨_, rfl, hm, hbytes, ?_⟩
        rw [← hr]
        exact hs.flushThreshold
    obtain ⟨e₁, he₁, hs₁⟩ := hstep
    obtain ⟨e', he', hs'⟩ := ih hs₁ h
    refine ⟨e', ?_, hs'⟩
    rw [List.map_cons, LsmEngine.run, List.foldlM_cons, he₁]
    exact he'

omit [Memtable M] in
/-- The bytes that a crash leaves are a prefix of the log with the record in flight. -/
theorem crash_cut {s : Session M} {rs : List WalRecord} (hs : s.wal.bytes = Wal.logOf rs)
    (next : WalRecord) (i : ℕ) : s.crash next i <+: Wal.logOf (rs ++ [next]) := by
  have hfile : s.crash next i <+: (((Wal.parts next).take i).foldl Wal.writeAll s.wal).bytes :=
    List.prefix_append _ _
  rw [Wal.foldl_writeAll_bytes, hs] at hfile
  refine hfile.trans ?_
  have hnext : Wal.logOf [next] = (Wal.parts next).flatten := by
    rw [Wal.logOf_eq, Wal.parts_flatten]
    exact List.append_nil _
  rw [Wal.logOf_append, hnext, List.prefix_append_right_inj]
  exact ⟨_, by rw [← List.flatten_append, List.take_append_drop]⟩

variable [LawfulMemtable M]

/-- Reopening after a crash in the next call succeeds, and every key has the value of its
    last write that returned, or of the write in flight if that had begun. -/
def Survives (s : Session M) (next : WalRecord) (i : ℕ) (m : M) (config : EngineConfig) : Prop :=
  ∃ s', open_ (some (s.crash next i)) m config = .ok s' ∧ ∀ k,
    Memtable.get s'.memtable k = Memtable.get s.memtable k ∨
      0 < i ∧ Memtable.get s'.memtable k = Memtable.get (LsmEngine.replay s.memtable next) k

/-- For every key, the last of the records that lie wholly in the file leaves what the
    last write that returned does, or the write in flight. -/
def FileUpToDate (s : Session M) (rs : List WalRecord) (next : WalRecord) (i : ℕ) : Prop :=
  ∀ k, let onFile := Wal.wholeRecords (rs ++ [next]) (s.crash next i).length
    lastRecord onFile k = lastRecord rs k ∨
      0 < i ∧ lastRecord onFile k = lastRecord (rs ++ [next]) k

/-- **Acknowledged writes survive a crash exactly if what the `BufWriter` still holds
    changes nothing.** -/
theorem survives_iff {m : M} (hm : ∀ k, Memtable.get m k = none) {config : EngineConfig}
    {s s' : Session M} (h : open_ none m config = .ok s) {rs : List WalRecord}
    (hrun : s.run rs = some s') {next : WalRecord} (hrs : ∀ r ∈ rs ++ [next], r.Short) (i : ℕ) :
    s'.Survives next i m config ↔ s'.FileUpToDate rs next i := by
  cases h
  obtain ⟨hmem, hwal⟩ := run_spec hrun
  have hbytes : s'.wal.bytes = Wal.logOf rs := by rw [hwal]; rfl
  have hrec := Wal.recover_cut hrs (crash_cut hbytes next i)
  have hopen : open_ (some (s'.crash next i)) m config = .ok
      ⟨(Wal.wholeRecords (rs ++ [next]) (s'.crash next i).length).foldl LsmEngine.replay m,
        .open_ (some (s'.crash next i)), config.flushThreshold⟩ := by
    rw [open_, hrec]
    rfl
  have hget : ∀ k, Memtable.get s'.memtable k = lastRecord rs k := fun k => by
    rw [hmem]
    exact get_replay hm rs k
  have hnext : ∀ k, Memtable.get (LsmEngine.replay s'.memtable next) k =
      lastRecord (rs ++ [next]) k := fun k => by
    rw [hmem, ← get_replay hm (rs ++ [next]) k, List.foldl_append]
    rfl
  constructor
  · rintro ⟨s₁, hs₁, h⟩ k
    cases hopen.symm.trans hs₁
    have h := h k
    rw [get_replay hm, hget, hnext] at h
    exact h
  · intro h
    refine ⟨_, hopen, fun k => ?_⟩
    show Memtable.get (List.foldl _ m _) k = _ ∨ _
    rw [get_replay hm, hget, hnext]
    exact h k

/-- A session on an empty directory. -/
def fresh : Session BTreeMemtable := ⟨BTreeMemtable.new, Wal.open_ none, 4 * 1024 * 1024⟩

/-- The session after a put. -/
def afterPut : Session BTreeMemtable :=
  ⟨BTreeMemtable.new.insert (.singleton 1) (.singleton 1),
    fresh.wal.appendPut (.singleton 1) (.singleton 1), 4 * 1024 * 1024⟩

/-- A crash after a put, with a delete of another key begun. -/
theorem survives_iff_afterPut :
    afterPut.Survives (.delete .empty) 2 BTreeMemtable.new ⟨4 * 1024 * 1024⟩ ↔
      afterPut.FileUpToDate [.put (.singleton 1) (.singleton 1)] (.delete .empty) 2 := by
  refine survives_iff (fun _ => rfl) (m := BTreeMemtable.new) rfl (s := fresh) rfl ?_ 2
  intro r hr
  rcases List.mem_cons.1 hr with rfl | hr
  · exact ⟨by decide, by decide⟩
  · rw [List.mem_singleton.1 hr]
    exact Nat.two_pow_pos 32

/-- A put returns and a crash loses it. -/
theorem put_lost_in_crash :
    ∃ s, fresh.run [.put (.singleton 1) (.singleton 1)] = some s ∧
      ¬ s.Survives (.delete .empty) 0 BTreeMemtable.new ⟨4 * 1024 * 1024⟩ := by
  refine ⟨afterPut, rfl, ?_⟩
  rintro ⟨s', hs', h⟩
  have hfile : Except.map (fun s : Session BTreeMemtable => s.memtable.map.toList)
      (open_ (some (afterPut.crash (.delete .empty) 0)) BTreeMemtable.new ⟨4 * 1024 * 1024⟩) =
        .ok [] := by decide
  rw [hs'] at hfile
  have hfile : s'.memtable.map.toList = [] := Except.ok.inj hfile
  have hlost : Memtable.get s'.memtable (.singleton 1) = none := by
    show s'.memtable.map.toList.lookup (.singleton 1) = none
    rw [hfile]
    rfl
  rcases h (.singleton 1) with h | h
  · rw [hlost] at h
    exact absurd h (by decide)
  · exact absurd h.1 (lt_irrefl 0)

end Session

end Scry.Lsm
