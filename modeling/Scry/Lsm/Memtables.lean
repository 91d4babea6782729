/-
  The other memtables (`memtable/skiplist.rs`, `memtable/learned.rs`).

  `SkipMap` is modelled by a sorted map, as `BTreeMap` is.  The learned memtable is built
  on the learned index itself; `SoundMap` carries that the index stands for a sorted map,
  so that its operations return.
-/
import Scry.Index.Proof.Bytes
import Scry.Index.Proof.Map
import Scry.Lsm.Engine

namespace Scry.Lsm

/-! ## Byte strings as keys -/

/-- `impl Key for Vec<u8>` -/
instance keyBytes : Index.Key Bytes := inferInstanceAs (Index.Key Index.ByteString)

theorem lawfulKey_bytes : Index.LawfulKey Bytes :=
  inferInstanceAs (Index.LawfulKey Index.ByteString)

attribute [local instance] lawfulKey_bytes

/-! ## `SkipListMemtable` -/

/-- `SkipListMemtable`: a sorted map and a count of the bytes inserted since the last
    drain. -/
structure SkipListMemtable where
  map : SortedMap Bytes Bytes
  byteCount : ℕ

namespace SkipListMemtable

def new : SkipListMemtable := ⟨SortedMap.empty, 0⟩

def insert (m : SkipListMemtable) (key value : Bytes) : SkipListMemtable :=
  ⟨m.map.insert key value, m.byteCount + (key.len + value.len)⟩

/-- Collect the entries, then remove their keys. -/
def drainSorted (m : SkipListMemtable) : List Entry × SkipListMemtable :=
  let entries := m.map.toList
  (entries, ⟨entries.foldl (fun map e => map.erase e.1) m.map, 0⟩)

instance : Memtable SkipListMemtable where
  insert := insert
  get m := m.map.get
  delete m key := insert m key .empty
  approximateBytes := byteCount
  drainSorted := drainSorted

theorem get_foldl_erase (l : List Entry) (map : SortedMap Bytes Bytes) (k : Bytes) :
    (l.foldl (fun map e => map.erase e.1) map).get k =
      if k ∈ l.map Prod.fst then none else map.get k := by
  induction l generalizing map with
  | nil => rw [List.map_nil, if_neg List.not_mem_nil]; rfl
  | cons e l ih =>
    rw [List.foldl_cons, ih, SortedMap.get_erase, List.map_cons]
    by_cases hl : k ∈ l.map Prod.fst
    · rw [if_pos hl, if_pos (List.mem_cons_of_mem _ hl)]
    · rw [if_neg hl]
      by_cases he : k = e.1
      · rw [if_pos he, if_pos (he ▸ List.mem_cons_self)]
      · rw [if_neg he, if_neg fun hm => (List.mem_cons.1 hm).elim he hl]

instance : LawfulMemtable SkipListMemtable where
  get_insert m k v k₀ := SortedMap.get_insert m.map k v k₀
  get_delete m k k₀ := SortedMap.get_insert m.map k .empty k₀
  drain_ascending m := m.map.ascending
  drain_lookup _ _ := rfl
  get_drain m k := by
    refine (get_foldl_erase m.map.toList m.map k).trans ?_
    split_ifs with h
    · rfl
    · exact lookup_eq_none.2 h

end SkipListMemtable

/-! ## `LearnedMemtable` -/

/-- A learned index that stands for a sorted map. -/
structure SoundMap where
  map : Index.LearnedMap Bytes Bytes
  sound : ∃ s, Index.Refines map s

namespace SoundMap

/-- `LearnedMap::new` -/
def new : SoundMap :=
  ⟨.withConfig {}, .empty, Index.Refines.empty ⟨by norm_num, le_rfl⟩ _⟩

/-- The sorted map that the index stands for. -/
def sorted (m : SoundMap) : SortedMap Bytes Bytes :=
  ⟨m.map.root.entries, by
    obtain ⟨s, hs⟩ := m.sound
    rw [hs.entries]
    exact s.ascending⟩

theorem sorted_eq {m : SoundMap} {s : SortedMap Bytes Bytes} (h : Index.Refines m.map s) :
    m.sorted = s :=
  SortedMap.ext_get fun k => by
    show m.map.root.entries.lookup k = s.get k
    rw [h.entries]
    rfl

theorem refines (m : SoundMap) : Index.Refines m.map m.sorted := by
  obtain ⟨s, hs⟩ := m.sound
  rw [sorted_eq hs]
  exact hs

def get (m : SoundMap) (key : Bytes) : Option Bytes := m.map.get key

theorem insert_isSome (m : SoundMap) (key value : Bytes) : (m.map.insert key value).isSome := by
  obtain ⟨m', h, -⟩ := m.refines.insert key value
  rw [h]
  rfl

/-- Insert a pair: `true` if the key was newly inserted. -/
def insert (m : SoundMap) (key value : Bytes) : SoundMap × Bool :=
  (⟨((m.map.insert key value).get (m.insert_isSome key value)).1, by
      obtain ⟨m', h, hr⟩ := m.refines.insert key value
      exact ⟨_, by simp only [h, Option.get_some]; exact hr⟩⟩,
    ((m.map.insert key value).get (m.insert_isSome key value)).2)

theorem remove_isSome (m : SoundMap) (key : Bytes) : (m.map.remove key).isSome := by
  obtain ⟨m', h, -⟩ := m.refines.remove key
  rw [h]
  rfl

/-- Remove a key: `true` if it was present. -/
def remove (m : SoundMap) (key : Bytes) : SoundMap × Bool :=
  (⟨((m.map.remove key).get (m.remove_isSome key)).1, by
      obtain ⟨m', h, hr⟩ := m.refines.remove key
      exact ⟨_, by simp only [h, Option.get_some]; exact hr⟩⟩,
    ((m.map.remove key).get (m.remove_isSome key)).2)

theorem refines_drain (m : SoundMap) : Index.Refines m.map.drain.1 .empty := by
  obtain ⟨m', h, hr⟩ := m.refines.step .drain
  have hfst : m.map.drain.1 = m' := congrArg Prod.fst (Option.some.inj h)
  rw [hfst]
  exact hr

/-- Remove all entries and return them in sorted order. -/
def drain (m : SoundMap) : SoundMap × List Entry :=
  (⟨m.map.drain.1, .empty, m.refines_drain⟩, m.map.drain.2)

theorem get_eq (m : SoundMap) (key : Bytes) : m.get key = m.sorted.get key := m.refines.get key

theorem insert_fst (m : SoundMap) (key value : Bytes) :
    (m.insert key value).1.sorted = m.sorted.insert key value := by
  obtain ⟨m', h, hr⟩ := m.refines.insert key value
  exact sorted_eq (by simp only [insert, h, Option.get_some]; exact hr)

theorem insert_snd (m : SoundMap) (key value : Bytes) :
    (m.insert key value).2 = (m.get key).isNone := by
  obtain ⟨m', h, hr⟩ := m.refines.insert key value
  rw [get_eq]
  simp only [insert, h, Option.get_some]

theorem remove_fst (m : SoundMap) (key : Bytes) :
    (m.remove key).1.sorted = m.sorted.erase key := by
  obtain ⟨m', h, hr⟩ := m.refines.remove key
  exact sorted_eq (by simp only [remove, h, Option.get_some]; exact hr)

theorem drain_fst (m : SoundMap) : m.drain.1.sorted = .empty := sorted_eq m.refines_drain

theorem drain_snd (m : SoundMap) : m.drain.2 = m.sorted.toList :=
  m.refines.sortedPairs

end SoundMap

/-- `LearnedMemtable`: a learned index and a count of bytes. -/
structure LearnedMemtable where
  map : SoundMap
  byteCount : ℕ

namespace LearnedMemtable

def new : LearnedMemtable := ⟨.new, 0⟩

/-- A key that exists is removed and inserted again; its bytes are not counted. -/
def insert (m : LearnedMemtable) (key value : Bytes) : LearnedMemtable :=
  let addedBytes := key.len + value.len
  let (map, isNew) := m.map.insert key value
  if isNew then ⟨map, m.byteCount + addedBytes⟩
  else
    let (map, _) := map.remove key
    let (map, _) := map.insert key value
    ⟨map, m.byteCount⟩

def drainSorted (m : LearnedMemtable) : List Entry × LearnedMemtable :=
  let (map, entries) := m.map.drain
  (entries, ⟨map, 0⟩)

instance : Memtable LearnedMemtable where
  insert := insert
  get m := m.map.get
  delete m key := insert m key .empty
  approximateBytes := byteCount
  drainSorted := drainSorted

/-- What an insert leaves: the pair, and its bytes in the count if the key is new. -/
theorem insert_spec (m : LearnedMemtable) (key value : Bytes) :
    (insert m key value).map.sorted = m.map.sorted.insert key value ∧
      (insert m key value).byteCount = if (m.map.get key).isNone then
        m.byteCount + (key.len + value.len) else m.byteCount := by
  rw [insert]
  dsimp only
  rw [m.map.insert_snd key value]
  split_ifs with hnew
  · exact ⟨m.map.insert_fst key value, rfl⟩
  · refine ⟨?_, rfl⟩
    rw [SoundMap.insert_fst, SoundMap.remove_fst, SoundMap.insert_fst]
    refine SortedMap.ext_get fun k => ?_
    rw [SortedMap.get_insert, SortedMap.get_erase, SortedMap.get_insert]
    split_ifs <;> rfl

theorem get_insert (m : LearnedMemtable) (k v k₀ : Bytes) :
    (insert m k v).map.get k₀ = if k₀ = k then some v else m.map.get k₀ := by
  rw [SoundMap.get_eq, (insert_spec m k v).1, SortedMap.get_insert, SoundMap.get_eq]

instance : LawfulMemtable LearnedMemtable where
  get_insert := get_insert
  get_delete m k k₀ := get_insert m k .empty k₀
  drain_ascending m := by
    show Ascending m.map.drain.2
    rw [SoundMap.drain_snd]
    exact m.map.sorted.ascending
  drain_lookup m k := by
    show m.map.drain.2.lookup k = m.map.get k
    rw [SoundMap.drain_snd, SoundMap.get_eq]
    rfl
  get_drain m k := by
    show m.map.drain.1.get k = none
    rw [SoundMap.get_eq, SoundMap.drain_fst]
    rfl

end LearnedMemtable

end Scry.Lsm
