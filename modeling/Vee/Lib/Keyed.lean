import Mathlib.Data.List.Sort
import Mathlib.Order.Defs.LinearOrder

/- Containers whose entries stand in the order of their keys.

   A `Multimap` may hold several entries of one key; a new one is put behind those that
   are there, and `erase` takes out the one that `find` finds. A `Map` holds at most one
   entry of each key. Both are told apart from a bare list by the order of their keys,
   and all that is said of them is said by the number of entries of a key (`count`) and by
   what is found under it (`find`). -/
namespace Keyed

variable {K V : Type*} [LinearOrder K]

/-- Entries in the order of their keys. -/
structure Multimap (K V : Type*) [LinearOrder K] where
  entries : List (K × V)
  sorted : entries.Pairwise fun a b => a.1 ≤ b.1

/-- A multimap with at most one entry of each key. -/
structure Map (K V : Type*) [LinearOrder K] extends Multimap K V where
  nodup : (entries.map Prod.fst).Nodup

namespace Multimap

variable {m : Multimap K V} {j k : K} {v w : V}

/-- The relation by which a new entry goes behind those of its key. -/
def Before (a b : K × V) : Prop := a.1 < b.1

instance : DecidableRel (Before : K × V → K × V → Prop) :=
  fun a b => inferInstanceAs (Decidable (a.1 < b.1))

theorem sorted_insert (e : K × V) {l : List (K × V)} (h : l.Pairwise fun a b => a.1 ≤ b.1) :
    (l.orderedInsert Before e).Pairwise fun a b => a.1 ≤ b.1 := by
  induction l with
  | nil => exact List.pairwise_singleton _ e
  | cons b l ih =>
    obtain ⟨hb, hl⟩ := List.pairwise_cons.mp h
    by_cases heb : Before e b
    · rw [List.orderedInsert_cons_of_le _ _ heb, List.pairwise_cons]
      refine ⟨?_, h⟩
      intro c hc
      rcases List.mem_cons.mp hc with rfl | hc
      · exact le_of_lt heb
      · exact (le_of_lt heb).trans (hb c hc)
    · rw [List.orderedInsert_of_not_le _ _ heb, List.pairwise_cons]
      refine ⟨?_, ih hl⟩
      intro c hc
      rcases (List.mem_orderedInsert Before).mp hc with rfl | hc
      · exact not_lt.mp heb
      · exact hb c hc

/-- No entries. -/
def empty : Multimap K V := ⟨[], List.Pairwise.nil⟩

/-- Put an entry behind those of its key. -/
def insert (m : Multimap K V) (k : K) (v : V) : Multimap K V :=
  ⟨m.entries.orderedInsert Before (k, v), sorted_insert (k, v) m.sorted⟩

/-- The value of the first entry of a key. -/
def find (m : Multimap K V) (k : K) : Option V :=
  (m.entries.find? fun e => e.1 == k).map Prod.snd

/-- Take the first entry of a key out. -/
def erase (m : Multimap K V) (k : K) : Multimap K V :=
  ⟨m.entries.eraseP fun e => e.1 == k, m.sorted.sublist List.eraseP_sublist⟩

/-- The number of entries of a key. -/
def count (m : Multimap K V) (k : K) : Nat := m.entries.countP fun e => e.1 == k

@[simp] theorem count_empty : (empty : Multimap K V).count k = 0 := rfl

theorem perm_insert (m : Multimap K V) (k : K) (v : V) :
    (m.insert k v).entries.Perm ((k, v) :: m.entries) :=
  List.perm_orderedInsert Before (k, v) m.entries

theorem mem_insert {e : K × V} : e ∈ (m.insert k v).entries ↔ e = (k, v) ∨ e ∈ m.entries :=
  (m.perm_insert k v).mem_iff.trans List.mem_cons

theorem mem_of_mem_erase {e : K × V} (h : e ∈ (m.erase k).entries) : e ∈ m.entries :=
  List.mem_of_mem_eraseP h

theorem count_insert : (m.insert k v).count j = m.count j + if k = j then 1 else 0 := by
  rw [count, (m.perm_insert k v).countP_eq, List.countP_cons]
  simp [count]

theorem find_eq_none : m.find k = none ↔ m.count k = 0 := by
  rw [find, Option.map_eq_none_iff, List.find?_eq_none, count, List.countP_eq_zero]

/-- Where `insert` puts an entry of a key. -/
def rank (m : Multimap K V) (k : K) : Nat := m.entries.findIdx fun e => k < e.1

theorem entries_insert (m : Multimap K V) (k : K) (v : V) :
    (m.insert k v).entries = m.entries.insertIdx (m.rank k) (k, v) := by
  show m.entries.orderedInsert Before (k, v) = _
  unfold rank
  induction m.entries with
  | nil => rfl
  | cons e l ih =>
    rw [List.findIdx_cons]
    by_cases hke : k < e.1
    · rw [List.orderedInsert_cons_of_le _ l hke, decide_eq_true hke]
      rfl
    · rw [List.orderedInsert_of_not_le _ l hke, decide_eq_false hke, ih]
      rfl

/-- An entry stands before the place of a new one of its key. -/
theorem lt_rank {p : Nat} {e : K × V} (h : m.entries[p]? = some e) : p < m.rank e.1 := by
  obtain ⟨hp, rfl⟩ := List.getElem?_eq_some_iff.mp h
  refine List.lt_findIdx_of_not hp ?_
  intro q hq
  have hle : m.entries[q].1 ≤ m.entries[p].1 := by
    rcases Nat.eq_or_lt_of_le hq with rfl | hlt
    · exact le_rfl
    · exact List.pairwise_iff_getElem.mp m.sorted q p _ hp hlt
  simpa using hle

omit [LinearOrder K] in
theorem map_fst_modify (l : List (K × V)) (p : Nat) (f : V → V) :
    (l.modify p (Prod.map id f)).map Prod.fst = l.map Prod.fst := by
  apply List.ext_getElem?
  intro q
  rw [List.getElem?_map, List.getElem?_modify, List.getElem?_map]
  cases l[q]? with
  | none => rfl
  | some e => by_cases hpq : p = q <;> simp [hpq]

/-- Change the value of the entry at a place. -/
def modify (m : Multimap K V) (p : Nat) (f : V → V) : Multimap K V :=
  ⟨m.entries.modify p (Prod.map id f), by
    have hkeys := List.pairwise_map.mpr m.sorted
    rw [← map_fst_modify m.entries p f] at hkeys
    exact List.pairwise_map.mp hkeys⟩

/-- A key with an entry is left with one entry less. -/
theorem count_erase (h : m.count k ≠ 0) :
    (m.erase k).count j + (if k = j then 1 else 0) = m.count j := by
  obtain ⟨e, he, hek⟩ : ∃ e ∈ m.entries, (e.1 == k) = true := by
    simpa [count, List.countP_eq_zero] using h
  obtain ⟨a, l₁, l₂, -, hak, hl, herase⟩ :=
    List.exists_of_eraseP (p := fun e => e.1 == k) he hek
  have hak : a.1 = k := beq_iff_eq.mp hak
  show ((m.entries.eraseP _).countP _) + _ = m.entries.countP _
  rw [herase, hl, List.countP_append, List.countP_append, List.countP_cons, ← hak, Nat.add_assoc]
  simp

end Multimap

namespace Map

variable {m : Map K V} {j k : K} {v w : V}

/-- No entries. -/
def empty : Map K V := ⟨Multimap.empty, List.nodup_nil⟩

theorem find_eq_some : m.find k = some v ↔ (k, v) ∈ m.entries := by
  refine ⟨?_, ?_⟩
  · intro h
    obtain ⟨⟨j, w⟩, hfind, rfl⟩ := Option.map_eq_some_iff.mp h
    have hjk : j = k := by simpa using List.find?_some hfind
    rw [← hjk]
    exact List.mem_of_find?_eq_some hfind
  · intro h
    cases hfind : m.find k with
    | none =>
      have hzero := Multimap.find_eq_none.mp hfind
      have hne := List.countP_eq_zero.mp hzero _ h
      simp at hne
    | some w =>
      obtain ⟨⟨j, x⟩, hx, rfl⟩ := Option.map_eq_some_iff.mp hfind
      have hjk : j = k := by simpa using List.find?_some hx
      -- two entries of one key are the same entry
      have hmem : (j, x) ∈ m.entries := List.mem_of_find?_eq_some hx
      have heq := List.inj_on_of_nodup_map m.nodup hmem h hjk
      rw [heq]

/-- The keys stay distinct if the new one is not there. -/
theorem nodup_insert (h : m.find k = none) (v : V) :
    ((m.insert k v).entries.map Prod.fst).Nodup := by
  rw [((m.perm_insert k v).map Prod.fst).nodup_iff, List.map_cons, List.nodup_cons]
  refine ⟨?_, m.nodup⟩
  intro hmem
  obtain ⟨⟨j, w⟩, hw, rfl⟩ := List.mem_map.mp hmem
  rw [find_eq_some.mpr hw] at h
  cases h

/-- Put an entry in, unless there is one of its key; whether it was put in. -/
def insert (m : Map K V) (k : K) (v : V) : Map K V × Bool :=
  if h : m.find k = none then (⟨m.toMultimap.insert k v, nodup_insert h v⟩, true) else (m, false)

/-- Change the value of the entry at a place. -/
def modify (m : Map K V) (p : Nat) (f : V → V) : Map K V :=
  ⟨m.toMultimap.modify p f, by
    show ((m.entries.modify p (Prod.map id f)).map Prod.fst).Nodup
    rw [Multimap.map_fst_modify]
    exact m.nodup⟩

/-- Take the entry of a key out. -/
def erase (m : Map K V) (k : K) : Map K V :=
  ⟨m.toMultimap.erase k, m.nodup.sublist (List.eraseP_sublist.map Prod.fst)⟩

@[simp] theorem find_empty : (empty : Map K V).find k = none := rfl

theorem insert_of_none (h : m.find k = none) (v : V) :
    m.insert k v = (⟨m.toMultimap.insert k v, nodup_insert h v⟩, true) := dif_pos h

theorem insert_of_some (h : m.find k = some w) (v : V) : m.insert k v = (m, false) :=
  dif_neg (by simp [h])

theorem find_insert (h : m.find k = none) :
    (m.insert k v).1.find j = if j = k then some v else m.find j := by
  rw [insert_of_none h]
  apply Option.ext
  intro w
  rw [find_eq_some]
  show (j, w) ∈ (m.toMultimap.insert k v).entries ↔ _
  rw [Multimap.mem_insert, ← find_eq_some]
  by_cases hjk : j = k
  · subst hjk
    simp [h, eq_comm]
  · simp [hjk]

theorem find_erase : (m.erase k).find j = if j = k then none else m.find j := by
  by_cases hjk : j = k
  · subst hjk
    rw [if_pos rfl, Multimap.find_eq_none]
    by_cases hzero : m.count j = 0
    · exact Nat.eq_zero_of_le_zero (hzero ▸ List.eraseP_sublist.countP_le)
    · have hsum := Multimap.count_erase (j := j) hzero
      have hone : m.count j ≤ 1 := by
        have hkeys := List.nodup_iff_count_le_one.mp m.nodup j
        rwa [List.count, List.countP_map] at hkeys
      simp only [if_true] at hsum
      show (m.toMultimap.erase j).count j = 0
      omega
  · rw [if_neg hjk]
    apply Option.ext
    intro w
    rw [find_eq_some, find_eq_some]
    exact List.mem_eraseP_of_neg (by simpa using hjk)

end Map

/-! ## Other values under the same keys -/

variable {W : Type*}

namespace Multimap

theorem eq_of_entries {m n : Multimap K V} (h : m.entries = n.entries) : m = n := by
  cases m
  cases n
  cases h
  rfl

/-- Each value replaced by another. -/
def map (f : V → W) (m : Multimap K V) : Multimap K W :=
  ⟨m.entries.map (Prod.map id f), List.pairwise_map.mpr m.sorted⟩

variable {m : Multimap K V} {k : K} {v : V}

theorem map_insert (f : V → W) : (m.insert k v).map f = (m.map f).insert k (f v) := by
  apply eq_of_entries
  show (m.entries.orderedInsert Before (k, v)).map _ = (m.entries.map _).orderedInsert Before _
  induction m.entries with
  | nil => rfl
  | cons e l ih =>
    rw [List.map_cons]
    by_cases hke : k < e.1
    · rw [List.orderedInsert_cons_of_le _ l hke, List.orderedInsert_cons_of_le]
      · rfl
      · exact hke
    · rw [List.orderedInsert_of_not_le _ l hke, List.orderedInsert_of_not_le, List.map_cons, ih]
      exact hke

theorem map_erase (f : V → W) : (m.erase k).map f = (m.map f).erase k := by
  apply eq_of_entries
  show (m.entries.eraseP _).map _ = (m.entries.map _).eraseP _
  rw [List.eraseP_map]
  rfl

theorem find_map (f : V → W) : (m.map f).find k = (m.find k).map f := by
  unfold find
  show ((m.entries.map _).find? _).map _ = _
  rw [List.find?_map, Option.map_map, Option.map_map]
  rfl

/-- Taken out again, a new entry leaves what was there. -/
theorem erase_map_insert {α : Type*} [DecidableEq α] (g : K × V → α)
    (h : g (k, v) ∉ m.entries.map g) :
    ((m.insert k v).entries.map g).erase (g (k, v)) = m.entries.map g := by
  show ((m.entries.orderedInsert Before (k, v)).map g).erase _ = _
  revert h
  induction m.entries with
  | nil => simp
  | cons e l ih =>
    intro h
    obtain ⟨hne, hl⟩ := not_or.mp (mt List.mem_cons.mpr h)
    by_cases hke : k < e.1
    · rw [List.orderedInsert_cons_of_le _ l hke, List.map_cons, List.erase_cons_head]
    · rw [List.orderedInsert_of_not_le _ l hke, List.map_cons, List.erase_cons_tail, ih hl]
      · rfl
      · simpa using Ne.symm hne

end Multimap

namespace Map

theorem eq_of_toMultimap {m n : Map K V} (h : m.toMultimap = n.toMultimap) : m = n := by
  cases m
  cases n
  cases h
  rfl

/-- Each value replaced by another. -/
def map (f : V → W) (m : Map K V) : Map K W :=
  ⟨m.toMultimap.map f, by
    show ((m.entries.map (Prod.map id f)).map Prod.fst).Nodup
    rw [List.map_map]
    exact m.nodup⟩

variable {m : Map K V} {k : K} {v : V}

theorem map_insert (f : V → W) :
    (m.map f).insert k (f v) = ((m.insert k v).1.map f, (m.insert k v).2) := by
  have hfind : (m.map f).find k = (m.find k).map f := Multimap.find_map f
  cases hk : m.find k with
  | some w => rw [insert_of_some hk, insert_of_some (by rw [hfind, hk]; rfl)]
  | none =>
    rw [insert_of_none hk, insert_of_none (by rw [hfind, hk]; rfl)]
    refine Prod.ext ?_ rfl
    exact eq_of_toMultimap (Multimap.map_insert f).symm

theorem map_erase (f : V → W) : (m.erase k).map f = (m.map f).erase k :=
  eq_of_toMultimap (Multimap.map_erase f)

end Map

end Keyed
