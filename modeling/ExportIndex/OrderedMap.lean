/-!
Finite maps that remember the order in which their keys first arrived. A map is
its list of entries; that no key occurs twice is part of the type. Writing to a
key that is present keeps its position, a new key goes to the end, and erasing
keeps the others in order. Two views describe a map: `keys`, the order, and
`get?`, the contents.
-/
namespace ExportIndex

structure OrderedMap (κ α : Type) where
  entries : List (κ × α)
  nodup : (entries.map Prod.fst).Nodup

namespace OrderedMap

variable {κ α β : Type}

def keys (m : OrderedMap κ α) : List κ := m.entries.map Prod.fst

def values (m : OrderedMap κ α) : List α := m.entries.map Prod.snd

def size (m : OrderedMap κ α) : Nat := m.entries.length

def isEmpty (m : OrderedMap κ α) : Bool := m.entries.isEmpty

def empty : OrderedMap κ α := ⟨[], List.nodup_nil⟩

instance : Inhabited (OrderedMap κ α) := ⟨empty⟩

theorem ext {m n : OrderedMap κ α} (h : m.entries = n.entries) : m = n := by
  cases m; cases n
  simp_all

instance [DecidableEq κ] [DecidableEq α] : DecidableEq (OrderedMap κ α) := fun m n =>
  if h : m.entries = n.entries then .isTrue (ext h) else .isFalse fun eq => h (eq ▸ rfl)

section Look

variable [DecidableEq κ]

def find (k : κ) : List (κ × α) → Option α
  | [] => none
  | e :: rest => if e.1 = k then some e.2 else find k rest

def get? (m : OrderedMap κ α) (k : κ) : Option α := find k m.entries

def contains (m : OrderedMap κ α) (k : κ) : Bool := (m.get? k).isSome

theorem find_isSome_iff (k : κ) (es : List (κ × α)) :
    (find k es).isSome = true ↔ k ∈ es.map Prod.fst := by
  induction es with
  | nil => simp [find]
  | cons e es ih =>
    by_cases h : e.1 = k
    · simp [find, h]
    · simp [find, h, ih, Ne.symm h]

theorem find_eq_none_iff (k : κ) (es : List (κ × α)) :
    find k es = none ↔ k ∉ es.map Prod.fst := by
  rw [← find_isSome_iff, Option.isSome_iff_ne_none]
  simp

theorem find_eq_some_iff {es : List (κ × α)} (distinct : (es.map Prod.fst).Nodup)
    (k : κ) (a : α) : find k es = some a ↔ (k, a) ∈ es := by
  induction es with
  | nil => simp [find]
  | cons e es ih =>
    obtain ⟨fresh, distinct⟩ := List.nodup_cons.mp distinct
    by_cases h : e.1 = k
    · subst h
      have absent : (e.1, a) ∉ es := fun later =>
        fresh (List.mem_map.mpr ⟨_, later, rfl⟩)
      simp only [find, ↓reduceIte, Option.some.injEq, List.mem_cons, absent, or_false]
      constructor
      · intro eq
        rw [← eq]
      · intro eq
        rw [← eq]
    · have differs : (k, a) ≠ e := fun eq => h (by rw [← eq])
      simp [find, h, ih distinct, differs]

theorem contains_iff (m : OrderedMap κ α) (k : κ) : m.contains k = true ↔ k ∈ m.keys :=
  find_isSome_iff k m.entries

theorem get?_eq_none_iff (m : OrderedMap κ α) (k : κ) : m.get? k = none ↔ k ∉ m.keys :=
  find_eq_none_iff k m.entries

theorem get?_eq_some_iff (m : OrderedMap κ α) (k : κ) (a : α) :
    m.get? k = some a ↔ (k, a) ∈ m.entries :=
  find_eq_some_iff m.nodup k a

@[simp] theorem get?_empty (k : κ) : (empty : OrderedMap κ α).get? k = none := rfl

end Look

section Write

variable [DecidableEq κ]

def put (k : κ) (a : α) : List (κ × α) → List (κ × α)
  | [] => [(k, a)]
  | e :: rest => if e.1 = k then (k, a) :: rest else e :: put k a rest

theorem map_fst_put (k : κ) (a : α) (es : List (κ × α)) :
    (put k a es).map Prod.fst =
      if k ∈ es.map Prod.fst then es.map Prod.fst else es.map Prod.fst ++ [k] := by
  induction es with
  | nil => simp [put]
  | cons e es ih =>
    by_cases h : e.1 = k
    · simp [put, h]
    · simp only [put, h, ↓reduceIte, List.map_cons, ih, List.mem_cons, Ne.symm h, false_or]
      split <;> simp

theorem find_put (k j : κ) (a : α) (es : List (κ × α)) :
    find j (put k a es) = if k = j then some a else find j es := by
  induction es with
  | nil => simp [put, find]
  | cons e es ih =>
    by_cases h : e.1 = k
    · by_cases hj : k = j <;> simp [put, find, h, hj]
    · by_cases hj : e.1 = j
      · subst hj
        simp [put, find, h, Ne.symm h]
      · simp [put, find, h, hj, ih]

/-- Writes `a` at `k`: in place when `k` is present, at the end otherwise. -/
def insert (m : OrderedMap κ α) (k : κ) (a : α) : OrderedMap κ α where
  entries := put k a m.entries
  nodup := by
    rw [map_fst_put]
    split
    · exact m.nodup
    · rename_i absent
      refine List.nodup_append.mpr ⟨m.nodup, by simp, ?_⟩
      intro x member y last eq
      rw [List.mem_singleton] at last
      subst last
      exact absent (eq ▸ member)

theorem keys_insert (m : OrderedMap κ α) (k : κ) (a : α) :
    (m.insert k a).keys = if k ∈ m.keys then m.keys else m.keys ++ [k] :=
  map_fst_put k a m.entries

@[simp] theorem get?_insert (m : OrderedMap κ α) (k j : κ) (a : α) :
    (m.insert k a).get? j = if k = j then some a else m.get? j :=
  find_put k j a m.entries

/-- The map of a list of pairs; a repeated key keeps its first position and its last value. -/
def ofList (pairs : List (κ × α)) : OrderedMap κ α :=
  pairs.foldl (fun m p => m.insert p.1 p.2) empty

end Write

section Select

theorem nodup_map_fst_filter {es : List (κ × α)} (distinct : (es.map Prod.fst).Nodup)
    (p : κ × α → Bool) : ((es.filter p).map Prod.fst).Nodup :=
  (List.filter_sublist.map Prod.fst).nodup distinct

def filter (p : κ → α → Bool) (m : OrderedMap κ α) : OrderedMap κ α where
  entries := m.entries.filter fun e => p e.1 e.2
  nodup := nodup_map_fst_filter m.nodup _

def erase [DecidableEq κ] (m : OrderedMap κ α) (k : κ) : OrderedMap κ α :=
  m.filter fun j _ => j ≠ k

def mapValues (f : κ → α → β) (m : OrderedMap κ α) : OrderedMap κ β where
  entries := m.entries.map fun e => (e.1, f e.1 e.2)
  nodup := by
    have same : (m.entries.map fun e => (e.1, f e.1 e.2)).map Prod.fst =
        m.entries.map Prod.fst := by simp
    rw [same]
    exact m.nodup

@[simp] theorem keys_mapValues (f : κ → α → β) (m : OrderedMap κ α) :
    (m.mapValues f).keys = m.keys := by
  simp [keys, mapValues]

variable [DecidableEq κ]

theorem find_filter (p : κ → Bool) (k : κ) (es : List (κ × α)) :
    find k (es.filter fun e => p e.1) = if p k then find k es else none := by
  induction es with
  | nil => simp [find]
  | cons e es ih =>
    by_cases h : e.1 = k
    · subst h
      by_cases keep : p e.1
      · simp [find, keep]
      · simp [keep, ih]
    · by_cases keep : p e.1 <;> simp [find, keep, h, ih]

@[simp] theorem get?_erase (m : OrderedMap κ α) (k j : κ) :
    (m.erase k).get? j = if j = k then none else m.get? j := by
  simp only [get?, erase, filter]
  rw [find_filter (fun j => decide (j ≠ k))]
  by_cases h : j = k <;> simp [h]

theorem find_map (f : κ → α → β) (k : κ) (es : List (κ × α)) :
    find k (es.map fun e => (e.1, f e.1 e.2)) = (find k es).map (f k) := by
  induction es with
  | nil => rfl
  | cons e es ih =>
    by_cases h : e.1 = k
    · simp [find, h]
    · simp [find, h, ih]

@[simp] theorem get?_mapValues (f : κ → α → β) (m : OrderedMap κ α) (k : κ) :
    (m.mapValues f).get? k = (m.get? k).map (f k) :=
  find_map f k m.entries

end Select

end OrderedMap

end ExportIndex
