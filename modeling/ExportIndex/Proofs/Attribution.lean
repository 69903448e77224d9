import ExportIndex.Store
import ExportIndex.Proofs.CanonicalPath

/-!
Which file a key came from. A store keeps this twice, from keys to files and
from files to keys. As long as the two agree, taking a file out removes exactly
the keys that came from it, and adding a file overwrites exactly the keys that
it contributes.
-/
namespace ExportIndex

namespace OrderedMap

variable {κ α : Type} [DecidableEq κ]

theorem get?_foldl_erase (ks : List κ) (m : OrderedMap κ α) (k : κ) :
    (ks.foldl .erase m).get? k = if k ∈ ks then none else m.get? k := by
  induction ks generalizing m with
  | nil => simp
  | cons j ks ih =>
    rw [List.foldl_cons, ih, get?_erase]
    by_cases here : k = j
    · simp [here]
    · simp [here]

@[simp] theorem ofList_nil : (ofList [] : OrderedMap κ α) = empty := rfl

@[simp] theorem ofList_append_singleton (es : List (κ × α)) (e : κ × α) :
    ofList (es ++ [e]) = (ofList es).insert e.1 e.2 := by
  simp [ofList, List.foldl_append]

theorem mem_of_get?_ofList {es : List (κ × α)} {k : κ} {a : α}
    (found : (ofList es).get? k = some a) : (k, a) ∈ es := by
  induction es using List.reverseRecOn with
  | nil => simp at found
  | append_singleton front last ih =>
    rw [ofList_append_singleton, get?_insert] at found
    split at found
    · rename_i here
      obtain rfl := Option.some.inj found
      rw [← here]
      exact List.mem_append_right _ List.mem_cons_self
    · exact List.mem_append_left _ (ih found)

end OrderedMap

namespace Store

def record? (s : Store) (key : String) : Option (Resource × Option String) :=
  (s.get? key).map (·, s.source? key)

/-- Every stored key came from a file, by its canonical path, and the files know their keys. -/
structure Attributed (s : Store) : Prop where
  stored : ∀ k, (s.get? k).isSome = (s.source? k).isSome
  canonical : ∀ k p, s.source? k = some p → Path.IsCanonical p
  listed : ∀ k p, Path.IsCanonical p → (k ∈ s.keysOf p ↔ s.source? k = some p)

theorem empty_attributed : empty.Attributed where
  stored _ := rfl
  canonical _ _ found := by cases found
  listed k p _ := by
    constructor
    · intro member
      cases member
    · intro found
      cases found

theorem Attributed.record?_eq_some {s : Store} (attributed : s.Attributed) {k : String}
    {e : Resource × Option String} (found : s.record? k = some e) :
    ∃ p, e.2 = some p ∧ s.source? k = some p := by
  obtain ⟨r, held, rfl⟩ := Option.map_eq_some_iff.mp found
  have known : (s.source? k).isSome = true := by
    rw [← attributed.stored k, held]
    rfl
  obtain ⟨p, source⟩ := Option.isSome_iff_exists.mp known
  exact ⟨p, source, source⟩

@[simp] theorem get?_detach (s : Store) (key k : String) : (s.detach key).get? k = s.get? k := by
  unfold detach
  split <;> rfl

@[simp] theorem source?_detach (s : Store) (key k : String) :
    (s.detach key).source? k = if k = key then none else s.source? k := by
  unfold detach
  split
  · rename_i unknown
    split
    · rename_i same
      rw [same, unknown]
    · rfl
  · exact OrderedMap.get?_erase s.sources key k

theorem filter_ne_eq_self {key : String} {keys : List String} (absent : key ∉ keys) :
    keys.filter (· ≠ key) = keys := by
  refine List.filter_eq_self.mpr fun k member => decide_eq_true ?_
  rintro rfl
  exact absent member

theorem Attributed.filter_keysOf {s : Store} (attributed : s.Attributed) {key p : String}
    (canonical : Path.IsCanonical p) (other : s.source? key ≠ some p) :
    (s.keysOf p).filter (· ≠ key) = s.keysOf p :=
  filter_ne_eq_self fun member => other ((attributed.listed key p canonical).mp member)

theorem Attributed.keysOf_detach {s : Store} (attributed : s.Attributed) (key : String)
    {p : String} (canonical : Path.IsCanonical p) :
    (s.detach key).keysOf p = (s.keysOf p).filter (· ≠ key) := by
  unfold detach
  split
  · rename_i unknown
    exact (attributed.filter_keysOf canonical (by simp [unknown])).symm
  · rename_i path source
    by_cases same : p = path
    · subst same
      dsimp only [keysOf]
      split
      · rename_i last
        rw [OrderedMap.get?_erase, if_pos rfl]
        exact last.symm
      · rw [OrderedMap.get?_insert, if_pos rfl]
        rfl
    · have differs : PathIdentity.ofText path ≠ PathIdentity.ofText p := fun identity =>
        same (canonical.eq_of_sameFile (attributed.canonical key path source) identity.symm)
      have other : s.source? key ≠ some p := by
        rw [source]
        exact fun eq => same (Option.some.inj eq).symm
      rw [attributed.filter_keysOf canonical other]
      dsimp only [keysOf]
      split
      · rw [OrderedMap.get?_erase, if_neg (Ne.symm differs)]
      · rw [OrderedMap.get?_insert, if_neg differs]

@[simp] theorem get?_setFrom (s : Store) (path key : String) (r : Resource) (k : String) :
    (s.setFrom path key r).get? k = if k = key then some r else s.get? k := by
  change ((s.detach key).resources.insert key r).get? k = _
  rw [OrderedMap.get?_insert]
  by_cases same : k = key
  · simp [same]
  · rw [if_neg (Ne.symm same), if_neg same]
    exact get?_detach s key k

@[simp] theorem source?_setFrom (s : Store) (path key : String) (r : Resource) (k : String) :
    (s.setFrom path key r).source? k = if k = key then some path else s.source? k := by
  change ((s.detach key).sources.insert key path).get? k = _
  rw [OrderedMap.get?_insert]
  by_cases same : k = key
  · simp [same]
  · rw [if_neg (Ne.symm same), if_neg same]
    exact (source?_detach s key k).trans (if_neg same)

theorem Attributed.keysOf_setFrom {s : Store} (attributed : s.Attributed) {path : String}
    (canonical : Path.IsCanonical path) (key : String) (r : Resource) {p : String}
    (also : Path.IsCanonical p) :
    (s.setFrom path key r).keysOf p =
      (s.keysOf p).filter (· ≠ key) ++ if p = path then [key] else [] := by
  change (((s.detach key).produced.insert (.ofText path)
    ((s.detach key).keysOf path ++ [key])).get? (.ofText p)).getD [] = _
  rw [OrderedMap.get?_insert]
  by_cases same : p = path
  · subst same
    simp only [↓reduceIte, Option.getD_some, attributed.keysOf_detach key canonical]
  · have differs : PathIdentity.ofText path ≠ PathIdentity.ofText p := fun identity =>
      same (also.eq_of_sameFile canonical identity.symm)
    rw [if_neg differs, if_neg same, List.append_nil]
    exact attributed.keysOf_detach key also

theorem Attributed.setFrom {s : Store} (attributed : s.Attributed) {path : String}
    (canonical : Path.IsCanonical path) (key : String) (r : Resource) :
    (s.setFrom path key r).Attributed where
  stored k := by
    rw [get?_setFrom, source?_setFrom]
    split
    · rfl
    · exact attributed.stored k
  canonical k p source := by
    rw [source?_setFrom] at source
    split at source
    · obtain rfl := Option.some.inj source
      exact canonical
    · exact attributed.canonical k p source
  listed k p also := by
    rw [attributed.keysOf_setFrom canonical key r also, source?_setFrom, List.mem_append,
      List.mem_filter, attributed.listed k p also]
    by_cases here : k = key
    · by_cases same : p = path
      · simp [here, same]
      · simp [here, same, Ne.symm same]
    · by_cases same : p = path
      · simp [here, same]
      · simp [here, same]

theorem record?_setFrom (s : Store) (path key : String) (r : Resource) (k : String) :
    (s.setFrom path key r).record? k = if k = key then some (r, some path) else s.record? k := by
  rw [record?, get?_setFrom, source?_setFrom]
  split
  · rfl
  · rfl

theorem setAllFrom_append_singleton (s : Store) (path : String) (es : List (String × Resource))
    (e : String × Resource) :
    s.setAllFrom path (es ++ [e]) = (s.setAllFrom path es).setFrom path e.1 e.2 := by
  simp [setAllFrom, List.foldl_append]

theorem Attributed.setAllFrom {s : Store} (attributed : s.Attributed) {path : String}
    (canonical : Path.IsCanonical path) (es : List (String × Resource)) :
    (s.setAllFrom path es).Attributed := by
  induction es using List.reverseRecOn with
  | nil => exact attributed
  | append_singleton front last ih =>
    rw [setAllFrom_append_singleton]
    exact ih.setFrom canonical last.1 last.2

theorem record?_setAllFrom (s : Store) (path : String) (es : List (String × Resource))
    (k : String) :
    (s.setAllFrom path es).record? k =
      (((OrderedMap.ofList es).get? k).map (·, some path)).or (s.record? k) := by
  induction es using List.reverseRecOn with
  | nil => rfl
  | append_singleton front last ih =>
    rw [setAllFrom_append_singleton, record?_setFrom, OrderedMap.ofList_append_singleton,
      OrderedMap.get?_insert, ih]
    by_cases here : k = last.1
    · simp [here]
    · simp [here, Ne.symm here]

theorem Attributed.get?_forget {s : Store} (attributed : s.Attributed) {path : String}
    (canonical : Path.IsCanonical path) (k : String) :
    (s.forget path).get? k = if s.source? k = some path then none else s.get? k :=
  (OrderedMap.get?_foldl_erase (s.keysOf path) s.resources k).trans
    (if_congr (attributed.listed k path canonical) rfl rfl)

theorem Attributed.source?_forget {s : Store} (attributed : s.Attributed) {path : String}
    (canonical : Path.IsCanonical path) (k : String) :
    (s.forget path).source? k = if s.source? k = some path then none else s.source? k :=
  (OrderedMap.get?_foldl_erase (s.keysOf path) s.sources k).trans
    (if_congr (attributed.listed k path canonical) rfl rfl)

theorem keysOf_forget (s : Store) {path p : String} (canonical : Path.IsCanonical path)
    (also : Path.IsCanonical p) :
    (s.forget path).keysOf p = if p = path then [] else s.keysOf p := by
  change ((s.produced.erase (.ofText path)).get? (.ofText p)).getD [] = _
  rw [OrderedMap.get?_erase]
  by_cases same : p = path
  · simp [same]
  · have differs : PathIdentity.ofText p ≠ PathIdentity.ofText path := fun identity =>
      same (also.eq_of_sameFile canonical identity)
    rw [if_neg differs, if_neg same]
    rfl

theorem Attributed.forget {s : Store} (attributed : s.Attributed) {path : String}
    (canonical : Path.IsCanonical path) : (s.forget path).Attributed where
  stored k := by
    rw [attributed.get?_forget canonical, attributed.source?_forget canonical]
    split
    · rfl
    · exact attributed.stored k
  canonical k p source := by
    rw [attributed.source?_forget canonical] at source
    split at source
    · cases source
    · exact attributed.canonical k p source
  listed k p also := by
    rw [keysOf_forget s canonical also, attributed.source?_forget canonical]
    by_cases same : p = path
    · subst same
      by_cases own : s.source? k = some p
      · simp [own]
      · simp [own]
    · rw [if_neg same, attributed.listed k p also]
      by_cases own : s.source? k = some path
      · simp [own, Ne.symm same]
      · simp [own]

theorem Attributed.record?_forget {s : Store} (attributed : s.Attributed) {path : String}
    (canonical : Path.IsCanonical path) (k : String) :
    (s.forget path).record? k = (s.record? k).filter (·.2 ≠ some path) := by
  rw [record?, record?, attributed.get?_forget canonical, attributed.source?_forget canonical]
  by_cases own : s.source? k = some path
  · cases s.get? k <;> simp [own, Option.filter]
  · cases s.get? k <;> simp [own, Option.filter]

theorem erase_of_source?_eq_none {s : Store} (attributed : s.Attributed) {key : String}
    (unknown : s.source? key = none) :
    (s.erase key).Attributed ∧ ∀ k, (s.erase key).record? k = s.record? k := by
  have absent : s.get? key = none := by
    have stored := attributed.stored key
    rw [unknown] at stored
    simpa using stored
  have detached : s.detach key = s := by rw [detach, unknown]
  have found (k : String) : (s.erase key).get? k = s.get? k := by
    change ((s.detach key).resources.erase key).get? k = _
    rw [detached, OrderedMap.get?_erase]
    split
    · rename_i same
      rw [same, absent]
    · rfl
  have sources (k : String) : (s.erase key).source? k = s.source? k := by
    change (s.detach key).source? k = _
    rw [detached]
  have keys (p : String) : (s.erase key).keysOf p = s.keysOf p := by
    change (s.detach key).keysOf p = _
    rw [detached]
  constructor
  · constructor
    · intro k
      rw [found, sources]
      exact attributed.stored k
    · intro k p
      rw [sources]
      exact attributed.canonical k p
    · intro k p canonical
      rw [keys, sources]
      exact attributed.listed k p canonical
  · intro k
    rw [record?, record?, found, sources]

/-- Where every key came from a file, the key of a deleted file goes only with the file. -/
theorem delete_eq {s : Store} (attributed : s.Attributed) (l : Layout) {path : String}
    (canonical : Path.IsCanonical path) :
    (s.delete l path).Attributed ∧
      ∀ k, (s.delete l path).record? k = (s.record? k).filter (·.2 ≠ some path) := by
  have forgotten := attributed.forget canonical
  unfold delete
  dsimp only
  split
  · exact ⟨forgotten, attributed.record?_forget canonical⟩
  · rename_i key found
    split
    · rename_i free
      have unknown : (s.forget path).source? key = none := by
        cases source : (s.forget path).source? key with
        | none => rfl
        | some q =>
          rw [source] at free
          have same : q = path := (forgotten.canonical key q source).eq_of_sameFile canonical
            (by simpa using free)
          rw [attributed.source?_forget canonical] at source
          split at source
          · cases source
          · rename_i other
            exact absurd (same ▸ source) other
      obtain ⟨kept, entries⟩ := erase_of_source?_eq_none forgotten unknown
      exact ⟨kept, fun k => (entries k).trans (attributed.record?_forget canonical k)⟩
    · exact ⟨forgotten, attributed.record?_forget canonical⟩

def contribution? (l : Layout) (path : String) (file : Resource) (key : String) :
    Option Resource :=
  (OrderedMap.ofList (contributions l path file)).get? key

theorem add_eq {s : Store} (attributed : s.Attributed) (l : Layout) {path : String}
    (canonical : Path.IsCanonical path) {file : Resource} (kind : file.kind = .file path) :
    (s.add l file).2.Attributed ∧
      ∀ k, (s.add l file).2.record? k =
        ((contribution? l path file k).map (·, some path)).or
          ((s.record? k).filter (·.2 ≠ some path)) := by
  have added : (s.add l file).2 =
      (s.forget path).setAllFrom path (contributions l path file) := by
    rw [add, kind]
  rw [added]
  refine ⟨(attributed.forget canonical).setAllFrom canonical _, fun k => ?_⟩
  rw [record?_setAllFrom, attributed.record?_forget canonical]
  rfl

end Store

end ExportIndex
