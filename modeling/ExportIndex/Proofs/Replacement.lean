import ExportIndex.Proofs.CrossReference
import ExportIndex.Proofs.FirstOfEach
import ExportIndex.Proofs.Locality

/-!
What one file replaces. When a file comes in, the keys that came from it go, and
the keys it has now are written one after the other: over what stands there, or
at the end. The old and the new keys may overlap in any way, with each other and
with the keys of other files, and a file may have a key several times. In the
end the file has taken away and brought exactly its own, and every other key is
where it was.
-/
namespace ExportIndex.Store

def CameFrom (s : Store) (path key : String) : Prop :=
  ∃ source ∈ s.source? key, SameFile source path

instance (s : Store) (path key : String) : Decidable (s.CameFrom path key) :=
  inferInstanceAs (Decidable (∃ source ∈ s.source? key, SameFile source path))

theorem Linked.mem_keysOf {s : Store} (linked : s.Linked) {path key : String} :
    key ∈ s.keysOf path ↔ s.CameFrom path key :=
  linked.listed key path

section Forgetting

variable {s : Store} (linked : s.Linked) (path : String)

include linked

theorem Linked.keys_forget :
    (s.forget path).keys = s.keys.filter fun k => ¬ s.CameFrom path k := by
  change ((s.keysOf path).foldl .erase s.resources).keys = _
  rw [OrderedMap.foldl_erase_eq]
  simp [OrderedMap.keys, OrderedMap.filter, List.filter_map, Function.comp_def, keys,
    linked.mem_keysOf]

theorem Linked.get?_forget {k : String} (other : ¬ s.CameFrom path k) :
    (s.forget path).get? k = s.get? k := by
  rw [← linked.mem_keysOf] at other
  exact (OrderedMap.get?_foldl_erase (s.keysOf path) s.resources k).trans (if_neg other)

theorem Linked.source?_forget {k : String} (other : ¬ s.CameFrom path k) :
    (s.forget path).source? k = s.source? k := by
  rw [← linked.mem_keysOf] at other
  exact (OrderedMap.get?_foldl_erase (s.keysOf path) s.sources k).trans (if_neg other)

omit linked in
theorem keysOf_forget_self : (s.forget path).keysOf path = [] := by
  change ((s.produced.erase (.ofText path)).get? (.ofText path)).getD [] = []
  rw [OrderedMap.get?_erase, if_pos rfl]
  rfl

end Forgetting

theorem keys_setFrom (s : Store) (path key : String) (r : Resource) :
    (s.setFrom path key r).keys = if key ∈ s.keys then s.keys else s.keys ++ [key] := by
  change ((s.detach key).resources.insert key r).keys = _
  rw [OrderedMap.keys_insert, resources_detach]
  rfl

section Storing

variable (s : Store) (path : String) (es : List (String × Resource))

theorem keys_setAllFrom : (s.setAllFrom path es).keys = (s.keys ++ es.map Prod.fst).eraseDups := by
  induction es using List.reverseRecOn with
  | nil =>
    rw [List.map_nil, List.append_nil]
    exact (FirstOfEach.eraseDups_eq_self s.resources.nodup).symm
  | append_singleton es e ih =>
    rw [setAllFrom_append_singleton, keys_setFrom, ih, List.map_append, List.map_singleton,
      ← List.append_assoc, FirstOfEach.eraseDups_concat]
    exact if_congr List.mem_eraseDups rfl rfl

theorem source?_setAllFrom (k : String) :
    (s.setAllFrom path es).source? k =
      if k ∈ es.map Prod.fst then some path else s.source? k := by
  induction es using List.reverseRecOn with
  | nil => rfl
  | append_singleton es e ih =>
    rw [setAllFrom_append_singleton, source?_setFrom, ih, List.map_append, List.map_singleton]
    by_cases last : k = e.1
    · simp [last]
    · simp only [last, ↓reduceIte, List.mem_append, List.mem_singleton, or_false]

theorem get?_setAllFrom (k : String) :
    (s.setAllFrom path es).get? k =
      ((es.filter (·.1 = k)).getLast?.map Prod.snd).or (s.get? k) := by
  induction es using List.reverseRecOn with
  | nil => rfl
  | append_singleton es e ih =>
    rw [setAllFrom_append_singleton, get?_setFrom, ih, List.filter_append]
    by_cases last : k = e.1
    · simp [last]
    · simp [last, Ne.symm last]

theorem get?_setAllFrom_of_mem {k : String} (written : k ∈ es.map Prod.fst) :
    (s.setAllFrom path es).get? k = (es.filter (·.1 = k)).getLast?.map Prod.snd := by
  obtain ⟨e, member, here⟩ := List.mem_map.mp written
  have some_entry : es.filter (·.1 = k) ≠ [] :=
    List.ne_nil_of_mem (List.mem_filter.mpr ⟨member, by simpa using here⟩)
  rw [get?_setAllFrom, List.getLast?_eq_some_getLast some_entry]
  rfl

theorem get?_setAllFrom_of_notMem {k : String} (unwritten : k ∉ es.map Prod.fst) :
    (s.setAllFrom path es).get? k = s.get? k := by
  have no_entry : es.filter (·.1 = k) = [] := by
    refine List.filter_eq_nil_iff.mpr fun e member here => unwritten ?_
    exact List.mem_map.mpr ⟨e, member, by simpa using here⟩
  rw [get?_setAllFrom, no_entry]
  rfl

variable {s}

theorem Linked.keysOf_setAllFrom (linked : s.Linked) :
    (s.setAllFrom path es).keysOf path = (s.keysOf path ++ es.map Prod.fst).dedup := by
  induction es using List.reverseRecOn with
  | nil =>
    rw [List.map_nil, List.append_nil, (linked.nodup_keysOf path).dedup]
    rfl
  | append_singleton es e ih =>
    rw [setAllFrom_append_singleton, keysOf_setFrom, (linked.setAllFrom path es).keysOf_detach, ih,
      if_pos (SameFile.refl path), List.map_append, List.map_singleton, ← List.append_assoc,
      FirstOfEach.dedup_concat]

end Storing

theorem keys_contributions (l : Layout) (path : String) (file : Resource) :
    (contributions l path file).map Prod.fst =
      if l.region path = .ambient then file.resources.filterMap Resource.name?
      else (l.keyOf? path).toList := by
  unfold contributions
  cases l.region path with
  | ambient => simp [List.map_filterMap, Function.comp_def]
  | package => cases l.keyOf? path <;> rfl
  | workspace => cases l.keyOf? path <;> rfl

theorem filter_named (k : String) (rs : List Resource) :
    (rs.filterMap fun r => r.name?.map (·, r)).filter (·.1 = k) =
      (rs.filter (·.name? = some k)).map (k, ·) := by
  induction rs with
  | nil => rfl
  | cons r rs ih =>
    cases name : r.name? with
    | none => simp [name, ih]
    | some n =>
      by_cases here : n = k
      · simp [name, here, ih]
      · simp [name, here, ih]

theorem last_contribution (l : Layout) (path : String) (file : Resource) {k : String}
    (brought : k ∈ (contributions l path file).map Prod.fst) :
    ((contributions l path file).filter (·.1 = k)).getLast?.map Prod.snd =
      if l.region path = .ambient then (file.resources.filter (·.name? = some k)).getLast?
      else some file := by
  rw [keys_contributions] at brought
  have whole : k ∈ (l.keyOf? path).toList →
      ((((l.keyOf? path).map (·, file)).toList).filter (·.1 = k)).getLast?.map Prod.snd =
        some file := by
    intro own
    rw [Option.mem_toList.mp own]
    simp
  unfold contributions
  cases region : l.region path with
  | ambient =>
    rw [filter_named, List.getLast?_map, Option.map_map]
    simp [Function.comp_def]
  | package =>
    rw [region] at brought
    exact whole brought
  | workspace =>
    rw [region] at brought
    exact whole brought

theorem add_file {file : Resource} {path : String} (kind : file.kind = .file path) (l : Layout)
    (s : Store) :
    s.add l file = ((contributions l path file).map Prod.fst,
      (s.forget path).setAllFrom path (contributions l path file)) := by
  rw [add, kind]

/-- A file that comes in replaces exactly what came from it before, after whatever was done to the
store. The keys that stay keep their order and the new ones follow; every key of the file is
attributed to it and has its last container of that name, or the file itself; the file lists its
keys by where they come last; and a key that neither came from the file nor belongs to it now
keeps what is stored under it, its source and its place among such keys. -/
theorem add_replaces_own (actions : List Action) (l : Layout) {file : Resource} {path : String}
    (kind : file.kind = .file path) :
    let s := actions.foldl act empty
    let keys := (s.add l file).1
    let t := (s.add l file).2
    keys = (if l.region path = .ambient then file.resources.filterMap Resource.name?
      else (l.keyOf? path).toList) ∧
    t.keys = ((s.keys.filter fun k => ¬ s.CameFrom path k) ++ keys).eraseDups ∧
    (∀ k ∈ keys, t.source? k = some path ∧
      t.get? k = if l.region path = .ambient then
        (file.resources.filter (·.name? = some k)).getLast? else some file) ∧
    t.keysOf path = keys.dedup ∧
    (∀ k, ¬ s.CameFrom path k → k ∉ keys →
      t.get? k = s.get? k ∧ t.source? k = s.source? k) ∧
    t.keys.filter (fun k => ¬ s.CameFrom path k ∧ k ∉ keys) =
      s.keys.filter fun k => ¬ s.CameFrom path k ∧ k ∉ keys := by
  intro s
  have linked : s.Linked := empty_linked.foldl_act actions
  clear_value s
  rw [add_file kind]
  dsimp only
  have brings := keys_contributions l path file
  have last := fun k => last_contribution l path file (k := k)
  -- where the entries come from no longer matters, only which keys they have
  generalize contributions l path file = es at brings last ⊢
  have order := keys_setAllFrom (s.forget path) path es
  rw [linked.keys_forget] at order
  have listed := (linked.forget path).keysOf_setAllFrom path es
  rw [keysOf_forget_self, List.nil_append] at listed
  refine ⟨brings, order, fun k brought => ⟨?_, ?_⟩, listed, fun k other unbrought => ⟨?_, ?_⟩, ?_⟩
  · rw [source?_setAllFrom, if_pos brought]
  · rw [get?_setAllFrom_of_mem _ path es brought, last k brought]
  · rw [get?_setAllFrom_of_notMem _ path es unbrought, linked.get?_forget path other]
  · rw [source?_setAllFrom, if_neg unbrought, linked.source?_forget path other]
  · rw [order]
    exact FirstOfEach.filter_eraseDups_append s.resources.nodup fun k brought => not_not.mpr brought

section Sample

def describedModule (name : String) (position : UInt32) : Resource :=
  ⟨.declaredModule name, [], [], [], [], [], some ⟨position, position⟩⟩

def typingsFile (path : String) (modules : List Resource) : Resource :=
  ⟨.file path, [], [], [], [], modules, none⟩

def crossed : List Action :=
  [.add { root := "/ws" } (typingsFile "/ws/typings/a.d.ts"
      [describedModule "m" 1, describedModule "n" 2]),
    .set "u" (describedModule "u" 3),
    .add { root := "/ws" } (typingsFile "/ws/typings//b.d.ts"
      [describedModule "old" 4, describedModule "x" 5])]

def crossing : Resource :=
  typingsFile "/ws/typings/b.d.ts"
    [describedModule "n" 6, describedModule "u" 7, describedModule "x" 8, describedModule "n" 9]

theorem crossing_replaces :
    crossing.kind = .file "/ws/typings/b.d.ts" ∧
    let s := crossed.foldl act empty
    let t := (s.add { root := "/ws" } crossing).2
    s.keys = ["m", "n", "u", "old", "x"] ∧ t.keys = ["m", "n", "u", "x"] ∧
    t.keysOf "/ws/typings/b.d.ts" = ["u", "x", "n"] ∧
    t.keysOf "/ws/typings/a.d.ts" = ["m"] ∧
    t.source? "n" = some "/ws/typings/b.d.ts" ∧
    (t.get? "n").map Resource.span = some (some ⟨9, 9⟩) ∧
    t.source? "m" = s.source? "m" := by
  have kind : crossing.kind = .file "/ws/typings/b.d.ts" := rfl
  obtain ⟨-, order, own, listed, other, -⟩ := add_replaces_own crossed { root := "/ws" } kind
  have brought : "n" ∈ ((crossed.foldl act empty).add { root := "/ws" } crossing).1 := by
    decide +kernel
  refine ⟨kind, by decide +kernel, order.trans (by decide +kernel),
    listed.trans (by decide +kernel), by decide +kernel, (own "n" brought).1, ?_, ?_⟩
  · rw [(own "n" brought).2]
    decide +kernel
  · exact (other "m" (by decide +kernel) (by decide +kernel)).2

end Sample

end ExportIndex.Store
