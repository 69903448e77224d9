import ExportIndex.Proofs.Attribution
import ExportIndex.Resolution

/-!
The two directions of attribution after any actions on a store. A key knows the
file it came from and a file knows the keys it produced; each action rewrites
both by hand, and keys change hands in the middle of some of them. Whatever is
done, in whatever order and with whatever spellings of the paths, each direction
can be read off the other, no file is listed without keys or with a key twice,
and only stored keys have a source.
-/
namespace ExportIndex.Store

/-- What can be done to a store. An action that has to place files brings its own layout. -/
inductive Action where
  | add (l : Layout) (r : Resource)
  | set (key : String) (r : Resource)
  | erase (key : String)
  | forget (path : String)
  | clear
  | modify (key : String) (f : Resource → Resource)
  | resolve (l : Layout)

def act (s : Store) : Action → Store
  | .add l r => (s.add l r).2
  | .set key r => s.set key r
  | .erase key => s.erase key
  | .forget path => s.forget path
  | .clear => .empty
  | .modify key f => s.modify key f
  | .resolve l => s.resolve l

structure Linked (s : Store) : Prop where
  listed : ∀ key path,
    key ∈ s.keysOf path ↔ ∃ source, s.source? key = some source ∧ SameFile source path
  solid : ∀ identity keys, s.produced.get? identity = some keys → keys ≠ [] ∧ keys.Nodup
  stored : ∀ key source, s.source? key = some source → s.contains key = true

theorem contains_eq (s : Store) (key : String) : s.contains key = (s.get? key).isSome := rfl

theorem empty_linked : empty.Linked where
  listed key path := by
    constructor
    · intro member
      cases member
    · rintro ⟨source, found, -⟩
      cases found
  solid identity keys found := by cases found
  stored key source found := by cases found

theorem Linked.of_attributions {s t : Store} (linked : s.Linked)
    (produced : t.produced = s.produced) (sources : t.sources = s.sources)
    (kept : ∀ key source, s.source? key = some source → t.contains key = true) : t.Linked := by
  have source (key : String) : t.source? key = s.source? key := by rw [source?, source?, sources]
  have keys (path : String) : t.keysOf path = s.keysOf path := by rw [keysOf, keysOf, produced]
  constructor
  · intro key path
    rw [keys, source]
    exact linked.listed key path
  · rw [produced]
    exact linked.solid
  · intro key path found
    rw [source] at found
    exact kept key path found

theorem produced_detach {s : Store} {key path : String} (source : s.source? key = some path)
    (identity : PathIdentity) :
    (s.detach key).produced.get? identity =
      if identity = .ofText path then
        if (s.keysOf path).filter (· ≠ key) = [] then none
        else some ((s.keysOf path).filter (· ≠ key))
      else s.produced.get? identity := by
  rw [detach, source]
  dsimp only
  by_cases last : (s.keysOf path).filter (· ≠ key) = []
  · rw [if_pos last, if_pos last, OrderedMap.get?_erase]
  · rw [if_neg last, if_neg last, OrderedMap.get?_insert]
    simp only [eq_comm]

theorem Linked.keysOf_detach {s : Store} (linked : s.Linked) (key path : String) :
    (s.detach key).keysOf path = (s.keysOf path).filter (· ≠ key) := by
  cases source : s.source? key with
  | none =>
    have absent : key ∉ s.keysOf path := by
      rw [linked.listed, source]
      simp
    rw [filter_ne_eq_self absent, Store.detach, source]
  | some holder =>
    rw [keysOf, produced_detach source]
    by_cases same : PathIdentity.ofText path = .ofText holder
    · have lists : s.keysOf path = s.keysOf holder := by rw [keysOf, keysOf, same]
      rw [if_pos same, lists]
      split
      · rename_i last
        rw [last]
        rfl
      · rfl
    · have absent : key ∉ s.keysOf path := by
        rw [linked.listed, source]
        rintro ⟨other, found, named⟩
        obtain rfl := Option.some.inj found
        exact same named.symm
      rw [if_neg same, filter_ne_eq_self absent]
      rfl

theorem Linked.nodup_keysOf {s : Store} (linked : s.Linked) (path : String) :
    (s.keysOf path).Nodup := by
  unfold keysOf
  cases list : s.produced.get? (.ofText path) with
  | none => exact List.nodup_nil
  | some keys => exact (linked.solid _ keys list).2

theorem Linked.detach {s : Store} (linked : s.Linked) (key : String) : (s.detach key).Linked where
  listed k path := by
    rw [linked.keysOf_detach, source?_detach, List.mem_filter, linked.listed]
    by_cases same : k = key
    · simp [same]
    · simp [same]
  solid identity keys found := by
    cases source : s.source? key with
    | none =>
      rw [Store.detach, source] at found
      exact linked.solid identity keys found
    | some path =>
      rw [produced_detach source] at found
      split at found
      · split at found
        · cases found
        · rename_i others
          obtain rfl := Option.some.inj found
          exact ⟨others, List.filter_sublist.nodup (linked.nodup_keysOf path)⟩
      · exact linked.solid identity keys found
  stored k path found := by
    rw [source?_detach] at found
    split at found
    · cases found
    · rw [contains_eq, get?_detach]
      exact linked.stored k path found

theorem contains_insert_of_contains {m : OrderedMap String Resource} {k : String}
    (present : (m.get? k).isSome = true) (key : String) (r : Resource) :
    ((m.insert key r).get? k).isSome = true := by
  rw [OrderedMap.get?_insert]
  split
  · rfl
  · exact present

theorem Linked.set {s : Store} (linked : s.Linked) (key : String) (r : Resource) :
    (s.set key r).Linked :=
  (linked.detach key).of_attributions rfl rfl fun k source found =>
    contains_insert_of_contains ((linked.detach key).stored k source found) key r

theorem Linked.erase {s : Store} (linked : s.Linked) (key : String) : (s.erase key).Linked := by
  refine (linked.detach key).of_attributions rfl rfl fun k source found => ?_
  have other : k ≠ key := by
    rintro rfl
    simp at found
  change (((s.detach key).resources.erase key).get? k).isSome = true
  rw [OrderedMap.get?_erase, if_neg other]
  exact (linked.detach key).stored k source found

theorem Linked.modify {s : Store} (linked : s.Linked) (key : String) (f : Resource → Resource) :
    (s.modify key f).Linked := by
  unfold Store.modify
  split
  · exact linked
  · exact linked.of_attributions rfl rfl fun k source found =>
      contains_insert_of_contains (linked.stored k source found) key _

theorem keysOf_setFrom (s : Store) (path key : String) (r : Resource) (p : String) :
    (s.setFrom path key r).keysOf p =
      (s.detach key).keysOf p ++ if SameFile path p then [key] else [] := by
  change (((s.detach key).produced.insert (.ofText path)
    ((s.detach key).keysOf path ++ [key])).get? (.ofText p)).getD [] = _
  rw [OrderedMap.get?_insert]
  by_cases same : SameFile path p
  · have own : PathIdentity.ofText path = .ofText p := same
    rw [if_pos own, if_pos same, keysOf, keysOf, own]
    rfl
  · have other : PathIdentity.ofText path ≠ .ofText p := same
    rw [if_neg other, if_neg same, List.append_nil]
    rfl

/-- A key that a file produces leaves the file it came from before, so no list has it twice. -/
theorem Linked.setFrom {s : Store} (linked : s.Linked) (path key : String) (r : Resource) :
    (s.setFrom path key r).Linked where
  listed k p := by
    rw [keysOf_setFrom, source?_setFrom, List.mem_append, (linked.detach key).listed,
      source?_detach]
    by_cases here : k = key
    · by_cases same : SameFile path p
      · simp [here, same]
      · simp [here, same]
    · by_cases same : SameFile path p
      · simp [here, same]
      · simp [here, same]
  solid identity keys found := by
    have detached := linked.detach key
    change ((s.detach key).produced.insert (.ofText path)
      ((s.detach key).keysOf path ++ [key])).get? identity = some keys at found
    rw [OrderedMap.get?_insert] at found
    split at found
    · obtain rfl := Option.some.inj found
      have absent : key ∉ (s.detach key).keysOf path := by
        rw [detached.listed, source?_detach, if_pos rfl]
        simp
      refine ⟨by simp, List.nodup_append.mpr ⟨detached.nodup_keysOf path, by simp, ?_⟩⟩
      rintro k member last only rfl
      exact absent (List.mem_singleton.mp only ▸ member)
    · exact detached.solid identity keys found
  stored k source found := by
    rw [contains_eq, get?_setFrom]
    rw [source?_setFrom] at found
    split at found
    · rename_i here
      rw [if_pos here]
      rfl
    · rename_i other
      rw [if_neg other]
      exact linked.stored k source found

theorem Linked.setAllFrom {s : Store} (linked : s.Linked) (path : String)
    (entries : List (String × Resource)) : (s.setAllFrom path entries).Linked := by
  induction entries using List.reverseRecOn with
  | nil => exact linked
  | append_singleton front last ih =>
    rw [setAllFrom_append_singleton]
    exact ih.setFrom path last.1 last.2

theorem Linked.forget {s : Store} (linked : s.Linked) (path : String) : (s.forget path).Linked := by
  have source (k : String) :
      (s.forget path).source? k = if k ∈ s.keysOf path then none else s.source? k :=
    OrderedMap.get?_foldl_erase (s.keysOf path) s.sources k
  have found (k : String) :
      (s.forget path).get? k = if k ∈ s.keysOf path then none else s.get? k :=
    OrderedMap.get?_foldl_erase (s.keysOf path) s.resources k
  have produced (identity : PathIdentity) : (s.forget path).produced.get? identity =
      if identity = .ofText path then none else s.produced.get? identity :=
    OrderedMap.get?_erase s.produced (.ofText path) identity
  constructor
  · intro k p
    rw [source, keysOf, produced]
    by_cases same : PathIdentity.ofText p = .ofText path
    · have lists : s.keysOf path = s.keysOf p := by rw [keysOf, keysOf, same]
      rw [if_pos same, lists]
      by_cases own : k ∈ s.keysOf p
      · simp [own]
      · have unsourced := mt (linked.listed k p).mpr own
        simpa [own] using unsourced
    · rw [if_neg same]
      change k ∈ s.keysOf p ↔ _
      by_cases own : k ∈ s.keysOf path
      · rw [linked.listed]
        obtain ⟨holder, held, named⟩ := (linked.listed k path).mp own
        simp only [own, ↓reduceIte, reduceCtorEq, false_and, exists_false, iff_false]
        rintro ⟨other, also, here⟩
        obtain rfl := Option.some.inj (held.symm.trans also)
        exact same (here.symm.trans named)
      · rw [if_neg own]
        exact linked.listed k p
  · intro identity keys listed
    rw [produced] at listed
    split at listed
    · cases listed
    · exact linked.solid identity keys listed
  · intro k holder held
    rw [source] at held
    split at held
    · cases held
    · rename_i other
      rw [contains_eq, found, if_neg other]
      exact linked.stored k holder held

theorem Linked.add {s : Store} (linked : s.Linked) (l : Layout) (r : Resource) :
    (s.add l r).2.Linked := by
  unfold Store.add
  split
  · exact (linked.forget _).setAllFrom _ _
  · exact linked.set _ r
  · exact linked.set _ r

theorem Linked.resolve {s : Store} (linked : s.Linked) (l : Layout) : (s.resolve l).Linked := by
  refine linked.of_attributions rfl rfl fun k source found => ?_
  have stored := linked.stored k source found
  rw [contains_eq] at stored
  change ((s.resources.mapValues _).get? k).isSome = true
  rw [OrderedMap.get?_mapValues, Option.isSome_map]
  exact stored

theorem Linked.act {s : Store} (linked : s.Linked) (action : Action) : (s.act action).Linked := by
  cases action with
  | add l r => exact linked.add l r
  | set key r => exact linked.set key r
  | erase key => exact linked.erase key
  | forget path => exact linked.forget path
  | clear => exact empty_linked
  | modify key f => exact linked.modify key f
  | resolve l => exact linked.resolve l

theorem Linked.foldl_act {s : Store} (linked : s.Linked) (actions : List Action) :
    (actions.foldl Store.act s).Linked := by
  induction actions generalizing s with
  | nil => exact linked
  | cons action actions ih => exact ih (linked.act action)

/-- After any actions on an empty store, a file lists a key if and only if the key came from that
file, however its path is spelled; no list is empty or has a key twice; and every key with a
source is stored. -/
theorem actions_keep_attributions (actions : List Action) :
    let s := actions.foldl act empty
    (∀ key path, key ∈ s.keysOf path ↔
      ∃ source, s.source? key = some source ∧ SameFile source path) ∧
    (∀ identity keys, s.produced.get? identity = some keys → keys ≠ [] ∧ keys.Nodup) ∧
    (∀ key source, s.source? key = some source → s.contains key = true) := by
  obtain ⟨listed, solid, stored⟩ := empty_linked.foldl_act actions
  exact ⟨listed, solid, stored⟩

end ExportIndex.Store
