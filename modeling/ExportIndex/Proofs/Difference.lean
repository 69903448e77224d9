import ExportIndex.Proofs.Replica

/-!
What a delta says, apart from how it is found. Each name of two catalogs is in
one of three lists or in none, by what the two know of it; the lists follow the
order of the catalog that has the names. These conditions leave no choice: only
one delta meets them. They treat the two catalogs alike, so exchanging the two
exchanges what was added with what was deleted.
-/
namespace ExportIndex

section Selecting

variable {α : Type} [DecidableEq α]

theorem filter_mem_of_sublist {xs zs : List α} (sub : xs.Sublist zs) (distinct : zs.Nodup) :
    zs.filter (· ∈ xs) = xs := by
  induction sub with
  | slnil => rfl
  | @cons xs zs z sub ih =>
    obtain ⟨fresh, distinct⟩ := List.nodup_cons.mp distinct
    have absent : z ∉ xs := fun member => fresh (sub.subset member)
    rw [List.filter_cons_of_neg (by simpa using absent), ih distinct]
  | @cons_cons xs zs z sub ih =>
    obtain ⟨fresh, distinct⟩ := List.nodup_cons.mp distinct
    have rest : zs.filter (· ∈ z :: xs) = zs.filter (· ∈ xs) := by
      apply List.filter_congr
      intro a member
      have other : a ≠ z := by
        rintro rfl
        exact fresh member
      simp [other]
    rw [List.filter_cons_of_pos (by simp), rest, ih distinct]

theorem eq_of_sublist {xs ys zs : List α} (distinct : zs.Nodup) (first : xs.Sublist zs)
    (second : ys.Sublist zs) (same : ∀ a, a ∈ xs ↔ a ∈ ys) : xs = ys := by
  rw [← filter_mem_of_sublist first distinct, ← filter_mem_of_sublist second distinct]
  simp only [same]

end Selecting

namespace OrderedMap

variable {κ α : Type}

theorem keys_filter_sublist (p : κ → α → Bool) (m : OrderedMap κ α) :
    (m.filter p).keys.Sublist m.keys :=
  List.filter_sublist.map Prod.fst

variable [DecidableEq κ]

theorem entries_eq (m : OrderedMap κ α) :
    m.entries = m.keys.filterMap fun k => (m.get? k).map (k, ·) := by
  unfold keys
  rw [List.filterMap_map]
  conv_lhs => rw [← List.filterMap_some (l := m.entries)]
  apply List.filterMap_congr
  intro e stored
  have found : m.get? e.1 = some e.2 := (m.get?_eq_some_iff e.1 e.2).mpr stored
  simp [found]

theorem eq_of_keys {m n : OrderedMap κ α} (keys : m.keys = n.keys)
    (found : ∀ k ∈ m.keys, m.get? k = n.get? k) : m = n := by
  apply ext
  rw [m.entries_eq, n.entries_eq, ← keys]
  apply List.filterMap_congr
  intro k member
  rw [found k member]

theorem get?_filter_of_mem {p : κ → α → Bool} {m : OrderedMap κ α} {k : κ}
    (member : k ∈ (m.filter p).keys) : (m.filter p).get? k = m.get? k := by
  obtain ⟨e, kept, rfl⟩ := List.mem_map.mp member
  have here := ((m.filter p).get?_eq_some_iff e.1 e.2).mpr kept
  rw [here, (m.get?_eq_some_iff e.1 e.2).mpr (List.mem_filter.mp kept).1]

end OrderedMap

theorem Catalog.mem_names_iff {c : Catalog} {name : String} :
    name ∈ c.names ↔ ∃ entries, c.get? name = some entries := by
  rw [← Option.isSome_iff_exists]
  exact (c.lists.contains_iff name).symm

theorem Catalog.notMem_names_iff {c : Catalog} {name : String} :
    name ∉ c.names ↔ c.get? name = none :=
  (c.lists.get?_eq_none_iff name).symm

namespace Delta

structure Describes (d : Delta) (old new : Catalog) : Prop where
  distinct : (d.added.keys ++ d.updated.keys ++ d.deleted).Nodup
  added : ∀ name, name ∈ d.added.keys ↔ name ∉ old.names ∧ name ∈ new.names
  updated : ∀ name, name ∈ d.updated.keys ↔ ∃ before now, old.get? name = some before ∧
    new.get? name = some now ∧ ∃ e, Xor (e ∈ before) (e ∈ now)
  deleted : ∀ name, name ∈ d.deleted ↔ name ∈ old.names ∧ name ∉ new.names
  added_lists : ∀ name ∈ d.added.keys, d.added.get? name = new.get? name
  updated_lists : ∀ name ∈ d.updated.keys, d.updated.get? name = new.get? name
  added_order : d.added.keys.Sublist new.names
  updated_order : d.updated.keys.Sublist new.names
  deleted_order : d.deleted.Sublist old.names

theorem differ_iff {before now : List Entry} :
    differ before now = true ↔ ∃ e, Xor (e ∈ before) (e ∈ now) := by
  simp only [differ, Xor, Bool.or_eq_true, List.any_eq_true, Bool.not_eq_true',
    List.contains_eq_mem, decide_eq_false_iff_not, exists_or]

theorem mem_added_between {old new : Catalog} {name : String} :
    name ∈ (between old new).added.keys ↔ name ∉ old.names ∧ name ∈ new.names := by
  have known : (!old.contains name) = true ↔ name ∉ old.names := by
    rw [Bool.not_eq_true', ← Bool.not_eq_true]
    exact not_congr (old.lists.contains_iff name)
  refine OrderedMap.mem_keys_filter.trans ?_
  rw [Option.any_eq_true]
  constructor
  · rintro ⟨entries, found, absent⟩
    exact ⟨known.mp absent, Catalog.mem_names_iff.mpr ⟨entries, found⟩⟩
  · rintro ⟨absent, present⟩
    obtain ⟨entries, found⟩ := Catalog.mem_names_iff.mp present
    exact ⟨entries, found, known.mpr absent⟩

theorem mem_updated_between {old new : Catalog} {name : String} :
    name ∈ (between old new).updated.keys ↔ ∃ before now, old.get? name = some before ∧
      new.get? name = some now ∧ ∃ e, Xor (e ∈ before) (e ∈ now) := by
  refine OrderedMap.mem_keys_filter.trans ?_
  simp only [Option.any_eq_true, differ_iff]
  constructor
  · rintro ⟨now, found, before, known, changed⟩
    exact ⟨before, now, known, found, changed⟩
  · rintro ⟨before, now, known, found, changed⟩
    exact ⟨now, found, before, known, changed⟩

theorem mem_deleted_iff {old new : Catalog} {name : String} :
    name ∈ (between old new).deleted ↔ name ∈ old.names ∧ name ∉ new.names := by
  rw [mem_deleted_between, Catalog.notMem_names_iff, and_comm]
  exact and_congr_left fun _ => old.lists.contains_iff name

theorem between_describes (old new : Catalog) : (between old new).Describes old new where
  distinct := by
    have apart : ∀ name, name ∈ (between old new).updated.keys →
        name ∈ old.names ∧ name ∈ new.names := by
      intro name changed
      obtain ⟨before, now, known, found, -⟩ := mem_updated_between.mp changed
      exact ⟨Catalog.mem_names_iff.mpr ⟨before, known⟩, Catalog.mem_names_iff.mpr ⟨now, found⟩⟩
    rw [List.nodup_append, List.nodup_append]
    refine ⟨⟨(between old new).added.nodup, (between old new).updated.nodup, ?_⟩,
      old.lists.nodup.filter _, ?_⟩
    · rintro name fresh _ changed rfl
      exact (mem_added_between.mp fresh).1 (apart name changed).1
    · rintro name stays _ gone rfl
      have absent := (mem_deleted_iff.mp gone).2
      rcases List.mem_append.mp stays with fresh | changed
      · exact absent (mem_added_between.mp fresh).2
      · exact absent (apart name changed).2
  added _ := mem_added_between
  updated _ := mem_updated_between
  deleted _ := mem_deleted_iff
  added_lists _ := OrderedMap.get?_filter_of_mem
  updated_lists _ := OrderedMap.get?_filter_of_mem
  added_order := OrderedMap.keys_filter_sublist _ new.lists
  updated_order := OrderedMap.keys_filter_sublist _ new.lists
  deleted_order := List.filter_sublist

namespace Describes

variable {old new : Catalog} {d : Delta}

theorem unique {d' : Delta} (first : d.Describes old new) (second : d'.Describes old new) :
    d = d' := by
  have added : d.added = d'.added := by
    apply OrderedMap.eq_of_keys
    · exact eq_of_sublist new.lists.nodup first.added_order second.added_order fun name =>
        (first.added name).trans (second.added name).symm
    · intro name member
      rw [first.added_lists name member,
        second.added_lists name ((second.added name).mpr ((first.added name).mp member))]
  have updated : d.updated = d'.updated := by
    apply OrderedMap.eq_of_keys
    · exact eq_of_sublist new.lists.nodup first.updated_order second.updated_order fun name =>
        (first.updated name).trans (second.updated name).symm
    · intro name member
      rw [first.updated_lists name member,
        second.updated_lists name ((second.updated name).mpr ((first.updated name).mp member))]
  have deleted : d.deleted = d'.deleted :=
    eq_of_sublist old.lists.nodup first.deleted_order second.deleted_order fun name =>
      (first.deleted name).trans (second.deleted name).symm
  cases d
  cases d'
  simp_all

theorem isEmpty_iff (describes : d.Describes old new) :
    d.isEmpty = true ↔ (∀ name, name ∈ old.names ↔ name ∈ new.names) ∧
      ∀ name e, e ∈ old.under name ↔ e ∈ new.under name := by
  have nothing : d.isEmpty = true ↔
      (∀ name, name ∉ d.added.keys) ∧ (∀ name, name ∉ d.updated.keys) ∧
        ∀ name, name ∉ d.deleted := by
    simp only [isEmpty, OrderedMap.isEmpty, Bool.and_eq_true, List.isEmpty_iff, and_assoc,
      ← List.eq_nil_iff_forall_not_mem, OrderedMap.keys, List.map_eq_nil_iff]
  rw [nothing]
  simp only [describes.added, describes.updated, describes.deleted]
  constructor
  · rintro ⟨fresh, changed, gone⟩
    have names : ∀ name, name ∈ old.names ↔ name ∈ new.names := by
      intro name
      constructor
      · intro known
        by_contra absent
        exact gone name ⟨known, absent⟩
      · intro known
        by_contra absent
        exact fresh name ⟨absent, known⟩
    refine ⟨names, fun name e => ?_⟩
    unfold Catalog.under
    cases known : old.get? name with
    | none =>
      have absent : name ∉ new.names := mt (names name).mpr (Catalog.notMem_names_iff.mpr known)
      rw [Catalog.notMem_names_iff.mp absent]
    | some before =>
      obtain ⟨now, found⟩ :=
        Catalog.mem_names_iff.mp ((names name).mp (Catalog.mem_names_iff.mpr ⟨before, known⟩))
      rw [found]
      by_contra apart
      refine changed name ⟨before, now, known, found, e, ?_⟩
      rwa [xor_iff_not_iff]
  · rintro ⟨names, entries⟩
    refine ⟨fun name fresh => ?_, fun name changed => ?_, fun name gone => ?_⟩
    · exact fresh.1 ((names name).mpr fresh.2)
    · obtain ⟨before, now, known, found, e, apart⟩ := changed
      have same := entries name e
      rw [Catalog.under, Catalog.under, known, found] at same
      exact (xor_iff_not_iff _ _).mp apart same
    · exact gone.2 ((names name).mp gone.1)

theorem reverse {back : Delta} (forth : d.Describes old new) (reversed : back.Describes new old) :
    back.added.keys = d.deleted ∧ back.deleted = d.added.keys ∧
      back.updated.keys.Perm d.updated.keys := by
  refine ⟨?_, ?_, ?_⟩
  · apply eq_of_sublist old.lists.nodup reversed.added_order forth.deleted_order
    intro name
    rw [reversed.added, forth.deleted, and_comm]
  · apply eq_of_sublist new.lists.nodup reversed.deleted_order forth.added_order
    intro name
    rw [reversed.deleted, forth.added, and_comm]
  · apply (List.perm_ext_iff_of_nodup back.updated.nodup d.updated.nodup).mpr
    intro name
    refine (reversed.updated name).trans (Iff.trans ?_ (forth.updated name).symm)
    constructor
    · rintro ⟨now, before, found, known, e, apart⟩
      exact ⟨before, now, known, found, e, (xor_comm _ _).mp apart⟩
    · rintro ⟨before, now, known, found, e, apart⟩
      exact ⟨now, before, found, known, e, (xor_comm _ _).mp apart⟩

end Describes

/-- The delta between two catalogs is exact: it is the one that says of each name whether only the
new catalog has it, only the old one, or both with an entry that is in one list and not in the
other. It is empty exactly if both have the same names with the same entries, and between the two
in the other order the deleted names are the added ones, the added names the deleted ones, and the
updated names the same. -/
theorem between_is_exact (old new : Catalog) :
    (∀ d : Delta, d.Describes old new ↔ d = between old new) ∧
    ((between old new).isEmpty = true ↔ (∀ name, name ∈ old.names ↔ name ∈ new.names) ∧
      ∀ name e, e ∈ old.under name ↔ e ∈ new.under name) ∧
    (between new old).added.keys = (between old new).deleted ∧
    (between new old).deleted = (between old new).added.keys ∧
    (between new old).updated.keys.Perm (between old new).updated.keys := by
  have forth := between_describes old new
  refine ⟨fun d => ⟨fun describes => describes.unique forth, ?_⟩, forth.isEmpty_iff,
    forth.reverse (between_describes new old)⟩
  rintro rfl
  exact forth

end Delta

end ExportIndex
