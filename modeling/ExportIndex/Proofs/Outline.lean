import ExportIndex.Proofs.Completion

/-!
What a pass cannot change. The outline of a resource is all of it but the
declarations, its own and those of whatever it holds. A store is its outline
together with who owns what, and resolution only decides the second.
-/
namespace ExportIndex

namespace Resource

mutual

def outline : Resource → Resource
  | ⟨kind, _, exports, imports, usages, resources, span⟩ =>
    ⟨kind, [], exports, imports, usages, outlineAll resources, span⟩

def outlineAll : List Resource → List Resource
  | [] => []
  | r :: rest => outline r :: outlineAll rest

end

/-- Two resources that differ in nothing but the declarations they own and what they hold, of
which they hold equally many. -/
structure Alike (a b : Resource) : Prop where
  kind : a.kind = b.kind
  exports : a.exports = b.exports
  imports : a.imports = b.imports
  usages : a.usages = b.usages
  span : a.span = b.span
  count : a.resources.length = b.resources.length

theorem outlineAll_eq_map (rs : List Resource) : outlineAll rs = rs.map outline := by
  induction rs with
  | nil => rw [outlineAll, List.map_nil]
  | cons r rest ih => rw [outlineAll, ih, List.map_cons]

theorem outline_eq (r : Resource) :
    r.outline = { r with declarations := [], resources := r.resources.map outline } := by
  cases r
  rw [outline, outlineAll_eq_map]

theorem Alike.of_outline {a b : Resource} (same : a.outline = b.outline) : Alike a b := by
  rw [outline_eq, outline_eq] at same
  injection same with kind _ exports imports usages resources span
  have count := congrArg List.length resources
  rw [List.length_map, List.length_map] at count
  exact ⟨kind, exports, imports, usages, span, count⟩

theorem descend_outline (r : Resource) (way : List Nat) :
    r.outline.descend way = (r.descend way).map outline := by
  induction way generalizing r with
  | nil => rfl
  | cons i way ih =>
    have held : r.outline.resources = r.resources.map outline := by rw [outline_eq]
    rw [descend, descend, held, List.getElem?_map]
    cases r.resources[i]? with
    | none => rfl
    | some inner => exact ih inner

mutual

theorem outline_withOwned (owned : Place → List Declaration) : ∀ (r : Resource) (place : Place),
    (r.withOwned owned place).outline = r.outline
  | ⟨kind, declarations, exports, imports, usages, resources, span⟩, place => by
    rw [withOwned, outline, outline, outlineAll_withOwnedAll owned resources place 0]

theorem outlineAll_withOwnedAll (owned : Place → List Declaration) : ∀ (rs : List Resource)
    (place : Place) (i : Nat), outlineAll (withOwnedAll owned place i rs) = outlineAll rs
  | [], _, _ => by rw [withOwnedAll]
  | r :: rest, place, i => by
    rw [withOwnedAll, outlineAll, outlineAll, outline_withOwned owned r (place.child i),
      outlineAll_withOwnedAll owned rest place (i + 1)]

end

mutual

theorem withOwned_outline (owned : Place → List Declaration) : ∀ (r : Resource) (place : Place),
    r.outline.withOwned owned place = r.withOwned owned place
  | ⟨kind, declarations, exports, imports, usages, resources, span⟩, place => by
    rw [outline, withOwned, withOwned, withOwnedAll_outlineAll owned resources place 0]

theorem withOwnedAll_outlineAll (owned : Place → List Declaration) : ∀ (rs : List Resource)
    (place : Place) (i : Nat),
    withOwnedAll owned place i (outlineAll rs) = withOwnedAll owned place i rs
  | [], _, _ => by rw [outlineAll]
  | r :: rest, place, i => by
    rw [outlineAll, withOwnedAll, withOwnedAll, withOwned_outline owned r (place.child i),
      withOwnedAll_outlineAll owned rest place (i + 1)]

end

end Resource

namespace OrderedMap

variable {κ α β γ : Type}

theorem mapValues_mapValues (m : OrderedMap κ α) (f : κ → α → β) (g : κ → β → γ) :
    (m.mapValues f).mapValues g = m.mapValues fun k a => g k (f k a) := by
  apply OrderedMap.ext
  simp [mapValues]

end OrderedMap

namespace Store

def outline (s : Store) : Store :=
  { s with resources := s.resources.mapValues fun _ r => r.outline }

theorem at?_outline (s : Store) (p : Place) : s.outline.at? p = (s.at? p).map Resource.outline := by
  have top : s.outline.get? p.key = (s.get? p.key).map Resource.outline :=
    s.resources.get?_mapValues _ p.key
  rw [at?, at?, top]
  cases s.get? p.key with
  | none => rfl
  | some r => exact r.descend_outline p.down

theorem outline_withOwned (s : Store) (owned : Place → List Declaration) :
    (s.withOwned owned).outline = s.outline := by
  simp only [outline, withOwned, OrderedMap.mapValues_mapValues, Resource.outline_withOwned]

theorem withOwned_outline (s : Store) (owned : Place → List Declaration) :
    s.outline.withOwned owned = s.withOwned owned := by
  simp only [outline, withOwned, OrderedMap.mapValues_mapValues, Resource.withOwned_outline]

theorem withOwned_retained (s : Store) (owned : Place → List Declaration) :
    s.retained.withOwned owned = s.withOwned owned := by
  have same : s.retained.outline = s.outline := by
    simp only [outline, retained, OrderedMap.mapValues_mapValues, Resource.outline_eq,
      Resource.retained]
  rw [← withOwned_outline, same, withOwned_outline]

theorem eq_of_outline {s t : Store} (shape : t.outline = s.outline) (owned : t.owned = s.owned) :
    t = s := by
  rw [← t.withOwned_owned, ← t.withOwned_outline, shape, owned, s.withOwned_outline,
    s.withOwned_owned]

end Store

end ExportIndex
