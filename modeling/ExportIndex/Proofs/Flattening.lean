import ExportIndex.Proofs.Cataloguing
import Mathlib.Data.String.Basic

/-!
The flattened list of a catalog. It has every entry, name after name in the order
of their characters, and within a name as they were listed. The name is the one
that an entry is listed under. A declaration is listed under its own name, but a
module or namespace as a whole is listed under the name it was declared with and
carries the identifier it is imported by, which may differ; so the list need not
be in the order of the declarations' own names, and what disturbs that order is
always such an identifier.
-/
namespace ExportIndex

namespace Catalog

/-- The flattened list, each entry with the name that it is listed under. -/
def filed (c : Catalog) : List (String × Entry) :=
  (StableSort.sort (fun a b => decide (a ≤ b)) c.names).flatMap fun name =>
    (c.under name).map fun e => (name, e)

theorem flatten_eq_map (c : Catalog) : c.flatten = c.filed.map Prod.snd := by
  simp [flatten, filed, List.map_flatMap]

theorem flatten_perm (c : Catalog) : c.flatten.Perm c.lists.values.flatten := by
  have listed : c.names.flatMap c.under = c.lists.values.flatten := by
    unfold names OrderedMap.keys OrderedMap.values
    rw [List.flatMap_map, ← List.flatMap_def]
    apply List.flatMap_congr
    intro e member
    have found : c.get? e.1 = some e.2 := (c.lists.get?_eq_some_iff e.1 e.2).mpr member
    rw [under, found]
    rfl
  rw [flatten, ← listed]
  exact (StableSort.sort_perm _ c.names).flatMap_right c.under

theorem length_flatten (c : Catalog) : c.flatten.length = c.count := c.flatten_perm.length_eq

theorem filed_pairwise (c : Catalog) : c.filed.Pairwise fun a b => a.1 ≤ b.1 := by
  have total (a b : String) : (decide (a ≤ b) || decide (b ≤ a)) = true := by
    simpa using le_total a b
  have trans (a b c : String) (first : decide (a ≤ b) = true) (second : decide (b ≤ c) = true) :
      decide (a ≤ c) = true :=
    decide_eq_true (le_trans (of_decide_eq_true first) (of_decide_eq_true second))
  have sorted := StableSort.sort_pairwise total trans c.names
  refine List.pairwise_flatMap.mpr ⟨fun name _ => ?_, sorted.imp fun {a b} before => ?_⟩
  · exact List.pairwise_map.mpr (List.pairwise_of_forall fun _ _ => le_refl name)
  · intro x first y second
    obtain ⟨_, -, rfl⟩ := List.mem_map.mp first
    obtain ⟨_, -, rfl⟩ := List.mem_map.mp second
    exact of_decide_eq_true before

theorem mem_under_of_filed {c : Catalog} {f : String × Entry} (member : f ∈ c.filed) :
    f.2 ∈ c.under f.1 := by
  obtain ⟨name, -, inside⟩ := List.mem_flatMap.mp member
  obtain ⟨e, listed, rfl⟩ := List.mem_map.mp inside
  exact listed

theorem name?_of_mem_offers {key name : String} {r : Resource} {e : Entry}
    (met : (name, e) ∈ offers key r) (other : e.declaration.name ≠ name) :
    r.name? = some name ∧ e.declaration.name = Alias.ofName name ∧ e.origin = key := by
  rcases List.mem_append.mp met with whole | owned
  · obtain ⟨declared, found, same⟩ := Option.map_eq_some_iff.mp (Option.mem_toList.mp whole)
    obtain ⟨rfl, rfl⟩ := Prod.mk.inj same
    exact ⟨found, rfl, rfl⟩
  · obtain ⟨d, -, same⟩ := List.mem_map.mp owned
    obtain ⟨rfl, rfl⟩ := Prod.mk.inj same
    exact absurd rfl other

theorem container_of_filed {s : Store} {f : String × Entry} (member : f ∈ (ofStore s).filed)
    (other : f.2.declaration.name ≠ f.1) :
    f.2.declaration.name = Alias.ofName f.1 ∧
    ∃ r, s.get? f.2.origin = some r ∧ r.name? = some f.1 := by
  have listed := mem_under_of_filed member
  rw [(ofStore_lists s).entries] at listed
  have met : f ∈ offersOf s := by
    obtain ⟨g, inside, same⟩ := List.mem_map.mp
      ((FirstOfEach.eraseDupsBy_sublist _ _).subset listed)
    obtain ⟨held, named⟩ := List.mem_filter.mp inside
    rw [offersOf_eq_pieces]
    rwa [← Prod.ext (of_decide_eq_true named) same]
  obtain ⟨⟨key, r⟩, stored, offered⟩ := List.mem_flatMap.mp met
  obtain ⟨name, identifier, origin⟩ := name?_of_mem_offers offered other
  exact ⟨identifier, r, origin ▸ (s.resources.get?_eq_some_iff key r).mpr stored, name⟩

/-- A sorted list is in a second order too if every element that does not go along with it stands
where it belongs. -/
theorem pairwise_of_strays {α : Type} {first second : α → α → Prop} {stray : α → Prop}
    {xs : List α} (sorted : xs.Pairwise first)
    (along : ∀ a b, first a b → ¬ stray a → ¬ stray b → second a b)
    (placed : ∀ front x back, xs = front ++ x :: back → stray x →
      (∀ y ∈ front, second y x) ∧ ∀ y ∈ back, second x y) : xs.Pairwise second := by
  refine List.pairwise_iff_forall_sublist.mpr fun {a b} sub => ?_
  obtain ⟨early, late, rfl, here, there⟩ := List.cons_sublist_iff.mp sub
  obtain ⟨front, mid, rfl⟩ := List.append_of_mem here
  have later := List.singleton_sublist.mp there
  obtain ⟨mid', back, rfl⟩ := List.append_of_mem later
  by_cases strayA : stray a
  · exact (placed front a (mid ++ (mid' ++ b :: back)) (by simp) strayA).2 b (by simp)
  · by_cases strayB : stray b
    · exact (placed (front ++ a :: mid ++ mid') b back (by simp) strayB).1 a (by simp)
    · exact along a b (List.pairwise_iff_forall_sublist.mp sorted sub) strayA strayB

end Catalog

/-- The flattened list of a catalog is complete, and in the order of the names that its entries
are listed under. It is in the order of the declarations' own names exactly if every entry that is
not listed under its own name stands where that name belongs. Such an entry is that of a stored
module or namespace whose name differs from the identifier made from it. -/
theorem flatten_follows_listed_names (s : Store) :
    let c := Catalog.ofStore s
    c.flatten.Perm c.lists.values.flatten ∧ c.flatten.length = c.count ∧
    c.flatten = c.filed.map Prod.snd ∧ c.filed.Pairwise (fun a b => a.1 ≤ b.1) ∧
    (∀ f ∈ c.filed, f.2 ∈ c.under f.1 ∧ (f.2.declaration.name ≠ f.1 →
      f.2.declaration.name = Alias.ofName f.1 ∧
        ∃ r, s.get? f.2.origin = some r ∧ r.name? = some f.1)) ∧
    (c.flatten.Pairwise (fun d e => d.declaration.name ≤ e.declaration.name) ↔
      ∀ front f back, c.filed = front ++ f :: back → f.2.declaration.name ≠ f.1 →
        (∀ d ∈ front, d.2.declaration.name ≤ f.2.declaration.name) ∧
        ∀ d ∈ back, f.2.declaration.name ≤ d.2.declaration.name) := by
  intro c
  refine ⟨c.flatten_perm, c.length_flatten, c.flatten_eq_map, c.filed_pairwise, ?_, ?_⟩
  · exact fun f member =>
      ⟨Catalog.mem_under_of_filed member, Catalog.container_of_filed member⟩
  · rw [c.flatten_eq_map, List.pairwise_map]
    constructor
    · intro ordered front f back cut _
      rw [cut] at ordered
      obtain ⟨-, after, across⟩ := List.pairwise_append.mp ordered
      exact ⟨fun d held => across d held f List.mem_cons_self, (List.pairwise_cons.mp after).1⟩
    · refine Catalog.pairwise_of_strays c.filed_pairwise fun a b before own also => ?_
      rwa [not_not.mp own, not_not.mp also]

section Sample

def requestLimits : Store :=
  (Store.empty.set "body-parser" ⟨.declaredModule "body-parser", [], [], [], [], [], none⟩).set
    "/src/limits"
    ⟨.file "/ws/src/limits.ts", [⟨"bodyLimit", .functionDef, true, none⟩], [], [], [], [], none⟩

/-- The hyphen comes before every letter, but the identifier has a capital in its place. -/
theorem hyphenated_out_of_order :
    (Catalog.ofStore requestLimits).filed.map (fun f => (f.1, f.2.declaration.name)) =
      [("body-parser", "bodyParser"), ("bodyLimit", "bodyLimit")] ∧
    ¬ (Catalog.ofStore requestLimits).flatten.Pairwise
      fun d e => d.declaration.name ≤ e.declaration.name := by
  decide +kernel

end Sample

end ExportIndex
