import ExportIndex.Proofs.FirstOfEach
import ExportIndex.Proofs.Listing

/-!
The catalog of a store, name by name and in order. A walk over the store meets
everything there is to list, and each piece goes to the catalog as it is met, so
lists of different names grow side by side. What comes out can be said without
the walk: the names are those that were met, in the order in which each was met
first, and under a name stands what was met under it, less everything that has
the kind and the origin of something met before.
-/
namespace ExportIndex

/-- What there is to list of a stored resource: a module or a namespace as a whole, under its own
name and from its own key, and then every declaration that the resource owns. -/
def Resource.pieces (key : String) (r : Resource) : List (String × Entry) :=
  match r.kind with
  | .file _ => owned
  | .declaredModule name | .declaredNamespace name =>
    (name, ⟨⟨Alias.ofName name, .moduleAlias, false, r.span⟩, key⟩) :: owned
where
  owned : List (String × Entry) := r.declarations.map fun d => (d.name, ⟨d, originOfKey key⟩)

def Store.pieces (s : Store) : List (String × Entry) :=
  s.resources.entries.flatMap fun (key, r) => r.pieces key

def Entry.repeats (later earlier : Entry) : Bool :=
  later.declaration.kind = earlier.declaration.kind ∧ later.origin = earlier.origin

namespace Catalog

def metUnder (ps : List (String × Entry)) (name : String) : List Entry :=
  (ps.filter (·.1 = name)).map Prod.snd

/-- Whether a catalog has exactly the names of some pieces, each from when it was met first, and
under each name the first of every kind and origin. -/
structure Lists (c : Catalog) (ps : List (String × Entry)) : Prop where
  names : c.names = (ps.map Prod.fst).eraseDups
  entries (name : String) : c.under name = (metUnder ps name).eraseDupsBy Entry.repeats

theorem offers_eq_pieces (key : String) (r : Resource) : offers key r = r.pieces key := by
  obtain ⟨kind, declarations, exports, imports, usages, resources, span⟩ := r
  cases kind with
  | file path => rfl
  | declaredModule name => rfl
  | declaredNamespace name => rfl

theorem offersOf_eq_pieces (s : Store) : offersOf s = s.pieces := by
  unfold offersOf Store.pieces
  exact List.flatMap_congr fun e _ => offers_eq_pieces e.1 e.2

theorem metUnder_concat (ps : List (String × Entry)) (p : String × Entry) (name : String) :
    metUnder (ps ++ [p]) name = metUnder ps name ++ if p.1 = name then [p.2] else [] := by
  unfold metUnder
  by_cases here : p.1 = name
  · simp [here]
  · simp [here]

theorem accepts_eq (c : Catalog) (name : String) (e : Entry) :
    c.accepts name e = !(c.under name).any e.repeats := by
  have agree : (Entry.Clashes · e : Entry → Bool) = e.repeats := by
    funext d
    simp only [Entry.Clashes, Entry.repeats, eq_comm]
  rw [accepts, agree]

theorem empty_lists : empty.Lists [] := ⟨rfl, fun _ => rfl⟩

/-- One more piece: a name is new or not, and the piece stays out if it repeats one that is
listed under its name. -/
theorem Lists.add {c : Catalog} {ps : List (String × Entry)} (lists : c.Lists ps)
    (p : String × Entry) : (c.add p.1 p.2).Lists (ps ++ [p]) where
  names := by
    have known : p.1 ∈ c.names ↔ p.1 ∈ ps.map Prod.fst := by
      rw [lists.names, List.mem_eraseDups]
    rw [List.map_append, List.map_singleton, FirstOfEach.eraseDups_concat, ← lists.names]
    exact (OrderedMap.keys_insert c.lists p.1 _).trans (if_congr known rfl rfl)
  entries name := by
    rw [under_add, accepts_eq, metUnder_concat]
    by_cases here : p.1 = name
    · subst here
      rw [if_pos rfl, FirstOfEach.eraseDupsBy_concat, ← lists.entries]
      by_cases repeated : (c.under p.1).any p.2.repeats = true
      · simp [repeated]
      · simp [repeated]
    · simp [here, lists.entries]

theorem ofOffers_lists (ps : List (String × Entry)) : (ofOffers ps).Lists ps := by
  induction ps using List.reverseRecOn with
  | nil => exact empty_lists
  | append_singleton ps p ih =>
    rw [ofOffers_snoc]
    exact ih.add p

theorem ofStore_lists (s : Store) : (ofStore s).Lists s.pieces := by
  rw [← offersOf_eq_pieces]
  exact ofOffers_lists _

namespace Lists

variable {c : Catalog} {ps : List (String × Entry)} (lists : c.Lists ps)

include lists

theorem mem_names {name : String} : name ∈ c.names ↔ ∃ e, (name, e) ∈ ps := by
  rw [lists.names, List.mem_eraseDups, List.mem_map]
  constructor
  · rintro ⟨⟨_, e⟩, met, rfl⟩
    exact ⟨e, met⟩
  · rintro ⟨e, met⟩
    exact ⟨_, met, rfl⟩

theorem get?_eq (name : String) :
    c.get? name = if name ∈ ps.map Prod.fst then
      some ((metUnder ps name).eraseDupsBy Entry.repeats) else none := by
  have known : name ∈ ps.map Prod.fst ↔ name ∈ c.names := by rw [lists.names, List.mem_eraseDups]
  rw [if_congr known rfl rfl]
  cases found : c.get? name with
  | none =>
    have absent : name ∉ c.names := (c.lists.get?_eq_none_iff name).mp found
    rw [if_neg absent]
  | some entries =>
    have present : name ∈ c.names :=
      List.mem_map.mpr ⟨_, (c.lists.get?_eq_some_iff name entries).mp found, rfl⟩
    rw [if_pos present, ← lists.entries, under, found]
    rfl

theorem exists_entry {name : String} {e : Entry} (met : (name, e) ∈ ps) :
    ∃ d ∈ c.under name, e.repeats d = true := by
  rw [lists.entries]
  apply FirstOfEach.exists_kept
  · intro d
    simp [Entry.repeats]
  · exact List.mem_map.mpr ⟨_, List.mem_filter.mpr ⟨met, by simp⟩, rfl⟩

theorem ne_nil {name : String} {entries : List Entry} (found : c.get? name = some entries) :
    entries ≠ [] := by
  have present : name ∈ c.names :=
    List.mem_map.mpr ⟨_, (c.lists.get?_eq_some_iff name entries).mp found, rfl⟩
  obtain ⟨e, met⟩ := lists.mem_names.mp present
  obtain ⟨d, listed, -⟩ := lists.exists_entry met
  rw [under, found] at listed
  exact List.ne_nil_of_mem listed

theorem pairwise {name : String} {entries : List Entry} (found : c.get? name = some entries) :
    entries.Pairwise fun d e =>
      ¬ (d.declaration.kind = e.declaration.kind ∧ d.origin = e.origin) := by
  have listed : c.under name = entries := by
    rw [under, found]
    rfl
  rw [← listed, lists.entries]
  refine (FirstOfEach.eraseDupsBy_pairwise _ _).imp fun {d e} fresh clash => ?_
  simp [Entry.repeats, clash.1, clash.2] at fresh

end Lists

end Catalog

/-- The catalog of a store is exact. Its names are those that a walk over the store meets, in the
order in which each is met first; the list of a name is what is met under it, where of those that
share kind and origin only the first is kept. So no list is empty, no two entries of a name agree
on kind and origin, and everything that is met is represented. -/
theorem catalog_lists_pieces (s : Store) :
    let c := Catalog.ofStore s
    c.names = (s.pieces.map Prod.fst).eraseDups ∧
    (∀ name, c.get? name = if name ∈ s.pieces.map Prod.fst then
      some (((s.pieces.filter (·.1 = name)).map Prod.snd).eraseDupsBy Entry.repeats) else none) ∧
    (∀ name entries, c.get? name = some entries → entries ≠ [] ∧
      entries.Pairwise fun d e =>
        ¬ (d.declaration.kind = e.declaration.kind ∧ d.origin = e.origin)) ∧
    ∀ name e, (name, e) ∈ s.pieces → ∃ d ∈ c.under name,
      d.declaration.kind = e.declaration.kind ∧ d.origin = e.origin := by
  have lists := Catalog.ofStore_lists s
  refine ⟨lists.names, lists.get?_eq, fun name entries found => ?_, fun name e met => ?_⟩
  · exact ⟨lists.ne_nil found, lists.pairwise found⟩
  · obtain ⟨d, listed, same⟩ := lists.exists_entry met
    have alike : e.declaration.kind = d.declaration.kind ∧ e.origin = d.origin :=
      of_decide_eq_true same
    exact ⟨d, listed, alike.1.symm, alike.2.symm⟩

/-- The file of a directory and the index file in it have one origin. -/
example :
    ((Catalog.ofStore
      ((Store.empty.set "/x/index" ⟨.file "/ws/x/index.ts",
          [⟨"A", .classDef, true, none⟩, ⟨"B", .classDef, true, none⟩], [], [], [], [], none⟩).set
        "/x" ⟨.file "/ws/x.ts",
          [⟨"A", .classDef, true, some ⟨3, 4⟩⟩, ⟨"A", .enumDef, true, none⟩], [], [], [], [],
          none⟩)).under "A").map (fun e => (e.declaration.kind, e.declaration.span, e.origin)) =
      [(.classDef, none, "/x"), (.enumDef, none, "/x")] := by
  decide +kernel

end ExportIndex
