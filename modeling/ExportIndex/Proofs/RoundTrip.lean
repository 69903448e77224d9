import ExportIndex.Proofs.Interchange

/-!
The written forms of spans, kinds, declarations, entries, catalogs, deltas,
changes and layouts, each with its tidy form: which fields it has, what may stand
in them, and what is written for a field that was not there.
-/
namespace ExportIndex

open Json

theorem guard_bind {α : Type} (c : Bool) (x : Option α) :
    (do guard (c = true); x) = if c then x else none := by
  cases c <;> rfl

namespace Span

def tidy? : Json → Option Json :=
  tidyRecord 2 [.required "start" (keep isOffset), .required "end" (keep isOffset)]

theorem carries : Carries toJson ofJson? Eq tidy? := by
  have stop := offset_carries.required.cons "end" (.nil 2) (by decide)
  have fields := offset_carries.required.cons "start" stop (by decide)
  refine fields.record (by decide) (fun v => ⟨v.1, v.2.1⟩) (fun s => (s.start, s.stop, ()))
    (fun _ => rfl) ?_ (fun _ => rfl) (fun _ => rfl) ?_
  · intro j
    rw [ofJson?, guard_bind]
    simp only [Option.bind_assoc, Option.map_bind, Option.map_some, Function.comp_def]
    rfl
  · rintro a b ⟨start, stop, -⟩
    rw [start, stop]

end Span

namespace Declaration

namespace Kind

def tags : List String :=
  ["Class", "Interface", "Function", "Enum", "TypeAlias", "Variable", "Module", "Default"]

def tidyTag? (tag : String) : Option Json := if tag ∈ tags then some (.text tag) else none

def tidy? : Json → Option Json
  | .text tag => tidyTag? tag
  | .object [(tag, .null)] => tidyTag? tag
  | _ => none

theorem ofTag?_tag (k : Kind) : ofTag? k.tag = some k := by
  cases k <;> decide

theorem map_ofTag? (tag : String) : (ofTag? tag).map toJson = tidyTag? tag := by
  have known : tags = all.map Kind.tag := rfl
  rw [tidyTag?, known]
  cases found : ofTag? tag with
  | none =>
    have absent : tag ∉ all.map Kind.tag := fun member => by
      obtain ⟨k, held, named⟩ := List.mem_map.mp member
      have other := List.find?_eq_none.mp found k held
      simp [named] at other
    rw [if_neg absent, Option.map_none]
  | some k =>
    have named : k.tag = tag := by simpa using List.find?_some found
    have member : tag ∈ all.map Kind.tag := by
      rw [← named]
      exact List.mem_map_of_mem (List.mem_of_find?_eq_some found)
    rw [if_pos member, Option.map_some, toJson, named]

/-- Only an object with a single field can be read, so the order of fields does not matter. -/
theorem ofJson?_object_congr {fs gs : List (String × Json)}
    (names : (fs.map Prod.fst).Perm (gs.map Prod.fst))
    (values : ∀ name x y, field? name fs = some x → field? name gs = some y → Same x y) :
    ofJson? (.object fs) = ofJson? (.object gs) := by
  have lengths : fs.length = gs.length := by simpa using names.length_eq
  match fs, gs, lengths with
  | [], [], _ => rfl
  | [(a, x)], [(b, y)], _ =>
    obtain rfl : a = b := by simpa using names
    have inner := values a x y (by simp [field?]) (by simp [field?])
    cases inner <;> rfl
  | _ :: _ :: _, _ :: _ :: _, _ => simp [ofJson?]

theorem carries : Carries toJson ofJson? Eq tidy? where
  distinct k := .text k.tag
  reads_back := ofTag?_tag
  any_order j k _ same := by
    rw [rel_eq_iff]
    cases same with
    | refl => rfl
    | list items => rfl
    | object names values => exact ofJson?_object_congr names values
  rewrites j _ := by
    unfold ofJson?
    split
    · exact map_ofTag? _
    · exact map_ofTag? _
    · rename_i plain single
      unfold tidy?
      split
      · exact absurd rfl (plain _)
      · exact absurd rfl (single _)
      · rfl

end Kind

def tidy? : Json → Option Json :=
  tidyRecord 4 [.required "name" (keep isText), .required "kind" Kind.tidy?,
    .required "is_exported" (keep isFlag), .usually "span" .null (tidyOptional Span.tidy?)]

theorem carries : Carries toJson ofJson? Eq tidy? := by
  have shown (s : Span) : s.toJson ≠ .null := by simp [Span.toJson]
  have span := ((Span.carries.optional shown).usually none rfl).cons "span" (.nil 4) (by decide)
  have exported := flag_carries.required.cons "is_exported" span (by decide)
  have kind := Kind.carries.required.cons "kind" exported (by decide)
  have fields := text_carries.required.cons "name" kind (by decide)
  refine fields.record (by decide) (fun v => ⟨v.1, v.2.1, v.2.2.1, v.2.2.2.1⟩)
    (fun d => (d.name, d.kind, d.exported, d.span, ())) (fun _ => rfl) ?_ (fun _ => rfl)
    (fun _ => rfl) ?_
  · intro j
    have missing (o : Option Json) : (o.getD .null).optional? Span.ofJson? =
        Layout.fieldOr none (optional? Span.ofJson?) o := by
      cases o <;> rfl
    rw [ofJson?, guard_bind]
    simp only [missing]
    simp only [Option.bind_assoc, Option.map_bind, Option.map_some, Function.comp_def]
    rfl
  · rintro a b ⟨name, kind, exported, span, -⟩
    rw [name, kind, exported, span]

end Declaration

namespace Entry

def tidy? : Json → Option Json :=
  tidyRecord 2 [.required "declaration" Declaration.tidy?, .required "from" (keep isText)]

theorem carries : Carries toJson ofJson? Eq tidy? := by
  have origin := text_carries.required.cons "from" (.nil 2) (by decide)
  have fields := Declaration.carries.required.cons "declaration" origin (by decide)
  refine fields.record (by decide) (fun v => ⟨v.1, v.2.1⟩)
    (fun e => (e.declaration, e.origin, ())) (fun _ => rfl) ?_ (fun _ => rfl) (fun _ => rfl) ?_
  · intro j
    rw [ofJson?, guard_bind]
    simp only [Option.bind_assoc, Option.map_bind, Option.map_some, Function.comp_def]
    rfl
  · rintro a b ⟨declaration, origin, -⟩
    rw [declaration, origin]

def tidyLists? : Json → Option Json := tidyNamed (tidyItems tidy?)

end Entry

namespace Catalog

theorem agrees_of_get? {c d : Catalog} (same : ∀ name, c.get? name = d.get? name) :
    c.agrees d = true := by
  have names : c.lists.keys.Perm d.lists.keys := by
    apply (List.perm_ext_iff_of_nodup c.lists.nodup d.lists.nodup).mpr
    intro name
    change name ∈ c.lists.keys ↔ name ∈ d.lists.keys
    rw [← OrderedMap.contains_iff, ← OrderedMap.contains_iff, OrderedMap.contains,
      OrderedMap.contains, ← Catalog.get?, same, Catalog.get?]
  have sizes : c.size = d.size := by
    simpa [OrderedMap.keys, size, OrderedMap.size] using names.length_eq
  rw [agrees, sizes, decide_eq_true rfl, Bool.true_and, List.all_eq_true]
  intro e held
  rw [decide_eq_true_iff, ← same]
  exact (c.lists.get?_eq_some_iff e.1 e.2).mpr held

end Catalog

namespace Entry

theorem lists_carries :
    Carries listsToJson listsOfJson? (fun m n => (Catalog.mk m).agrees ⟨n⟩ = true) tidyLists? where
  distinct m := by
    have each := carries.items
    refine .object ?_ (List.forall_mem_map.mpr fun e _ => each.distinct e.2)
    simpa [Function.comp_def] using m.nodup
  reads_back m := by
    change (fields? (list? ofJson?) (m.entries.map fun e => (e.1, .list (e.2.map toJson)))).map
      .ofList = some m
    rw [fields?_map carries.items, Option.map_some]
    exact congrArg some (OrderedMap.ext (OrderedMap.entries_ofList m.nodup))
  any_order j k distinct same := by
    have whole := same
    cases same with
    | refl =>
      cases listsOfJson? j with
      | none => exact .none
      | some m => exact .some (Catalog.agrees_of_get? fun _ => rfl)
    | list items => exact .none
    | object names values =>
      have read := ofList_fields?_any_order carries.items distinct whole names
      simpa [listsOfJson?] using rel_map (f := id) (fun _ _ => Catalog.agrees_of_get?) read
  rewrites j distinct := by
    cases distinct with
    | @object fields names each =>
      have tidied := map_fields? carries.items each
      change ((fields? (list? ofJson?) fields).map .ofList).map listsToJson = _
      rw [tidyLists?, tidyNamed, ← tidied]
      cases found : fields? (list? ofJson?) fields with
      | none => rfl
      | some es =>
        have entries := OrderedMap.entries_ofList (map_fst_fields? found ▸ names)
        simp only [Option.map_some, listsToJson, entries]
    | _ => rfl

end Entry

namespace Catalog

def tidy? : Json → Option Json := tidyRecord 1 [.required "entries" Entry.tidyLists?]

theorem carries : Carries toJson ofJson? (fun c d => c.agrees d = true) tidy? := by
  have fields := Entry.lists_carries.required.cons "entries" (.nil 1) (by decide)
  refine fields.record (by decide) (fun v => ⟨v.1⟩) (fun c => (c.lists, ())) (fun _ => rfl) ?_
    (fun _ => rfl) (fun _ => rfl) ?_
  · intro j
    rw [ofJson?, guard_bind]
    simp only [Option.bind_assoc, Option.map_bind, Option.map_some, Function.comp_def]
    rfl
  · exact fun a b same => same.1

end Catalog

namespace Delta

def agrees (d e : Delta) : Bool :=
  (Catalog.mk d.added).agrees ⟨e.added⟩ && (Catalog.mk d.updated).agrees ⟨e.updated⟩ &&
    d.deleted = e.deleted

def tidy? : Json → Option Json :=
  tidyRecord 3 [.required "added" Entry.tidyLists?, .required "updated" Entry.tidyLists?,
    .required "deleted" (tidyItems (keep isText))]

theorem carries : Carries toJson ofJson? (fun d e => d.agrees e = true) tidy? := by
  have deleted := text_carries.items.required.cons "deleted" (.nil 3) (by decide)
  have updated := Entry.lists_carries.required.cons "updated" deleted (by decide)
  have fields := Entry.lists_carries.required.cons "added" updated (by decide)
  refine fields.record (by decide) (fun v => ⟨v.1, v.2.1, v.2.2.1⟩)
    (fun d => (d.added, d.updated, d.deleted, ())) (fun _ => rfl) ?_ (fun _ => rfl)
    (fun _ => rfl) ?_
  · intro j
    rw [ofJson?, guard_bind]
    simp only [Option.bind_assoc, Option.map_bind, Option.map_some, Function.comp_def]
    rfl
  · rintro a b ⟨added, updated, deleted, -⟩
    simp [agrees, added, updated, deleted]

end Delta

namespace Changes

def tidy? : Json → Option Json :=
  tidyRecord 3 [.required "created" (tidyItems (keep isText)),
    .required "updated" (tidyItems (keep isText)), .required "deleted" (tidyItems (keep isText))]

theorem carries : Carries toJson ofJson? Eq tidy? := by
  have deleted := text_carries.items.required.cons "deleted" (.nil 3) (by decide)
  have updated := text_carries.items.required.cons "updated" deleted (by decide)
  have fields := text_carries.items.required.cons "created" updated (by decide)
  refine fields.record (by decide) (fun v => ⟨v.1, v.2.1, v.2.2.1⟩)
    (fun c => (c.created, c.updated, c.deleted, ())) (fun _ => rfl) ?_ (fun _ => rfl)
    (fun _ => rfl) ?_
  · intro j
    rw [ofJson?, guard_bind]
    simp only [Option.bind_assoc, Option.map_bind, Option.map_some, Function.comp_def]
    rfl
  · rintro a b ⟨created, updated, deleted, -⟩
    rw [created, updated, deleted]

end Changes

namespace Layout

def tidy? : Json → Option Json :=
  tidyRecord 0 [.usually "root" (.text "") (keep isText),
    .usually "typings_dirs" (.list [.text "typings"]) (tidyItems (keep isText)),
    .usually "package_dir" (.text "node_modules") (keep isText),
    .usually "types_scope" (.text "@types") (keep isText)]

theorem carries : Carries toJson ofJson? Eq tidy? := by
  have scope := (text_carries.usually "@types" rfl).cons "types_scope" (.nil 4) (by decide)
  have package := (text_carries.usually "node_modules" rfl).cons "package_dir" scope (by decide)
  have typings :=
    (text_carries.items.usually ["typings"] rfl).cons "typings_dirs" package (by decide)
  have fields := (text_carries.usually "" rfl).cons "root" typings (by decide)
  refine fields.record (by decide) (fun v => ⟨v.1, v.2.1, v.2.2.1, v.2.2.2.1⟩)
    (fun l => (l.root, l.typingsDirs, l.packageDir, l.typesScope, ())) (fun _ => rfl) ?_
    (fun _ => rfl) (fun _ => rfl) ?_
  · intro j
    rw [ofJson?, guard_bind]
    simp only [Option.map_bind, Option.map_some, Function.comp_def]
    rfl
  · rintro a b ⟨root, typingsDirs, packageDir, typesScope, -⟩
    rw [root, typingsDirs, packageDir, typesScope]

end Layout

/-- The data format round-trips. Each of the eight kinds of values is read back as it was written,
up to the order of names if the fields of an object have changed places. Whatever is read, from
any value without repeated names, is written again in its tidy form and so read as the same value:
exactly the fields that belong to it, null for a missing span, and for what a layout lacks its
usual value. What has no tidy form is not read. -/
theorem format_round_trips :
    Carries Span.toJson Span.ofJson? Eq Span.tidy? ∧
    Carries Declaration.Kind.toJson Declaration.Kind.ofJson? Eq Declaration.Kind.tidy? ∧
    Carries Declaration.toJson Declaration.ofJson? Eq Declaration.tidy? ∧
    Carries Entry.toJson Entry.ofJson? Eq Entry.tidy? ∧
    Carries Catalog.toJson Catalog.ofJson? (fun c d => c.agrees d = true) Catalog.tidy? ∧
    Carries Delta.toJson Delta.ofJson? (fun d e => d.agrees e = true) Delta.tidy? ∧
    Carries Changes.toJson Changes.ofJson? Eq Changes.tidy? ∧
    Carries Layout.toJson Layout.ofJson? Eq Layout.tidy? :=
  ⟨Span.carries, Declaration.Kind.carries, Declaration.carries, Entry.carries, Catalog.carries,
    Delta.carries, Changes.carries, Layout.carries⟩

section Sample

def looseDeclaration : Json :=
  .object [("doc", .list [.null]), ("is_exported", .bool true), ("kind", .text "Class"),
    ("name", .text "A")]

theorem looseDeclaration_distinct : looseDeclaration.Distinct := by
  refine .object (by decide) ?_
  simp only [List.forall_mem_cons]
  exact ⟨.list (List.forall_mem_singleton.mpr .null), .bool true, .text "Class", .text "A",
    List.forall_mem_nil _⟩

theorem looseForms_round_trip :
    Declaration.ofJson? looseDeclaration = some ⟨"A", .classDef, true, none⟩ ∧
    (Declaration.ofJson? looseDeclaration).map Declaration.toJson =
      Declaration.tidy? looseDeclaration ∧
    Declaration.tidy? looseDeclaration =
      some (.object [("name", .text "A"), ("kind", .text "Class"), ("is_exported", .bool true),
        ("span", .null)]) ∧
    (Layout.ofJson? (.object [("root", .text "/ws")])).map Layout.toJson =
      Layout.tidy? (.object [("root", .text "/ws")]) ∧
    Layout.tidy? (.object [("root", .text "/ws")]) =
      some (.object [("root", .text "/ws"), ("typings_dirs", .list [.text "typings"]),
        ("package_dir", .text "node_modules"), ("types_scope", .text "@types")]) ∧
    Span.ofJson? (.object [("end", .number 5 0), ("start", .number 3 0)]) = some ⟨3, 5⟩ := by
  obtain ⟨span, -, declaration, -, -, -, -, layout⟩ := format_round_trips
  have rooted : (Json.object [("root", .text "/ws")]).Distinct :=
    .object (by decide) (List.forall_mem_singleton.mpr (.text "/ws"))
  have same : (Span.toJson ⟨3, 5⟩).Same (.object [("end", .number 5 0), ("start", .number 3 0)]) :=
    .of_perm (by decide) (List.Perm.swap _ _ _)
  have turned := span.any_order _ _ (span.distinct _) same
  rw [rel_eq_iff, span.reads_back] at turned
  exact ⟨rfl, declaration.rewrites _ looseDeclaration_distinct, rfl, layout.rewrites _ rooted, rfl,
    turned.symm⟩

end Sample

end ExportIndex
