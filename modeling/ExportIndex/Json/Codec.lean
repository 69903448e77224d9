import ExportIndex.Json.Basic
import ExportIndex.Session

/-!
The written form of spans, declarations, entries, catalogs, deltas, changes and
layouts. Fields that a record does not have are ignored when it is read, and
every field has to be there, with two exceptions: a declaration may lack its
span, and a field that a layout lacks has its usual value.
-/
namespace ExportIndex

namespace Span

def toJson (s : Span) : Json :=
  .object [("start", .ofUInt32 s.start), ("end", .ofUInt32 s.stop)]

def ofJson? (j : Json) : Option Span := do
  guard (j.isRecord 2 2)
  let start ← (← j.part? 0 "start").uint32?
  let stop ← (← j.part? 1 "end").uint32?
  return ⟨start, stop⟩

end Span

namespace Declaration

def Kind.tag : Kind → String
  | .classDef => "Class"
  | .interfaceDef => "Interface"
  | .functionDef => "Function"
  | .enumDef => "Enum"
  | .typeAlias => "TypeAlias"
  | .variableDef => "Variable"
  | .moduleAlias => "Module"
  | .defaultExport => "Default"

def Kind.all : List Kind :=
  [.classDef, .interfaceDef, .functionDef, .enumDef, .typeAlias, .variableDef, .moduleAlias,
    .defaultExport]

def Kind.ofTag? (tag : String) : Option Kind := Kind.all.find? (·.tag = tag)

def Kind.toJson (k : Kind) : Json := .text k.tag

/-- A kind is its tag, or an object with the tag as its only field and nothing in it. -/
def Kind.ofJson? : Json → Option Kind
  | .text tag => ofTag? tag
  | .object [(tag, .null)] => ofTag? tag
  | _ => none

def toJson (d : Declaration) : Json :=
  .object [("name", .text d.name), ("kind", d.kind.toJson), ("is_exported", .bool d.exported),
    ("span", (d.span.map Span.toJson).getD .null)]

def ofJson? (j : Json) : Option Declaration := do
  guard (j.isRecord 4 4)
  let name ← (← j.part? 0 "name").text?
  let kind ← Kind.ofJson? (← j.part? 1 "kind")
  let exported ← (← j.part? 2 "is_exported").bool?
  let span ← ((j.part? 3 "span").getD .null).optional? Span.ofJson?
  return ⟨name, kind, exported, span⟩

end Declaration

namespace Entry

def toJson (e : Entry) : Json :=
  .object [("declaration", e.declaration.toJson), ("from", .text e.origin)]

def ofJson? (j : Json) : Option Entry := do
  guard (j.isRecord 2 2)
  let declaration ← Declaration.ofJson? (← j.part? 0 "declaration")
  let origin ← (← j.part? 1 "from").text?
  return ⟨declaration, origin⟩

def listsToJson (lists : OrderedMap String (List Entry)) : Json :=
  .object (lists.entries.map fun e => (e.1, .list (e.2.map toJson)))

def listsOfJson? : Json → Option (OrderedMap String (List Entry))
  | .object fields => (Json.fields? (Json.list? ofJson?) fields).map .ofList
  | _ => none

end Entry

namespace Catalog

def toJson (c : Catalog) : Json := .object [("entries", Entry.listsToJson c.lists)]

def ofJson? (j : Json) : Option Catalog := do
  guard (j.isRecord 1 1)
  let lists ← Entry.listsOfJson? (← j.part? 0 "entries")
  return ⟨lists⟩

end Catalog

namespace Delta

def toJson (d : Delta) : Json :=
  .object [("added", Entry.listsToJson d.added), ("updated", Entry.listsToJson d.updated),
    ("deleted", .ofTexts d.deleted)]

def ofJson? (j : Json) : Option Delta := do
  guard (j.isRecord 3 3)
  let added ← Entry.listsOfJson? (← j.part? 0 "added")
  let updated ← Entry.listsOfJson? (← j.part? 1 "updated")
  let deleted ← (← j.part? 2 "deleted").list? Json.text?
  return ⟨added, updated, deleted⟩

end Delta

namespace Changes

def toJson (c : Changes) : Json :=
  .object [("created", .ofTexts c.created), ("updated", .ofTexts c.updated),
    ("deleted", .ofTexts c.deleted)]

def ofJson? (j : Json) : Option Changes := do
  guard (j.isRecord 3 3)
  let created ← (← j.part? 0 "created").list? Json.text?
  let updated ← (← j.part? 1 "updated").list? Json.text?
  let deleted ← (← j.part? 2 "deleted").list? Json.text?
  return ⟨created, updated, deleted⟩

end Changes

namespace Layout

def toJson (l : Layout) : Json :=
  .object [("root", .text l.root), ("typings_dirs", .ofTexts l.typingsDirs),
    ("package_dir", .text l.packageDir), ("types_scope", .text l.typesScope)]

def fieldOr {α : Type} (usual : α) (read? : Json → Option α) : Option Json → Option α
  | none => some usual
  | some j => read? j

def ofJson? (j : Json) : Option Layout := do
  guard (j.isRecord 0 4)
  let usual : Layout := {}
  let root ← fieldOr usual.root Json.text? (j.part? 0 "root")
  let typingsDirs ← fieldOr usual.typingsDirs (Json.list? Json.text?) (j.part? 1 "typings_dirs")
  let packageDir ← fieldOr usual.packageDir Json.text? (j.part? 2 "package_dir")
  let typesScope ← fieldOr usual.typesScope Json.text? (j.part? 3 "types_scope")
  return ⟨root, typingsDirs, packageDir, typesScope⟩

end Layout

end ExportIndex
