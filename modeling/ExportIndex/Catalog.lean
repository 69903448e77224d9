import ExportIndex.Resolution

/-!
The catalog of a project: for every name the declarations of that name, each
with the place it is imported from. Under one name no kind is listed twice with
the same origin; the first one stays.
-/
namespace ExportIndex

structure Entry where
  declaration : Declaration
  origin : String
  deriving DecidableEq

def Entry.Clashes (d e : Entry) : Prop :=
  d.declaration.kind = e.declaration.kind ∧ d.origin = e.origin

instance (d e : Entry) : Decidable (d.Clashes e) :=
  inferInstanceAs (Decidable (_ ∧ _))

structure Catalog where
  lists : OrderedMap String (List Entry)

namespace Catalog

def empty : Catalog := ⟨.empty⟩

instance : Inhabited Catalog := ⟨empty⟩

def ofList (pairs : List (String × List Entry)) : Catalog := ⟨.ofList pairs⟩

def names (c : Catalog) : List String := c.lists.keys

def get? (c : Catalog) (name : String) : Option (List Entry) := c.lists.get? name

def contains (c : Catalog) (name : String) : Bool := c.lists.contains name

def size (c : Catalog) : Nat := c.lists.size

def isEmpty (c : Catalog) : Bool := c.lists.isEmpty

def under (c : Catalog) (name : String) : List Entry := (c.get? name).getD []

def count (c : Catalog) : Nat := c.lists.values.flatten.length

def accepts (c : Catalog) (name : String) (e : Entry) : Bool :=
  !(c.under name).any (Entry.Clashes · e)

/-- Lists an entry under a name if it is accepted. The name is known afterwards in any case. -/
def add (c : Catalog) (name : String) (e : Entry) : Catalog :=
  ⟨c.lists.insert name (if c.accepts name e then c.under name ++ [e] else c.under name)⟩

def flatten (c : Catalog) : List Entry :=
  (StableSort.sort (fun a b => decide (a ≤ b)) c.names).flatMap c.under

/-- Whether two catalogs have the same names with the same lists, in whatever order of names. -/
def agrees (c d : Catalog) : Bool :=
  c.size = d.size && c.lists.entries.all fun e => d.get? e.1 = some e.2

/-- What a stored resource has to list: a container itself, then everything it owns. -/
def offers (key : String) (r : Resource) : List (String × Entry) :=
  (r.name?.map fun name => (name, ⟨.aliasOf (Alias.ofName name) r.span, key⟩)).toList ++
    r.declarations.map fun d => (d.name, ⟨d, originOfKey key⟩)

def offersOf (s : Store) : List (String × Entry) :=
  s.resources.entries.flatMap fun e => offers e.1 e.2

def ofStore (s : Store) : Catalog :=
  (offersOf s).foldl (fun c o => c.add o.1 o.2) empty

end Catalog

end ExportIndex
