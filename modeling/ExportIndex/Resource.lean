import ExportIndex.Declaration
import ExportIndex.Import
import ExportIndex.Text.Casing

/-!
What a parser finds: source files, and the modules and namespaces declared
inside them. A resource owns declarations and holds further resources.
-/
namespace ExportIndex

inductive Resource.Kind where
  | file (path : String)
  | declaredModule (name : String)
  | declaredNamespace (name : String)
  deriving DecidableEq

structure Resource where
  kind : Resource.Kind
  declarations : List Declaration
  exports : List Export
  imports : List Import
  usages : List String
  resources : List Resource
  span : Option Span

/-- The declarations of a list that are visible outside, where `names` are made visible by
statements of their own and therefore count as exported. -/
def retain (names : List String) (declarations : List Declaration) : List Declaration :=
  (declarations.map fun d => { d with exported := d.exported || names.contains d.name }).filter
    Declaration.isVisible

namespace Resource

def Kind.path? : Kind → Option String
  | .file path => some path
  | _ => none

def path? (r : Resource) : Option String := r.kind.path?

def name? (r : Resource) : Option String :=
  match r.kind with
  | .file _ => none
  | .declaredModule name => some name
  | .declaredNamespace name => some name

def isFile (r : Resource) : Bool := r.path?.isSome

def isContainer (r : Resource) : Bool := r.name?.isSome

def importName? (r : Resource) : Option String := r.name?.map Alias.ofName

def assignedNames (r : Resource) : List String := r.exports.filterMap Export.assigned?

def localNames (r : Resource) : List String := r.exports.flatMap Export.localNames

def retained (r : Resource) : Resource :=
  { r with declarations := retain r.localNames r.declarations }

/-- Parts with everything the resource owns: what of it is visible, and the resource left empty. -/
def takeVisible (r : Resource) : List Declaration × Resource :=
  (r.declarations.filter Declaration.isVisible, { r with declarations := [] })

def declares (declarations : List Declaration) (resources : List Resource) (name : String) :
    Bool :=
  declarations.any (·.name = name) || resources.any (·.name? = some name)

mutual

/-- The usages that the resource does not satisfy itself, then those of what it holds. -/
def openUsages : Resource → List String
  | ⟨_, declarations, _, _, usages, resources, _⟩ =>
    usages.filter (!declares declarations resources ·) ++ openUsagesAll resources

def openUsagesAll : List Resource → List String
  | [] => []
  | r :: rest => openUsages r ++ openUsagesAll rest

end

end Resource

end ExportIndex
