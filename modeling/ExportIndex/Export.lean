import ExportIndex.Span

/-!
Export statements: everything of another resource, named symbols of another
resource or of this one, or one identifier that is the whole export.
-/
namespace ExportIndex

/-- A symbol named in a statement, with the name it takes on the other side if that differs. -/
structure Specifier where
  name : String
  newName : Option String
  deriving DecidableEq

def Specifier.target (s : Specifier) : String := s.newName.getD s.name

/-- The new name that the first specifier for `name` gives it. -/
def renamed? (specifiers : List Specifier) (name : String) : Option String :=
  (specifiers.find? (·.name = name)).map Specifier.target

inductive Export where
  | all (source : String) (span : Option Span)
  | named (source : Option String) (specifiers : List Specifier) (span : Option Span)
  | assigned (identifier : String) (span : Option Span)
  deriving DecidableEq

namespace Export

def source? : Export → Option String
  | .all source _ => some source
  | .named source _ _ => source
  | .assigned _ _ => none

def span : Export → Option Span
  | .all _ span => span
  | .named _ _ span => span
  | .assigned _ span => span

def assigned? : Export → Option String
  | .assigned identifier _ => some identifier
  | _ => none

/-- The names of this resource that the statement itself makes visible. -/
def localNames : Export → List String
  | .assigned identifier _ => [identifier]
  | .named none specifiers _ => specifiers.map Specifier.name
  | _ => []

end Export

end ExportIndex
