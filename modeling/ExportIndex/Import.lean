import ExportIndex.Export

/-!
Import statements and the names they bind in the importing resource.
-/
namespace ExportIndex

inductive Import where
  | named (library : String) (specifiers : List Specifier) (defaultName : Option String)
      (span : Option Span)
  | namespaced (library name : String) (span : Option Span)
  | external (library name : String) (span : Option Span)
  | bare (library : String) (span : Option Span)
  deriving DecidableEq

namespace Import

def library : Import → String
  | .named library _ _ _ => library
  | .namespaced library _ _ => library
  | .external library _ _ => library
  | .bare library _ => library

def span : Import → Option Span
  | .named _ _ _ span => span
  | .namespaced _ _ span => span
  | .external _ _ span => span
  | .bare _ span => span

def boundNames : Import → List String
  | .named _ specifiers defaultName _ => defaultName.toList ++ specifiers.map Specifier.target
  | .namespaced _ name _ => [name]
  | .external _ name _ => [name]
  | .bare _ _ => []

end Import

end ExportIndex
