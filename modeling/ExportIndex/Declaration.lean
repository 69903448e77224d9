import ExportIndex.Span

/-!
Declared symbols. A declaration that stands for a module as a whole is not
exportable; every other one is visible from outside when it is exported.
-/
namespace ExportIndex

inductive Declaration.Kind where
  | classDef
  | interfaceDef
  | functionDef
  | enumDef
  | typeAlias
  | variableDef
  | moduleAlias
  | defaultExport
  deriving DecidableEq

structure Declaration where
  name : String
  kind : Declaration.Kind
  exported : Bool
  span : Option Span
  deriving DecidableEq

namespace Declaration

def Kind.label : Kind → String
  | .classDef => "class"
  | .interfaceDef => "interface"
  | .functionDef => "function"
  | .enumDef => "enum"
  | .typeAlias => "type alias"
  | .variableDef => "variable"
  | .moduleAlias => "module"
  | .defaultExport => "default"

def Kind.exportable (k : Kind) : Bool := k ≠ .moduleAlias

def isVisible (d : Declaration) : Bool := d.kind.exportable && d.exported

def defaultOf (name : String) : Declaration := ⟨name, .defaultExport, true, none⟩

def aliasOf (name : String) (span : Option Span) : Declaration := ⟨name, .moduleAlias, false, span⟩

end Declaration

end ExportIndex
