import ExportIndex.Path.Basic

/-!
Where a project lives and which directory names mark ambient typings and
installed packages. A layout can be used for an index when its root is absolute
and no marker is empty.
-/
namespace ExportIndex

structure Layout where
  root : String := ""
  typingsDirs : List String := ["typings"]
  packageDir : String := "node_modules"
  typesScope : String := "@types"
  deriving DecidableEq

namespace Layout

inductive Marker where
  | packageDir
  | typesScope
  | typingsDir
  deriving DecidableEq

inductive Fault where
  | emptyRoot
  | relativeRoot (root : String)
  | emptyMarker (marker : Marker)
  deriving DecidableEq

def Marker.label : Marker → String
  | .packageDir => "package directory"
  | .typesScope => "types scope"
  | .typingsDir => "typings directory"

def Fault.message : Fault → String
  | .emptyRoot => "project root is empty"
  | .relativeRoot root => "project root must be absolute: " ++ root
  | .emptyMarker marker => marker.label ++ " must not be empty"

def fault? (l : Layout) : Option Fault :=
  if l.root = "" then some .emptyRoot
  else if !Path.isAbsolute l.root then some (.relativeRoot l.root)
  else if l.packageDir = "" then some (.emptyMarker .packageDir)
  else if l.typesScope = "" then some (.emptyMarker .typesScope)
  else if "" ∈ l.typingsDirs then some (.emptyMarker .typingsDir)
  else none

def Valid (l : Layout) : Prop :=
  Path.isAbsolute l.root = true ∧ l.packageDir ≠ "" ∧ l.typesScope ≠ "" ∧ "" ∉ l.typingsDirs

theorem fault?_eq_none_iff (l : Layout) : l.fault? = none ↔ l.Valid := by
  have nonempty : Path.isAbsolute l.root = true → l.root ≠ "" := by
    intro absolute empty
    rw [empty] at absolute
    simp [Path.isAbsolute, Lexical.isAbsolute, Lexical.anchor] at absolute
  unfold fault? Valid
  by_cases empty : l.root = ""
  · simp only [empty, ↓reduceIte, reduceCtorEq, false_iff]
    intro valid
    exact nonempty (empty ▸ valid.1) empty
  · by_cases absolute : Path.isAbsolute l.root = true
    · by_cases package : l.packageDir = ""
      · simp [empty, absolute, package]
      · by_cases scope : l.typesScope = "" <;> simp [empty, absolute, package, scope]
    · simp [empty, absolute]

def resolve (l : Layout) (path : String) : String := Path.join l.root path

end Layout

end ExportIndex
