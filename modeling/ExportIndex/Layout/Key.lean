import ExportIndex.Layout.Basic

/-!
Keys of resources. Where a file lies decides how it is keyed: a workspace file
by its way from the project root, a file of an installed package by the name of
the package and its place in it, and an ambient typings file not at all, since
the modules it declares are keyed by their own names. An export statement of a
file is keyed by the same rules, so that it finds the file it points at.
-/
namespace ExportIndex

inductive Region where
  | workspace
  | ambient
  | package
  deriving DecidableEq

/-- A layout read as segments, with its root in canonical form. -/
structure Marks where
  root : List Char
  typings : List Lexical.Segment
  package : Lexical.Segment
  scope : Lexical.Segment

namespace Marks

open Lexical

def indexName : Segment := ['i', 'n', 'd', 'e', 'x']

/-- Whether `a` stands directly before `b` somewhere in a list. -/
def hasPair (a b : Segment) : List Segment → Bool
  | x :: y :: rest => (x = a && y = b) || hasPair a b (y :: rest)
  | _ => false

def region (m : Marks) (path : List Char) : Region :=
  let parts := segments (normalize path)
  if parts.any (m.typings.contains ·) || hasPair m.package m.scope parts then .ambient
  else if parts.contains m.package then .package
  else .workspace

def absolute (m : Marks) (path : List Char) : List Char := join m.root path

def keyFromRoot (m : Marks) (path : List Char) : List Char :=
  '/' :: fileName (relative m.root (m.absolute path))

def after? (s : Segment) : List Segment → Option (List Segment)
  | [] => none
  | t :: rest => if t = s then some rest else after? s rest

/-- A package name without a last segment that only repeats where the file lies: the name of
an index file, of the package folder or of the directory that holds the file. -/
def trimLast (folder directory name : Segment) : Segment :=
  match splitLast name with
  | some (front, last) =>
    if last = indexName ∨ last = folder ∨ last = directory then front else name
  | none => name

def packageKey? (m : Marks) (path : List Char) : Option (List Char) :=
  let parts := segments (normalize path)
  (after? m.package parts).map fun inner =>
    trimLast (inner.head?.getD []) (parts.dropLast.getLast?.getD []) (fileName (glue inner))

def keyOf? (m : Marks) (path : List Char) : Option (List Char) :=
  match m.region path with
  | .ambient => none
  | .package => m.packageKey? path
  | .workspace => some (m.keyFromRoot path)

/-- The key that a statement of `file` means by `specifier`. A specifier is always a path from
the directory of the file, also when it has no dot in front. -/
def targetKey (m : Marks) (file specifier : List Char) : List Char :=
  let target := join (parent (m.absolute file)) specifier
  if (segments target).contains m.package then (m.packageKey? target).getD (m.keyFromRoot target)
  else m.keyFromRoot target

end Marks

namespace Layout

def marks (l : Layout) : Marks where
  root := Lexical.normalize l.root.toList
  typings := l.typingsDirs.map String.toList
  package := l.packageDir.toList
  scope := l.typesScope.toList

def canonicalRoot (l : Layout) : String := Path.normalize l.root

def region (l : Layout) (path : String) : Region := l.marks.region path.toList

def keyFromRoot (l : Layout) (path : String) : String :=
  String.ofList (l.marks.keyFromRoot path.toList)

def packageKey? (l : Layout) (path : String) : Option String :=
  (l.marks.packageKey? path.toList).map String.ofList

def keyOf? (l : Layout) (path : String) : Option String :=
  (l.marks.keyOf? path.toList).map String.ofList

/-- The key that a statement means by `specifier`; a container, which has no file, names keys as
they are. -/
def targetKey (l : Layout) (file : Option String) (specifier : String) : String :=
  match file with
  | none => specifier
  | some file => String.ofList (l.marks.targetKey file.toList specifier.toList)

end Layout

/-- The place from which the declarations of a resource are imported: an index file is imported
by its directory. -/
def originOfKey (key : String) : String :=
  match Lexical.dropEnd? ('/' :: Marks.indexName) key.toList with
  | none => key
  | some [] => "/"
  | some front => String.ofList front

end ExportIndex
