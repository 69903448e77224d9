import ExportIndex.Path.Lexical

/-!
When two path texts name the same file. Repeated and trailing slashes do not
count, nor does a dot segment unless it opens a relative path; a backslash is a
character like any other, and double dots are not resolved.
-/
namespace ExportIndex

structure PathIdentity where
  rooted : Bool
  parts : List Lexical.Segment
  deriving DecidableEq

namespace PathIdentity

def isRooted : List Char → Bool
  | '/' :: _ => true
  | _ => false

def significant : Bool → List Lexical.Segment → List Lexical.Segment
  | false, first :: rest => first :: rest.filter (· ≠ Lexical.dot)
  | _, parts => parts.filter (· ≠ Lexical.dot)

def ofChars (cs : List Char) : PathIdentity :=
  ⟨isRooted cs, significant (isRooted cs) (Lexical.segments cs)⟩

def ofText (path : String) : PathIdentity := ofChars path.toList

end PathIdentity

def SameFile (p q : String) : Prop := PathIdentity.ofText p = PathIdentity.ofText q

instance (p q : String) : Decidable (SameFile p q) :=
  inferInstanceAs (Decidable (PathIdentity.ofText p = PathIdentity.ofText q))

theorem SameFile.refl (p : String) : SameFile p p := rfl

theorem SameFile.symm {p q : String} (h : SameFile p q) : SameFile q p := Eq.symm h

theorem SameFile.trans {p q r : String} (h : SameFile p q) (k : SameFile q r) : SameFile p r :=
  Eq.trans h k

def distinctFiles (paths : List String) : List String :=
  paths.foldl (fun kept p => if kept.any (SameFile p ·) then kept else kept ++ [p]) []

end ExportIndex
