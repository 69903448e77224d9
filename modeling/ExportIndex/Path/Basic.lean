import ExportIndex.Path.Lexical

/-!
The operations on path texts, for strings.
-/
namespace ExportIndex.Path

def lift (f : List Char → List Char) (path : String) : String := String.ofList (f path.toList)

def posix : String → String := lift Lexical.posix

def normalize : String → String := lift Lexical.normalize

def parent : String → String := lift Lexical.parent

def stripExtension : String → String := lift Lexical.stripExtension

def fileName : String → String := lift Lexical.fileName

def isAbsolute (path : String) : Bool := Lexical.isAbsolute path.toList

def segments (path : String) : List String := (Lexical.segments path.toList).map String.ofList

def join (base path : String) : String := String.ofList (Lexical.join base.toList path.toList)

def relative (root path : String) : String :=
  String.ofList (Lexical.relative root.toList path.toList)

@[simp] theorem toList_lift (f : List Char → List Char) (path : String) :
    (lift f path).toList = f path.toList := by
  simp [lift]

@[simp] theorem toList_join (base path : String) :
    (join base path).toList = Lexical.join base.toList path.toList := by
  simp [join]

@[simp] theorem toList_relative (root path : String) :
    (relative root path).toList = Lexical.relative root.toList path.toList := by
  simp [relative]

end ExportIndex.Path
