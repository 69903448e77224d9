import ExportIndex.Text.CaseData
import ExportIndex.Text.Pieces

/-!
Lower and upper case of texts. A character may become several; the only rule
that looks at the surroundings is that of the capital sigma, which becomes the
final form when a letter stands before it in the same word and none after it.

The identifier under which a whole module is imported has the words of its name,
which hyphens and underscores separate, run together in camel case.
-/
namespace ExportIndex

namespace Casing

def isCased (c : Char) : Bool := CaseData.inBlocks c.toNat CaseData.cased

def isCaseIgnorable (c : Char) : Bool := CaseData.inBlocks c.toNat CaseData.caseIgnorable

def mapChar (special : List (Nat × List Nat)) (runs : List CaseData.Run) (c : Char) : List Char :=
  match special.find? (·.1 = c.toNat) with
  | some (_, cs) => cs.map Char.ofNat
  | none => [((CaseData.mapped? c.toNat runs).map Char.ofNat).getD c]

def lowerChar : Char → List Char := mapChar CaseData.lowerSpecial CaseData.lower

def upperChar : Char → List Char := mapChar CaseData.upperSpecial CaseData.upper

def capitalSigma : Char := Char.ofNat 0x3A3

def smallSigma : Char := Char.ofNat 0x3C3

def finalSigma : Char := Char.ofNat 0x3C2

def meetsCased (cs : List Char) : Bool :=
  match cs.dropWhile isCaseIgnorable with
  | [] => false
  | c :: _ => isCased c

/-- The lower form of `c`, with `before` read backwards from it and `after` forwards. -/
def lowerAt (before : List Char) (c : Char) (after : List Char) : List Char :=
  if c = capitalSigma then
    [if meetsCased before && !meetsCased after then finalSigma else smallSigma]
  else lowerChar c

def lowerAfter (before : List Char) : List Char → List Char
  | [] => []
  | c :: cs => lowerAt before c cs ++ lowerAfter (c :: before) cs

def lower (cs : List Char) : List Char := lowerAfter [] cs

end Casing

namespace Alias

def isWordBreak (c : Char) : Bool := c = '-' || c = '_'

def capitalized : List Char → List Char
  | [] => []
  | c :: cs => Casing.upperChar c ++ Casing.lower cs

def camel : List (List Char) → List Char
  | [] => []
  | first :: others => Casing.lower first ++ others.flatMap capitalized

def ofName (name : String) : String :=
  String.ofList (camel (Pieces.split isWordBreak name.toList))

section Words

variable {first : List Char} {others : List (Char × List Char)}
  (plain : ∀ c ∈ first, isWordBreak c = false)
  (broken : ∀ w ∈ others, isWordBreak w.1 = true ∧ ∀ c ∈ w.2, isWordBreak c = false)

include plain broken

theorem split_words : Pieces.split isWordBreak (first ++ others.flatMap fun w => w.1 :: w.2) =
    first :: others.map Prod.snd := by
  induction others generalizing first with
  | nil => simpa using Pieces.split_of_forall plain
  | cons w others ih =>
    obtain ⟨⟨here, inside⟩, later⟩ := List.forall_mem_cons.mp broken
    rw [List.flatMap_cons, List.cons_append, Pieces.split_append here,
      Pieces.split_of_forall plain, ih inside later]
    rfl

/-- The first word of a name is written in lower case, and each later one with its first
character alone in upper case; what stood between the words is gone. -/
theorem ofName_words : ofName (String.ofList (first ++ others.flatMap fun w => w.1 :: w.2)) =
    String.ofList (Casing.lower first ++ others.flatMap fun w => capitalized w.2) := by
  rw [ofName, String.toList_ofList, split_words plain broken, camel, List.flatMap_map]

end Words

example : ofName "Body-parser_RAW" = "bodyParserRaw" := by decide +kernel

end Alias

end ExportIndex
