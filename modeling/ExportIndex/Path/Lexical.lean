import ExportIndex.Text.Pieces

/-!
Paths as texts. Nothing here looks at a file system, so a path of a deleted
file is as good as any other. Both separators are read, only the slash is
written. A text is anchored at the root, at a drive, or not at all; its
canonical form has no empty, dot or removable double-dot segment.
-/
namespace ExportIndex.Lexical

abbrev Segment := List Char

def dot : Segment := ['.']

def dotDot : Segment := ['.', '.']

def posix (cs : List Char) : List Char := cs.map fun c => if c = '\\' then '/' else c

def pieces (cs : List Char) : List Segment := Pieces.split (· = '/') cs

def segments (cs : List Char) : List Segment := (pieces cs).filter (· ≠ [])

def glue (parts : List Segment) : List Char := Pieces.glue '/' parts

inductive Anchor where
  | relative
  | root
  | drive (letter : Char)
  deriving DecidableEq

def Anchor.text : Anchor → List Char
  | .relative => []
  | .root => ['/']
  | .drive letter => [letter, ':', '/']

def anchor : List Char → Anchor × List Char
  | '/' :: cs => (.root, cs)
  | c :: ':' :: cs => if c.isAlpha then (.drive c, cs) else (.relative, c :: ':' :: cs)
  | cs => (.relative, cs)

def isAbsolute (cs : List Char) : Bool := (anchor cs).1 ≠ .relative

/-- One step of resolving dot segments, with the segments kept so far read backwards.
A double dot takes back the last segment; above an anchor it has no effect, elsewhere it stays. -/
def push (anchored : Bool) (kept : List Segment) (s : Segment) : List Segment :=
  if s = dot then kept
  else if s = dotDot then
    match kept with
    | [] => if anchored then [] else [dotDot]
    | top :: below =>
      if top = dotDot then (if anchored then kept else dotDot :: kept) else below
  else s :: kept

def resolve (anchored : Bool) (parts : List Segment) : List Segment :=
  (parts.foldl (push anchored) []).reverse

/-- An anchor with resolved segments: what a text means as a path. -/
structure Form where
  anchor : Anchor
  parts : List Segment
  deriving DecidableEq

def Form.ofText (cs : List Char) : Form :=
  let (a, rest) := Lexical.anchor (posix cs)
  ⟨a, resolve (a ≠ .relative) (segments rest)⟩

def Form.text (f : Form) : List Char :=
  if f.anchor = .relative ∧ f.parts = [] then dot else f.anchor.text ++ glue f.parts

def normalize (cs : List Char) : List Char := (Form.ofText cs).text

/-- The path `path` as seen from `base`: an absolute path stays what it is. -/
def join (base path : List Char) : List Char :=
  if isAbsolute (posix path) then normalize path
  else normalize (posix base ++ '/' :: posix path)

def splitLast : List Char → Option (List Char × List Char)
  | [] => none
  | c :: cs =>
    match splitLast cs with
    | some (before, after) => some (c :: before, after)
    | none => if c = '/' then some ([], cs) else none

def isDrive : List Char → Bool
  | [c, ':'] => c.isAlpha
  | _ => false

/-- The directory of a path. The slash of the root and of a drive belongs to it. -/
def parent (path : List Char) : List Char :=
  match splitLast (normalize path) with
  | none => dot
  | some ([], _) => ['/']
  | some (before, _) => if isDrive before then before ++ ['/'] else before

def dropCommon : List Segment → List Segment → List Segment × List Segment
  | a :: as, b :: bs => if a = b then dropCommon as bs else (a :: as, b :: bs)
  | as, bs => (as, bs)

/-- The way from `root` to `path`: up past what they do not share, then down. -/
def relative (root path : List Char) : List Char :=
  let (up, down) := dropCommon (segments (normalize root)) (segments (normalize path))
  glue (up.map (fun _ => dotDot) ++ down)

def dropEnd? (ending cs : List Char) : Option (List Char) :=
  if ending.isSuffixOf cs then some (cs.take (cs.length - ending.length)) else none

def extensions : List (List Char) :=
  [['.', 't', 's', 'x'], ['.', 't', 's'], ['.', 'j', 's', 'x'], ['.', 'j', 's']]

/-- Removes one source extension and, before it, the mark of a declaration file. -/
def stripExtension (cs : List Char) : List Char :=
  match extensions.findSome? (dropEnd? · cs) with
  | some stem => (dropEnd? ['.', 'd'] stem).getD stem
  | none => cs

def fileName (cs : List Char) : List Char := stripExtension (posix cs)

end ExportIndex.Lexical
