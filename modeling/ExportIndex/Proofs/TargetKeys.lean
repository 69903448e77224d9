import ExportIndex.Layout.Key
import ExportIndex.Proofs.RelativePath

/-!
Export targets and the keys of files. The key of a file comes from its path and
the key of a statement from joining, normalizing and testing a specifier. The
two rules agree: a specifier that leads from a file to another one, without the
extension of that one, means the key under which that one is stored.
-/
namespace ExportIndex

namespace Marks

open Lexical

variable {m : Marks} {init : List Segment} {last : Segment}

theorem after?_isSome_iff (s : Segment) (parts : List Segment) :
    (after? s parts).isSome = true ↔ s ∈ parts := by
  induction parts with
  | nil => simp [after?]
  | cons t parts ih =>
    by_cases here : t = s
    · simp [after?, here]
    · simp [after?, here, ih, Ne.symm here]

theorem mem_of_mem_after? {s t : Segment} {parts inner : List Segment}
    (found : after? s parts = some inner) (member : t ∈ inner) : t ∈ parts := by
  induction parts with
  | nil => cases found
  | cons u parts ih =>
    unfold after? at found
    split at found
    · obtain rfl := Option.some.inj found
      exact List.mem_cons_of_mem u member
    · exact List.mem_cons_of_mem u (ih found)

theorem after?_concat {s : Segment} (other : last ≠ s) (init : List Segment) :
    after? s (init ++ [last]) = (after? s init).map (· ++ [last]) := by
  induction init with
  | nil => simp [after?, other]
  | cons t init ih =>
    by_cases here : t = s
    · simp [after?, here]
    · simp [after?, here, ih]

theorem trimLast_of_notMem {name : Segment} (absent : '/' ∉ name) (folder directory : Segment) :
    trimLast folder directory name = name := by
  rw [trimLast, splitLast_eq_none absent]

theorem packageKey?_stem (ordinary : ∀ s ∈ init ++ [last], Ordinary s)
    (stem : Ordinary (stripExtension last))
    (single : stripExtension (stripExtension last) = stripExtension last)
    (away : last ≠ m.package) (stem_away : stripExtension last ≠ m.package) :
    m.packageKey? (rooted (init ++ [stripExtension last])) =
      m.packageKey? (rooted (init ++ [last])) := by
  have stripped := ordinary_stem ordinary stem
  rw [packageKey?, packageKey?, normalize_rooted stripped, normalize_rooted ordinary,
    segments_rooted stripped, segments_rooted ordinary, after?_concat away,
    after?_concat stem_away]
  cases found : after? m.package init with
  | none => rfl
  | some inner =>
    obtain ⟨front, final⟩ := List.forall_mem_append.mp ordinary
    have inside : ∀ s ∈ inner ++ [last], Ordinary s :=
      List.forall_mem_append.mpr ⟨fun s held => front s (mem_of_mem_after? found held), final⟩
    have named := fileName_glue inside
    have renamed := fileName_glue (ordinary_stem inside stem)
    rw [single] at renamed
    simp only [Option.map_some, List.dropLast_concat, named, renamed]
    cases inner with
    | nil =>
      -- a file directly in the package directory has no name to trim
      have whole : '/' ∉ glue ([] ++ [stripExtension last]) := stem.no_slash
      rw [trimLast_of_notMem whole, trimLast_of_notMem whole]
    | cons folder inner => rfl

theorem packageKey?_isSome_iff {parts : List Segment} (ordinary : ∀ s ∈ parts, Ordinary s) :
    (m.packageKey? (rooted parts)).isSome = true ↔ m.package ∈ parts := by
  rw [packageKey?, Option.isSome_map, normalize_rooted ordinary, segments_rooted ordinary,
    after?_isSome_iff]

theorem absolute_rooted {parts : List Segment} (ordinary : ∀ s ∈ parts, Ordinary s) :
    m.absolute (rooted parts) = rooted parts := by
  rw [absolute, ← text_root, (root_canonical ordinary).join_text]

theorem keyFromRoot_rooted {base inner : List Segment} (root : m.root = rooted base)
    (ordinary : ∀ s ∈ base ++ (inner ++ [last]), Ordinary s) :
    m.keyFromRoot (rooted (base ++ (inner ++ [last]))) =
      '/' :: glue (inner ++ [stripExtension last]) := by
  obtain ⟨above, below⟩ := List.forall_mem_append.mp ordinary
  rw [keyFromRoot, absolute_rooted ordinary, root, relative_rooted above ordinary,
    dropCommon_append, List.map_nil, List.nil_append, fileName_glue below]

/-- The key of what stands at a path: that of a package file or the way from the root. -/
def keyAt (m : Marks) (parts : List Segment) : List Char :=
  if parts.contains m.package then
    (m.packageKey? (rooted parts)).getD (m.keyFromRoot (rooted parts))
  else m.keyFromRoot (rooted parts)

theorem targetKey_relative {file : List Char} {place path : List Segment}
    (placed : m.absolute file = rooted place) (ordinary : ∀ s ∈ place, Ordinary s)
    (also : ∀ s ∈ path, Ordinary s) :
    m.targetKey file ('.' :: '/' :: relative (parent (m.absolute file)) (rooted path)) =
      m.keyAt path := by
  have directory : ∀ s ∈ place.dropLast, Ordinary s := fun s held =>
    ordinary s ((List.dropLast_sublist place).subset held)
  rw [targetKey, placed, parent_rooted ordinary, join_relative directory also,
    segments_rooted also, keyAt]

theorem region_of_ne_ambient {parts : List Segment} (ordinary : ∀ s ∈ parts, Ordinary s)
    (outside : m.region (rooted parts) ≠ .ambient) :
    m.region (rooted parts) = if m.package ∈ parts then .package else .workspace := by
  rw [region, normalize_rooted ordinary, segments_rooted ordinary] at outside ⊢
  split at outside
  · contradiction
  · rename_i plain
    rw [if_neg plain]
    simp only [List.contains_iff_mem]

theorem keyOf?_eq_keyAt {base inner : List Segment} (root : m.root = rooted base)
    (ordinary : ∀ s ∈ base ++ inner ++ [last], Ordinary s)
    (stem : Ordinary (stripExtension last))
    (single : stripExtension (stripExtension last) = stripExtension last)
    (away : last ≠ m.package) (stem_away : stripExtension last ≠ m.package)
    (outside : m.region (rooted (base ++ inner ++ [last])) ≠ .ambient) :
    m.keyOf? (rooted (base ++ inner ++ [last])) =
      some (m.keyAt (base ++ inner ++ [stripExtension last])) := by
  have packaged : m.package ∈ base ++ inner ++ [stripExtension last] ↔
      m.package ∈ base ++ inner ++ [last] := by
    simp [Ne.symm away, Ne.symm stem_away]
  have region := region_of_ne_ambient ordinary outside
  rw [keyOf?, region, keyAt]
  simp only [List.contains_iff_mem, packaged]
  by_cases inside : m.package ∈ base ++ inner ++ [last]
  · obtain ⟨key, found⟩ :=
      Option.isSome_iff_exists.mp ((packageKey?_isSome_iff ordinary).mpr inside)
    rw [if_pos inside, if_pos inside, packageKey?_stem ordinary stem single away stem_away, found,
      Option.getD_some]
  · have stripped := ordinary_stem ordinary stem
    rw [if_neg inside, if_neg inside]
    simp only [List.append_assoc] at ordinary stripped ⊢
    rw [keyFromRoot_rooted root ordinary, keyFromRoot_rooted root stripped, single]

end Marks

def Path.IsRooted (path : String) : Prop := (Lexical.Form.ofText path.toList).anchor = .root

instance (path : String) : Decidable (Path.IsRooted path) :=
  inferInstanceAs (Decidable ((Lexical.Form.ofText path.toList).anchor = .root))

namespace Lexical

theorem exists_rooted {f : Form} (canonical : f.Canonical) (root : f.anchor = .root) :
    ∃ parts, (∀ s ∈ parts, Ordinary s) ∧ f.text = rooted parts := by
  obtain ⟨anchor, parts⟩ := f
  obtain rfl : anchor = .root := root
  exact ⟨parts, canonical.ordinary, text_root parts⟩

theorem isAbsolute_of_root {cs : List Char} (root : (Form.ofText cs).anchor = .root) :
    isAbsolute (posix cs) = true := by
  have anchored : (anchor (posix cs)).1 = .root := root
  simp [isAbsolute, anchored]

theorem exists_rooted_normalize {cs : List Char} (root : (Form.ofText cs).anchor = .root) :
    ∃ parts, (∀ s ∈ parts, Ordinary s) ∧ normalize cs = rooted parts :=
  exists_rooted (ofText_canonical (isAbsolute_of_root root)) root

end Lexical

namespace Path

theorem IsCanonical.exists_rooted {path : String} (canonical : IsCanonical path)
    (root : IsRooted path) :
    ∃ parts, (∀ s ∈ parts, Lexical.Ordinary s) ∧ path.toList = Lexical.rooted parts := by
  obtain ⟨f, form, text⟩ := canonical
  rw [IsRooted, text, form.ofText_text] at root
  rw [text]
  exact Lexical.exists_rooted form root

theorem stripExtension_eq_iff (path text : String) :
    stripExtension path = text ↔ Lexical.stripExtension path.toList = text.toList := by
  rw [← String.toList_inj, stripExtension, toList_lift]

end Path

namespace Layout

open Lexical

variable {l : Layout}

theorem canonicalRoot_rooted (root : Path.IsRooted l.root) :
    ∃ base, (∀ s ∈ base, Ordinary s) ∧ l.marks.root = rooted base ∧
      l.canonicalRoot.toList = rooted base := by
  obtain ⟨base, ordinary, text⟩ := exists_rooted_normalize root
  refine ⟨base, ordinary, text, ?_⟩
  rw [canonicalRoot, Path.normalize, Path.toList_lift, text]

theorem toList_join_canonicalRoot (l : Layout) (file : String) :
    (Path.join l.canonicalRoot file).toList = l.marks.absolute file.toList := by
  rw [Path.toList_join, canonicalRoot, Path.normalize, Path.toList_lift]
  rfl

theorem absolute_rooted (root : Path.IsRooted l.root) {file : String}
    (placed : Path.IsRooted (Path.join l.canonicalRoot file)) :
    ∃ place, (∀ s ∈ place, Ordinary s) ∧ l.marks.absolute file.toList = rooted place := by
  obtain ⟨base, -, -, text⟩ := canonicalRoot_rooted root
  have absolute : Path.isAbsolute l.canonicalRoot = true := by
    rw [Path.isAbsolute, text]
    rfl
  obtain ⟨place, ordinary, found⟩ := (Path.join_isCanonical absolute file).exists_rooted placed
  exact ⟨place, ordinary, (toList_join_canonicalRoot l file).symm.trans found⟩

/-- The way from the directory of a file to a path, as a specifier. -/
def specifier (l : Layout) (file path : String) : String :=
  "./" ++ Path.relative (Path.parent (Path.join l.canonicalRoot file)) path

theorem toList_specifier (l : Layout) (file path : String) :
    (l.specifier file path).toList =
      '.' :: '/' :: relative (parent (l.marks.absolute file.toList)) path.toList := by
  have dotSlash : "./".toList = ['.', '/'] := by decide
  rw [specifier, String.toList_append, dotSlash, Path.toList_relative, Path.parent,
    Path.toList_lift, toList_join_canonicalRoot]
  simp only [List.cons_append, List.nil_append]

/-- A specifier that leads from any file to a file below the project root, without the extension
of that file, means the key of that file. -/
theorem specifier_finds_key (root : Path.IsRooted l.root) {file : String}
    (placed : Path.IsRooted (Path.join l.canonicalRoot file)) {target : String}
    (canonical : Path.IsCanonical target) (targetRooted : Path.IsRooted target)
    {inner : List String} {last : String}
    (below : Path.segments target = Path.segments l.canonicalRoot ++ inner ++ [last])
    (outside : l.region target ≠ .ambient)
    (stem : Path.stripExtension last ∉ ["", ".", ".."])
    (single : Path.stripExtension (Path.stripExtension last) = Path.stripExtension last)
    (away : last ≠ l.packageDir) (stemAway : Path.stripExtension last ≠ l.packageDir) :
    l.keyOf? target =
      some (l.targetKey (some file) (l.specifier file (Path.stripExtension target))) := by
  obtain ⟨base, above, markRoot, rootText⟩ := canonicalRoot_rooted root
  obtain ⟨place, ordinary, fileText⟩ := absolute_rooted root placed
  obtain ⟨parts, also, targetText⟩ := canonical.exists_rooted targetRooted
  have cut : parts = base ++ inner.map String.toList ++ [last.toList] := by
    have chars := congrArg (List.map String.toList) below
    rw [Path.segments, Path.segments, targetText, rootText, segments_rooted also,
      segments_rooted above] at chars
    simpa [Function.comp_def] using chars
  subst cut
  simp only [List.mem_cons, List.not_mem_nil, or_false, not_or, Path.stripExtension_eq_iff] at stem
  have stemOrdinary : Ordinary (stripExtension last.toList) :=
    (also last.toList (by simp)).stripExtension stem.1 stem.2.1 stem.2.2
  have stripped := ordinary_stem also stemOrdinary
  have once : stripExtension (stripExtension last.toList) = stripExtension last.toList := by
    rw [Path.stripExtension_eq_iff, Path.stripExtension, Path.toList_lift] at single
    exact single
  have key := Marks.keyOf?_eq_keyAt (m := l.marks) markRoot also stemOrdinary once
    (fun same => away (String.toList_inj.mp same))
    (fun same => stemAway ((Path.stripExtension_eq_iff _ _).mpr same))
    (by rwa [Layout.region, targetText] at outside)
  have way : (l.specifier file (Path.stripExtension target)).toList =
      '.' :: '/' :: relative (parent (l.marks.absolute file.toList))
        (rooted (base ++ inner.map String.toList ++ [stripExtension last.toList])) := by
    rw [toList_specifier, Path.stripExtension, Path.toList_lift, targetText,
      stripExtension_rooted]
  rw [keyOf?, targetText, key, Option.map_some, targetKey, way,
    Marks.targetKey_relative fileText ordinary stripped]

section Sample

def workspace : Layout := { root := "/ws" }

theorem packageFolder_found :
    workspace.specifier "src/app/main.ts"
      (Path.stripExtension "/ws/node_modules/foo/lib/index.d.ts") =
        "./../../node_modules/foo/lib/index" ∧
    workspace.keyOf? "/ws/node_modules/foo/lib/index.d.ts" = some "foo/lib" ∧
    workspace.keyOf? "/ws/node_modules/foo/lib/index.d.ts" =
      some (workspace.targetKey (some "src/app/main.ts")
        (workspace.specifier "src/app/main.ts"
          (Path.stripExtension "/ws/node_modules/foo/lib/index.d.ts"))) := by
  have joined : Path.join "/ws" "node_modules/foo/lib/index.d.ts" =
      "/ws/node_modules/foo/lib/index.d.ts" := by decide +kernel
  have canonical : Path.IsCanonical "/ws/node_modules/foo/lib/index.d.ts" := by
    rw [← joined]
    exact Path.join_isCanonical (by decide +kernel) _
  have below : Path.segments "/ws/node_modules/foo/lib/index.d.ts" =
      Path.segments workspace.canonicalRoot ++ ["node_modules", "foo", "lib"] ++
        ["index.d.ts"] := by decide +kernel
  refine ⟨by decide +kernel, by decide +kernel, ?_⟩
  exact specifier_finds_key (by decide +kernel) (by decide +kernel) canonical (by decide +kernel)
    below (by decide +kernel) (by decide +kernel) (by decide +kernel) (by decide +kernel)
    (by decide +kernel)

end Sample

end Layout

end ExportIndex
