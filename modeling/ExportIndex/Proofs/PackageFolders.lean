import ExportIndex.Proofs.TargetKeys

/-!
Specifiers that lead to the folder of a package. The files of a package are keyed
by their way from the package directory, the index file by its folder alone. A
specifier that ends at the folder is keyed by the folder's name as if it were the
name of a file: what looks like a source extension is removed. So it finds the
index file of every package except those whose name has such an ending.
-/
namespace ExportIndex

namespace Lexical

def sourceEndings : List (List Char) := extensions ++ extensions.map (['.', 'd'] ++ ·)

theorem stripExtension_index {ending : List Char} (source : ending ∈ sourceEndings) :
    stripExtension (Marks.indexName ++ ending) = Marks.indexName := by
  have all : ∀ e ∈ sourceEndings, stripExtension (Marks.indexName ++ e) = Marks.indexName := by
    decide
  exact all ending source

theorem ordinary_index {ending : List Char} (source : ending ∈ sourceEndings) :
    Ordinary (Marks.indexName ++ ending) where
  nonempty := by simp [Marks.indexName]
  not_dot := by simp [Marks.indexName, dot]
  not_dotDot := by simp [Marks.indexName, dotDot]
  no_slash := by
    have all : ∀ e ∈ sourceEndings, '/' ∉ Marks.indexName ++ e := by decide
    exact all ending source
  no_backslash := by
    have all : ∀ e ∈ sourceEndings, '\\' ∉ Marks.indexName ++ e := by decide
    exact all ending source

theorem normalize_append_glue {base inner : List Segment}
    (ordinary : ∀ s ∈ base ++ inner, Ordinary s) :
    normalize (rooted base ++ '/' :: glue inner) = rooted (base ++ inner) := by
  obtain ⟨above, below⟩ := List.forall_mem_append.mp ordinary
  have spelled : '\\' ∉ glue inner := by
    rw [← posix_glue fun s held => (below s held).no_backslash]
    exact backslash_notMem_posix _
  rw [normalize_append_slash above spelled, segments_glue below, resolve_of_ordinary ordinary]

theorem relative_congr {root root' path path' : List Char}
    (first : normalize root = normalize root') (second : normalize path = normalize path') :
    relative root path = relative root' path' := by
  rw [relative, relative, first, second]

end Lexical

namespace Marks

open Lexical

variable {m : Marks} {base : List Segment} {name last : Segment}

theorem after?_append {s : Segment} (absent : s ∉ base) (rest : List Segment) :
    after? s (base ++ s :: rest) = some rest := by
  induction base with
  | nil => simp [after?]
  | cons t base ih =>
    simp only [List.mem_cons, not_or] at absent
    rw [List.cons_append, after?, if_neg (Ne.symm absent.1), ih absent.2]

theorem hasPair_append {a b : Segment} (absent : a ∉ base) (rest : List Segment) :
    hasPair a b (base ++ rest) = hasPair a b rest := by
  induction base with
  | nil => rfl
  | cons s base ih =>
    simp only [List.mem_cons, not_or] at absent
    rw [List.cons_append, ← ih absent.2]
    cases base ++ rest with
    | nil => rfl
    | cons t more => simp [hasPair, Ne.symm absent.1]

theorem packageKey?_folder (ordinary : ∀ s ∈ base ++ [m.package, name], Ordinary s)
    (outside : m.package ∉ base) :
    m.packageKey? (rooted (base ++ [m.package, name])) = some (stripExtension name) := by
  have plain : ∀ s ∈ [] ++ [name], Ordinary s := by simpa using ordinary name (by simp)
  have short : '/' ∉ stripExtension name := fun slash =>
    (ordinary name (by simp)).no_slash ((stripExtension_initial name).subset slash)
  have named : fileName (glue [name]) = stripExtension name := fileName_glue plain
  rw [packageKey?, normalize_rooted ordinary, segments_rooted ordinary, after?_append outside,
    Option.map_some, named, trimLast_of_notMem short]

theorem packageKey?_index (ordinary : ∀ s ∈ base ++ [m.package, name, last], Ordinary s)
    (outside : m.package ∉ base) (index : stripExtension last = indexName) :
    m.packageKey? (rooted (base ++ [m.package, name, last])) = some name := by
  have inside : ∀ s ∈ [name] ++ [last], Ordinary s := fun s held =>
    ordinary s (List.mem_append_right base (List.mem_cons_of_mem m.package held))
  have named : fileName (glue [name, last]) = name ++ '/' :: indexName := by
    rw [← index]
    exact fileName_glue inside
  have cut : splitLast (name ++ '/' :: indexName) = some (name, indexName) :=
    splitLast_append (by decide) name
  rw [packageKey?, normalize_rooted ordinary, segments_rooted ordinary, after?_append outside,
    Option.map_some, named, trimLast, cut]
  simp

theorem region_package (ordinary : ∀ s ∈ base ++ [m.package, name, last], Ordinary s)
    (outside : m.package ∉ base) (plain : ∀ s ∈ base ++ [m.package, name, last], s ∉ m.typings)
    (other : name ≠ m.package) (unscoped : name ≠ m.scope) :
    m.region (rooted (base ++ [m.package, name, last])) = .package := by
  have untyped : (base ++ [m.package, name, last]).any (m.typings.contains ·) = false :=
    List.any_eq_false.mpr fun s held => by simpa using plain s held
  have unpaired : hasPair m.package m.scope (base ++ [m.package, name, last]) = false := by
    rw [hasPair_append outside]
    simp [hasPair, other, unscoped]
  rw [region, normalize_rooted ordinary, segments_rooted ordinary, untyped, unpaired]
  simp

theorem keyOf?_eq_packageKey? {path : List Char} {parts : List Segment}
    (means : normalize path = rooted parts) (ordinary : ∀ s ∈ parts, Ordinary s)
    (inside : m.region (rooted parts) = .package) :
    m.keyOf? path = m.packageKey? (rooted parts) := by
  have same : m.region path = .package := by
    rw [← inside, region, region, means, normalize_rooted ordinary]
  rw [keyOf?, same, packageKey?, packageKey?, means, normalize_rooted ordinary]

theorem targetKey_relative_text {file target : List Char} {path : List Segment}
    (placed : (Form.ofText file).anchor = .root) (means : normalize target = rooted path)
    (ordinary : ∀ s ∈ path, Ordinary s) :
    m.targetKey file ('.' :: '/' :: relative (parent file) target) = m.keyAt path := by
  obtain ⟨place, also, spelled⟩ := exists_rooted_normalize placed
  have absolute : m.absolute file = rooted place := by
    rw [Marks.absolute, join, if_pos (isAbsolute_of_root placed), spelled]
  have directory : parent file = parent (m.absolute file) := by
    rw [absolute, parent, parent, spelled, normalize_rooted also]
  have same : normalize target = normalize (rooted path) := by
    rw [means, normalize_rooted ordinary]
  rw [directory, relative_congr rfl same, targetKey_relative absolute also ordinary]

theorem keyAt_folder (ordinary : ∀ s ∈ base ++ [m.package, name], Ordinary s)
    (outside : m.package ∉ base) :
    m.keyAt (base ++ [m.package, name]) = stripExtension name := by
  rw [keyAt, packageKey?_folder ordinary outside]
  simp

end Marks

namespace Layout

open Lexical

def packageFolder (l : Layout) (name : String) : String :=
  l.canonicalRoot ++ "/" ++ l.packageDir ++ "/" ++ name

/-- Whether a project can have a package `name` whose index file ends in `ending`, with no other
marker on the way to it. -/
structure HasRoomFor (l : Layout) (name ending : String) : Prop where
  root : Path.IsRooted l.root
  root_clear : ∀ s ∈ Path.segments l.canonicalRoot, s ≠ l.packageDir ∧ s ∉ l.typingsDirs
  directory : Ordinary l.packageDir.toList
  directory_clear : l.packageDir ∉ l.typingsDirs
  folder : Ordinary name.toList
  folder_clear : name ≠ l.packageDir ∧ name ≠ l.typesScope ∧ name ∉ l.typingsDirs
  source : ending.toList ∈ sourceEndings
  index_clear : "index" ++ ending ∉ l.typingsDirs

theorem notMem_typings_iff (l : Layout) (name : String) :
    name.toList ∉ l.marks.typings ↔ name ∉ l.typingsDirs := by
  simp [marks, String.toList_inj]

namespace HasRoomFor

variable {l : Layout} {name ending : String} (room : l.HasRoomFor name ending)

include room

theorem exists_base : ∃ base : List Segment, (∀ s ∈ base, Ordinary s) ∧
    l.canonicalRoot.toList = rooted base ∧
    ∀ s ∈ base, s ≠ l.marks.package ∧ s ∉ l.marks.typings := by
  obtain ⟨base, ordinary, -, text⟩ := canonicalRoot_rooted room.root
  refine ⟨base, ordinary, text, fun s held => ?_⟩
  have clear := room.root_clear (String.ofList s) (by
    rw [Path.segments, text, segments_rooted ordinary]
    exact List.mem_map_of_mem held)
  have plain := (notMem_typings_iff l (String.ofList s)).mpr clear.2
  rw [String.toList_ofList] at plain
  refine ⟨fun same => clear.1 ?_, plain⟩
  rw [same]
  exact String.ofList_toList

theorem ordinary_index_path {base : List Segment} (above : ∀ s ∈ base, Ordinary s) :
    ∀ s ∈ base ++ [l.marks.package, name.toList, Marks.indexName ++ ending.toList],
      Ordinary s := by
  intro s held
  simp only [List.mem_append, List.mem_cons, List.not_mem_nil, or_false] at held
  rcases held with held | rfl | rfl | rfl
  · exact above s held
  · exact room.directory
  · exact room.folder
  · exact ordinary_index room.source

theorem typings_clear {base : List Segment} (clear : ∀ s ∈ base, s ∉ l.marks.typings) :
    ∀ s ∈ base ++ [l.marks.package, name.toList, Marks.indexName ++ ending.toList],
      s ∉ l.marks.typings := by
  intro s held
  simp only [List.mem_append, List.mem_cons, List.not_mem_nil, or_false] at held
  rcases held with held | rfl | rfl | rfl
  · exact clear s held
  · exact (notMem_typings_iff l _).mpr room.directory_clear
  · exact (notMem_typings_iff l _).mpr room.folder_clear.2.2
  · have index := (notMem_typings_iff l _).mpr room.index_clear
    rwa [String.toList_append] at index

theorem keyOf?_index :
    l.keyOf? (l.packageFolder name ++ "/index" ++ ending) = some name := by
  obtain ⟨base, above, text, clear⟩ := room.exists_base
  have ordinary := room.ordinary_index_path above
  have outside : l.marks.package ∉ base := fun held => (clear _ held).1 rfl
  have spelled : (l.packageFolder name ++ "/index" ++ ending).toList = rooted base ++
      '/' :: glue [l.marks.package, name.toList, Marks.indexName ++ ending.toList] := by
    simp [packageFolder, text, glue, Pieces.glue, marks, Marks.indexName]
  have inside := Marks.region_package ordinary outside
    (room.typings_clear fun s held => (clear s held).2)
    (fun same => room.folder_clear.1 (String.toList_inj.mp same))
    (fun same => room.folder_clear.2.1 (String.toList_inj.mp same))
  have key := Marks.packageKey?_index ordinary outside (stripExtension_index room.source)
  rw [keyOf?, spelled,
    Marks.keyOf?_eq_packageKey? (normalize_append_glue ordinary) ordinary inside, key,
    Option.map_some, String.ofList_toList]

/-- A specifier that leads from a file to the folder of a package means the name of the package
without a source extension. -/
theorem targetKey_folder {file : String} (placed : Path.IsRooted file) :
    l.targetKey (some file) ("./" ++ Path.relative (Path.parent file) (l.packageFolder name)) =
      Path.stripExtension name := by
  obtain ⟨base, above, text, clear⟩ := room.exists_base
  have outside : l.marks.package ∉ base := fun held => (clear _ held).1 rfl
  have shorter : base ++ [l.marks.package, name.toList] <+:
      base ++ [l.marks.package, name.toList, Marks.indexName ++ ending.toList] :=
    ⟨[Marks.indexName ++ ending.toList], by simp⟩
  have ordinary : ∀ s ∈ base ++ [l.marks.package, name.toList], Ordinary s := fun s held =>
    room.ordinary_index_path above s (shorter.subset held)
  have means : normalize (l.packageFolder name).toList =
      rooted (base ++ [l.marks.package, name.toList]) := by
    rw [← normalize_append_glue ordinary]
    simp [packageFolder, text, glue, Pieces.glue, marks]
  have way : ("./" ++ Path.relative (Path.parent file) (l.packageFolder name)).toList =
      '.' :: '/' :: Lexical.relative (Lexical.parent file.toList)
        (l.packageFolder name).toList := by
    simp [Path.parent]
  rw [targetKey, way, Marks.targetKey_relative_text placed means ordinary,
    Marks.keyAt_folder ordinary outside]
  rfl

end HasRoomFor

/-- From any file, a specifier that leads to the folder of a package finds the index file of the
package exactly if the name of the folder does not end as a source file does. The key of the index
file is the name; that of the specifier is the name without such an ending. -/
theorem folder_specifier_finds_index {l : Layout} {name ending : String}
    (room : l.HasRoomFor name ending) {file : String} (placed : Path.IsRooted file) :
    let key := l.keyOf? (l.packageFolder name ++ "/index" ++ ending)
    let target :=
      l.targetKey (some file) ("./" ++ Path.relative (Path.parent file) (l.packageFolder name))
    key = some name ∧ target = Path.stripExtension name ∧
      (key = some target ↔ Path.stripExtension name = name) := by
  have index := room.keyOf?_index
  have folder := room.targetKey_folder placed
  refine ⟨index, folder, ?_⟩
  rw [index, folder, Option.some_inj, eq_comm]

section Sample

theorem workspace_hasRoomFor {name : String} (folder : Ordinary name.toList)
    (clear : name ∉ ["node_modules", "@types", "typings"]) :
    workspace.HasRoomFor name ".d.ts" where
  root := by decide +kernel
  root_clear := by decide +kernel
  directory := by constructor <;> decide +kernel
  directory_clear := by decide +kernel
  folder := folder
  folder_clear := by simpa [workspace] using clear
  source := by decide +kernel
  index_clear := by decide +kernel

theorem socketFolder_found :
    workspace.packageFolder "socket.io" = "/ws/node_modules/socket.io" ∧
    workspace.keyOf? "/ws/node_modules/socket.io/index.d.ts" = some "socket.io" ∧
    workspace.targetKey (some "/ws/src/util.ts") "./../node_modules/socket.io" = "socket.io" := by
  have room : workspace.HasRoomFor "socket.io" ".d.ts" :=
    workspace_hasRoomFor (by constructor <;> decide +kernel) (by decide +kernel)
  have placed : Path.IsRooted "/ws/src/util.ts" := by decide +kernel
  obtain ⟨index, target, -⟩ := folder_specifier_finds_index room placed
  exact ⟨by decide +kernel, index, target⟩

/-- A package whose name ends as a source file is not found by the way to its folder. -/
theorem chartFolder_missed :
    let key := workspace.keyOf? (workspace.packageFolder "chart.js" ++ "/index" ++ ".d.ts")
    let target := workspace.targetKey (some "/ws/src/util.ts")
      ("./" ++ Path.relative (Path.parent "/ws/src/util.ts") (workspace.packageFolder "chart.js"))
    workspace.HasRoomFor "chart.js" ".d.ts" ∧ Path.IsRooted "/ws/src/util.ts" ∧
      key = some "chart.js" ∧ target = "chart" ∧ key ≠ some target := by
  refine ⟨workspace_hasRoomFor (by constructor <;> decide +kernel) (by decide +kernel), ?_⟩
  decide +kernel

end Sample

end Layout

end ExportIndex
