import ExportIndex.Proofs.TargetKeys

/-!
When two files get one key. A key of the workspace is the way from the root as a
text, steps up and all, with the extension of the last segment gone, and a key of
a package is a name. The text still tells the steps up from the segments below
them, so files of the workspace share a key only if they lie in one directory and
differ in the extension alone; and no name of a package looks like a way.
-/
namespace ExportIndex

namespace Lexical

def stemmed : List Segment → List Segment
  | [] => []
  | [last] => [stripExtension last]
  | s :: t :: rest => s :: stemmed (t :: rest)

theorem stemmed_concat (init : List Segment) (last : Segment) :
    stemmed (init ++ [last]) = init ++ [stripExtension last] := by
  induction init with
  | nil => rfl
  | cons s init ih =>
    cases init with
    | nil => rfl
    | cons t init => exact congrArg (s :: ·) ih

theorem stemmed_append (front : List Segment) {back : List Segment} (more : back ≠ []) :
    stemmed (front ++ back) = front ++ stemmed back := by
  cases back using List.reverseRecOn with
  | nil => contradiction
  | append_singleton init last =>
    rw [← List.append_assoc, stemmed_concat, stemmed_concat, List.append_assoc]

theorem stemmed_eq_nil_iff {parts : List Segment} : stemmed parts = [] ↔ parts = [] := by
  cases parts using List.reverseRecOn with
  | nil => simp [stemmed]
  | append_singleton init last => simp [stemmed_concat]

theorem dropLast_stemmed (parts : List Segment) : (stemmed parts).dropLast = parts.dropLast := by
  cases parts using List.reverseRecOn with
  | nil => rfl
  | append_singleton init last => simp [stemmed_concat]

theorem getLast?_stemmed (parts : List Segment) :
    (stemmed parts).getLast? = parts.getLast?.map stripExtension := by
  cases parts using List.reverseRecOn with
  | nil => rfl
  | append_singleton init last => simp [stemmed_concat]

theorem stemmed_dotDots_append (up down : List Segment) :
    stemmed (up.map (fun _ => dotDot) ++ down) = up.map (fun _ => dotDot) ++ stemmed down := by
  by_cases more : down = []
  · subst more
    cases up using List.reverseRecOn with
    | nil => rfl
    | append_singleton up s =>
      have kept : stripExtension dotDot = dotDot := by decide
      simp [stemmed_concat, stemmed, kept]
  · exact stemmed_append _ more

theorem fileName_glue_stemmed {parts : List Segment} (spelled : ∀ s ∈ parts, '\\' ∉ s) :
    fileName (glue parts) = glue (stemmed parts) := by
  cases parts using List.reverseRecOn with
  | nil => rfl
  | append_singleton init last => rw [fileName_glue_concat spelled, stemmed_concat]

theorem dotDots_append_inj {up up' down down' : List Segment} (plain : dotDot ∉ down)
    (plain' : dotDot ∉ down')
    (same : up.map (fun _ => dotDot) ++ down = up'.map (fun _ => dotDot) ++ down') :
    up.length = up'.length ∧ down = down' := by
  rw [List.map_const', List.map_const'] at same
  have steps : up.length = up'.length := by
    have counted := congrArg (List.count dotDot) same
    simpa [List.count_append, List.count_eq_zero_of_not_mem plain,
      List.count_eq_zero_of_not_mem plain'] using counted
  rw [steps] at same
  exact ⟨steps, List.append_cancel_left same⟩

theorem ordinary_stemmed {parts : List Segment} (ordinary : ∀ s ∈ parts, Ordinary s)
    (stem : ∀ s ∈ parts.getLast?, Ordinary (stripExtension s)) :
    ∀ s ∈ stemmed parts, Ordinary s := by
  cases parts using List.reverseRecOn with
  | nil => exact ordinary
  | append_singleton init last =>
    rw [stemmed_concat]
    exact ordinary_stem ordinary (stem last (by simp))

theorem ordinary_below (base : List Segment) {parts : List Segment}
    (ordinary : ∀ s ∈ parts, Ordinary s)
    (stem : ∀ s ∈ parts.getLast?, Ordinary (stripExtension s)) :
    ∀ s ∈ stemmed (dropCommon base parts).2, Ordinary s := by
  obtain ⟨common, -, below⟩ := dropCommon_spec base parts
  apply ordinary_stemmed
  · exact fun s held => ordinary s (below ▸ List.mem_append_right common held)
  · intro s last
    apply stem
    rw [below, List.getLast?_append, Option.mem_def.mp last]
    rfl

/-- Two paths that are reached by as many steps up from one place, and then down the same way up
to an extension, are the same up to an extension. -/
theorem stemmed_eq_of_way {base p q : List Segment}
    (steps : (dropCommon base p).1.length = (dropCommon base q).1.length)
    (below : stemmed (dropCommon base p).2 = stemmed (dropCommon base q).2) :
    stemmed p = stemmed q := by
  obtain ⟨common, first, firstDown⟩ := dropCommon_spec base p
  obtain ⟨common', second, secondDown⟩ := dropCommon_spec base q
  have shared : common = common' := (List.append_inj' (first.symm.trans second) steps).1
  by_cases ended : (dropCommon base p).2 = []
  · -- both lie on the way to the base itself
    have also : (dropCommon base q).2 = [] := by
      rw [← stemmed_eq_nil_iff, ← below, stemmed_eq_nil_iff, ended]
    rw [firstDown, secondDown, shared, ended, also]
  · have also : (dropCommon base q).2 ≠ [] := by
      rwa [Ne, ← stemmed_eq_nil_iff, ← below, stemmed_eq_nil_iff]
    rw [firstDown, secondDown, stemmed_append common ended, stemmed_append common' also, shared,
      below]

theorem slash_not_initial_glue {parts : List Segment} (ordinary : ∀ s ∈ parts, Ordinary s)
    (rest : List Char) : ¬ ('/' :: rest) <+: glue parts := by
  intro initial
  cases parts with
  | nil => simp [glue, Pieces.glue] at initial
  | cons s parts =>
    have first := ordinary s List.mem_cons_self
    obtain ⟨c, cs, rfl⟩ := List.exists_cons_of_ne_nil first.nonempty
    have head : ∃ more, glue ((c :: cs) :: parts) = c :: more := by
      cases parts with
      | nil => exact ⟨cs, rfl⟩
      | cons t parts => exact ⟨_, rfl⟩
    obtain ⟨more, text⟩ := head
    rw [text, List.cons_prefix_cons] at initial
    exact first.no_slash (initial.1 ▸ List.mem_cons_self)

theorem eq_of_splitLast {cs before after : List Char}
    (cut : splitLast cs = some (before, after)) : cs = before ++ '/' :: after := by
  induction cs generalizing before with
  | nil => cases cut
  | cons c cs ih =>
    unfold splitLast at cut
    split at cut
    · rename_i front last found
      obtain ⟨rfl, rfl⟩ : c :: front = before ∧ last = after := by simpa using cut
      rw [ih found, List.cons_append]
    · split at cut
      · rename_i slash
        obtain ⟨rfl, rfl⟩ : [] = before ∧ cs = after := by simpa using cut
        rw [slash, List.nil_append]
      · cases cut

theorem fileName_glue_initial {parts : List Segment} (ordinary : ∀ s ∈ parts, Ordinary s) :
    fileName (glue parts) <+: glue parts := by
  rw [fileName, posix_glue fun s held => (ordinary s held).no_backslash]
  exact stripExtension_initial _

end Lexical

namespace Marks

open Lexical

variable {m : Marks} {parts : List Segment} {key : List Char}

theorem trimLast_initial (folder directory name : Segment) :
    trimLast folder directory name <+: name := by
  unfold trimLast
  split
  · rename_i front last cut
    split
    · exact eq_of_splitLast cut ▸ List.prefix_append front _
    · exact List.prefix_rfl
  · exact List.prefix_rfl

theorem packageKey?_ne_slash (ordinary : ∀ s ∈ parts, Ordinary s)
    (found : m.packageKey? (rooted parts) = some key) (rest : List Char) : key ≠ '/' :: rest := by
  rintro rfl
  rw [packageKey?, normalize_rooted ordinary, segments_rooted ordinary] at found
  obtain ⟨inner, follows, named⟩ := Option.map_eq_some_iff.mp found
  have inside : ∀ s ∈ inner, Ordinary s := fun s held =>
    ordinary s (mem_of_mem_after? follows held)
  have initial : '/' :: rest <+: fileName (glue inner) := named ▸ trimLast_initial _ _ _
  exact slash_not_initial_glue inside rest (initial.trans (fileName_glue_initial inside))

theorem keyFromRoot_way {base : List Segment} (root : m.root = rooted base)
    (above : ∀ s ∈ base, Ordinary s) (ordinary : ∀ s ∈ parts, Ordinary s) :
    m.keyFromRoot (rooted parts) = '/' :: glue
      ((dropCommon base parts).1.map (fun _ => dotDot) ++ stemmed (dropCommon base parts).2) := by
  obtain ⟨common, -, below⟩ := dropCommon_spec base parts
  have onward : ∀ s ∈ (dropCommon base parts).2, Ordinary s := fun s held =>
    ordinary s (below ▸ List.mem_append_right common held)
  rw [keyFromRoot, absolute_rooted ordinary, root, relative_rooted above ordinary,
    fileName_glue_stemmed fun s held => (whole_way onward s held).2.2, stemmed_dotDots_append]

theorem keyFromRoot_of_workspace (found : m.keyOf? (rooted parts) = some key)
    (workspace : m.region (rooted parts) = .workspace) : m.keyFromRoot (rooted parts) = key := by
  rw [keyOf?, workspace] at found
  exact Option.some.inj found

theorem keyOf?_slash_iff (ordinary : ∀ s ∈ parts, Ordinary s)
    (found : m.keyOf? (rooted parts) = some key) :
    (∃ rest, key = '/' :: rest) ↔ m.region (rooted parts) = .workspace := by
  cases kind : m.region (rooted parts) with
  | workspace => simp [← keyFromRoot_of_workspace found kind, keyFromRoot]
  | ambient => simp [keyOf?, kind] at found
  | package =>
    have named : m.packageKey? (rooted parts) = some key := by rwa [keyOf?, kind] at found
    simp [packageKey?_ne_slash ordinary named]

theorem region_eq_of_keyOf? {others : List Segment} (ordinary : ∀ s ∈ parts, Ordinary s)
    (also : ∀ s ∈ others, Ordinary s) (found : m.keyOf? (rooted parts) = some key)
    (again : m.keyOf? (rooted others) = some key) :
    m.region (rooted parts) = m.region (rooted others) := by
  have first := keyOf?_slash_iff ordinary found
  have second := keyOf?_slash_iff also again
  have both := first.symm.trans second
  cases kind : m.region (rooted parts) with
  | workspace => exact (both.mp kind).symm
  | ambient => simp [keyOf?, kind] at found
  | package =>
    cases other : m.region (rooted others) with
    | workspace => exact absurd (both.mpr other) (by simp [kind])
    | ambient => simp [keyOf?, other] at again
    | package => rfl

theorem stemmed_eq_of_keyFromRoot {base others : List Segment} (root : m.root = rooted base)
    (above : ∀ s ∈ base, Ordinary s) (ordinary : ∀ s ∈ parts, Ordinary s)
    (also : ∀ s ∈ others, Ordinary s) (stem : ∀ s ∈ parts.getLast?, Ordinary (stripExtension s))
    (alsoStem : ∀ s ∈ others.getLast?, Ordinary (stripExtension s))
    (same : m.keyFromRoot (rooted parts) = m.keyFromRoot (rooted others)) :
    stemmed parts = stemmed others := by
  rw [keyFromRoot_way root above ordinary, keyFromRoot_way root above also] at same
  have down := ordinary_below base ordinary stem
  have alsoDown := ordinary_below base also alsoStem
  have texts := congrArg segments (List.cons.inj same).2
  rw [segments_way down, segments_way alsoDown] at texts
  obtain ⟨steps, below⟩ := dotDots_append_inj (fun held => (down _ held).not_dotDot rfl)
    (fun held => (alsoDown _ held).not_dotDot rfl) texts
  exact stemmed_eq_of_way steps below

end Marks

namespace Layout

open Lexical

variable {l : Layout}

section Text

variable {path : String} {parts : List Segment} (text : path.toList = rooted parts)

include text

theorem marks_keyOf?_of_keyOf? {key : String} (found : l.keyOf? path = some key) :
    l.marks.keyOf? (rooted parts) = some key.toList := by
  rw [keyOf?, text] at found
  obtain ⟨chars, named, rfl⟩ := Option.map_eq_some_iff.mp found
  rw [named, String.toList_ofList]

theorem segments_of_rooted (ordinary : ∀ s ∈ parts, Ordinary s) :
    Path.segments path = parts.map String.ofList := by
  rw [Path.segments, text, segments_rooted ordinary]

theorem ordinary_stem_of_segments (ordinary : ∀ s ∈ parts, Ordinary s)
    (stem : ∀ last ∈ (Path.segments path).getLast?, Path.stripExtension last ∉ ["", ".", ".."]) :
    ∀ s ∈ parts.getLast?, Ordinary (stripExtension s) := by
  intro s last
  have named : String.ofList s ∈ (Path.segments path).getLast? := by
    rw [segments_of_rooted text ordinary, List.getLast?_map]
    exact Option.mem_map_of_mem String.ofList last
  have proper := stem _ named
  simp only [List.mem_cons, List.not_mem_nil, or_false, not_or, Path.stripExtension_eq_iff,
    String.toList_ofList] at proper
  exact (ordinary s (List.mem_of_mem_getLast? last)).stripExtension proper.1 proper.2.1 proper.2.2

theorem directory_and_stem (ordinary : ∀ s ∈ parts, Ordinary s) :
    (Path.segments path).dropLast = (stemmed parts).dropLast.map String.ofList ∧
    (Path.segments path).getLast?.map Path.stripExtension =
      (stemmed parts).getLast?.map String.ofList := by
  have strip : Path.stripExtension ∘ String.ofList = String.ofList ∘ Lexical.stripExtension := by
    funext s
    simp [Path.stripExtension, Path.lift]
  rw [segments_of_rooted text ordinary, dropLast_stemmed, getLast?_stemmed, List.map_dropLast,
    List.getLast?_map, Option.map_map, Option.map_map, strip]
  exact ⟨rfl, rfl⟩

end Text

/-- Two files have one key only if they are of one kind, and in the workspace only if they lie in
one directory, inside the project or not, and their names differ in the extension alone. -/
theorem same_key_same_stem (root : Path.IsRooted l.root) {p q key : String}
    (canonical : Path.IsCanonical p) (rootedP : Path.IsRooted p)
    (canonicalQ : Path.IsCanonical q) (rootedQ : Path.IsRooted q)
    (stem : ∀ last ∈ (Path.segments p).getLast?, Path.stripExtension last ∉ ["", ".", ".."])
    (stemQ : ∀ last ∈ (Path.segments q).getLast?, Path.stripExtension last ∉ ["", ".", ".."])
    (found : l.keyOf? p = some key) (foundQ : l.keyOf? q = some key) :
    l.region p = l.region q ∧
    (l.region p = .workspace →
      (Path.segments p).dropLast = (Path.segments q).dropLast ∧
      (Path.segments p).getLast?.map Path.stripExtension =
        (Path.segments q).getLast?.map Path.stripExtension) := by
  obtain ⟨base, above, markRoot, -⟩ := canonicalRoot_rooted root
  obtain ⟨parts, ordinary, text⟩ := canonical.exists_rooted rootedP
  obtain ⟨others, also, textQ⟩ := canonicalQ.exists_rooted rootedQ
  have here := marks_keyOf?_of_keyOf? text found
  have there := marks_keyOf?_of_keyOf? textQ foundQ
  have regions := Marks.region_eq_of_keyOf? ordinary also here there
  rw [region, region, text, textQ]
  refine ⟨regions, fun workspace => ?_⟩
  have way := Marks.keyFromRoot_of_workspace here workspace
  have wayQ := Marks.keyFromRoot_of_workspace there (regions ▸ workspace)
  have stems : stemmed parts = stemmed others :=
    Marks.stemmed_eq_of_keyFromRoot markRoot above ordinary also
      (ordinary_stem_of_segments text ordinary stem)
      (ordinary_stem_of_segments textQ also stemQ) (way.trans wayQ.symm)
  obtain ⟨directory, name⟩ := directory_and_stem text ordinary
  obtain ⟨directoryQ, nameQ⟩ := directory_and_stem textQ also
  rw [directory, name, directoryQ, nameQ, stems]
  exact ⟨rfl, rfl⟩

section Sample

def application : Layout := { root := "/ws/app" }

theorem besideProject_same_stem :
    application.keyOf? "/ws/lib/b.ts" = some "/../lib/b" ∧
    application.keyOf? "/ws/lib/b.d.ts" = some "/../lib/b" ∧
    (Path.segments "/ws/lib/b.ts").dropLast = (Path.segments "/ws/lib/b.d.ts").dropLast ∧
    (Path.segments "/ws/lib/b.ts").getLast?.map Path.stripExtension =
      (Path.segments "/ws/lib/b.d.ts").getLast?.map Path.stripExtension := by
  have canonical (name : String) : Path.IsCanonical (Path.join "/ws/lib" name) :=
    Path.join_isCanonical (by decide +kernel) name
  have source : Path.join "/ws/lib" "b.ts" = "/ws/lib/b.ts" := by decide +kernel
  have declared : Path.join "/ws/lib" "b.d.ts" = "/ws/lib/b.d.ts" := by decide +kernel
  have found : application.keyOf? "/ws/lib/b.ts" = some "/../lib/b" := by decide +kernel
  have again : application.keyOf? "/ws/lib/b.d.ts" = some "/../lib/b" := by decide +kernel
  refine ⟨found, again, ?_⟩
  exact (same_key_same_stem (by decide +kernel) (source ▸ canonical "b.ts") (by decide +kernel)
    (declared ▸ canonical "b.d.ts") (by decide +kernel) (by decide +kernel) (by decide +kernel)
    found again).2 (by decide +kernel)

end Sample

end Layout

end ExportIndex
