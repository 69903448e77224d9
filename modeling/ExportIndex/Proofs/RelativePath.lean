import ExportIndex.Proofs.CanonicalPath

/-!
Paths from the root as lists of segments. Joining, the directory of a path, the
way from one path to another and the removal of an extension each do one thing
to the segments; in particular the way from a directory to a path, followed from
that directory, leads to the path.
-/
namespace ExportIndex

namespace Pieces

theorem glue_concat {sep : Char} {parts : List (List Char)} (nonempty : parts ≠ [])
    (last : List Char) : glue sep (parts ++ [last]) = glue sep parts ++ sep :: last := by
  induction parts with
  | nil => contradiction
  | cons p parts ih =>
    cases parts with
    | nil => rfl
    | cons q parts =>
      have later := ih (List.cons_ne_nil q parts)
      simp only [List.cons_append, glue] at later ⊢
      rw [later, List.append_assoc, List.cons_append]

end Pieces

namespace Lexical

def rooted (parts : List Segment) : List Char := '/' :: glue parts

section Rooted

variable {parts : List Segment} (ordinary : ∀ s ∈ parts, Ordinary s)

theorem text_root (parts : List Segment) : (⟨.root, parts⟩ : Form).text = rooted parts := by
  simp [Form.text, rooted, Anchor.text]

include ordinary

theorem root_canonical : (⟨.root, parts⟩ : Form).Canonical where
  anchored := by simp
  letter c found := by simp at found
  ordinary := ordinary

theorem segments_rooted : segments (rooted parts) = parts := by
  rw [rooted, segments_cons_slash, segments_glue ordinary]

theorem normalize_rooted : normalize (rooted parts) = rooted parts := by
  rw [normalize, ← text_root, (root_canonical ordinary).ofText_text]

theorem posix_rooted : posix (rooted parts) = rooted parts := by
  rw [← text_root, (root_canonical ordinary).posix_text]

theorem normalize_append_slash {rest : List Char} (spelled : '\\' ∉ rest) :
    normalize (rooted parts ++ '/' :: rest) = rooted (resolve true (parts ++ segments rest)) := by
  have kept : posix (rooted parts ++ '/' :: rest) = rooted parts ++ '/' :: rest := by
    apply posix_eq_self
    intro member
    rcases List.mem_append.mp member with here | there
    · rw [← posix_rooted ordinary] at here
      exact backslash_notMem_posix _ here
    · rcases List.mem_cons.mp there with slash | there
      · simp at slash
      · exact spelled there
  have cut : segments (glue parts ++ '/' :: rest) = parts ++ segments rest := by
    rw [segments, pieces, Pieces.split_append (decide_eq_true rfl), List.filter_append]
    exact congrArg (· ++ _) (segments_glue ordinary)
  rw [normalize, Form.ofText, kept]
  simp only [rooted, List.cons_append, anchor, cut]
  exact text_root _

theorem join_rooted {path : List Char} (unanchored : isAbsolute (posix path) = false) :
    join (rooted parts) path = rooted (resolve true (parts ++ segments (posix path))) := by
  rw [join, if_neg (Bool.eq_false_iff.mp unanchored), posix_rooted ordinary,
    normalize_append_slash ordinary (backslash_notMem_posix path)]

end Rooted

theorem dropCommon_spec (up down : List Segment) :
    ∃ common, up = common ++ (dropCommon up down).1 ∧ down = common ++ (dropCommon up down).2 := by
  induction up generalizing down with
  | nil => exact ⟨[], by simp [dropCommon], by simp [dropCommon]⟩
  | cons a up ih =>
    cases down with
    | nil => exact ⟨[], by simp [dropCommon], by simp [dropCommon]⟩
    | cons b down =>
      by_cases same : a = b
      · obtain ⟨common, first, second⟩ := ih down
        refine ⟨a :: common, ?_, ?_⟩
        · simpa [dropCommon, same] using first
        · simpa [dropCommon, same] using second
      · exact ⟨[], by simp [dropCommon, same], by simp [dropCommon, same]⟩

theorem dropCommon_append (common rest : List Segment) :
    dropCommon common (common ++ rest) = ([], rest) := by
  induction common with
  | nil => simp [dropCommon]
  | cons a common ih => simp [dropCommon, ih]

theorem relative_rooted {up down : List Segment} (first : ∀ s ∈ up, Ordinary s)
    (second : ∀ s ∈ down, Ordinary s) :
    relative (rooted up) (rooted down) =
      glue ((dropCommon up down).1.map (fun _ => dotDot) ++ (dropCommon up down).2) := by
  simp only [relative, normalize_rooted first, normalize_rooted second, segments_rooted first,
    segments_rooted second]

theorem foldl_push_dotDots (up : List Segment) {kept : List Segment}
    (ordinary : ∀ s ∈ kept, Ordinary s) :
    (up.map fun _ => dotDot).foldl (push true) kept = kept.drop up.length := by
  induction up generalizing kept with
  | nil => rfl
  | cons s up ih =>
    cases kept with
    | nil => simpa [push, dot, dotDot] using ih ordinary
    | cons top below =>
      have popped : push true (top :: below) dotDot = below := by
        have last := (ordinary top List.mem_cons_self).not_dotDot
        have differs : dotDot ≠ dot := by decide
        simp [push, last, differs]
      rw [List.map_cons, List.foldl_cons, popped,
        ih fun r held => ordinary r (List.mem_cons_of_mem top held)]
      rfl

theorem whole_way {up down : List Segment} (onward : ∀ s ∈ down, Ordinary s) :
    ∀ s ∈ up.map (fun _ => dotDot) ++ down, s ≠ [] ∧ '/' ∉ s ∧ '\\' ∉ s := by
  intro s held
  rcases List.mem_append.mp held with dots | held
  · obtain ⟨-, -, rfl⟩ := List.mem_map.mp dots
    decide
  · exact ⟨(onward s held).nonempty, (onward s held).no_slash, (onward s held).no_backslash⟩

theorem segments_way {up down : List Segment} (onward : ∀ s ∈ down, Ordinary s) :
    segments (glue (up.map (fun _ => dotDot) ++ down)) = up.map (fun _ => dotDot) ++ down :=
  segments_glue_of_whole fun s held =>
    ⟨(whole_way onward s held).1, (whole_way onward s held).2.1⟩

theorem resolve_way {common up down : List Segment} (ordinary : ∀ s ∈ common ++ up, Ordinary s)
    (onward : ∀ s ∈ down, Ordinary s) :
    resolve true (common ++ up ++ dot :: (up.map (fun _ => dotDot) ++ down)) = common ++ down := by
  have stay (kept : List Segment) : push true kept dot = kept := by simp [push]
  have kept : ∀ s ∈ (common ++ up).reverse, Ordinary s := fun s held =>
    ordinary s (List.mem_reverse.mp held)
  have back : (common ++ up).reverse.drop up.length = common.reverse := by
    rw [List.reverse_append, List.drop_left' (List.length_reverse)]
  rw [resolve, List.foldl_append, foldl_push_of_ordinary ordinary, List.append_nil,
    List.foldl_cons, stay, List.foldl_append, foldl_push_dotDots up kept, back,
    foldl_push_of_ordinary onward]
  simp

theorem join_relative {base path : List Segment} (first : ∀ s ∈ base, Ordinary s)
    (second : ∀ s ∈ path, Ordinary s) :
    join (rooted base) ('.' :: '/' :: relative (rooted base) (rooted path)) = rooted path := by
  obtain ⟨common, above, below⟩ := dropCommon_spec base path
  rw [relative_rooted first second]
  generalize (dropCommon base path).1 = up at above
  generalize (dropCommon base path).2 = down at below
  subst above below
  have after : ∀ s ∈ down, Ordinary s := (List.forall_mem_append.mp second).2
  have spelled : posix ('.' :: '/' :: glue (up.map (fun _ => dotDot) ++ down)) =
      '.' :: '/' :: glue (up.map (fun _ => dotDot) ++ down) := by
    apply posix_eq_self
    intro member
    simp only [List.mem_cons, Char.reduceEq, false_or] at member
    rcases Pieces.mem_glue member with slash | ⟨s, held, inside⟩
    · simp at slash
    · exact (whole_way after s held).2.2 inside
  have unanchored : isAbsolute (posix ('.' :: '/' :: glue (up.map (fun _ => dotDot) ++ down))) =
      false := by
    rw [spelled]
    simp [isAbsolute, anchor]
  have cut := segments_append_slash (p := dot) (by decide) (by decide)
    (glue (up.map (fun _ => dotDot) ++ down))
  rw [join_rooted first unanchored, spelled]
  rw [dot, List.singleton_append] at cut
  rw [cut, segments_way after]
  exact congrArg rooted (resolve_way first after)

theorem splitLast_eq_none {cs : List Char} (absent : '/' ∉ cs) : splitLast cs = none := by
  induction cs with
  | nil => rfl
  | cons c cs ih =>
    simp only [List.mem_cons, not_or] at absent
    simp [splitLast, ih absent.2, Ne.symm absent.1]

theorem splitLast_append {last : List Char} (absent : '/' ∉ last) (front : List Char) :
    splitLast (front ++ '/' :: last) = some (front, last) := by
  induction front with
  | nil => simp [splitLast, splitLast_eq_none absent]
  | cons c front ih => simp [splitLast, ih]

theorem rooted_concat {init : List Segment} (nonempty : init ≠ []) (last : Segment) :
    rooted (init ++ [last]) = rooted init ++ '/' :: last := by
  rw [rooted, glue, Pieces.glue_concat nonempty]
  rfl

theorem isDrive_cons_slash (cs : List Char) : isDrive ('/' :: cs) = false := by
  unfold isDrive
  split
  · rename_i drive
    obtain ⟨rfl, -⟩ := List.cons.inj drive
    rfl
  · rfl

theorem parent_rooted {parts : List Segment} (ordinary : ∀ s ∈ parts, Ordinary s) :
    parent (rooted parts) = rooted parts.dropLast := by
  rw [parent, normalize_rooted ordinary]
  cases parts using List.reverseRecOn with
  | nil => rfl
  | append_singleton init last =>
    have absent : '/' ∉ last := (ordinary last (by simp)).no_slash
    rw [List.dropLast_concat]
    by_cases top : init = []
    · subst top
      have cut : splitLast (rooted [last]) = some ([], last) := splitLast_append absent []
      rw [List.nil_append, cut]
      rfl
    · rw [rooted_concat top, splitLast_append absent]
      simp [rooted, isDrive_cons_slash]

theorem isPrefixOf_append_slash {start : List Char} (absent : '/' ∉ start)
    (first rest : List Char) :
    start.isPrefixOf (first ++ '/' :: rest) = start.isPrefixOf first := by
  induction start generalizing first with
  | nil => simp
  | cons c start ih =>
    simp only [List.mem_cons, not_or] at absent
    cases first with
    | nil => simp [List.isPrefixOf, Ne.symm absent.1]
    | cons d first => simp [List.isPrefixOf, ih absent.2]

theorem dropEnd?_append_slash {ending : List Char} (absent : '/' ∉ ending)
    (front last : List Char) :
    dropEnd? ending (front ++ '/' :: last) = (dropEnd? ending last).map (front ++ '/' :: ·) := by
  have same : ending.isSuffixOf (front ++ '/' :: last) = ending.isSuffixOf last := by
    have reversed : '/' ∉ ending.reverse := by simpa using absent
    simpa [List.isSuffixOf] using
      isPrefixOf_append_slash reversed last.reverse front.reverse
  rw [dropEnd?, dropEnd?, same]
  split
  · rename_i suffix
    have shorter := (List.isSuffixOf_iff_suffix.mp suffix).length_le
    have whole : front ++ '/' :: last = (front ++ ['/']) ++ last := by simp
    have kept : (front ++ '/' :: last).length - ending.length =
        (front ++ ['/']).length + (last.length - ending.length) := by
      simp only [List.length_append, List.length_cons, List.length_nil]
      omega
    rw [kept, whole, List.take_length_add_append]
    simp
  · rfl

theorem findSome?_dropEnd? {endings : List (List Char)} (absent : ∀ e ∈ endings, '/' ∉ e)
    (front last : List Char) :
    endings.findSome? (dropEnd? · (front ++ '/' :: last)) =
      (endings.findSome? (dropEnd? · last)).map (front ++ '/' :: ·) := by
  induction endings with
  | nil => rfl
  | cons ending endings ih =>
    have here := dropEnd?_append_slash (absent ending List.mem_cons_self) front last
    have later := ih fun e held => absent e (List.mem_cons_of_mem ending held)
    rw [List.findSome?_cons, List.findSome?_cons, here, later]
    cases dropEnd? ending last <;> rfl

theorem stripExtension_append_slash (front last : List Char) :
    stripExtension (front ++ '/' :: last) = front ++ '/' :: stripExtension last := by
  rw [stripExtension, stripExtension, findSome?_dropEnd? (by decide)]
  cases extensions.findSome? (dropEnd? · last) with
  | none => rfl
  | some stem =>
    simp only [Option.map_some]
    rw [dropEnd?_append_slash (by decide)]
    cases dropEnd? ['.', 'd'] stem <;> rfl

theorem dropEnd?_initial {ending cs stem : List Char} (found : dropEnd? ending cs = some stem) :
    stem <+: cs := by
  unfold dropEnd? at found
  split at found
  · obtain rfl := Option.some.inj found
    exact List.take_prefix _ cs
  · cases found

theorem stripExtension_initial (cs : List Char) : stripExtension cs <+: cs := by
  unfold stripExtension
  split
  · rename_i stem found
    obtain ⟨ending, -, dropped⟩ := List.exists_of_findSome?_eq_some found
    have outer := dropEnd?_initial dropped
    cases inner : dropEnd? ['.', 'd'] stem with
    | none => exact outer
    | some shorter => exact (dropEnd?_initial inner).trans outer
  · exact List.prefix_rfl

theorem Ordinary.stripExtension {s : Segment} (ordinary : Ordinary s)
    (nonempty : Lexical.stripExtension s ≠ []) (not_dot : Lexical.stripExtension s ≠ dot)
    (not_dotDot : Lexical.stripExtension s ≠ dotDot) : Ordinary (Lexical.stripExtension s) where
  nonempty := nonempty
  not_dot := not_dot
  not_dotDot := not_dotDot
  no_slash slash := ordinary.no_slash ((stripExtension_initial s).subset slash)
  no_backslash backslash := ordinary.no_backslash ((stripExtension_initial s).subset backslash)

theorem ordinary_stem {init : List Segment} {last : Segment}
    (ordinary : ∀ s ∈ init ++ [last], Ordinary s) (stem : Ordinary (Lexical.stripExtension last)) :
    ∀ s ∈ init ++ [Lexical.stripExtension last], Ordinary s :=
  List.forall_mem_append.mpr
    ⟨(List.forall_mem_append.mp ordinary).1, List.forall_mem_singleton.mpr stem⟩

theorem stripExtension_rooted (init : List Segment) (last : Segment) :
    stripExtension (rooted (init ++ [last])) = rooted (init ++ [stripExtension last]) := by
  by_cases top : init = []
  · subst top
    exact stripExtension_append_slash [] last
  · rw [rooted_concat top, rooted_concat top, stripExtension_append_slash]

theorem posix_glue {parts : List Segment} (spelled : ∀ s ∈ parts, '\\' ∉ s) :
    posix (glue parts) = glue parts := by
  apply posix_eq_self
  intro member
  rcases Pieces.mem_glue member with slash | ⟨s, held, inside⟩
  · simp at slash
  · exact spelled s held inside

theorem fileName_glue_concat {init : List Segment} {last : Segment}
    (spelled : ∀ s ∈ init ++ [last], '\\' ∉ s) :
    fileName (glue (init ++ [last])) = glue (init ++ [stripExtension last]) := by
  rw [fileName, posix_glue spelled]
  by_cases top : init = []
  · subst top
    rfl
  · rw [glue, Pieces.glue_concat top, stripExtension_append_slash, glue, Pieces.glue_concat top]

theorem fileName_glue {init : List Segment} {last : Segment}
    (ordinary : ∀ s ∈ init ++ [last], Ordinary s) :
    fileName (glue (init ++ [last])) = glue (init ++ [stripExtension last]) :=
  fileName_glue_concat fun s held => (ordinary s held).no_backslash

end Lexical

end ExportIndex
