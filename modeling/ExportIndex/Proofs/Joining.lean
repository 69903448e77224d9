import ExportIndex.Proofs.TargetKeys

/-!
Joining below an absolute base. The texts of the base and of the path are put
together and read again; what comes out is the canonical path that goes on from
the base along the segments of the path, so joining twice is joining once along
both. From a base at the root, the way to another path at the root goes up past
what the two do not share and then down, and following it leads to that path.
-/
namespace ExportIndex

namespace Lexical

def Form.onward (f : Form) (way : List Segment) : Form := ⟨f.anchor, resolve true (f.parts ++ way)⟩

/-- What a path means as seen from an absolute base. -/
def Form.seenFrom (base path : List Char) : Form :=
  if isAbsolute (posix path) then .ofText path
  else (Form.ofText base).onward (segments (posix path))

theorem posix_posix (cs : List Char) : posix (posix cs) = posix cs :=
  posix_eq_self (backslash_notMem_posix cs)

theorem posix_append_slash (cs rest : List Char) :
    posix (cs ++ '/' :: rest) = posix cs ++ '/' :: posix rest := by
  simp [posix]

theorem segments_append_sep (cs rest : List Char) :
    segments (cs ++ '/' :: rest) = segments cs ++ segments rest := by
  rw [segments, pieces, Pieces.split_append (decide_eq_true rfl), List.filter_append]
  rfl

theorem ordinary_of_mem_segments {cs : List Char} (spelled : '\\' ∉ cs) {s : Segment}
    (held : s ∈ segments cs) (not_dot : s ≠ dot) (not_dotDot : s ≠ dotDot) : Ordinary s := by
  obtain ⟨nonempty, slash, chars⟩ := of_mem_segments held
  exact ⟨nonempty, not_dot, not_dotDot, slash, fun backslash => spelled (chars _ backslash)⟩

theorem ordinary_of_mem_posix (cs : List Char) :
    ∀ s ∈ segments (posix cs), s ≠ dot → s ≠ dotDot → Ordinary s := fun _ =>
  ordinary_of_mem_segments (backslash_notMem_posix cs)

theorem anchor_append_slash {cs : List Char} (nonempty : cs ≠ []) (rest : List Char) :
    anchor (cs ++ '/' :: rest) = ((anchor cs).1, (anchor cs).2 ++ '/' :: rest) := by
  match cs with
  | [c] =>
    by_cases root : c = '/'
    · subst root
      rfl
    · simp [anchor, root]
  | c :: d :: cs =>
    by_cases root : c = '/'
    · subst root
      rfl
    · by_cases colon : d = ':'
      · subst colon
        by_cases letter : c.isAlpha = true
        · simp only [List.cons_append, anchor_drive letter]
        · simp [anchor, letter]
      · simp [anchor, root, colon]

theorem isAbsolute_append_slash {cs : List Char} (nonempty : cs ≠ []) (rest : List Char) :
    isAbsolute (cs ++ '/' :: rest) = isAbsolute cs := by
  rw [isAbsolute, isAbsolute, anchor_append_slash nonempty]

theorem ne_nil_of_isAbsolute {cs : List Char} (absolute : isAbsolute cs = true) : cs ≠ [] := by
  rintro rfl
  simp [isAbsolute, anchor] at absolute

theorem resolve_append {parts : List Segment}
    (new : ∀ s ∈ parts, s ≠ dot → s ≠ dotDot → Ordinary s) (rest : List Segment) :
    resolve true (resolve true parts ++ rest) = resolve true (parts ++ rest) := by
  have again : (resolve true parts).foldl (push true) [] = parts.foldl (push true) [] := by
    rw [foldl_push_of_ordinary (resolve_ordinary new), List.append_nil, resolve,
      List.reverse_reverse]
  rw [resolve, List.foldl_append, again, ← List.foldl_append, ← resolve]

namespace Form.Canonical

variable {f : Form} (canonical : f.Canonical) {way : List Segment}
  (new : ∀ s ∈ way, s ≠ dot → s ≠ dotDot → Ordinary s)

include canonical new

theorem ordinary_append : ∀ s ∈ f.parts ++ way, s ≠ dot → s ≠ dotDot → Ordinary s := by
  intro s held notDot notDotDot
  rcases List.mem_append.mp held with before | after
  · exact canonical.ordinary s before
  · exact new s after notDot notDotDot

theorem onward : (f.onward way).Canonical where
  anchored := canonical.anchored
  letter := canonical.letter
  ordinary := resolve_ordinary (canonical.ordinary_append new)

theorem onward_onward (further : List Segment) :
    (f.onward way).onward further = f.onward (way ++ further) := by
  rw [Form.onward, Form.onward, Form.onward, resolve_append (canonical.ordinary_append new),
    List.append_assoc]

end Form.Canonical

theorem ofText_append_slash {base : List Char} (absolute : isAbsolute (posix base) = true)
    (path : List Char) :
    Form.ofText (posix base ++ '/' :: posix path) =
      (Form.ofText base).onward (segments (posix path)) := by
  have anchored : decide ((anchor (posix base)).1 ≠ .relative) = true := absolute
  have spelled : '\\' ∉ (anchor (posix base)).2 := fun backslash =>
    backslash_notMem_posix base (mem_of_mem_anchor backslash)
  have parts := resolve_append (fun _ => ordinary_of_mem_segments spelled)
    (segments (posix path))
  simp only [Form.ofText, Form.onward, posix_append_slash, posix_posix,
    anchor_append_slash (ne_nil_of_isAbsolute absolute), anchored, segments_append_sep, parts]

theorem join_eq_seenFrom {base : List Char} (absolute : isAbsolute (posix base) = true)
    (path : List Char) : join base path = (Form.seenFrom base path).text := by
  unfold join Form.seenFrom
  split
  · rfl
  · rw [normalize, ofText_append_slash absolute]

theorem seenFrom_canonical {base : List Char} (absolute : isAbsolute (posix base) = true)
    (path : List Char) : (Form.seenFrom base path).Canonical := by
  unfold Form.seenFrom
  split
  · rename_i own
    exact ofText_canonical own
  · exact (ofText_canonical absolute).onward (ordinary_of_mem_posix path)

theorem seenFrom_of_unanchored {path : List Char} (unanchored : isAbsolute (posix path) = false)
    (base : List Char) :
    Form.seenFrom base path = (Form.ofText base).onward (segments (posix path)) :=
  if_neg (Bool.eq_false_iff.mp unanchored)

theorem join_join {base : List Char} (absolute : isAbsolute (posix base) = true)
    {first second : List Char} (nonempty : first ≠ [])
    (unanchored : isAbsolute (posix first) = false)
    (also : isAbsolute (posix second) = false) :
    join (join base first) second = join base (first ++ '/' :: second) := by
  have canonical := seenFrom_canonical absolute first
  have again : isAbsolute (posix (Form.seenFrom base first).text) = true := by
    rw [canonical.posix_text, canonical.isAbsolute_text]
  have whole : isAbsolute (posix (first ++ '/' :: second)) = false := by
    have kept : posix first ≠ [] := by simpa [posix] using nonempty
    rw [posix_append_slash, isAbsolute_append_slash kept, unanchored]
  calc join (join base first) second
      = ((Form.seenFrom base first).onward (segments (posix second))).text := by
        rw [join_eq_seenFrom absolute, join_eq_seenFrom again, seenFrom_of_unanchored also,
          canonical.ofText_text]
    _ = ((Form.ofText base).onward (segments (posix first) ++ segments (posix second))).text := by
        rw [seenFrom_of_unanchored unanchored,
          (ofText_canonical absolute).onward_onward (ordinary_of_mem_posix first)]
    _ = join base (first ++ '/' :: second) := by
        rw [join_eq_seenFrom absolute, seenFrom_of_unanchored whole, posix_append_slash,
          segments_append_sep]

theorem join_normalize {base : List Char} (absolute : isAbsolute (posix base) = true)
    (path : List Char) : join (normalize base) path = join base path := by
  have canonical := ofText_canonical absolute
  have again : isAbsolute (posix (normalize base)) = true := by
    rw [normalize, canonical.posix_text, canonical.isAbsolute_text]
  have same : Form.ofText (normalize base) = Form.ofText base := canonical.ofText_text
  rw [join_eq_seenFrom again, join_eq_seenFrom absolute, Form.seenFrom, Form.seenFrom, same]

theorem dropCommon_heads (up down : List Segment) (s : Segment) :
    (dropCommon up down).1.head? = some s → (dropCommon up down).2.head? ≠ some s := by
  induction up generalizing down with
  | nil => simp [dropCommon]
  | cons a up ih =>
    cases down with
    | nil => simp [dropCommon]
    | cons b down =>
      by_cases same : a = b
      · simpa [dropCommon, same] using ih down
      · simp only [dropCommon, same, ↓reduceIte, List.head?_cons, Option.some.injEq, ne_eq]
        rintro rfl
        exact Ne.symm same

theorem dropCommon_longest (up down : List Segment) :
    ∃ common, up = common ++ (dropCommon up down).1 ∧ down = common ++ (dropCommon up down).2 ∧
      ∀ shared, shared <+: up → shared <+: down → shared <+: common := by
  obtain ⟨common, above, below⟩ := dropCommon_spec up down
  refine ⟨common, above, below, fun shared first second => ?_⟩
  rw [above] at first
  rw [below] at second
  rcases List.prefix_or_prefix_of_prefix first (List.prefix_append common _) with
    within | ⟨more, longer⟩
  · exact within
  · subst longer
    rw [List.prefix_append_right_inj] at first second
    cases more with
    | nil => simp
    | cons s more =>
      -- a longer beginning would leave the same segment in front of both lists
      obtain ⟨_, left⟩ := first
      obtain ⟨_, right⟩ := second
      have differ := dropCommon_heads up down s
      rw [← left, ← right] at differ
      exact absurd rfl (differ rfl)

section Ways

variable {root path : List Char} {base parts : List Segment}
  (first : ∀ s ∈ base, Ordinary s) (second : ∀ s ∈ parts, Ordinary s)
  (rootText : normalize root = rooted base) (pathText : normalize path = rooted parts)

include first second rootText pathText

theorem relative_text : relative root path = relative (rooted base) (rooted parts) := by
  rw [relative, relative, rootText, pathText, normalize_rooted first, normalize_rooted second]

theorem join_relative_text (absolute : isAbsolute (posix root) = true) :
    join root ('.' :: '/' :: relative root path) = normalize path := by
  rw [← join_normalize absolute, relative_text first second rootText pathText, rootText, pathText,
    join_relative first second]

theorem exists_way :
    ∃ common up down, base = common ++ up ∧ parts = common ++ down ∧
      (∀ shared, shared <+: base → shared <+: parts → shared <+: common) ∧
      relative root path = glue (List.replicate up.length dotDot ++ down) ∧
      segments (relative root path) = List.replicate up.length dotDot ++ down ∧
      ∀ s ∈ down, Ordinary s := by
  obtain ⟨common, above, below, longest⟩ := dropCommon_longest base parts
  have onward : ∀ s ∈ (dropCommon base parts).2, Ordinary s := fun s held =>
    second s (below ▸ List.mem_append_right common held)
  have way := relative_text first second rootText pathText
  rw [relative_rooted first second] at way
  refine ⟨common, _, _, above, below, longest, ?_, ?_, onward⟩
  · rw [way, List.map_const']
  · rw [way, segments_way onward, List.map_const']

end Ways

end Lexical

namespace Path

open Lexical

/-- Below an absolute base every path is absolute and in canonical form: it is the path that goes
on from the base along the segments written, or the one written if that is absolute. Such a path
stays what it is, and joining one way after another is joining the two written one behind the
other. -/
theorem join_goes_on {base : String} (absolute : isAbsolute (posix base) = true) :
    (∀ path : String,
      isAbsolute (join base path) = true ∧ '\\' ∉ (join base path).toList ∧
      IsCanonical (join base path) ∧
      Form.ofText (join base path).toList = Form.seenFrom base.toList path.toList ∧
      normalize (join base path) = join base path ∧
      ∀ other : String, join other (join base path) = join base path) ∧
    ∀ first second : String, first ≠ "" → isAbsolute (posix first) = false →
      isAbsolute (posix second) = false →
      join (join base first) second = join base (first ++ "/" ++ second) := by
  have anchored : Lexical.isAbsolute (Lexical.posix base.toList) = true := by
    simpa [isAbsolute, posix] using absolute
  constructor
  · intro path
    have canonical := seenFrom_canonical anchored path.toList
    have text : (join base path).toList = (Form.seenFrom base.toList path.toList).text := by
      rw [toList_join, join_eq_seenFrom anchored]
    have settled : IsCanonical (join base path) := ⟨_, canonical, text⟩
    refine ⟨?_, ?_, settled, ?_, ?_, settled.join_eq⟩
    · rw [isAbsolute, text, canonical.isAbsolute_text]
    · rw [text, ← canonical.posix_text]
      exact backslash_notMem_posix _
    · rw [text, canonical.ofText_text]
    · rw [← String.toList_inj, normalize, toList_lift, text, Lexical.normalize,
        canonical.ofText_text]
  · intro first second nonempty unanchored also
    have written : first.toList ≠ [] := by simpa using nonempty
    have slash : "/".toList = ['/'] := by decide
    rw [← String.toList_inj, toList_join, toList_join, toList_join, String.toList_append,
      String.toList_append, slash, List.append_assoc, List.singleton_append]
    exact join_join anchored written (by simpa [isAbsolute, posix] using unanchored)
      (by simpa [isAbsolute, posix] using also)

theorem driveBase_goes_on :
    isAbsolute (posix "C:\\ws\\src") = true ∧
    join "C:\\ws\\src" "..\\lib//./x" = "C:/ws/lib/x" ∧
    IsCanonical (join "C:\\ws\\src" "..\\lib//./x") ∧
    join "/other" (join "C:\\ws\\src" "..\\lib//./x") = join "C:\\ws\\src" "..\\lib//./x" ∧
    join "C:\\ws\\src" "../../.." = "C:/" ∧
    join (join "C:\\ws\\src" "../../..") "lib" =
      join "C:\\ws\\src" ("../../.." ++ "/" ++ "lib") := by
  have absolute : isAbsolute (posix "C:\\ws\\src") = true := by decide +kernel
  obtain ⟨settled, composes⟩ := join_goes_on absolute
  obtain ⟨-, -, canonical, -, -, stays⟩ := settled "..\\lib//./x"
  refine ⟨absolute, by decide +kernel, canonical, stays "/other", by decide +kernel, ?_⟩
  exact composes "../../.." "lib" (by simp) (by decide +kernel) (by decide +kernel)

theorem segments_normalize {path : String} {parts : List Segment}
    (ordinary : ∀ s ∈ parts, Ordinary s) (text : Lexical.normalize path.toList = rooted parts) :
    segments (normalize path) = parts.map String.ofList := by
  rw [segments, normalize, toList_lift, text, segments_rooted ordinary]

theorem prefix_map_ofList_iff (shared : List String) (parts : List Segment) :
    shared <+: parts.map String.ofList ↔ shared.map String.toList <+: parts := by
  constructor
  · intro begins
    simpa [Function.comp_def] using begins.map String.toList
  · intro begins
    simpa [Function.comp_def] using begins.map String.ofList

/-- The way from one path at the root to another leads there. It goes up once for each segment of
the first that is beyond the longest beginning the two share, and then down without going up
again. -/
theorem relative_leads_there {root path : String} (first : IsRooted root) (second : IsRooted path) :
    join root ("./" ++ relative root path) = normalize path ∧
    ∃ common up down : List String,
      segments (normalize root) = common ++ up ∧ segments (normalize path) = common ++ down ∧
      (∀ shared : List String, shared <+: segments (normalize root) →
        shared <+: segments (normalize path) → shared <+: common) ∧
      relative root path =
        String.ofList (glue ((List.replicate up.length ".." ++ down).map String.toList)) ∧
      segments (relative root path) = List.replicate up.length ".." ++ down ∧ ".." ∉ down := by
  obtain ⟨base, above, rootText⟩ := exists_rooted_normalize first
  obtain ⟨parts, below, pathText⟩ := exists_rooted_normalize second
  constructor
  · have dotSlash : "./".toList = ['.', '/'] := by decide
    rw [← String.toList_inj, toList_join, String.toList_append, dotSlash, toList_relative,
      normalize, toList_lift, List.cons_append, List.cons_append, List.nil_append]
    exact join_relative_text above below rootText pathText (isAbsolute_of_root first)
  · obtain ⟨common, up, down, rootCut, pathCut, longest, way, whole, onward⟩ :=
      exists_way above below rootText pathText
    have rootParts := segments_normalize above rootText
    have pathParts := segments_normalize below pathText
    have dots : "..".toList = dotDot := by decide
    refine ⟨common.map String.ofList, up.map String.ofList, down.map String.ofList, ?_, ?_, ?_, ?_,
      ?_, ?_⟩
    · rw [rootParts, rootCut, List.map_append]
    · rw [pathParts, pathCut, List.map_append]
    · intro shared ofRoot ofPath
      rw [rootParts, prefix_map_ofList_iff] at ofRoot
      rw [pathParts, prefix_map_ofList_iff] at ofPath
      exact (prefix_map_ofList_iff shared common).mpr (longest _ ofRoot ofPath)
    · simp [relative, way, dots, Function.comp_def]
    · simp [segments, whole, ← dots]
    · intro back
      obtain ⟨s, held, text⟩ := List.mem_map.mp back
      refine (onward s held).not_dotDot ?_
      rw [← dots, ← text, String.toList_ofList]

theorem besideLibrary_leads_there :
    IsRooted "/ws//app/./web" ∧ IsRooted "/ws/lib\\x/../b.ts" ∧
    relative "/ws//app/./web" "/ws/lib\\x/../b.ts" = "../../lib/b.ts" ∧
    normalize "/ws/lib\\x/../b.ts" = "/ws/lib/b.ts" ∧
    join "/ws//app/./web" ("./" ++ relative "/ws//app/./web" "/ws/lib\\x/../b.ts") =
      normalize "/ws/lib\\x/../b.ts" := by
  have first : IsRooted "/ws//app/./web" := by decide +kernel
  have second : IsRooted "/ws/lib\\x/../b.ts" := by decide +kernel
  exact ⟨first, second, by decide +kernel, by decide +kernel, (relative_leads_there first second).1⟩

end Path

end ExportIndex
