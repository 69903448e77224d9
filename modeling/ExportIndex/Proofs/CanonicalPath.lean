import ExportIndex.Path.Basic
import ExportIndex.Proofs.FirstOfEach

/-!
Absolute paths in canonical form. Whatever is joined to an absolute base comes
out in this form, a canonical path is not changed by joining it again, and two
canonical paths that name the same file are the same text.
-/
namespace ExportIndex

namespace Pieces

theorem split_of_notMem {sep : Char} {p : List Char} (inside : sep ∉ p) :
    split (· = sep) p = [p] :=
  split_of_forall fun _ held => decide_eq_false fun same => inside (same ▸ held)

theorem split_append_sep {sep : Char} {p : List Char} (inside : sep ∉ p) (rest : List Char) :
    split (· = sep) (p ++ sep :: rest) = p :: split (· = sep) rest := by
  rw [split_append (decide_eq_true rfl), split_of_notMem inside]
  rfl

theorem split_glue {sep : Char} {parts : List (List Char)} (nonempty : parts ≠ [])
    (inside : ∀ p ∈ parts, sep ∉ p) : split (· = sep) (glue sep parts) = parts := by
  induction parts with
  | nil => contradiction
  | cons p parts ih =>
    have first := inside p List.mem_cons_self
    cases parts with
    | nil => exact split_of_notMem first
    | cons q parts =>
      rw [glue, split_append_sep first,
        ih (List.cons_ne_nil q parts) fun r later => inside r (List.mem_cons_of_mem p later)]

theorem mem_glue {sep c : Char} {parts : List (List Char)} (member : c ∈ glue sep parts) :
    c = sep ∨ ∃ p ∈ parts, c ∈ p := by
  induction parts with
  | nil => simp [glue] at member
  | cons p parts ih =>
    cases parts with
    | nil => exact Or.inr ⟨p, List.mem_cons_self, member⟩
    | cons q parts =>
      rw [glue] at member
      rcases List.mem_append.mp member with here | later
      · exact Or.inr ⟨p, List.mem_cons_self, here⟩
      · rcases List.mem_cons.mp later with same | rest
        · exact Or.inl same
        · rcases ih rest with same | ⟨r, held, inside⟩
          · exact Or.inl same
          · exact Or.inr ⟨r, List.mem_cons_of_mem p held, inside⟩

theorem mem_glue_of_mem {sep c : Char} {p : List Char} {parts : List (List Char)}
    (held : p ∈ parts) (inside : c ∈ p) : c ∈ glue sep parts := by
  induction parts with
  | nil => simp at held
  | cons q parts ih =>
    cases parts with
    | nil =>
      obtain rfl := List.mem_singleton.mp held
      exact inside
    | cons r parts =>
      rw [glue]
      rcases List.mem_cons.mp held with rfl | later
      · exact List.mem_append_left _ inside
      · exact List.mem_append_right _ (List.mem_cons_of_mem sep (ih later))

end Pieces

namespace Lexical

/-- A segment that means nothing but itself. -/
structure Ordinary (s : Segment) : Prop where
  nonempty : s ≠ []
  not_dot : s ≠ dot
  not_dotDot : s ≠ dotDot
  no_slash : '/' ∉ s
  no_backslash : '\\' ∉ s

structure Form.Canonical (f : Form) : Prop where
  anchored : f.anchor ≠ .relative
  letter : ∀ c, f.anchor = .drive c → c.isAlpha = true
  ordinary : ∀ s ∈ f.parts, Ordinary s

theorem segments_cons_slash (cs : List Char) : segments ('/' :: cs) = segments cs := by
  simp [segments, pieces, Pieces.split]

theorem segments_append_slash {p : List Char} (nonempty : p ≠ []) (inside : '/' ∉ p)
    (cs : List Char) : segments (p ++ '/' :: cs) = p :: segments cs := by
  rw [segments, pieces, Pieces.split_append_sep inside]
  simp [nonempty, segments, pieces]

theorem segments_glue_of_whole {parts : List Segment} (whole : ∀ s ∈ parts, s ≠ [] ∧ '/' ∉ s) :
    segments (glue parts) = parts := by
  cases parts with
  | nil => rfl
  | cons s rest =>
    rw [segments, pieces, glue,
      Pieces.split_glue (List.cons_ne_nil s rest) fun p held => (whole p held).2]
    exact List.filter_eq_self.mpr fun p held => by simpa using (whole p held).1

theorem segments_glue {parts : List Segment} (ordinary : ∀ s ∈ parts, Ordinary s) :
    segments (glue parts) = parts :=
  segments_glue_of_whole fun s held => ⟨(ordinary s held).nonempty, (ordinary s held).no_slash⟩

theorem of_mem_segments {cs : List Char} {s : Segment} (member : s ∈ segments cs) :
    s ≠ [] ∧ '/' ∉ s ∧ ∀ c ∈ s, c ∈ cs := by
  obtain ⟨held, nonempty⟩ := List.mem_filter.mp member
  refine ⟨by simpa using nonempty, ?_, ?_⟩
  · intro slash
    simpa using Pieces.sep_not_mem_of_mem_split held '/' slash
  · intro c inside
    have glued : c ∈ Pieces.glue '/' (pieces cs) := Pieces.mem_glue_of_mem held inside
    rwa [pieces, Pieces.glue_split] at glued

theorem posix_eq_self {cs : List Char} (absent : '\\' ∉ cs) : posix cs = cs := by
  refine (List.map_congr_left fun c member => ?_).trans (List.map_id cs)
  have other : c ≠ '\\' := fun same => absent (same ▸ member)
  simp [other]

theorem backslash_notMem_posix (cs : List Char) : '\\' ∉ posix cs := by
  intro member
  obtain ⟨c, _, eq⟩ := List.mem_map.mp member
  split at eq
  · simp at eq
  · contradiction

theorem foldl_push_of_ordinary {parts : List Segment} (ordinary : ∀ s ∈ parts, Ordinary s)
    (kept : List Segment) : parts.foldl (push true) kept = parts.reverse ++ kept := by
  induction parts generalizing kept with
  | nil => rfl
  | cons s parts ih =>
    have first := ordinary s List.mem_cons_self
    have pushed : push true kept s = s :: kept := by
      simp [push, first.not_dot, first.not_dotDot]
    rw [List.foldl_cons, pushed, ih fun r later => ordinary r (List.mem_cons_of_mem s later)]
    simp

theorem resolve_of_ordinary {parts : List Segment} (ordinary : ∀ s ∈ parts, Ordinary s) :
    resolve true parts = parts := by
  simp [resolve, foldl_push_of_ordinary ordinary]

theorem push_ordinary {kept : List Segment} {s : Segment} (before : ∀ t ∈ kept, Ordinary t)
    (new : s ≠ dot → s ≠ dotDot → Ordinary s) : ∀ t ∈ push true kept s, Ordinary t := by
  unfold push
  split
  · exact before
  · rename_i notDot
    split
    · cases kept with
      | nil => simp
      | cons top below =>
        have ordinary := before top List.mem_cons_self
        simp only [ordinary.not_dotDot, ↓reduceIte]
        exact fun t held => before t (List.mem_cons_of_mem top held)
    · rename_i notDotDot
      intro t member
      rcases List.mem_cons.mp member with rfl | held
      · exact new notDot notDotDot
      · exact before t held

theorem foldl_push_ordinary {parts : List Segment}
    (new : ∀ s ∈ parts, s ≠ dot → s ≠ dotDot → Ordinary s) {kept : List Segment}
    (before : ∀ t ∈ kept, Ordinary t) : ∀ t ∈ parts.foldl (push true) kept, Ordinary t := by
  induction parts generalizing kept with
  | nil => exact before
  | cons s parts ih =>
    exact ih (fun r later => new r (List.mem_cons_of_mem s later))
      (push_ordinary before (new s List.mem_cons_self))

theorem resolve_ordinary {parts : List Segment}
    (new : ∀ s ∈ parts, s ≠ dot → s ≠ dotDot → Ordinary s) :
    ∀ s ∈ resolve true parts, Ordinary s := by
  intro s member
  refine foldl_push_ordinary new (fun _ held => absurd held List.not_mem_nil) s ?_
  simpa [resolve] using member

theorem mem_of_mem_anchor {cs : List Char} {c : Char} (member : c ∈ (anchor cs).2) : c ∈ cs := by
  unfold anchor at member
  split at member
  · exact List.mem_cons_of_mem _ member
  · split at member
    · exact List.mem_cons_of_mem _ (List.mem_cons_of_mem _ member)
    · exact member
  · exact member

theorem isAlpha_of_anchor {cs : List Char} {c : Char} (found : (anchor cs).1 = .drive c) :
    c.isAlpha = true := by
  unfold anchor at found
  split at found
  · simp at found
  · split at found
    · rename_i letter
      obtain rfl : _ = c := by simpa using found
      exact letter
    · simp at found
  · simp at found

theorem anchor_drive {c : Char} (letter : c.isAlpha = true) (cs : List Char) :
    anchor (c :: ':' :: cs) = (.drive c, cs) := by
  unfold anchor
  split
  · rename_i same
    obtain ⟨rfl, -⟩ := List.cons.inj same
    simp at letter
  · rename_i same
    obtain ⟨rfl, tails⟩ := List.cons.inj same
    obtain ⟨-, rfl⟩ := List.cons.inj tails
    rw [if_pos letter]
  · rename_i other
    exact absurd rfl (other c cs)

theorem ofText_canonical {cs : List Char} (absolute : isAbsolute (posix cs) = true) :
    (Form.ofText cs).Canonical where
  anchored := by
    change (anchor (posix cs)).1 ≠ .relative
    simpa [isAbsolute] using absolute
  letter c found := isAlpha_of_anchor found
  ordinary := by
    have anchored : decide ((anchor (posix cs)).1 ≠ .relative) = true := absolute
    intro s member
    change s ∈ resolve (decide ((anchor (posix cs)).1 ≠ .relative))
      (segments (anchor (posix cs)).2) at member
    rw [anchored] at member
    refine resolve_ordinary (fun t held notDot notDotDot => ?_) s member
    obtain ⟨nonempty, slash, chars⟩ := of_mem_segments held
    refine ⟨nonempty, notDot, notDotDot, slash, fun backslash => ?_⟩
    exact backslash_notMem_posix cs (mem_of_mem_anchor (chars _ backslash))

theorem Form.Canonical.text_eq {f : Form} (canonical : f.Canonical) :
    f.text = f.anchor.text ++ glue f.parts := by
  simp [Form.text, canonical.anchored]

theorem Form.Canonical.anchor_text {f : Form} (canonical : f.Canonical) :
    ∃ rest, Lexical.anchor f.text = (f.anchor, rest) ∧ segments rest = f.parts := by
  rw [canonical.text_eq]
  cases kind : f.anchor with
  | relative => exact absurd kind canonical.anchored
  | root => exact ⟨glue f.parts, rfl, segments_glue canonical.ordinary⟩
  | drive c =>
    have letter := canonical.letter c kind
    refine ⟨'/' :: glue f.parts, ?_, ?_⟩
    · exact anchor_drive letter _
    · rw [segments_cons_slash, segments_glue canonical.ordinary]

theorem Form.Canonical.posix_text {f : Form} (canonical : f.Canonical) :
    posix f.text = f.text := by
  apply posix_eq_self
  intro member
  rw [canonical.text_eq] at member
  rcases List.mem_append.mp member with inAnchor | inParts
  · cases kind : f.anchor with
    | relative => exact canonical.anchored kind
    | root => simp [kind, Anchor.text] at inAnchor
    | drive c =>
      have letter := canonical.letter c kind
      rw [kind] at inAnchor
      simp only [Anchor.text, List.mem_cons, List.not_mem_nil, or_false] at inAnchor
      rcases inAnchor with rfl | colon | slash
      · simp at letter
      · simp at colon
      · simp at slash
  · rcases Pieces.mem_glue inParts with slash | ⟨p, held, inside⟩
    · simp at slash
    · exact (canonical.ordinary p held).no_backslash inside

theorem Form.Canonical.ofText_text {f : Form} (canonical : f.Canonical) :
    Form.ofText f.text = f := by
  obtain ⟨rest, found, parts⟩ := canonical.anchor_text
  have anchored : decide (f.anchor ≠ .relative) = true := by simpa using canonical.anchored
  unfold Form.ofText
  rw [canonical.posix_text, found]
  dsimp only
  rw [parts, anchored, resolve_of_ordinary canonical.ordinary]

theorem Form.Canonical.isAbsolute_text {f : Form} (canonical : f.Canonical) :
    isAbsolute f.text = true := by
  obtain ⟨rest, found, _⟩ := canonical.anchor_text
  rw [isAbsolute, found]
  simpa using canonical.anchored

theorem isAbsolute_posix_append {base : List Char} (absolute : isAbsolute base = true)
    (rest : List Char) : isAbsolute (posix base ++ rest) = true := by
  unfold isAbsolute anchor at absolute
  split at absolute
  · simp [posix, isAbsolute, anchor]
  · rename_i c cs _
    split at absolute
    · rename_i letter
      have backslash : c ≠ '\\' := by
        rintro rfl
        simp at letter
      simp [posix, isAbsolute, anchor, letter, backslash]
    · simp at absolute
  · simp at absolute

theorem join_canonical {base : List Char} (absolute : isAbsolute base = true)
    (path : List Char) : ∃ f : Form, f.Canonical ∧ join base path = f.text := by
  unfold join
  split
  · rename_i own
    exact ⟨_, ofText_canonical own, rfl⟩
  · refine ⟨_, ofText_canonical ?_, rfl⟩
    have spelled : posix (posix base ++ '/' :: posix path) = posix base ++ '/' :: posix path := by
      apply posix_eq_self
      intro member
      rcases List.mem_append.mp member with here | there
      · exact backslash_notMem_posix base here
      · rcases List.mem_cons.mp there with slash | there
        · simp at slash
        · exact backslash_notMem_posix path there
    rw [spelled]
    exact isAbsolute_posix_append absolute _

theorem Form.Canonical.join_text {f : Form} (canonical : f.Canonical) (base : List Char) :
    join base f.text = f.text := by
  rw [join, canonical.posix_text, if_pos canonical.isAbsolute_text, normalize,
    canonical.ofText_text]

theorem significant_of_ordinary {parts : List Segment} (ordinary : ∀ s ∈ parts, Ordinary s) :
    parts.filter (· ≠ dot) = parts :=
  List.filter_eq_self.mpr fun s held => by simpa using (ordinary s held).not_dot

theorem Form.Canonical.identity_root {f : Form} (canonical : f.Canonical)
    (root : f.anchor = .root) : PathIdentity.ofChars f.text = ⟨true, f.parts⟩ := by
  rw [canonical.text_eq, root]
  simp only [Anchor.text, List.cons_append, List.nil_append, PathIdentity.ofChars,
    PathIdentity.isRooted, segments_cons_slash, segments_glue canonical.ordinary,
    PathIdentity.significant, significant_of_ordinary canonical.ordinary]

theorem Form.Canonical.identity_drive {f : Form} (canonical : f.Canonical) {c : Char}
    (drive : f.anchor = .drive c) :
    PathIdentity.ofChars f.text = ⟨false, [c, ':'] :: f.parts⟩ := by
  have letter := canonical.letter c drive
  have other : c ≠ '/' := by
    rintro rfl
    simp at letter
  have rooted : PathIdentity.isRooted (c :: ':' :: '/' :: glue f.parts) = false := by
    simp [PathIdentity.isRooted, other]
  have parts : segments (c :: ':' :: '/' :: glue f.parts) = [c, ':'] :: f.parts := by
    have cut := segments_append_slash (p := [c, ':']) (by simp) (by simp [Ne.symm other])
      (glue f.parts)
    rwa [segments_glue canonical.ordinary] at cut
  rw [canonical.text_eq, drive]
  simp only [Anchor.text, List.cons_append, List.nil_append, PathIdentity.ofChars, rooted, parts,
    PathIdentity.significant, significant_of_ordinary canonical.ordinary]

theorem Form.Canonical.eq_of_identity {f g : Form} (first : f.Canonical) (second : g.Canonical)
    (same : PathIdentity.ofChars f.text = PathIdentity.ofChars g.text) : f = g := by
  obtain ⟨a, parts⟩ := f
  obtain ⟨b, others⟩ := g
  cases a with
  | relative => exact absurd rfl first.anchored
  | root =>
    cases b with
    | relative => exact absurd rfl second.anchored
    | root =>
      rw [first.identity_root rfl, second.identity_root rfl] at same
      simpa using same
    | drive d =>
      rw [first.identity_root rfl, second.identity_drive rfl] at same
      simp at same
  | drive c =>
    cases b with
    | relative => exact absurd rfl second.anchored
    | root =>
      rw [first.identity_drive rfl, second.identity_root rfl] at same
      simp at same
    | drive d =>
      rw [first.identity_drive rfl, second.identity_drive rfl] at same
      simpa using same

end Lexical

def Path.IsCanonical (path : String) : Prop :=
  ∃ f : Lexical.Form, f.Canonical ∧ path.toList = f.text

namespace Path

theorem join_isCanonical {base : String} (absolute : isAbsolute base = true) (path : String) :
    IsCanonical (join base path) := by
  obtain ⟨f, canonical, eq⟩ := Lexical.join_canonical absolute path.toList
  exact ⟨f, canonical, by rw [toList_join, eq]⟩

theorem IsCanonical.join_eq {path : String} (canonical : IsCanonical path) (base : String) :
    join base path = path := by
  obtain ⟨f, form, eq⟩ := canonical
  rw [← String.toList_inj, toList_join, eq, form.join_text]

theorem IsCanonical.eq_of_sameFile {p q : String} (first : IsCanonical p)
    (second : IsCanonical q) (same : SameFile p q) : p = q := by
  obtain ⟨f, formOfP, ofP⟩ := first
  obtain ⟨g, formOfQ, ofQ⟩ := second
  unfold SameFile PathIdentity.ofText at same
  rw [ofP, ofQ] at same
  rw [← String.toList_inj, ofP, ofQ, formOfP.eq_of_identity formOfQ same]

theorem distinctFiles_of_canonical {paths : List String} (canonical : ∀ p ∈ paths, IsCanonical p) :
    distinctFiles paths = paths.eraseDups := by
  rw [distinctFiles_eq, List.eraseDups]
  apply FirstOfEach.eraseDupsBy_congr
  intro p here q also
  apply Bool.eq_iff_iff.mpr
  rw [decide_eq_true_iff, beq_iff_eq]
  constructor
  · exact (canonical p here).eq_of_sameFile (canonical q also)
  · rintro rfl
    exact SameFile.refl p

theorem mem_distinctFiles {paths : List String} (canonical : ∀ p ∈ paths, IsCanonical p)
    (p : String) : p ∈ distinctFiles paths ↔ p ∈ paths := by
  rw [distinctFiles_of_canonical canonical, List.mem_eraseDups]

end Path

end ExportIndex
