/-!
Cutting a text at its separators and putting pieces together again. The pieces
of a text are what stands between two separators, empty pieces included, so
there is always one more piece than separators.
-/
namespace ExportIndex.Pieces

def split (sep : Char → Bool) : List Char → List (List Char)
  | [] => [[]]
  | c :: cs =>
    if sep c then [] :: split sep cs
    else match split sep cs with
      | [] => [[c]]
      | p :: ps => (c :: p) :: ps

def glue (sep : Char) : List (List Char) → List Char
  | [] => []
  | [p] => p
  | p :: q :: ps => p ++ sep :: glue sep (q :: ps)

theorem split_ne_nil (sep : Char → Bool) (cs : List Char) : split sep cs ≠ [] := by
  cases cs with
  | nil => simp [split]
  | cons c cs =>
    simp only [split]
    split
    · simp
    · split <;> simp

theorem split_append {sep : Char → Bool} {b : Char} (here : sep b = true) (cs rest : List Char) :
    split sep (cs ++ b :: rest) = split sep cs ++ split sep rest := by
  induction cs with
  | nil => simp [split, here]
  | cons c cs ih =>
    rw [List.cons_append, split, split, ih]
    cases sep c with
    | true => rfl
    | false =>
      cases front : split sep cs with
      | nil => exact absurd front (split_ne_nil sep cs)
      | cons p ps => rfl

theorem split_of_forall {sep : Char → Bool} {p : List Char} (inside : ∀ c ∈ p, sep c = false) :
    split sep p = [p] := by
  induction p with
  | nil => rfl
  | cons c p ih =>
    obtain ⟨first, others⟩ := List.forall_mem_cons.mp inside
    rw [split, first, ih others]
    rfl

theorem glue_cons (sep : Char) (p : List Char) {ps : List (List Char)} (h : ps ≠ []) :
    glue sep (p :: ps) = p ++ sep :: glue sep ps := by
  cases ps with
  | nil => contradiction
  | cons q ps => rfl

theorem glue_split (sep : Char) (cs : List Char) :
    glue sep (split (· = sep) cs) = cs := by
  induction cs with
  | nil => rfl
  | cons c cs ih =>
    by_cases h : c = sep
    · simp [split, h, glue_cons sep [] (split_ne_nil (· = sep) cs), ih]
    · cases rest : split (· = sep) cs with
      | nil => exact absurd rest (split_ne_nil _ cs)
      | cons p ps =>
        rw [rest] at ih
        cases ps with
        | nil => simp_all [split, glue]
        | cons q ps => simp_all [split, glue]

theorem sep_not_mem_of_mem_split {sep : Char → Bool} {cs p : List Char}
    (h : p ∈ split sep cs) : ∀ c ∈ p, sep c = false := by
  induction cs generalizing p with
  | nil => simp_all [split]
  | cons c cs ih =>
    simp only [split] at h
    split at h
    · rcases List.mem_cons.mp h with empty | later
      · simp [empty]
      · exact ih later
    · rename_i keep
      cases rest : split sep cs with
      | nil => exact absurd rest (split_ne_nil sep cs)
      | cons q qs =>
        rw [rest] at h
        rcases List.mem_cons.mp h with first | later
        · subst first
          intro d member
          rcases List.mem_cons.mp member with eq | tail
          · simpa [eq] using keep
          · exact ih (rest ▸ List.mem_cons_self) d tail
        · exact ih (rest ▸ List.mem_cons_of_mem q later)

end ExportIndex.Pieces
