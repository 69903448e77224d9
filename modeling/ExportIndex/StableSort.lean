/-!
Sorting that leaves elements of equal rank in the order in which they came.
Each element is put in front of the first one that it may precede.
-/
namespace ExportIndex.StableSort

variable {α : Type}

def place (le : α → α → Bool) (x : α) : List α → List α
  | [] => [x]
  | y :: ys => if le x y then x :: y :: ys else y :: place le x ys

def sort (le : α → α → Bool) : List α → List α
  | [] => []
  | x :: xs => place le x (sort le xs)

theorem place_perm (le : α → α → Bool) (x : α) (ys : List α) : (place le x ys).Perm (x :: ys) := by
  induction ys with
  | nil => exact List.Perm.refl _
  | cons y ys ih =>
    simp only [place]
    split
    · exact List.Perm.refl _
    · exact (ih.cons y).trans (List.Perm.swap x y ys)

theorem sort_perm (le : α → α → Bool) (xs : List α) : (sort le xs).Perm xs := by
  induction xs with
  | nil => exact List.Perm.refl _
  | cons x xs ih => exact (place_perm le x _).trans (ih.cons x)

theorem place_pairwise {le : α → α → Bool} (total : ∀ a b, le a b || le b a)
    (trans : ∀ a b c, le a b → le b c → le a c) (x : α) {ys : List α}
    (sorted : ys.Pairwise fun a b => le a b) : (place le x ys).Pairwise fun a b => le a b := by
  induction ys with
  | nil => simp [place]
  | cons y ys ih =>
    obtain ⟨head, tail⟩ := List.pairwise_cons.mp sorted
    simp only [place]
    split
    · rename_i first
      refine List.pairwise_cons.mpr ⟨?_, sorted⟩
      intro b member
      rcases List.mem_cons.mp member with eq | later
      · exact eq ▸ first
      · exact trans x y b first (head b later)
    · rename_i second
      have below : le y x := by simpa [second] using total x y
      refine List.pairwise_cons.mpr ⟨?_, ih tail⟩
      intro b member
      rcases List.mem_cons.mp ((place_perm le x ys).mem_iff.mp member) with eq | later
      · exact eq ▸ below
      · exact head b later

theorem sort_pairwise {le : α → α → Bool} (total : ∀ a b, le a b || le b a)
    (trans : ∀ a b c, le a b → le b c → le a c) (xs : List α) :
    (sort le xs).Pairwise fun a b => le a b := by
  induction xs with
  | nil => exact List.Pairwise.nil
  | cons x xs ih => exact place_pairwise total trans x ih

theorem filter_place (le : α → α → Bool) {p : α → Bool} {x : α} {ys : List α}
    (first : p x → ∀ y ∈ ys, p y → le x y) :
    (place le x ys).filter p = (x :: ys).filter p := by
  induction ys with
  | nil => rfl
  | cons y ys ih =>
    have rest := ih fun hx z member => first hx z (List.mem_cons_of_mem y member)
    simp only [place]
    split
    · rfl
    · rename_i behind
      by_cases hx : p x
      · have skipped : p y = false := by
          by_cases hy : p y
          · exact absurd (first hx y List.mem_cons_self hy) behind
          · simpa using hy
        simpa [skipped, hx] using rest
      · by_cases hy : p y
        · simp [hx, hy] at rest ⊢
          exact rest
        · simpa [hx, hy] using rest

theorem filter_sort (le : α → α → Bool) {p : α → Bool} (equal : ∀ a b, p a → p b → le a b)
    (xs : List α) : (sort le xs).filter p = xs.filter p := by
  induction xs with
  | nil => rfl
  | cons x xs ih =>
    rw [sort, filter_place le fun hx y _ hy => equal x y hx hy, List.filter_cons, ih,
      List.filter_cons]

end ExportIndex.StableSort
