import ExportIndex.Path.Identity
import Mathlib.Data.List.Dedup
import Mathlib.Data.List.Induction

/-!
Lists in which only the first of every group of repetitions is kept. Whoever
collects such a list goes through the elements once and leaves out what repeats
something already kept; read from the end, this is one equation, and everything
else follows from it. The mirror image, which keeps the last of each, comes up
where a repeated element is taken out of the list before it is put at the end.
-/
namespace ExportIndex.FirstOfEach

variable {α : Type}

section Repeats

variable (r : α → α → Bool)

theorem loop_concat (xs kept : List α) (x : α) :
    List.eraseDupsBy.loop r (xs ++ [x]) kept =
      if (List.eraseDupsBy.loop r xs kept).any (r x) then List.eraseDupsBy.loop r xs kept
      else List.eraseDupsBy.loop r xs kept ++ [x] := by
  induction xs generalizing kept with
  | nil =>
    simp only [List.nil_append, List.eraseDupsBy.loop, List.any_reverse]
    cases kept.any (r x) with
    | true => simp
    | false => simp
  | cons y xs ih =>
    cases known : kept.any (r y) with
    | true =>
      simp only [List.cons_append, List.eraseDupsBy.loop, known]
      exact ih kept
    | false =>
      simp only [List.cons_append, List.eraseDupsBy.loop, known]
      exact ih (y :: kept)

theorem eraseDupsBy_concat (xs : List α) (x : α) :
    (xs ++ [x]).eraseDupsBy r =
      if (xs.eraseDupsBy r).any (r x) then xs.eraseDupsBy r else xs.eraseDupsBy r ++ [x] :=
  loop_concat r xs [] x

theorem eraseDupsBy_append (xs ys : List α) :
    ∃ later, (xs ++ ys).eraseDupsBy r = xs.eraseDupsBy r ++ later ∧ later.Sublist ys ∧
      ∀ y ∈ later, ∀ x ∈ xs.eraseDupsBy r, r y x = false := by
  induction ys using List.reverseRecOn with
  | nil => exact ⟨[], by simp, .slnil, by simp⟩
  | append_singleton ys y ih =>
    obtain ⟨later, kept, sub, apart⟩ := ih
    rw [← List.append_assoc, eraseDupsBy_concat, kept]
    split
    · exact ⟨later, rfl, sub.trans (List.sublist_append_left ys [y]), apart⟩
    · rename_i fresh
      refine ⟨later ++ [y], List.append_assoc _ _ _, sub.append (.refl [y]), ?_⟩
      intro z member x held
      rcases List.mem_append.mp member with early | last
      · exact apart z early x held
      · obtain rfl := List.mem_singleton.mp last
        by_contra found
        exact fresh (List.any_eq_true.mpr
          ⟨x, List.mem_append_left _ held, by simpa using found⟩)

theorem eraseDupsBy_sublist (xs : List α) : (xs.eraseDupsBy r).Sublist xs := by
  obtain ⟨later, kept, sub, -⟩ := eraseDupsBy_append r [] xs
  rw [List.nil_append, List.eraseDupsBy_nil, List.nil_append] at kept
  rwa [kept]

theorem eraseDupsBy_pairwise (xs : List α) :
    (xs.eraseDupsBy r).Pairwise fun x y => r y x = false := by
  induction xs using List.reverseRecOn with
  | nil => exact List.Pairwise.nil
  | append_singleton xs x ih =>
    rw [eraseDupsBy_concat]
    split
    · exact ih
    · rename_i fresh
      refine List.pairwise_append.mpr ⟨ih, List.pairwise_singleton _ x, ?_⟩
      intro y held z last
      obtain rfl := List.mem_singleton.mp last
      by_contra found
      exact fresh (List.any_eq_true.mpr ⟨y, held, by simpa using found⟩)

theorem exists_kept (refl : ∀ x, r x x = true) {xs : List α} {x : α} (member : x ∈ xs) :
    ∃ y ∈ xs.eraseDupsBy r, r x y = true := by
  induction xs using List.reverseRecOn with
  | nil => cases member
  | append_singleton xs last ih =>
    have grown : ∀ y ∈ xs.eraseDupsBy r, y ∈ (xs ++ [last]).eraseDupsBy r := by
      intro y held
      rw [eraseDupsBy_concat]
      split
      · exact held
      · exact List.mem_append_left _ held
    rcases List.mem_append.mp member with early | here
    · obtain ⟨y, held, same⟩ := ih early
      exact ⟨y, grown y held, same⟩
    · obtain rfl := List.mem_singleton.mp here
      rw [eraseDupsBy_concat]
      split
      · rename_i known
        exact List.any_eq_true.mp known
      · exact ⟨x, List.mem_append_right _ List.mem_cons_self, refl x⟩

theorem eraseDupsBy_eq_self {xs : List α} (apart : xs.Pairwise fun x y => r y x = false) :
    xs.eraseDupsBy r = xs := by
  induction xs using List.reverseRecOn with
  | nil => rfl
  | append_singleton xs x ih =>
    obtain ⟨before, -, across⟩ := List.pairwise_append.mp apart
    have fresh : xs.any (r x) = false :=
      List.any_eq_false.mpr fun y held => by simp [across y held x List.mem_cons_self]
    rw [eraseDupsBy_concat, ih before, fresh]
    rfl

theorem eraseDupsBy_congr {r' : α → α → Bool} {xs : List α}
    (same : ∀ x ∈ xs, ∀ y ∈ xs, r x y = r' x y) : xs.eraseDupsBy r = xs.eraseDupsBy r' := by
  induction xs using List.reverseRecOn with
  | nil => rfl
  | append_singleton xs x ih =>
    have before := ih fun y held z also =>
      same y (List.mem_append_left _ held) z (List.mem_append_left _ also)
    have last : (xs.eraseDupsBy r').any (r x) = (xs.eraseDupsBy r').any (r' x) := by
      apply Bool.eq_iff_iff.mpr
      rw [List.any_eq_true, List.any_eq_true]
      refine exists_congr fun y => and_congr_right fun held => ?_
      rw [same x (List.mem_append_right _ List.mem_cons_self) y
        (List.mem_append_left _ ((eraseDupsBy_sublist r' xs).subset held))]
    rw [eraseDupsBy_concat, eraseDupsBy_concat, before, last]

end Repeats

section Equal

variable [DecidableEq α]

theorem eraseDups_concat (xs : List α) (x : α) :
    (xs ++ [x]).eraseDups = if x ∈ xs then xs.eraseDups else xs.eraseDups ++ [x] := by
  have known : (xs.eraseDups.any fun y => x == y) = true ↔ x ∈ xs := by
    rw [List.any_beq, List.contains_iff_mem, List.mem_eraseDups]
  rw [List.eraseDups, eraseDupsBy_concat]
  exact if_congr known rfl rfl

theorem eraseDups_eq_self {xs : List α} (distinct : xs.Nodup) : xs.eraseDups = xs :=
  eraseDupsBy_eq_self _ (distinct.imp fun differ => by simpa using Ne.symm differ)

theorem filter_eraseDups_append {xs ys : List α} {p q : α → Prop} [DecidablePred p]
    [DecidablePred q] (distinct : xs.Nodup) (outside : ∀ y ∈ ys, ¬ q y) :
    (((xs.filter fun x => p x) ++ ys).eraseDups).filter (fun x => p x ∧ q x) =
      xs.filter fun x => p x ∧ q x := by
  have later : ((ys.removeAll (xs.filter fun x => p x)).eraseDups).filter (fun x => p x ∧ q x) =
      [] := by
    refine List.filter_eq_nil_iff.mpr fun y member => ?_
    have appended : y ∈ ys := (List.mem_filter.mp (List.mem_eraseDups.mp member)).1
    simp [outside y appended]
  rw [List.eraseDups_append, eraseDups_eq_self (distinct.filter _), List.filter_append, later,
    List.append_nil, List.filter_filter]
  apply List.filter_congr
  intro x _
  by_cases first : p x
  · simp [first]
  · simp [first]

/-- To keep the last of each is to take a repeated element out before it is put at the end. -/
theorem dedup_concat (xs : List α) (x : α) :
    (xs ++ [x]).dedup = xs.dedup.filter (· ≠ x) ++ [x] := by
  induction xs with
  | nil => simp
  | cons y xs ih =>
    by_cases later : y ∈ xs
    · rw [List.cons_append, List.dedup_cons_of_mem (List.mem_append_left _ later), ih,
        List.dedup_cons_of_mem later]
    · by_cases last : y = x
      · subst last
        rw [List.cons_append, List.dedup_cons_of_mem (List.mem_append_right _ List.mem_cons_self),
          ih, List.dedup_cons_of_notMem later]
        simp
      · rw [List.cons_append, List.dedup_cons_of_notMem (by simp [later, last]), ih,
          List.dedup_cons_of_notMem later]
        simp [last]

end Equal

end ExportIndex.FirstOfEach

namespace ExportIndex

theorem distinctFiles_eq (paths : List String) :
    distinctFiles paths = paths.eraseDupsBy fun p q => decide (SameFile p q) := by
  unfold distinctFiles
  induction paths using List.reverseRecOn with
  | nil => rfl
  | append_singleton paths p ih =>
    rw [List.foldl_append, ih, FirstOfEach.eraseDupsBy_concat]
    rfl

theorem exists_distinctFiles_iff {paths : List String} {p : String} :
    (∃ q ∈ distinctFiles paths, SameFile p q) ↔ ∃ q ∈ paths, SameFile p q := by
  rw [distinctFiles_eq]
  constructor
  · rintro ⟨q, kept, same⟩
    exact ⟨q, (FirstOfEach.eraseDupsBy_sublist _ paths).subset kept, same⟩
  · rintro ⟨q, member, same⟩
    obtain ⟨x, kept, also⟩ := FirstOfEach.exists_kept (fun p q => decide (SameFile p q))
      (fun p => decide_eq_true (SameFile.refl p)) member
    exact ⟨x, kept, same.trans (of_decide_eq_true also)⟩

end ExportIndex
