import ExportIndex.Proofs.Tracking

/-!
Who holds a key that several files give. The file that was read last holds it,
and the key is stored as long as that file is there and still gives it whenever
it is read again. The files that gave the key before are not remembered: when
its holder goes, the key goes with it, although one of them may still be there,
and it comes back only when one of them is read again.
-/
namespace ExportIndex

theorem Layout.region_ne_ambient {l : Layout} {p k : String} (key : l.keyOf? p = some k) :
    l.region p ≠ .ambient := by
  intro ambient
  rw [Layout.region] at ambient
  simp [Layout.keyOf?, Marks.keyOf?, ambient] at key

theorem SourceTree.gives_of_keyOf? (t : SourceTree) {l : Layout} {p k : String}
    (key : l.keyOf? p = some k) : t.gives l p k = some (t.file p) := by
  have whole : Store.contributions l p (t.file p) = [(k, t.file p)] := by
    unfold Store.contributions
    split
    · rename_i ambient
      exact absurd ambient (Layout.region_ne_ambient key)
    · simp [key]
    · simp [key]
  rw [gives, Store.contribution?, whole]
  simp [OrderedMap.ofList]

namespace Store

variable {t : SourceTree} {l : Layout} {s : Store}

theorem Attributed.source?_eq (attributed : s.Attributed) (k : String) :
    s.source? k = (s.record? k).bind Prod.snd := by
  have stored := attributed.stored k
  cases found : s.get? k with
  | none =>
    rw [found] at stored
    rw [record?, found, Option.map_none, Option.bind_none]
    exact Option.not_isSome_iff_eq_none.mp (by simp [← stored])
  | some r => rw [record?, found, Option.map_some, Option.bind_some]

theorem source?_add (attributed : s.Attributed) {p : String} (canonical : Path.IsCanonical p)
    (k : String) :
    (s.add l (t.file p)).2.source? k =
      if (t.gives l p k).isSome then some p else (s.source? k).filter (· ≠ p) := by
  obtain ⟨kept, records⟩ := add_eq attributed l canonical (t.kind_file p)
  rw [kept.source?_eq, records, attributed.source?_eq]
  change Option.bind (((t.gives l p k).map _).or _) _ = _
  cases t.gives l p k with
  | some r => rfl
  | none =>
    cases found : s.record? k with
    | none => rfl
    | some e =>
      obtain ⟨q, source, -⟩ := attributed.record?_eq_some found
      by_cases same : q = p
      · simp [Option.filter, source, same]
      · simp [Option.filter, source, same]

theorem source?_deleteAll (attributed : s.Attributed) {gone : List String}
    (canonical : ∀ p ∈ gone, Path.IsCanonical p) (k : String) :
    (gone.foldl (·.delete l) s).source? k = (s.source? k).filter (· ∉ gone) := by
  have kept : (gone.foldl (·.delete l) s).Attributed := deleteAll_attributed attributed canonical
  refine Option.ext fun q => ?_
  rw [kept.source?_eq, attributed.source?_eq, Option.filter_eq_some_iff]
  simp only [Option.bind_eq_some_iff, deleteAll_record? attributed canonical, decide_eq_true_eq]
  constructor
  · rintro ⟨e, ⟨found, stays⟩, source⟩
    exact ⟨⟨e, found, source⟩, fun removed => stays q removed source⟩
  · rintro ⟨⟨e, found, source⟩, stays⟩
    refine ⟨e, ⟨found, fun p removed same => ?_⟩, source⟩
    exact stays (Option.some.inj (source.symm.trans same) ▸ removed)

theorem addAll_append_singleton (s : Store) (l : Layout) (rs : List Resource) (r : Resource) :
    s.addAll l (rs ++ [r]) = ((s.addAll l rs).add l r).2 := by
  simp [addAll, List.foldl_append]

theorem source?_addAll (attributed : s.Attributed) {paths : List String}
    (canonical : ∀ p ∈ paths, Path.IsCanonical p) (k : String) :
    (s.addAll l (paths.map t.file)).source? k =
      (paths.reverse.find? fun p => (t.gives l p k).isSome).or
        ((s.source? k).filter (· ∉ paths)) := by
  induction paths using List.reverseRecOn with
  | nil => cases source : s.source? k <;> simp [addAll, source, Option.filter]
  | append_singleton front last ih =>
    have before : ∀ p ∈ front, Path.IsCanonical p := fun p held =>
      canonical p (List.mem_append_left _ held)
    have own := canonical last (List.mem_append_right _ List.mem_cons_self)
    rw [List.map_append, List.map_singleton, addAll_append_singleton,
      source?_add (addAll_attributed attributed before) own, ih before, List.reverse_concat,
      List.find?_cons]
    cases given : (t.gives l last k).isSome with
    | true => rfl
    | false =>
      cases found : front.reverse.find? fun p => (t.gives l p k).isSome with
      | some q =>
        have other : q ≠ last := by
          rintro rfl
          have gives := List.find?_some found
          rw [given] at gives
          cases gives
        simp [Option.filter, other]
      | none =>
        cases s.source? k with
        | none => rfl
        | some q =>
          by_cases early : q ∈ front
          · simp [Option.filter, early]
          · by_cases same : q = last
            · subst same
              simp [Option.filter, early]
            · simp [Option.filter, early, same]

theorem source?_refresh (attributed : s.Attributed) {gone paths : List String}
    (deleted : ∀ p ∈ gone, Path.IsCanonical p) (canonical : ∀ p ∈ paths, Path.IsCanonical p)
    (k : String) :
    (Session.refresh l s gone (paths.map t.file)).source? k =
      (paths.reverse.find? fun p => (t.gives l p k).isSome).or
        ((s.source? k).filter fun p => p ∉ gone ∧ p ∉ paths) := by
  have kept : (gone.foldl (·.delete l) s).Attributed := deleteAll_attributed attributed deleted
  rw [Session.refresh, source?_addAll kept canonical, source?_deleteAll attributed deleted,
    Option.filter_filter]
  simp only [Bool.decide_and]

end Store

namespace Session

/-- What one call did: the files that went, then those that were read, in this order, and what
they read as. -/
structure Reading where
  gone : List String
  read : List String
  tree : SourceTree

/-- The file that holds a key after the given readings, the latest first: the last one that gave
it, unless it has gone since, or was read again without giving it. -/
def holder? (l : Layout) (k : String) : List Reading → Option String
  | [] => none
  | r :: earlier =>
    (r.read.reverse.find? fun p => (r.tree.gives l p k).isSome).or
      ((holder? l k earlier).filter fun p => p ∉ r.gone ∧ p ∉ r.read)

/-- Whether the key of the file `p` went with another file: one that had taken the key over and
then was deleted, or read again without giving it, when no file that gives the key has been read
since. -/
def Abandoned (l : Layout) (p k : String) : List Reading → Prop
  | [] => False
  | r :: earlier =>
    (∀ q ∈ r.read, r.tree.gives l q k = none) ∧
      (Abandoned l p k earlier ∨
        ∃ q ∈ holder? l k earlier, q ≠ p ∧ (q ∈ r.gone ∨ q ∈ r.read))

instance decidableAbandoned (l : Layout) (p k : String) :
    (history : List Reading) → Decidable (Abandoned l p k history)
  | [] => inferInstanceAs (Decidable False)
  | r :: earlier =>
    have := decidableAbandoned l p k earlier
    inferInstanceAs (Decidable ((∀ q ∈ r.read, r.tree.gives l q k = none) ∧
      (Abandoned l p k earlier ∨
        ∃ q ∈ holder? l k earlier, q ≠ p ∧ (q ∈ r.gone ∨ q ∈ r.read))))

theorem holder?_cons_eq_none_iff {l : Layout} {k : String} {r : Reading}
    {earlier : List Reading} :
    holder? l k (r :: earlier) = none ↔
      (∀ q ∈ r.read, r.tree.gives l q k = none) ∧
        (holder? l k earlier = none ∨
          ∃ q, holder? l k earlier = some q ∧ (q ∈ r.gone ∨ q ∈ r.read)) := by
  rw [holder?, Option.or_eq_none_iff, List.find?_eq_none]
  refine and_congr (by simp) ?_
  cases holder? l k earlier with
  | none => simp
  | some q => simp [Option.filter, imp_iff_or_not, or_comm]

/-- The key of a file has no holder exactly if it is abandoned, as long as the file is read when
it appears and has not gone. -/
theorem holder?_eq_none_iff_abandoned {l : Layout} {p k : String} (key : l.keyOf? p = some k)
    {r : Reading} {earlier : List Reading} (stays : p ∉ r.gone)
    (before : p ∉ r.read → (holder? l k earlier = none ↔ Abandoned l p k earlier)) :
    holder? l k (r :: earlier) = none ↔ Abandoned l p k (r :: earlier) := by
  rw [holder?_cons_eq_none_iff, Abandoned]
  refine and_congr_right fun silent => ?_
  have unread : p ∉ r.read := by
    intro here
    have given := r.tree.gives_of_keyOf? key
    rw [silent p here] at given
    cases given
  rw [before unread]
  refine or_congr_right (exists_congr fun q => and_congr_right fun _ => ?_)
  constructor
  · intro left
    refine ⟨?_, left⟩
    rintro rfl
    exact left.elim stays unread
  · exact fun left => left.2

/-- The sessions that a build and any number of batches lead to, with what the paths read as, all
that happened and the files that are there. Several files may give the same key. -/
inductive Recorded (l : Layout) : SourceTree → List Reading → List String → Session → Prop
  | built {ε : Type} {first : Session} (started : start l = .ok first) {t : SourceTree}
      {parser : List String → Except ε (List Resource)} {files order : List String}
      (answer : order.Perm (files.map l.resolve))
      (parsed : parser (files.map l.resolve) = .ok (order.map t.file)) :
      Recorded l t [⟨[], order, t⟩] (files.map l.resolve) (first.run parser (.build files)).1
  | reindexed {ε : Type} {t : SourceTree} {history : List Reading} {live : List String}
      {s : Session} (before : Recorded l t history live s) {next : SourceTree}
      {parser : List String → Except ε (List Resource)} {changes : Changes} {order : List String}
      (answer : order.Perm (s.toParse changes))
      (parsed : parser (s.toParse changes) = .ok (order.map next.file))
      (same : ∀ p, p ∉ changes.toRead l.root → p ∉ changes.gone l.root →
        next.file p = t.file p) :
      Recorded l next (⟨changes.gone l.root, order, next⟩ :: history)
        (changes.liveAfter l.root live) (s.run parser (.reindex changes)).1

structure Kept (l : Layout) (t : SourceTree) (history : List Reading) (live : List String)
    (s : Session) : Prop where
  layout : s.layout = l
  absolute : Path.isAbsolute l.root = true
  canonical : ∀ p ∈ live, Path.IsCanonical p
  supplied : s.parsed.Supplied t l live
  source : ∀ k, s.parsed.source? k = holder? l k history
  lost : ∀ p ∈ live, ∀ k, l.keyOf? p = some k →
    (holder? l k history = none ↔ Abandoned l p k history)

variable {ε : Type} {parser : List String → Except ε (List Resource)}

theorem built_kept {l : Layout} {first : Session} (started : start l = .ok first)
    {t : SourceTree} {files order : List String} (answer : order.Perm (files.map l.resolve))
    (parsed : parser (files.map l.resolve) = .ok (order.map t.file)) :
    (first.run parser (.build files)).1.Kept l t [⟨[], order, t⟩] (files.map l.resolve) := by
  have fresh := start_eq_ok started
  have layout : first.layout = l := by rw [fresh]
  have idle : first.building = false := by rw [fresh]
  have absolute := start_absolute started
  subst layout
  have canonical := resolve_canonical absolute files
  have read : ∀ p ∈ order, Path.IsCanonical p := fun p held =>
    canonical p (answer.mem_iff.mp held)
  have started_empty : Store.empty.Supplied t first.layout [] := Store.empty_holds.supplied
  rw [run_build idle parsed]
  refine ⟨rfl, absolute, canonical, ?_, ?_, ?_⟩
  · have all_read : ∀ p, p ∈ files.map first.layout.resolve ↔
        (p ∈ ([] : List String) ∨ p ∈ files.map first.layout.resolve) ∧
          p ∉ ([] : List String) := by simp
    refine started_empty.refresh (fun _ _ _ => rfl) all_read ?_ ?_ canonical (by simp)
    · exact fun p held _ => answer.mem_iff.mpr held
    · exact fun p held => answer.mem_iff.mp held
  · intro k
    exact Store.source?_addAll Store.empty_attributed read k
  · intro p held k key
    refine holder?_eq_none_iff_abandoned key List.not_mem_nil fun unread => ?_
    exact absurd (answer.mem_iff.mpr held) unread

theorem Kept.reindexed {l : Layout} {t : SourceTree} {history : List Reading}
    {live : List String} {s : Session} (before : s.Kept l t history live) {next : SourceTree}
    {changes : Changes} {order : List String} (answer : order.Perm (s.toParse changes))
    (parsed : parser (s.toParse changes) = .ok (order.map next.file))
    (same : ∀ p, p ∉ changes.toRead l.root → p ∉ changes.gone l.root →
      next.file p = t.file p) :
    (s.run parser (.reindex changes)).1.Kept l next
      (⟨changes.gone l.root, order, next⟩ :: history) (changes.liveAfter l.root live) := by
  obtain ⟨rfl, absolute, canonical, supplied, source, lost⟩ := before
  have unasked : s.toParse changes = [] → order.map next.file = [] := by
    intro nothing
    rw [nothing] at answer
    rw [answer.eq_nil, List.map_nil]
  have gone := Changes.gone_canonical absolute changes
  have mem_next := changes.mem_liveAfter s.layout.root live
  have live_canonical := Changes.liveAfter_canonical absolute changes canonical
  have present : ∀ p ∈ order, p ∈ changes.liveAfter s.layout.root live := fun p member =>
    mem_liveAfter_of_mem_toParse supplied absolute canonical (answer.mem_iff.mp member)
  have read : ∀ p ∈ changes.toRead s.layout.root, p ∉ changes.gone s.layout.root → p ∈ order :=
    fun p changed stays => answer.mem_iff.mpr
      (mem_toParse_of_changed supplied absolute canonical changed stays)
  rw [run_reindex_answered parsed unasked]
  refine ⟨rfl, absolute, live_canonical, ?_, ?_, ?_⟩
  · exact supplied.refresh same mem_next read present live_canonical gone
  · intro k
    have read_canonical : ∀ p ∈ order, Path.IsCanonical p := fun p held =>
      live_canonical p (present p held)
    rw [holder?, ← source k]
    exact Store.source?_refresh supplied.attributed gone read_canonical k
  · intro p held k key
    obtain ⟨reason, stays⟩ := (mem_next p).mp held
    refine holder?_eq_none_iff_abandoned key stays fun unread => lost p ?_ k key
    exact reason.resolve_right fun changed => unread (read p changed stays)

theorem Recorded.kept {l : Layout} {t : SourceTree} {history : List Reading}
    {live : List String} {s : Session} (recorded : Recorded l t history live s) :
    s.Kept l t history live := by
  induction recorded with
  | built started answer parsed => exact built_kept started answer parsed
  | reindexed _ answer parsed same before => exact before.reindexed answer parsed same

/-- The key of a file that is there is stored, unless it is abandoned: another file took it over
and then was deleted, or read again without giving it, and no file that gives it was read since. -/
theorem live_key_stored_iff {l : Layout} {t : SourceTree} {history : List Reading}
    {live : List String} {s : Session} (recorded : Recorded l t history live s) {p k : String}
    (held : p ∈ live) (key : l.keyOf? p = some k) :
    s.parsed.contains k = true ↔ ¬ Abandoned l p k history := by
  obtain ⟨-, -, -, supplied, source, lost⟩ := recorded.kept
  have stored : s.parsed.contains k = (s.parsed.source? k).isSome :=
    supplied.attributed.stored k
  rw [stored, source k, Option.isSome_iff_ne_none, ne_eq, lost p held k key]

section Sample

def bare : SourceTree where
  file p := ⟨.file p, [], [], [], [], [], none⟩
  kind_file _ := rfl

def twins : List String := ["a.ts", "a.d.ts"]

def twinsBuilt : Session := (idle.run (bare.parser (ε := Unit)) (.build twins)).1

def typingsDropped : Changes := ⟨[], [], ["a.d.ts"]⟩

def twinLeft : Session := (twinsBuilt.run (bare.parser (ε := Unit)) (.reindex typingsDropped)).1

def twinLeftHistory : List Reading :=
  [⟨typingsDropped.gone project.root, [], bare⟩, ⟨[], twins.map project.resolve, bare⟩]

def twinLeftFiles : List String :=
  typingsDropped.liveAfter project.root (twins.map project.resolve)

theorem twinLeft_recorded : Recorded project bare twinLeftHistory twinLeftFiles twinLeft := by
  have nothing : twinsBuilt.toParse typingsDropped = [] := by decide +kernel
  have built : Recorded project bare [⟨[], twins.map project.resolve, bare⟩]
      (twins.map project.resolve) twinsBuilt :=
    .built start_project (List.Perm.refl _) rfl
  refine .reindexed built ?_ ?_ fun _ _ _ => rfl
  · rw [nothing]
  · rw [nothing]
    rfl

/-- A file is there and its key is not, because the other file with that key was deleted. -/
theorem deletion_loses_live_key :
    Recorded project bare twinLeftHistory twinLeftFiles twinLeft ∧
    "/ws/a.ts" ∈ twinLeftFiles ∧ project.keyOf? "/ws/a.ts" = some "/a" ∧
    twinLeft.parsed.contains "/a" = false :=
  ⟨twinLeft_recorded, by decide +kernel, by decide +kernel, by decide +kernel⟩

def sourceSaved : Changes := ⟨[], ["a.ts"], []⟩

def twinSaved : Session := (twinLeft.run (bare.parser (ε := Unit)) (.reindex sourceSaved)).1

def twinSavedHistory : List Reading :=
  ⟨sourceSaved.gone project.root, ["/ws/a.ts"], bare⟩ :: twinLeftHistory

theorem twinSaved_recorded : Recorded project bare twinSavedHistory
    (sourceSaved.liveAfter project.root twinLeftFiles) twinSaved := by
  have one : twinLeft.toParse sourceSaved = ["/ws/a.ts"] := by decide +kernel
  refine .reindexed twinLeft_recorded ?_ ?_ fun _ _ _ => rfl
  · rw [one]
  · rw [one]
    rfl

theorem twinSaved_stored :
    Abandoned project "/ws/a.ts" "/a" twinLeftHistory ∧
    twinLeft.parsed.contains "/a" = false ∧
    ¬ Abandoned project "/ws/a.ts" "/a" twinSavedHistory ∧
    twinSaved.parsed.contains "/a" = true := by
  have key : project.keyOf? "/ws/a.ts" = some "/a" := by decide +kernel
  have abandoned : Abandoned project "/ws/a.ts" "/a" twinLeftHistory := by decide +kernel
  have back : ¬ Abandoned project "/ws/a.ts" "/a" twinSavedHistory := by decide +kernel
  have left := live_key_stored_iff twinLeft_recorded (p := "/ws/a.ts") (by decide +kernel) key
  have saved := live_key_stored_iff twinSaved_recorded (p := "/ws/a.ts") (by decide +kernel) key
  refine ⟨abandoned, ?_, back, saved.mpr back⟩
  rw [← Bool.not_eq_true, left]
  exact fun stored => stored abandoned

end Sample

end Session

end ExportIndex
