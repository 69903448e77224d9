import ExportIndex.Proofs.BuildGuard
import ExportIndex.Proofs.Replacement
import ExportIndex.Proofs.Replica

/-!
Which files are read again for a batch of changes. A batch names files by
addresses; the files touch the keys that are theirs, by their place or because
the keys came from them; and a stored file that exports from a touched key has
to be read again too. The parser is asked for exactly these files, less the
deleted ones, in one request, and its answer ends the call.
-/
namespace ExportIndex

theorem Store.Linked.delete {s : Store} (linked : s.Linked) (l : Layout) (path : String) :
    (s.delete l path).Linked := by
  unfold Store.delete
  dsimp only
  split
  · exact linked.forget path
  · split
    · exact (linked.forget path).erase _
    · exact linked.forget path

theorem Store.Linked.refresh {s : Store} (linked : s.Linked) (l : Layout) (gone : List String)
    (rs : List Resource) : (Session.refresh l s gone rs).Linked := by
  have deleted : (gone.foldl (·.delete l) s).Linked := by
    induction gone generalizing s with
    | nil => exact linked
    | cons path gone ih => exact ih (linked.delete l path)
  unfold Session.refresh Store.addAll
  generalize gone.foldl (·.delete l) s = left at deleted
  induction rs generalizing left with
  | nil => exact deleted
  | cons r rs ih => exact ih _ (deleted.add l r)

namespace Session

variable {ε : Type}

/-- Whether the attributions are in order, in the store that is seen and in those that calls that
wait have set aside. -/
structure Linked (s : Session) : Prop where
  seen : s.parsed.Linked
  aside : ∀ parsed previous deleted, .reindex parsed previous deleted ∈ s.waiting → parsed.Linked

theorem Linked.call {s : Session} (linked : s.Linked) (c : Call) : (s.call c).1.Linked := by
  cases c with
  | build paths =>
    rw [Session.call]
    split
    · exact linked
    · refine ⟨linked.seen, fun parsed previous deleted held => ?_⟩
      rcases List.mem_cons.mp held with impossible | below
      · cases impossible
      · exact linked.aside parsed previous deleted below
  | reindex changes =>
    by_cases nothing : s.toParse changes = []
    · rw [call_reindex_finished nothing]
      exact ⟨linked.seen.refresh _ _ _, linked.aside⟩
    · rw [call_reindex_parsing nothing]
      refine ⟨linked.seen, fun parsed previous deleted held => ?_⟩
      rcases List.mem_cons.mp held with own | below
      · cases own
        exact linked.seen
      · exact linked.aside parsed previous deleted below
  | reset => exact ⟨Store.empty_linked, linked.aside⟩

theorem Linked.answer {s : Session} (linked : s.Linked) (parsing : Except ε (List Resource)) :
    (s.answer parsing).1.Linked := by
  cases waiting : s.waiting with
  | nil =>
    simp only [Session.answer, waiting]
    exact linked
  | cons w below =>
    have rest : ∀ parsed previous deleted, .reindex parsed previous deleted ∈ below →
        parsed.Linked := by
      intro parsed previous deleted held
      apply linked.aside parsed previous deleted
      rw [waiting]
      exact List.mem_cons_of_mem w held
    cases w with
    | build =>
      cases parsing with
      | error e =>
        simp only [Session.answer, waiting]
        exact ⟨linked.seen, rest⟩
      | ok rs =>
        simp only [Session.answer, waiting]
        exact ⟨Store.empty_linked.refresh _ [] rs, rest⟩
    | reindex parsed previous deleted =>
      -- a batch goes on from the store it set aside, not from the one that is seen
      have own : parsed.Linked := by
        apply linked.aside parsed previous deleted
        rw [waiting]
        exact List.mem_cons_self
      cases parsing with
      | error e =>
        simp only [Session.answer, waiting]
        exact ⟨linked.seen, rest⟩
      | ok rs =>
        simp only [Session.answer, waiting]
        exact ⟨own.refresh _ deleted rs, rest⟩

theorem Linked.after {s : Session} (linked : s.Linked) (events : List (Event ε)) :
    (s.after events).Linked := by
  induction events generalizing s with
  | nil => exact linked
  | cons e events ih =>
    cases e with
    | call c => exact ih (linked.call c)
    | answer parsing => exact ih (linked.answer parsing)

end Session

def Changes.reported (c : Changes) (root : String) : List String :=
  (c.created ++ c.updated).map (locate root)

namespace Session

/-- Whether a key belongs to a file that a batch reports in any of its lists: by the place of the
file, or because it came from there. -/
def Touches (s : Session) (changes : Changes) (key : String) : Prop :=
  ∃ p, (p ∈ changes.reported s.layout.root ∨ p ∈ changes.gone s.layout.root) ∧
    (s.layout.keyOf? p = some key ∨ s.parsed.CameFrom p key)

def Depends (s : Session) (changes : Changes) (path : String) : Prop :=
  ∃ key r source, s.parsed.get? key = some r ∧ r.kind = .file path ∧
    ((∃ span, .all source span ∈ r.exports) ∨
      ∃ specifiers span, .named (some source) specifiers span ∈ r.exports) ∧
    s.Touches changes (s.layout.targetKey (some path) source)

/-- Whether a file has to be read for a batch, however its path is spelled. -/
def Wanted (s : Session) (changes : Changes) (path : String) : Prop :=
  (∀ q ∈ changes.gone s.layout.root, ¬ SameFile path q) ∧
    ((∃ q ∈ changes.reported s.layout.root, SameFile path q) ∨
      ∃ q, s.Depends changes q ∧ SameFile path q)

theorem mem_targets_iff {l : Layout} {r : Resource} {key : String} :
    key ∈ Store.targets l r ↔ ∃ source,
      ((∃ span, .all source span ∈ r.exports) ∨
        ∃ specifiers span, .named (some source) specifiers span ∈ r.exports) ∧
      l.targetKey r.path? source = key := by
  simp only [Store.targets, List.mem_filterMap, Option.map_eq_some_iff]
  constructor
  · rintro ⟨e, statement, source, named, same⟩
    refine ⟨source, ?_, same⟩
    cases e with
    | all target span =>
      obtain rfl := Option.some.inj named
      exact Or.inl ⟨span, statement⟩
    | named target specifiers span =>
      obtain rfl : target = some source := named
      exact Or.inr ⟨specifiers, span, statement⟩
    | assigned identifier span => cases named
  · rintro ⟨source, ⟨span, statement⟩ | ⟨specifiers, span, statement⟩, same⟩
    · exact ⟨_, statement, source, rfl, same⟩
    · exact ⟨_, statement, source, rfl, same⟩

theorem path?_eq_some_iff {r : Resource} {path : String} :
    r.path? = some path ↔ r.kind = .file path := by
  unfold Resource.path?
  cases r.kind with
  | file own => simp [Resource.Kind.path?]
  | declaredModule name => simp [Resource.Kind.path?]
  | declaredNamespace name => simp [Resource.Kind.path?]

section Asking

variable {s : Session} (linked : s.Linked) (absolute : Path.isAbsolute s.layout.root = true)
  (changes : Changes)

include absolute

theorem toRead_eq : changes.toRead s.layout.root = (changes.reported s.layout.root).eraseDups := by
  rw [Changes.toRead, distinctFiles_eq]
  apply FirstOfEach.eraseDupsBy_congr
  intro p first q second
  have canonical : ∀ x ∈ changes.reported s.layout.root, Path.IsCanonical x := by
    intro x member
    obtain ⟨address, -, rfl⟩ := List.mem_map.mp member
    exact Path.join_isCanonical absolute _
  apply Bool.eq_iff_iff.mpr
  rw [decide_eq_true_iff, beq_iff_eq]
  constructor
  · exact (canonical p first).eq_of_sameFile (canonical q second)
  · rintro rfl
    exact SameFile.refl p

theorem mem_toRead_iff {path : String} :
    path ∈ changes.toRead s.layout.root ↔ path ∈ changes.reported s.layout.root := by
  rw [toRead_eq absolute, List.mem_eraseDups]

include linked

theorem mem_marked_iff {key : String} :
    key ∈ s.marked (changes.gone s.layout.root ++ changes.toRead s.layout.root) ↔
      s.Touches changes key := by
  simp only [marked, List.mem_flatMap, List.mem_append, mem_toRead_iff absolute,
    Option.mem_toList, linked.seen.mem_keysOf, Touches, or_comm]

theorem mem_dependents_iff {path : String} :
    path ∈ s.parsed.dependents s.layout
        (s.marked (changes.gone s.layout.root ++ changes.toRead s.layout.root)) ↔
      s.Depends changes path := by
  have touched (r : Resource) : (Store.targets s.layout r).any (s.marked
      (changes.gone s.layout.root ++ changes.toRead s.layout.root)).contains = true ↔
      ∃ key ∈ Store.targets s.layout r, s.Touches changes key := by
    simp only [List.any_eq_true, List.contains_iff_mem, mem_marked_iff linked absolute]
  rw [Store.dependents, List.mem_filterMap]
  constructor
  · rintro ⟨r, stored, found⟩
    obtain ⟨⟨key, _⟩, held, rfl⟩ := List.mem_map.mp stored
    split at found
    · rename_i refers
      obtain ⟨_, named, touches⟩ := (touched _).mp refers
      obtain ⟨source, statement, rfl⟩ := mem_targets_iff.mp named
      rw [found] at touches
      exact ⟨key, _, source, (s.parsed.resources.get?_eq_some_iff _ _).mpr held,
        path?_eq_some_iff.mp found, statement, touches⟩
    · cases found
  · rintro ⟨key, r, source, stored, file, statement, touches⟩
    have path := path?_eq_some_iff.mpr file
    have refers := (touched r).mpr ⟨_, mem_targets_iff.mpr ⟨source, statement, rfl⟩, path ▸ touches⟩
    refine ⟨r, List.mem_map.mpr ⟨_, (s.parsed.resources.get?_eq_some_iff _ _).mp stored, rfl⟩, ?_⟩
    rw [if_pos refers, path]

omit linked absolute in
theorem toParse_eq_filter : s.toParse changes =
    (distinctFiles (changes.toRead s.layout.root ++ s.parsed.dependents s.layout (s.marked
      (changes.gone s.layout.root ++ changes.toRead s.layout.root)))).filter
        fun p => ∀ q ∈ changes.gone s.layout.root, ¬ SameFile p q := by
  unfold toParse
  apply List.filter_congr
  intro p _
  apply Bool.eq_iff_iff.mpr
  rw [Bool.not_eq_true', List.any_eq_false, decide_eq_true_iff]
  simp only [decide_eq_true_iff]

omit linked absolute in
theorem toParse_pairwise : (s.toParse changes).Pairwise fun p q => ¬ SameFile p q := by
  rw [toParse_eq_filter, distinctFiles_eq]
  apply List.Pairwise.filter
  refine (FirstOfEach.eraseDupsBy_pairwise _ _).imp fun {p q} fresh same => ?_
  exact of_decide_eq_false fresh same.symm

theorem toParse_eq_append :
    ∃ dependents, s.toParse changes =
        (changes.reported s.layout.root).eraseDups.filter
          (fun p => ∀ q ∈ changes.gone s.layout.root, ¬ SameFile p q) ++ dependents ∧
      dependents.Sublist (s.parsed.resources.values.filterMap Resource.path?) ∧
      ∀ p ∈ dependents, s.Depends changes p ∧
        ∀ q ∈ changes.reported s.layout.root, ¬ SameFile p q := by
  have once : (changes.toRead s.layout.root).eraseDupsBy (fun p q => decide (SameFile p q)) =
      changes.toRead s.layout.root := by
    rw [Changes.toRead, distinctFiles_eq]
    exact FirstOfEach.eraseDupsBy_eq_self _ (FirstOfEach.eraseDupsBy_pairwise _ _)
  obtain ⟨later, kept, sub, apart⟩ := FirstOfEach.eraseDupsBy_append
    (fun p q => decide (SameFile p q)) (changes.toRead s.layout.root) (s.parsed.dependents s.layout
      (s.marked (changes.gone s.layout.root ++ changes.toRead s.layout.root)))
  rw [once] at kept apart
  refine ⟨later.filter fun p => ∀ q ∈ changes.gone s.layout.root, ¬ SameFile p q, ?_, ?_, ?_⟩
  · rw [toParse_eq_filter, distinctFiles_eq, kept, List.filter_append, toRead_eq absolute]
  · refine List.filter_sublist.trans (sub.trans ?_)
    rw [Store.dependents, ← List.filterMap_filter]
    exact List.filter_sublist.filterMap _
  · intro p member
    have held := (List.mem_filter.mp member).1
    refine ⟨(mem_dependents_iff linked absolute changes).mp (sub.subset held), fun q reported => ?_⟩
    exact of_decide_eq_false (apart p held q ((mem_toRead_iff absolute changes).mpr reported))

theorem asked_iff_wanted (path : String) :
    (∃ q ∈ s.toParse changes, SameFile path q) ↔ s.Wanted changes path := by
  have candidates : (∃ q ∈ changes.toRead s.layout.root ++ s.parsed.dependents s.layout (s.marked
      (changes.gone s.layout.root ++ changes.toRead s.layout.root)), SameFile path q) ↔
      (∃ q ∈ changes.reported s.layout.root, SameFile path q) ∨
        ∃ q, s.Depends changes q ∧ SameFile path q := by
    simp only [List.mem_append, mem_dependents_iff linked absolute, mem_toRead_iff absolute,
      or_and_right, exists_or]
  rw [Wanted, ← exists_distinctFiles_iff.trans candidates, toParse_eq_filter]
  simp only [List.mem_filter, decide_eq_true_eq]
  constructor
  · rintro ⟨q, ⟨kept, stays⟩, same⟩
    exact ⟨fun x gone also => stays x gone (same.symm.trans also), q, kept, same⟩
  · rintro ⟨stays, q, kept, same⟩
    exact ⟨q, ⟨kept, fun x gone also => stays x gone (same.trans also)⟩, same⟩

theorem toParse_eq_nil_iff : s.toParse changes = [] ↔ ∀ path, ¬ s.Wanted changes path := by
  simp only [← asked_iff_wanted linked absolute]
  constructor
  · intro nothing path
    rw [nothing]
    simp
  · intro nothing
    refine List.eq_nil_iff_forall_not_mem.mpr fun q member => ?_
    exact nothing q ⟨q, member, SameFile.refl q⟩

end Asking

theorem call_reindex_finished_iff {s : Session} {changes : Changes} :
    (∃ outcome, (s.call (.reindex changes)).2 = .finished outcome) ↔ s.toParse changes = [] := by
  by_cases nothing : s.toParse changes = []
  · rw [call_reindex_finished nothing]
    simp [nothing]
  · rw [call_reindex_parsing nothing]
    simp [nothing]

theorem waiting_of_stopped {s t : Session} {c : Call} {paths : List String}
    (stopped : s.call c = (t, .parsing paths)) : t.waiting ≠ [] := by
  cases c with
  | build files =>
    rw [call] at stopped
    split at stopped
    · cases stopped
    · obtain ⟨rfl, -⟩ := Prod.mk.inj stopped
      exact List.cons_ne_nil _ _
  | reindex changes =>
    by_cases nothing : s.toParse changes = []
    · rw [call_reindex_finished nothing] at stopped
      cases stopped
    · rw [call_reindex_parsing nothing] at stopped
      obtain ⟨rfl, -⟩ := Prod.mk.inj stopped
      exact List.cons_ne_nil _ _
  | reset => cases stopped

theorem exists_outcome {s : Session} (waits : s.waiting ≠ []) (parsing : Except ε (List Resource)) :
    ∃ outcome, (s.answer parsing).2 = some outcome := by
  unfold answer
  split
  · contradiction
  · cases parsing with
    | error e => exact ⟨_, rfl⟩
    | ok rs => exact ⟨_, rfl⟩
  · cases parsing with
    | error e => exact ⟨_, rfl⟩
    | ok rs => exact ⟨_, rfl⟩

theorem answer_ends {s t : Session} {c : Call} {paths : List String}
    (stopped : s.call c = (t, .parsing paths)) (during : List (Operation ε))
    (parsing : Except ε (List Resource)) :
    (∃ outcome, ((t.performAll during).answer parsing).2 = some outcome) ∧
      ((t.performAll during).answer parsing).1.waiting = s.waiting := by
  have inner := performAll_restores t during
  refine ⟨exists_outcome ?_ parsing, (restored_answer stopped inner parsing).waiting⟩
  rw [inner.waiting]
  exact waiting_of_stopped stopped

/-- For a batch the parser is asked for exactly the right files. At every moment of every run, a
batch asks for nothing exactly if no file is wanted; otherwise it makes one request, whose answer
ends the call. No file is in the request twice, and a file is in it exactly if it is wanted. First
come the reported files, each where it was reported first, then stored files that depend on what
was reported, in the order of the store. -/
theorem reindex_asks_for_wanted {l : Layout} {first : Session} (started : start l = .ok first)
    (events : List (Event ε)) (changes : Changes) :
    let s := first.after events
    ((∃ outcome, (s.call (.reindex changes)).2 = .finished outcome) ↔
      ∀ path, ¬ s.Wanted changes path) ∧
    ∀ t paths, s.call (.reindex changes) = (t, .parsing paths) →
      (∀ (during : List (Operation ε)) (parsing : Except ε (List Resource)),
        (∃ outcome, ((t.performAll during).answer parsing).2 = some outcome) ∧
          ((t.performAll during).answer parsing).1.waiting = s.waiting) ∧
      paths.Pairwise (fun p q => ¬ SameFile p q) ∧
      (∀ path, (∃ q ∈ paths, SameFile path q) ↔ s.Wanted changes path) ∧
      ∃ dependents, paths = (changes.reported l.root).eraseDups.filter
          (fun p => ∀ q ∈ changes.gone l.root, ¬ SameFile p q) ++ dependents ∧
        dependents.Sublist (s.parsed.resources.values.filterMap Resource.path?) ∧
        ∀ p ∈ dependents, s.Depends changes p ∧ ∀ q ∈ changes.reported l.root, ¬ SameFile p q := by
  intro s
  have layout : s.layout = l := by
    rw [layout_after, start_eq_ok started]
  have linked : s.Linked := by
    refine Linked.after ?_ events
    rw [start_eq_ok started]
    exact ⟨Store.empty_linked, fun _ _ _ held => by cases held⟩
  have absolute : Path.isAbsolute s.layout.root = true := layout ▸ start_absolute started
  refine ⟨call_reindex_finished_iff.trans (toParse_eq_nil_iff linked absolute changes), ?_⟩
  intro t paths stopped
  have asked : paths = s.toParse changes := by
    by_cases nothing : s.toParse changes = []
    · rw [call_reindex_finished nothing] at stopped
      cases stopped
    · rw [call_reindex_parsing nothing] at stopped
      cases stopped
      rfl
  subst asked
  refine ⟨answer_ends stopped, toParse_pairwise changes,
    asked_iff_wanted linked absolute changes, ?_⟩
  rw [← layout]
  exact toParse_eq_append linked absolute changes

section Sample

def sharedSaved : Changes := ⟨["file:///ws/new%20one.ts"], ["shared.ts", "new one.ts"], ["y.ts"]⟩

theorem sharedSaved_asks :
    start project = .ok idle ∧
    let s := idle.after sharingRead
    (s.call (.reindex sharedSaved)).2 = .parsing ["/ws/new one.ts", "/ws/shared.ts", "/ws/x.ts"] ∧
    s.Wanted sharedSaved "/ws//x.ts" ∧ ¬ s.Wanted sharedSaved "/ws/y.ts" ∧
    ¬ ∃ outcome, (s.call (.reindex sharedSaved)).2 = .finished outcome := by
  have paths : (idle.after sharingRead).toParse sharedSaved =
      ["/ws/new one.ts", "/ws/shared.ts", "/ws/x.ts"] := by
    decide +kernel
  have something : (idle.after sharingRead).toParse sharedSaved ≠ [] := by
    rw [paths]
    exact List.cons_ne_nil _ _
  have stopped := call_reindex_parsing something
  rw [paths] at stopped
  obtain ⟨silent, asking⟩ := reindex_asks_for_wanted start_project sharingRead sharedSaved
  obtain ⟨-, -, exact_files, -⟩ := asking _ _ stopped
  have wanted : (idle.after sharingRead).Wanted sharedSaved "/ws//x.ts" :=
    (exact_files _).mp (by decide +kernel)
  refine ⟨start_project, by rw [stopped], wanted, fun other => ?_, fun quiet => ?_⟩
  · exact absurd ((exact_files _).mpr other) (by decide +kernel)
  · exact silent.mp quiet _ wanted

end Sample

end Session

end ExportIndex
