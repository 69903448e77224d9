import ExportIndex.Proofs.Attribution
import ExportIndex.Proofs.Consistency

/-!
Reindexing against building anew. As long as no two files contribute the same
key, what is stored is determined by the files that are there and by what they
read as. A batch of changes leads from what the old files determine to what the
new ones determine, in whatever order the parsed files come in; so after any
number of batches the parsed store is the one a build would give.
-/
namespace ExportIndex

structure SourceTree where
  file : String → Resource
  kind_file : ∀ p, (file p).kind = .file p

namespace SourceTree

def Apart (t : SourceTree) (l : Layout) (live : List String) : Prop :=
  ∀ p ∈ live, ∀ q ∈ live, p ≠ q → ∀ k ∈ (Store.contributions l p (t.file p)).map Prod.fst,
    k ∉ (Store.contributions l q (t.file q)).map Prod.fst

instance (t : SourceTree) (l : Layout) (live : List String) : Decidable (t.Apart l live) :=
  inferInstanceAs (Decidable (∀ p ∈ live, ∀ q ∈ live, p ≠ q →
    ∀ k ∈ (Store.contributions l p (t.file p)).map Prod.fst,
      k ∉ (Store.contributions l q (t.file q)).map Prod.fst))

/-- A parser that reads each path as its one file. The order of its answer is left open. -/
def ReadBy {ε : Type} (t : SourceTree) (parser : List String → Except ε (List Resource)) : Prop :=
  ∀ paths, ∃ order : List String, order.Perm paths ∧ parser paths = .ok (order.map t.file)

def parser {ε : Type} (t : SourceTree) (paths : List String) : Except ε (List Resource) :=
  .ok (paths.map t.file)

theorem parser_reads {ε : Type} (t : SourceTree) : t.ReadBy (t.parser : _ → Except ε _) :=
  fun paths => ⟨paths, List.Perm.refl paths, rfl⟩

def gives (t : SourceTree) (l : Layout) (path key : String) : Option Resource :=
  Store.contribution? l path (t.file path) key

variable {t : SourceTree} {l : Layout} {live : List String}

theorem Apart.eq_of_gives (apart : t.Apart l live) {p q k : String} {a b : Resource}
    (first : p ∈ live) (second : q ∈ live) (ofP : t.gives l p k = some a)
    (ofQ : t.gives l q k = some b) : p = q := by
  by_contra differ
  have inP := OrderedMap.mem_of_get?_ofList ofP
  have inQ := OrderedMap.mem_of_get?_ofList ofQ
  exact apart p first q second differ k (List.mem_map.mpr ⟨_, inP, rfl⟩)
    (List.mem_map.mpr ⟨_, inQ, rfl⟩)

theorem Apart.mono {fewer : List String} (apart : t.Apart l live)
    (subset : ∀ p ∈ fewer, p ∈ live) : t.Apart l fewer :=
  fun p first q second differ => apart p (subset p first) q (subset q second) differ

theorem path_of_gives {p q k : String} {r : Resource} (given : t.gives l p k = some r)
    (path : r.path? = some q) : q = p := by
  have member := OrderedMap.mem_of_get?_ofList given
  have whole : (k, r) ∈ ((l.keyOf? p).map (·, t.file p)).toList → q = p := by
    intro member
    obtain ⟨key, -, eq⟩ := Option.map_eq_some_iff.mp (Option.mem_toList.mp member)
    obtain ⟨-, rfl⟩ := Prod.mk.inj eq
    rw [Resource.path?, t.kind_file] at path
    exact (Option.some.inj path).symm
  unfold Store.contributions at member
  split at member
  · -- a container has a name, so it has no path
    obtain ⟨container, -, named⟩ := List.mem_filterMap.mp member
    obtain ⟨name, found, eq⟩ := Option.map_eq_some_iff.mp named
    obtain ⟨-, rfl⟩ := Prod.mk.inj eq
    rw [Resource.path?] at path
    unfold Resource.name? at found
    split at found
    · cases found
    · rename_i kind
      rw [kind] at path
      cases path
    · rename_i kind
      rw [kind] at path
      cases path
  · exact whole member
  · exact whole member

end SourceTree

namespace Store

variable {t : SourceTree} {l : Layout} {s : Store}

theorem deleteAll_attributed (attributed : s.Attributed) {gone : List String}
    (canonical : ∀ p ∈ gone, Path.IsCanonical p) :
    (gone.foldl (·.delete l) s).Attributed := by
  induction gone generalizing s with
  | nil => exact attributed
  | cons p gone ih =>
    exact ih (delete_eq attributed l (canonical p List.mem_cons_self)).1
      fun q later => canonical q (List.mem_cons_of_mem p later)

theorem deleteAll_record? (attributed : s.Attributed) {gone : List String}
    (canonical : ∀ p ∈ gone, Path.IsCanonical p) (k : String) (e : Resource × Option String) :
    (gone.foldl (·.delete l) s).record? k = some e ↔
      s.record? k = some e ∧ ∀ p ∈ gone, e.2 ≠ some p := by
  induction gone generalizing s with
  | nil => simp
  | cons p gone ih =>
    obtain ⟨kept, entries⟩ := delete_eq attributed l (canonical p List.mem_cons_self)
    rw [List.foldl_cons, ih kept fun q later => canonical q (List.mem_cons_of_mem p later),
      entries k, Option.filter_eq_some_iff, List.forall_mem_cons, and_assoc, decide_eq_true_iff]

theorem addAll_attributed (attributed : s.Attributed) {paths : List String}
    (canonical : ∀ p ∈ paths, Path.IsCanonical p) :
    (s.addAll l (paths.map t.file)).Attributed := by
  induction paths generalizing s with
  | nil => exact attributed
  | cons p paths ih =>
    exact ih (add_eq attributed l (canonical p List.mem_cons_self) (t.kind_file p)).1
      fun q later => canonical q (List.mem_cons_of_mem p later)

theorem add_record? (attributed : s.Attributed) {p : String} (canonical : Path.IsCanonical p)
    (k : String) (e : Resource × Option String) :
    (s.add l (t.file p)).2.record? k = some e ↔
      (∃ r, t.gives l p k = some r ∧ e = (r, some p)) ∨
        (t.gives l p k = none ∧ s.record? k = some e ∧ e.2 ≠ some p) := by
  rw [(add_eq attributed l canonical (t.kind_file p)).2 k, Option.or_eq_some_iff,
    Option.map_eq_some_iff, Option.map_eq_none_iff, Option.filter_eq_some_iff, decide_eq_true_iff]
  simp only [eq_comm, SourceTree.gives]

/-- After files came in, an entry is one that they gave, or an old one that none of them gave
or was the source of. -/
theorem of_addAll_record? (attributed : s.Attributed) {paths : List String}
    (canonical : ∀ p ∈ paths, Path.IsCanonical p) {k : String} {e : Resource × Option String}
    (found : (s.addAll l (paths.map t.file)).record? k = some e) :
    (∃ p ∈ paths, ∃ r, t.gives l p k = some r ∧ e = (r, some p)) ∨
      ((∀ p ∈ paths, t.gives l p k = none) ∧ s.record? k = some e ∧
        ∀ p ∈ paths, e.2 ≠ some p) := by
  induction paths generalizing s with
  | nil => exact Or.inr ⟨by simp, found, by simp⟩
  | cons p paths ih =>
    obtain ⟨own, canonical⟩ := List.forall_mem_cons.mp canonical
    have kept := (add_eq attributed l own (t.kind_file p)).1
    rcases ih kept canonical found with ⟨q, later, given⟩ | ⟨ungiven, early, outside⟩
    · exact Or.inl ⟨q, List.mem_cons_of_mem p later, given⟩
    · rcases (add_record? attributed own k e).mp early with given | ⟨silent, old, other⟩
      · exact Or.inl ⟨p, List.mem_cons_self, given⟩
      · exact Or.inr ⟨List.forall_mem_cons.mpr ⟨silent, ungiven⟩, old,
          List.forall_mem_cons.mpr ⟨other, outside⟩⟩

theorem addAll_record? (attributed : s.Attributed) {paths : List String}
    (apart : t.Apart l paths) (canonical : ∀ p ∈ paths, Path.IsCanonical p) (k : String)
    (e : Resource × Option String) :
    (s.addAll l (paths.map t.file)).record? k = some e ↔
      (∃ p ∈ paths, ∃ r, t.gives l p k = some r ∧ e = (r, some p)) ∨
      ((∀ p ∈ paths, t.gives l p k = none) ∧ s.record? k = some e ∧
        ∀ p ∈ paths, e.2 ≠ some p) := by
  refine ⟨of_addAll_record? attributed canonical, fun entry => ?_⟩
  induction paths generalizing s with
  | nil => simpa [addAll] using entry
  | cons p paths ih =>
    obtain ⟨own, canonical⟩ := List.forall_mem_cons.mp canonical
    have kept := (add_eq attributed l own (t.kind_file p)).1
    have rest := ih kept (apart.mono fun q later => List.mem_cons_of_mem p later) canonical
    refine rest ?_
    rw [add_record? attributed own]
    rcases entry with ⟨q, member, r, given, rfl⟩ | ⟨ungiven, old, outside⟩
    · by_cases later : q ∈ paths
      · exact Or.inl ⟨q, later, r, given, rfl⟩
      · -- the file was added first and no later one gives the key
        have here : q = p := (List.mem_cons.mp member).resolve_right later
        subst here
        refine Or.inr ⟨fun other held => ?_, Or.inl ⟨r, given, rfl⟩, fun other held eq => ?_⟩
        · refine Option.eq_none_iff_forall_ne_some.mpr fun a also => later ?_
          rwa [apart.eq_of_gives List.mem_cons_self (List.mem_cons_of_mem q held) given also]
        · exact later (Option.some.inj eq ▸ held)
    · rw [List.forall_mem_cons] at ungiven outside
      exact Or.inr ⟨ungiven.2, Or.inr ⟨ungiven.1, old, outside.1⟩, outside.2⟩

structure Supplied (t : SourceTree) (l : Layout) (live : List String) (s : Store) : Prop where
  attributed : s.Attributed
  given : ∀ k r p, s.record? k = some (r, some p) → p ∈ live ∧ t.gives l p k = some r

/-- Whether a store holds what the given files contribute, and nothing else. -/
structure Holds (t : SourceTree) (l : Layout) (live : List String) (s : Store) : Prop where
  attributed : s.Attributed
  entries : ∀ k r p, s.record? k = some (r, some p) ↔ p ∈ live ∧ t.gives l p k = some r

theorem Holds.supplied {live : List String} (holds : s.Holds t l live) : s.Supplied t l live :=
  ⟨holds.attributed, fun k r p => (holds.entries k r p).mp⟩

theorem empty_holds : Holds t l [] empty where
  attributed := empty_attributed
  entries k r p := by
    constructor
    · intro found
      cases found
    · intro ⟨member, _⟩
      cases member

theorem Holds.record?_eq {live : List String} {s' : Store} (first : s.Holds t l live)
    (second : s'.Holds t l live) (k : String) : s.record? k = s'.record? k := by
  refine Option.ext fun ⟨r, source⟩ => ?_
  constructor
  · intro found
    obtain ⟨p, same, _⟩ := first.attributed.record?_eq_some found
    obtain rfl : source = some p := same
    exact (second.entries k r p).mpr ((first.entries k r p).mp found)
  · intro found
    obtain ⟨p, same, _⟩ := second.attributed.record?_eq_some found
    obtain rfl : source = some p := same
    exact (first.entries k r p).mpr ((second.entries k r p).mp found)

theorem Supplied.refresh {after : SourceTree} {live read gone paths next : List String}
    (supplied : s.Supplied t l live)
    (same : ∀ p, p ∉ read → p ∉ gone → after.file p = t.file p)
    (mem_next : ∀ p, p ∈ next ↔ (p ∈ live ∨ p ∈ read) ∧ p ∉ gone)
    (changed : ∀ p ∈ read, p ∉ gone → p ∈ paths) (present : ∀ p ∈ paths, p ∈ next)
    (canonical : ∀ p ∈ next, Path.IsCanonical p) (also : ∀ p ∈ gone, Path.IsCanonical p) :
    (Session.refresh l s gone (paths.map after.file)).Supplied after l next := by
  have kept : (gone.foldl (·.delete l) s).Attributed :=
    deleteAll_attributed supplied.attributed also
  have read_canonical : ∀ p ∈ paths, Path.IsCanonical p := fun p held =>
    canonical p (present p held)
  refine ⟨addAll_attributed kept read_canonical, fun k r p found => ?_⟩
  rcases of_addAll_record? kept read_canonical found with ⟨q, held, a, given, eq⟩ |
      ⟨-, old, unread⟩
  · obtain ⟨rfl, source⟩ := Prod.mk.inj eq
    obtain rfl := Option.some.inj source
    exact ⟨present p held, given⟩
  · obtain ⟨before, stays⟩ := (deleteAll_record? supplied.attributed also k _).mp old
    obtain ⟨held, given⟩ := supplied.given k r p before
    have here : p ∉ gone := fun removed => stays p removed rfl
    have unchanged : p ∉ read := fun changes => unread p (changed p changes here) rfl
    refine ⟨(mem_next p).mpr ⟨Or.inl held, here⟩, ?_⟩
    rw [SourceTree.gives, same p unchanged here]
    exact given

/-- One batch: what the files determine before it becomes what they determine after it, when
every changed file is parsed and only files that are there are. -/
theorem Holds.refresh {after : SourceTree} {live read gone paths : List String}
    (holds : s.Holds t l live) (same : ∀ p, p ∉ read → p ∉ gone → after.file p = t.file p)
    {next : List String} (mem_next : ∀ p, p ∈ next ↔ (p ∈ live ∨ p ∈ read) ∧ p ∉ gone)
    (apart : after.Apart l next) (changed : ∀ p ∈ read, p ∉ gone → p ∈ paths)
    (present : ∀ p ∈ paths, p ∈ next) (canonical : ∀ p ∈ next, Path.IsCanonical p)
    (also : ∀ p ∈ gone, Path.IsCanonical p) :
    (Session.refresh l s gone (paths.map after.file)).Holds after l next := by
  have supplied := holds.supplied.refresh same mem_next changed present canonical also
  refine ⟨supplied.attributed, fun k r p => ⟨supplied.given k r p, ?_⟩⟩
  have kept : (gone.foldl (·.delete l) s).Attributed := deleteAll_attributed holds.attributed also
  have read_canonical : ∀ p ∈ paths, Path.IsCanonical p := fun p held =>
    canonical p (present p held)
  rw [Session.refresh, addAll_record? kept (apart.mono present) read_canonical,
    deleteAll_record? holds.attributed also, holds.entries]
  rintro ⟨held, given⟩
  by_cases parsed : p ∈ paths
  · exact Or.inl ⟨p, parsed, r, given, rfl⟩
  · obtain ⟨before, stays⟩ := (mem_next p).mp held
    have unread : p ∉ read := fun read => parsed (changed p read stays)
    refine Or.inr ⟨fun q other => ?_, ⟨⟨before.resolve_right unread, ?_⟩, ?_⟩, ?_⟩
    · refine Option.eq_none_iff_forall_ne_some.mpr fun a also => parsed ?_
      rwa [apart.eq_of_gives held (present q other) given also]
    · rw [SourceTree.gives, ← same p unread stays]
      exact given
    · intro q removed eq
      exact stays (Option.some.inj eq ▸ removed)
    · intro q other eq
      exact parsed (Option.some.inj eq ▸ other)

theorem Holds.build {paths : List String} (apart : t.Apart l paths)
    (canonical : ∀ p ∈ paths, Path.IsCanonical p) {order : List String}
    (answer : order.Perm paths) : (empty.addAll l (order.map t.file)).Holds t l paths := by
  have all_read : ∀ p, p ∈ paths ↔ (p ∈ ([] : List String) ∨ p ∈ paths) ∧
      p ∉ ([] : List String) := by simp
  refine empty_holds.refresh (fun _ _ _ => rfl) all_read apart ?_ ?_ canonical ?_
  · exact fun p held _ => answer.mem_iff.mpr held
  · exact fun p held => answer.mem_iff.mp held
  · simp

end Store

namespace Changes

def liveAfter (c : Changes) (root : String) (live : List String) : List String :=
  (live ++ c.toRead root).filter (· ∉ c.gone root)

theorem mem_liveAfter (c : Changes) (root : String) (live : List String) (p : String) :
    p ∈ c.liveAfter root live ↔ (p ∈ live ∨ p ∈ c.toRead root) ∧ p ∉ c.gone root := by
  simp [liveAfter, or_and_right]

variable {root : String}

theorem located_canonical (absolute : Path.isAbsolute root = true) (addresses : List String) :
    ∀ p ∈ addresses.map (locate root), Path.IsCanonical p := by
  intro p member
  obtain ⟨address, -, rfl⟩ := List.mem_map.mp member
  exact Path.join_isCanonical absolute _

theorem gone_canonical (absolute : Path.isAbsolute root = true) (c : Changes) :
    ∀ p ∈ c.gone root, Path.IsCanonical p :=
  located_canonical absolute c.deleted

theorem toRead_canonical (absolute : Path.isAbsolute root = true) (c : Changes) :
    ∀ p ∈ c.toRead root, Path.IsCanonical p := by
  intro p member
  have located := located_canonical absolute (c.created ++ c.updated)
  exact located p ((Path.mem_distinctFiles located p).mp member)

theorem liveAfter_canonical (absolute : Path.isAbsolute root = true) (c : Changes)
    {live : List String} (canonical : ∀ p ∈ live, Path.IsCanonical p) :
    ∀ p ∈ c.liveAfter root live, Path.IsCanonical p := by
  intro p member
  rcases ((c.mem_liveAfter root live p).mp member).1 with old | new
  · exact canonical p old
  · exact toRead_canonical absolute c p new

end Changes

namespace Session

variable {ε : Type} {t : SourceTree} {parser : List String → Except ε (List Resource)}

theorem run_build {s : Session} (idle : s.building = false) {paths : List String}
    {rs : List Resource} (answered : parser (paths.map s.layout.resolve) = .ok rs) :
    (s.run parser (.build paths)).1 = s.install (Store.empty.addAll s.layout rs) := by
  obtain ⟨layout, parsed, resolved, catalog, building, waiting⟩ := s
  obtain rfl : building = false := idle
  simp only [run, call, answer, Bool.false_eq_true, ↓reduceIte]
  rw [answered]

theorem run_reindex_answered {s : Session} {changes : Changes} {rs : List Resource}
    (answered : parser (s.toParse changes) = .ok rs) (unasked : s.toParse changes = [] → rs = []) :
    let finished := s.finishReindex s.parsed s.catalog (changes.gone s.layout.root) rs
    s.run parser (.reindex changes) = (finished.1, some (.ok (.changed finished.2))) := by
  by_cases nothing : s.toParse changes = []
  · obtain rfl := unasked nothing
    rw [run, call_reindex_finished nothing]
  · rw [run, call_reindex_parsing nothing]
    simp only [Session.answer]
    rw [answered]

theorem run_reindex_eq (read : t.ReadBy parser) (s : Session) (changes : Changes) :
    ∃ order : List String, order.Perm (s.toParse changes) ∧
      let finished := s.finishReindex s.parsed s.catalog (changes.gone s.layout.root)
        (order.map t.file)
      s.run parser (.reindex changes) = (finished.1, some (.ok (.changed finished.2))) := by
  obtain ⟨order, answer, parsed⟩ := read (s.toParse changes)
  refine ⟨order, answer, run_reindex_answered parsed fun nothing => ?_⟩
  rw [nothing] at answer
  rw [answer.eq_nil, List.map_nil]

theorem run_reindex (read : t.ReadBy parser) (s : Session) (changes : Changes) :
    ∃ order : List String, order.Perm (s.toParse changes) ∧
      (s.run parser (.reindex changes)).1 = s.install
        (refresh s.layout s.parsed (changes.gone s.layout.root) (order.map t.file)) := by
  obtain ⟨order, answer, run⟩ := run_reindex_eq read s changes
  refine ⟨order, answer, ?_⟩
  rw [run]
  rfl

theorem mem_dependents {l : Layout} {s : Store} {marked : List String} {p : String}
    (member : p ∈ s.dependents l marked) : ∃ k r, s.get? k = some r ∧ r.path? = some p := by
  obtain ⟨r, stored, found⟩ := List.mem_filterMap.mp member
  obtain ⟨⟨k, _⟩, held, rfl⟩ := List.mem_map.mp stored
  refine ⟨k, _, (OrderedMap.get?_eq_some_iff _ _ _).mpr held, ?_⟩
  split at found
  · exact found
  · cases found

theorem mem_live_of_mem_dependents {l : Layout} {s : Store} {live marked : List String}
    {p : String} (supplied : s.Supplied t l live) (member : p ∈ s.dependents l marked) :
    p ∈ live := by
  obtain ⟨k, r, found, path⟩ := mem_dependents member
  have entry : s.record? k = some (r, s.source? k) := by rw [Store.record?, found, Option.map_some]
  obtain ⟨q, source, _⟩ := supplied.attributed.record?_eq_some entry
  obtain ⟨held, given⟩ := supplied.given k r q (entry.trans (by rw [← source]))
  rwa [SourceTree.path_of_gives given path]

theorem mem_toParse {s : Session} {live : List String}
    (supplied : s.parsed.Supplied t s.layout live)
    (absolute : Path.isAbsolute s.layout.root = true)
    (canonical : ∀ p ∈ live, Path.IsCanonical p) (changes : Changes) (p : String) :
    p ∈ s.toParse changes ↔ (p ∈ changes.toRead s.layout.root ∨
      p ∈ s.parsed.dependents s.layout (s.marked
        (changes.gone s.layout.root ++ changes.toRead s.layout.root))) ∧
      p ∉ changes.gone s.layout.root := by
  have candidates : ∀ q ∈ changes.toRead s.layout.root ++ s.parsed.dependents s.layout (s.marked
      (changes.gone s.layout.root ++ changes.toRead s.layout.root)), Path.IsCanonical q := by
    intro q member
    rcases List.mem_append.mp member with read | dependent
    · exact Changes.toRead_canonical absolute changes q read
    · exact canonical q (mem_live_of_mem_dependents supplied dependent)
  rw [toParse, List.mem_filter, Path.mem_distinctFiles candidates, List.mem_append]
  apply and_congr_right
  intro candidate
  have own := candidates p (List.mem_append.mpr candidate)
  rw [Bool.not_eq_true', List.any_eq_false]
  constructor
  · intro apart removed
    exact apart p removed (decide_eq_true (SameFile.refl p))
  · intro stays q removed same
    have eq : p = q :=
      own.eq_of_sameFile (Changes.gone_canonical absolute changes q removed)
        (of_decide_eq_true same)
    exact stays (eq ▸ removed)

section Parsing

variable {s : Session} {live : List String} {changes : Changes}
  (supplied : s.parsed.Supplied t s.layout live)
  (absolute : Path.isAbsolute s.layout.root = true)
  (canonical : ∀ p ∈ live, Path.IsCanonical p)

include supplied absolute canonical

theorem mem_toParse_of_changed {p : String} (changed : p ∈ changes.toRead s.layout.root)
    (stays : p ∉ changes.gone s.layout.root) : p ∈ s.toParse changes :=
  (mem_toParse supplied absolute canonical changes p).mpr ⟨Or.inl changed, stays⟩

theorem mem_liveAfter_of_mem_toParse {p : String} (member : p ∈ s.toParse changes) :
    p ∈ changes.liveAfter s.layout.root live := by
  obtain ⟨reason, stays⟩ := (mem_toParse supplied absolute canonical changes p).mp member
  refine (changes.mem_liveAfter _ live p).mpr ⟨?_, stays⟩
  rcases reason with changed | dependent
  · exact Or.inr changed
  · exact Or.inl (mem_live_of_mem_dependents supplied dependent)

end Parsing

/-- The sessions that a build and any number of batches lead to, with what the paths read as
and the files that are there. Between two calls a path may come to read differently only when
the next batch reports it. -/
inductive Tracked (l : Layout) : SourceTree → List String → Session → Prop
  | built {ε : Type} {first : Session} (started : start l = .ok first) {t : SourceTree}
      {parser : List String → Except ε (List Resource)} (read : t.ReadBy parser)
      {files : List String} (apart : t.Apart l (files.map l.resolve)) :
      Tracked l t (files.map l.resolve) (first.run parser (.build files)).1
  | reindexed {ε : Type} {t : SourceTree} {live : List String} {s : Session}
      (before : Tracked l t live s) {next : SourceTree}
      {parser : List String → Except ε (List Resource)} (read : next.ReadBy parser)
      {changes : Changes}
      (same : ∀ p, p ∉ changes.toRead l.root → p ∉ changes.gone l.root →
        next.file p = t.file p)
      (apart : next.Apart l (changes.liveAfter l.root live)) :
      Tracked l next (changes.liveAfter l.root live) (s.run parser (.reindex changes)).1

theorem start_absolute {l : Layout} {first : Session} (started : start l = .ok first) :
    Path.isAbsolute l.root = true := by
  unfold start at started
  split at started
  · cases started
  · rename_i faultless
    exact ((Layout.fault?_eq_none_iff l).mp faultless).1

theorem resolve_canonical {l : Layout} (absolute : Path.isAbsolute l.root = true)
    (files : List String) : ∀ p ∈ files.map l.resolve, Path.IsCanonical p := by
  intro p member
  obtain ⟨file, -, rfl⟩ := List.mem_map.mp member
  exact Path.join_isCanonical absolute file

structure Faithful (l : Layout) (t : SourceTree) (live : List String) (s : Session) : Prop where
  layout : s.layout = l
  absolute : Path.isAbsolute l.root = true
  canonical : ∀ p ∈ live, Path.IsCanonical p
  apart : t.Apart l live
  holds : s.parsed.Holds t l live

theorem build_faithful {s : Session} (absolute : Path.isAbsolute s.layout.root = true)
    (idle : s.building = false) (read : t.ReadBy parser) {files : List String}
    (apart : t.Apart s.layout (files.map s.layout.resolve)) :
    (s.run parser (.build files)).1.Faithful s.layout t (files.map s.layout.resolve) := by
  have canonical := resolve_canonical absolute files
  obtain ⟨order, answer, parsed⟩ := read (files.map s.layout.resolve)
  rw [run_build idle parsed]
  exact ⟨rfl, absolute, canonical, apart, Store.Holds.build apart canonical answer⟩

theorem built_faithful {l : Layout} {first : Session} (started : start l = .ok first)
    (read : t.ReadBy parser) {files : List String} (apart : t.Apart l (files.map l.resolve)) :
    (first.run parser (.build files)).1.Faithful l t (files.map l.resolve) := by
  have fresh := start_eq_ok started
  have layout : first.layout = l := by rw [fresh]
  have idle : first.building = false := by rw [fresh]
  have absolute := start_absolute started
  subst layout
  exact build_faithful absolute idle read apart

theorem Faithful.reindexed {l : Layout} {live : List String} {s : Session}
    (before : s.Faithful l t live) {next : SourceTree} (read : next.ReadBy parser)
    {changes : Changes}
    (same : ∀ p, p ∉ changes.toRead l.root → p ∉ changes.gone l.root → next.file p = t.file p)
    (apart : next.Apart l (changes.liveAfter l.root live)) :
    (s.run parser (.reindex changes)).1.Faithful l next (changes.liveAfter l.root live) := by
  obtain ⟨rfl, absolute, canonical, -, holds⟩ := before
  obtain ⟨order, answer, run⟩ := run_reindex read s changes
  have live_canonical := Changes.liveAfter_canonical absolute changes canonical
  rw [run]
  refine ⟨rfl, absolute, live_canonical, apart, holds.refresh same
    (changes.mem_liveAfter _ live) apart ?_ ?_ live_canonical
    (Changes.gone_canonical absolute changes)⟩
  · intro p changed stays
    exact answer.mem_iff.mpr
      (mem_toParse_of_changed holds.supplied absolute canonical changed stays)
  · intro p member
    exact mem_liveAfter_of_mem_toParse holds.supplied absolute canonical (answer.mem_iff.mp member)

theorem Tracked.faithful {l : Layout} {live : List String} {s : Session}
    (tracked : Tracked l t live s) : s.Faithful l t live := by
  induction tracked with
  | built started read apart => exact built_faithful started read apart
  | reindexed _ read same apart before => exact before.reindexed read same apart

/-- After a build and any number of batches, the parsed store is, as a map from keys to
resources and their sources, the one that a build over the files that are there gives. -/
theorem reindex_tracks_build {l : Layout} {first : Session} (started : start l = .ok first)
    {live : List String} {s : Session} (tracked : Tracked l t live s) (read : t.ReadBy parser)
    (k : String) :
    s.parsed.record? k = (first.run parser (.build live)).1.parsed.record? k := by
  obtain ⟨-, -, canonical, apart, holds⟩ := tracked.faithful
  have resolved : live.map l.resolve = live :=
    (List.map_congr_left fun p held => (canonical p held).join_eq l.root).trans (List.map_id live)
  have rebuilt : (first.run parser (.build live)).1.Faithful l t (live.map l.resolve) :=
    built_faithful started read (by rwa [resolved])
  rw [resolved] at rebuilt
  exact holds.record?_eq rebuilt.holds k

section Sample

def declaredIn (holder : String) : SourceTree where
  file p := ⟨.file p, [], [], [], [],
    if p = holder then [⟨.declaredModule "m", [], [], [], [], [], none⟩] else [], none⟩
  kind_file _ := rfl

def projectFiles : List String := ["a.ts", "typings/one.d.ts", "typings/two.d.ts"]

def moved : Changes := ⟨[], ["typings/one.d.ts", "typings/two.d.ts"], ["a.ts"]⟩

def projectBuilt : Session :=
  (idle.run ((declaredIn "/ws/typings/one.d.ts").parser (ε := Unit)) (.build projectFiles)).1

def projectMoved : Session :=
  (projectBuilt.run ((declaredIn "/ws/typings/two.d.ts").parser (ε := Unit)) (.reindex moved)).1

theorem projectBuilt_tracked :
    Tracked project (declaredIn "/ws/typings/one.d.ts") (projectFiles.map project.resolve)
      projectBuilt :=
  .built start_project (SourceTree.parser_reads _) (by decide +kernel)

theorem moved_keeps : ∀ p, p ∉ moved.toRead project.root → p ∉ moved.gone project.root →
    (declaredIn "/ws/typings/two.d.ts").file p = (declaredIn "/ws/typings/one.d.ts").file p := by
  have changed : moved.toRead project.root = ["/ws/typings/one.d.ts", "/ws/typings/two.d.ts"] := by
    decide +kernel
  intro p unread _
  rw [changed] at unread
  simp only [List.mem_cons, List.not_mem_nil, or_false, not_or] at unread
  simp [declaredIn, unread]

theorem reindex_tracks_build_moved :
    start project = .ok idle ∧
    Tracked project (declaredIn "/ws/typings/two.d.ts")
      (moved.liveAfter project.root (projectFiles.map project.resolve)) projectMoved ∧
    projectMoved.parsed.source? "m" = some "/ws/typings/two.d.ts" ∧
    ∀ k, projectMoved.parsed.record? k =
      (idle.run ((declaredIn "/ws/typings/two.d.ts").parser (ε := Unit))
        (.build (moved.liveAfter project.root (projectFiles.map project.resolve)))).1.parsed.record?
          k := by
  have tracked : Tracked project (declaredIn "/ws/typings/two.d.ts")
      (moved.liveAfter project.root (projectFiles.map project.resolve)) projectMoved :=
    .reindexed projectBuilt_tracked (SourceTree.parser_reads _) moved_keeps (by decide +kernel)
  refine ⟨start_project, tracked, by decide +kernel, fun k => ?_⟩
  exact reindex_tracks_build start_project tracked (SourceTree.parser_reads _) k

end Sample

end Session

end ExportIndex
