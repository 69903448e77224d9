import ExportIndex.Proofs.Listing
import ExportIndex.Proofs.Tracking
import ExportIndex.Proofs.Arrangement
import ExportIndex.Proofs.Completion

/-!
Reading files again that did not change. What is stored stays the same, but the
keys of those files move behind all others, and two things go by that order: keys
of equal length are taken up in it, and of two entries of one origin the first
one is listed. So the catalog may change although no file did; it does not where
neither of the two makes a difference.
-/
namespace ExportIndex

namespace Store

open Resolution

variable {l : Layout} {s t : Store}

/-- Whether the order of the keys makes no difference between two stores that hold the same:
nothing competes for a stored resource, or the keys are taken up in the same order, and keys of
one origin stand in the same order. -/
structure Alike (l : Layout) (s t : Store) : Prop where
  turns : s.Forest l ∨ order t = order s
  origins : ∀ origin, t.keys.filter (originOfKey · = origin) =
    s.keys.filter (originOfKey · = origin)

theorem filter_origin_of_nodup (perm : t.keys.Perm s.keys)
    (distinct : (s.keys.map originOfKey).Nodup) (origin : String) :
    t.keys.filter (originOfKey · = origin) = s.keys.filter (originOfKey · = origin) := by
  have short : (s.keys.filter (originOfKey · = origin)).length ≤ 1 := by
    have once : ((s.keys.map originOfKey).filter (· = origin)).length ≤ 1 := by
      rw [List.filter_eq, List.length_replicate]
      exact List.nodup_iff_count_le_one.mp distinct origin
    rwa [List.filter_map, List.length_map] at once
  have same := perm.filter (originOfKey · = origin)
  match found : s.keys.filter (originOfKey · = origin), short with
  | [], _ =>
    rw [found] at same
    exact same.eq_nil
  | [key], _ =>
    rw [found] at same
    exact List.perm_singleton.mp same

theorem settled_owned_congr (same : ∀ key, t.get? key = s.get? key)
    (turns : s.Forest l ∨ order t = order s) {key : String} (held : s.contains key = true) :
    (t.settled l).owned (.top key) = (s.settled l).owned (.top key) := by
  rcases turns with forest | orders
  · obtain ⟨whole, rest⟩ := forest.settled_owned same held
    obtain ⟨whole', rest'⟩ := forest.settled_owned (fun _ => rfl) held
    by_cases drawn : ∃ taker e, s.Takes l taker e key
    · obtain ⟨taker, e, takes⟩ := drawn
      rw [rest taker e takes, rest' taker e takes]
    · have free : ∀ taker, ¬ s.Draws l taker key := fun taker ⟨e, takes⟩ =>
        drawn ⟨taker, e, takes⟩
      rw [whole free, whole' free]
  · rw [settled_congr same orders]

theorem offersUnder_resolve_congr (same : ∀ key, t.get? key = s.get? key)
    (turns : s.Forest l ∨ order t = order s) (key : String) :
    Catalog.offersUnder (t.resolve l) key = Catalog.offersUnder (s.resolve l) key := by
  unfold Catalog.offersUnder
  rw [resolve_eq, resolve_eq, get?_withOwned, get?_withOwned, same]
  cases stored : s.get? key with
  | none => rfl
  | some r =>
    have held := contains_iff_exists.mpr ⟨r, stored⟩
    simp only [Option.map_some, Catalog.offers_withOwned, settled_owned_congr same turns held]

theorem Alike.same_catalog (alike : s.Alike l t) (same : ∀ key, t.get? key = s.get? key) :
    (∀ name, (Catalog.ofStore (t.resolve l)).contains name =
      (Catalog.ofStore (s.resolve l)).contains name) ∧
    ∀ name e, e ∈ (Catalog.ofStore (t.resolve l)).under name ↔
      e ∈ (Catalog.ofStore (s.resolve l)).under name := by
  have offered := offersUnder_resolve_congr same alike.turns
  have perm : (t.resolve l).keys.Perm (s.resolve l).keys := by
    rw [keys_resolve, keys_resolve]
    exact keys_perm same
  have origins : ∀ origin, (t.resolve l).keys.filter (originOfKey · = origin) =
      (s.resolve l).keys.filter (originOfKey · = origin) := by
    rw [keys_resolve, keys_resolve]
    exact alike.origins
  constructor
  · exact Catalog.contains_congr offered perm
  · exact Catalog.mem_under_congr (resolveAfter_clean l [] s) (resolveAfter_clean l [] t) offered
      perm origins

end Store

namespace Session

variable {ε : Type} {t : SourceTree} {parser : List String → Except ε (List Resource)}

theorem Faithful.reread {l : Layout} {live : List String} {s : Session}
    (before : s.Faithful l t live) (read : t.ReadBy parser) {changes : Changes}
    (stays : changes.deleted = []) (listed : ∀ p ∈ changes.toRead l.root, p ∈ live) (key : String) :
    (s.run parser (.reindex changes)).1.parsed.record? key = s.parsed.record? key := by
  have none : changes.gone l.root = [] := by
    rw [Changes.gone, stays]
    rfl
  have members : ∀ p, p ∈ changes.liveAfter l.root live ↔ p ∈ live := by
    intro p
    rw [changes.mem_liveAfter, none]
    simp only [List.not_mem_nil, not_false_eq_true, and_true]
    exact or_iff_left_of_imp (listed p)
  have apart := before.apart.mono fun p member => (members p).mp member
  have after := (before.reindexed read (fun _ _ _ => rfl) apart).holds
  have holds : (s.run parser (.reindex changes)).1.parsed.Holds t l live := by
    refine ⟨after.attributed, fun k r p => ?_⟩
    rw [after.entries, members]
  exact holds.record?_eq before.holds key

theorem run_reindex_catalog (read : t.ReadBy parser) (s : Session) (changes : Changes) :
    let again := s.run parser (.reindex changes)
    let new := Catalog.ofStore (again.1.parsed.resolve s.layout)
    again.1.catalog = some new ∧
      again.2 = some (.ok (.changed (.between (s.catalog.getD .empty) new))) := by
  obtain ⟨order, -, run⟩ := run_reindex_eq read s changes
  rw [run]
  exact ⟨rfl, rfl⟩

/-- When some files of a build are read again and none of them changed, what is stored stays the
same. Where the order of the keys makes no difference either, nothing is reported to have changed,
and the catalog has the same names with the same entries as before. -/
theorem reindex_unchanged {s : Session} (valid : s.layout.fault? = none)
    (idle : s.building = false) (read : t.ReadBy parser) {files : List String}
    (apart : t.Apart s.layout (files.map s.layout.resolve)) {changes : Changes}
    (stays : changes.deleted = [])
    (listed : ∀ p ∈ changes.toRead s.layout.root, p ∈ files.map s.layout.resolve) :
    let built := (s.run parser (.build files)).1
    let again := built.run parser (.reindex changes)
    (∀ key, again.1.parsed.record? key = built.parsed.record? key) ∧
    (built.parsed.Alike s.layout again.1.parsed → ∃ old new delta,
      built.catalog = some old ∧ again.1.catalog = some new ∧
      again.2 = some (.ok (.changed delta)) ∧ delta.isEmpty = true ∧
      (∀ name, new.contains name = old.contains name) ∧
      ∀ name e, e ∈ new.under name ↔ e ∈ old.under name) := by
  intro built again
  have absolute := ((Layout.fault?_eq_none_iff s.layout).mp valid).1
  have faithful : built.Faithful s.layout t _ := build_faithful absolute idle read apart
  have same := faithful.reread read stays listed
  refine ⟨same, ?_⟩
  intro alike
  obtain ⟨answered, -, parsed⟩ := read (files.map s.layout.resolve)
  have before : built.catalog = some (.ofStore (built.parsed.resolve built.layout)) := by
    unfold built
    rw [run_build idle parsed]
    rfl
  obtain ⟨after, outcome⟩ := run_reindex_catalog read built changes
  rw [before, Option.getD_some] at outcome
  have stored : ∀ key, again.1.parsed.get? key = built.parsed.get? key := by
    intro key
    have records := congrArg (Option.map Prod.fst) (same key)
    simpa [Store.record?, Function.comp_def] using records
  rw [← faithful.layout] at alike
  obtain ⟨names, entries⟩ := alike.same_catalog stored
  exact ⟨_, _, _, before, after, outcome, Delta.isEmpty_between names entries, names, entries⟩

section Sample

def sharing : SourceTree where
  file p := ⟨.file p, if p = "/ws/shared.ts" then [exportedClass "Thing"] else [],
    if p = "/ws/x.ts" ∨ p = "/ws/y.ts" then [.all "./shared" none] else [], [], [], [], none⟩
  kind_file _ := rfl

def sharingFiles : List String := ["x.ts", "y.ts", "shared.ts"]

def sharingBuilt : Session :=
  (idle.run (sharing.parser (ε := Unit)) (.build sharingFiles)).1

def saved (file : String) : Changes := ⟨[], [file], []⟩

theorem sharing_apart : sharing.Apart project (sharingFiles.map project.resolve) := by
  decide +kernel

/-- The first of the two files is saved as it was. The other one gets the class now. -/
theorem saving_changes_catalog :
    sharing.Apart project (sharingFiles.map project.resolve) ∧ (saved "x.ts").deleted = [] ∧
    (∀ p ∈ (saved "x.ts").toRead project.root, p ∈ sharingFiles.map project.resolve) ∧
    ∃ delta, (sharingBuilt.run (sharing.parser (ε := Unit)) (.reindex (saved "x.ts"))).2 =
      some (.ok (.changed delta)) ∧ delta.isEmpty = false ∧ delta.updated.keys = ["Thing"] := by
  refine ⟨sharing_apart, rfl, by decide +kernel, _,
    (run_reindex_catalog sharing.parser_reads sharingBuilt (saved "x.ts")).2, ?_, ?_⟩
  · decide +kernel
  · decide +kernel

theorem saving_leaves_catalog :
    sharingBuilt.parsed.Alike project
      (sharingBuilt.run (sharing.parser (ε := Unit)) (.reindex (saved "y.ts"))).1.parsed ∧
    ∃ delta, (sharingBuilt.run (sharing.parser (ε := Unit)) (.reindex (saved "y.ts"))).2 =
      some (.ok (.changed delta)) ∧ delta.isEmpty = true := by
  have alike : sharingBuilt.parsed.Alike project
      (sharingBuilt.run (sharing.parser (ε := Unit)) (.reindex (saved "y.ts"))).1.parsed := by
    constructor
    · exact Or.inr (by decide +kernel)
    · apply Store.filter_origin_of_nodup
      · decide +kernel
      · decide +kernel
  have valid : idle.layout.fault? = none := by decide
  have listed : ∀ p ∈ (saved "y.ts").toRead idle.layout.root,
      p ∈ sharingFiles.map idle.layout.resolve := by decide +kernel
  obtain ⟨-, unchanged⟩ := reindex_unchanged valid rfl (sharing.parser_reads (ε := Unit))
    sharing_apart rfl listed
  obtain ⟨old, new, delta, -, -, outcome, empty, -⟩ := unchanged alike
  exact ⟨alike, delta, outcome, empty⟩

end Sample

end Session

end ExportIndex
