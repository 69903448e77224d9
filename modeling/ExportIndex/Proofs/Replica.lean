import ExportIndex.Proofs.Unchanged

/-!
A copy of the catalog that follows by deltas alone. A delta takes no notice of
order and repetition, so a patched copy may come to list entries in another
order. It lists the same ones as often, since a catalog has no entry twice under
a name, and every delta is taken against the catalog that was published before.
-/
namespace ExportIndex

namespace Catalog

def Distinct (c : Catalog) : Prop := ∀ name, (c.under name).Pairwise fun d e => ¬ d.Clashes e

theorem Distinct.add {c : Catalog} (distinct : c.Distinct) (name : String) (e : Entry) :
    (c.add name e).Distinct := by
  intro n
  rw [under_add]
  split
  · rename_i accepted
    obtain ⟨rfl, free⟩ := accepted
    apply List.pairwise_append.mpr
    refine ⟨distinct name, List.pairwise_singleton _ e, ?_⟩
    intro d listed last member clash
    obtain rfl := List.mem_singleton.mp member
    have refused : (c.under name).any (Entry.Clashes · last) = true :=
      List.any_eq_true.mpr ⟨d, listed, decide_eq_true clash⟩
    simp [accepts, refused] at free
  · exact distinct n

theorem distinct_ofOffers (os : List (String × Entry)) : (ofOffers os).Distinct := by
  induction os using List.reverseRecOn with
  | nil => exact fun _ => List.Pairwise.nil
  | append_singleton os o ih =>
    rw [ofOffers_snoc]
    exact ih.add o.1 o.2

theorem distinct_ofStore (s : Store) : (ofStore s).Distinct := distinct_ofOffers _

theorem Distinct.nodup {c : Catalog} (distinct : c.Distinct) (name : String) :
    (c.under name).Nodup := by
  apply (distinct name).imp
  rintro d e free rfl
  exact free (.refl d)

/-- Whether a copy has the names of a catalog, with the same entries as often under each. -/
structure Mirrors (copy c : Catalog) : Prop where
  names (name : String) : copy.contains name = c.contains name
  entries (name : String) : (copy.under name).Perm (c.under name)

theorem Mirrors.refl (c : Catalog) : c.Mirrors c := ⟨fun _ => rfl, fun _ => .refl _⟩

end Catalog

namespace OrderedMap

variable {κ α : Type} [DecidableEq κ]

theorem get?_foldl_insert {n : OrderedMap κ α} {es : List (κ × α)}
    (agree : ∀ e ∈ es, n.get? e.1 = some e.2) (m : OrderedMap κ α) (k : κ) :
    (es.foldl (fun m e => m.insert e.1 e.2) m).get? k =
      if k ∈ es.map Prod.fst then n.get? k else m.get? k := by
  induction es generalizing m with
  | nil => simp
  | cons e es ih =>
    have later := ih (fun e member => agree e (List.mem_cons_of_mem _ member)) (m.insert e.1 e.2)
    rw [List.foldl_cons, later, get?_insert]
    by_cases here : e.1 = k
    · subst here
      simp [agree e List.mem_cons_self]
    · rw [if_neg here, List.map_cons]
      simp only [List.mem_cons, Ne.symm here, false_or]

theorem mem_keys_filter {p : κ → α → Bool} {m : OrderedMap κ α} {k : κ} :
    k ∈ (m.filter p).entries.map Prod.fst ↔ (m.get? k).any (p k) = true := by
  rw [Option.any_eq_true]
  constructor
  · intro listed
    obtain ⟨e, member, rfl⟩ := List.mem_map.mp listed
    obtain ⟨stored, kept⟩ := List.mem_filter.mp member
    exact ⟨e.2, (m.get?_eq_some_iff _ _).mpr stored, kept⟩
  · intro ⟨a, found, kept⟩
    have stored := (m.get?_eq_some_iff _ _).mp found
    exact List.mem_map.mpr ⟨(k, a), List.mem_filter.mpr ⟨stored, kept⟩, rfl⟩

end OrderedMap

namespace Delta

theorem mem_set_between {old new : Catalog} {name : String} :
    name ∈ ((between old new).added.entries ++ (between old new).updated.entries).map Prod.fst ↔
      ∃ now, new.get? name = some now ∧
        (old.get? name = none ∨ ∃ before, old.get? name = some before ∧ differ before now) := by
  rw [List.map_append, List.mem_append]
  unfold between
  rw [OrderedMap.mem_keys_filter, OrderedMap.mem_keys_filter]
  change (new.get? name).any _ = true ∨ (new.get? name).any _ = true ↔ _
  cases new.get? name with
  | none => simp
  | some now =>
    cases found : old.get? name with
    | none =>
      have absent : old.contains name = false := congrArg Option.isSome found
      simp [absent]
    | some before =>
      have known : old.contains name = true := congrArg Option.isSome found
      simp [known]

theorem mem_deleted_between {old new : Catalog} {name : String} :
    name ∈ (between old new).deleted ↔ new.get? name = none ∧ (old.get? name).isSome = true := by
  unfold between
  rw [List.mem_filter, Bool.not_eq_true', and_comm]
  apply and_congr
  · exact Option.isSome_eq_false_iff.trans Option.isNone_iff_eq_none
  · exact (old.lists.contains_iff name).symm

theorem get?_patch_between (old new copy : Catalog) (name : String) :
    ((between old new).patch copy).get? name =
      match new.get? name, old.get? name with
      | none, none => copy.get? name
      | none, some _ => none
      | some now, none => some now
      | some now, some before => if differ before now then some now else copy.get? name := by
  have agree : ∀ e ∈ (between old new).added.entries ++ (between old new).updated.entries,
      new.lists.get? e.1 = some e.2 := by
    intro e listed
    apply (new.lists.get?_eq_some_iff e.1 e.2).mpr
    rcases List.mem_append.mp listed with added | updated
    · exact (List.mem_filter.mp added).1
    · exact (List.mem_filter.mp updated).1
  have patched : ((between old new).patch copy).get? name =
      if name ∈ ((between old new).added.entries ++ (between old new).updated.entries).map Prod.fst
      then new.get? name
      else if name ∈ (between old new).deleted then none else copy.get? name := by
    unfold patch Catalog.get?
    rw [OrderedMap.get?_foldl_insert agree, OrderedMap.get?_foldl_erase]
  rw [patched]
  simp only [mem_set_between, mem_deleted_between]
  cases new.get? name with
  | none => cases old.get? name <;> simp
  | some now => cases old.get? name <;> simp

theorem perm_of_not_differ {before now : List Entry} (distinct : before.Nodup)
    (distinct' : now.Nodup) (same : differ before now = false) : before.Perm now := by
  apply (List.perm_ext_iff_of_nodup distinct distinct').mpr
  intro e
  simp only [differ, Bool.or_eq_false_iff, List.any_eq_false, Bool.not_eq_true,
    Bool.not_eq_false', List.contains_iff_mem] at same
  exact ⟨same.1 e, same.2 e⟩

theorem mirrors_patch {old new copy : Catalog} (before : old.Distinct) (after : new.Distinct)
    (mirrors : copy.Mirrors old) : ((between old new).patch copy).Mirrors new := by
  have both (name : String) :
      ((between old new).patch copy).contains name = new.contains name ∧
        (((between old new).patch copy).under name).Perm (new.under name) := by
    have names : (copy.get? name).isSome = (old.get? name).isSome := mirrors.names name
    have entries := mirrors.entries name
    have distinct := before.nodup name
    have distinct' := after.nodup name
    change (((between old new).patch copy).get? name).isSome = (new.get? name).isSome ∧ _
    unfold Catalog.under at entries distinct distinct' ⊢
    rw [get?_patch_between]
    cases now : new.get? name with
    | none =>
      cases found : old.get? name with
      | none =>
        rw [found, Option.isSome_none, Option.isSome_eq_false_iff, Option.isNone_iff_eq_none]
          at names
        simp [names]
      | some list => simp
    | some list =>
      cases found : old.get? name with
      | none => simp
      | some earlier =>
        rw [found] at names entries distinct
        rw [now] at distinct'
        cases changed : differ earlier list with
        | true => simp [changed]
        | false =>
          have kept := perm_of_not_differ distinct distinct' changed
          simp only [changed, Bool.false_eq_true, ↓reduceIte]
          exact ⟨names, entries.trans kept⟩
  exact ⟨fun name => (both name).1, fun name => (both name).2⟩

end Delta

namespace Session

variable {ε : Type}

structure Batch (ε : Type) where
  changes : Changes
  parser : List String → Except ε (List Resource)

def receive (copy : Catalog) : Option (Except ε Outcome) → Catalog
  | some (.ok (.changed delta)) => delta.patch copy
  | _ => copy

def reindexWith (state : Session × Catalog) (batch : Batch ε) : Session × Catalog :=
  let answered := state.1.run batch.parser (.reindex batch.changes)
  (answered.1, receive state.2 answered.2)

/-- A batch fails and changes nothing that is published, or it publishes the catalog of a new
store and reports the difference to the one before. -/
theorem run_reindex_cases (s : Session) (batch : Batch ε) :
    (∃ e, s.run batch.parser (.reindex batch.changes) = (s, some (.error e))) ∨
    ∃ parsed, let new := Catalog.ofStore (Store.resolve s.layout parsed)
      (s.run batch.parser (.reindex batch.changes)).1.catalog = some new ∧
      (s.run batch.parser (.reindex batch.changes)).2 =
        some (.ok (.changed (.between (s.catalog.getD .empty) new))) := by
  by_cases nothing : s.toParse batch.changes = []
  · rw [run, call_reindex_finished nothing]
    exact Or.inr ⟨_, rfl, rfl⟩
  · rw [run, call_reindex_parsing nothing]
    simp only [answer]
    cases parsed : batch.parser (s.toParse batch.changes) with
    | error e => exact Or.inl ⟨e, rfl⟩
    | ok rs => exact Or.inr ⟨_, rfl, rfl⟩

/-- What every batch keeps: there is a catalog without repetition, and the copy mirrors it. -/
def InSync (state : Session × Catalog) : Prop :=
  ∃ current, state.1.catalog = some current ∧ current.Distinct ∧ state.2.Mirrors current

theorem InSync.reindexed {state : Session × Catalog} (sync : InSync state) (batch : Batch ε) :
    InSync (reindexWith state batch) := by
  obtain ⟨current, published, distinct, mirrors⟩ := sync
  rcases run_reindex_cases state.1 batch with ⟨e, failed⟩ | ⟨parsed, renewed, outcome⟩
  · unfold reindexWith
    rw [failed]
    exact ⟨current, published, distinct, mirrors⟩
  · rw [published, Option.getD_some] at outcome
    have distinct' := Catalog.distinct_ofStore (parsed.resolve state.1.layout)
    have patched : (reindexWith state batch).2 = Delta.patch _ state.2 :=
      congrArg (receive state.2) outcome
    refine ⟨_, renewed, distinct', ?_⟩
    rw [patched]
    exact Delta.mirrors_patch distinct distinct' mirrors

theorem InSync.run {state : Session × Catalog} (sync : InSync state) (batches : List (Batch ε)) :
    InSync (batches.foldl reindexWith state) := by
  induction batches generalizing state with
  | nil => exact sync
  | cons batch batches ih => exact ih (sync.reindexed batch)

theorem distinct_of_published {l : Layout} {first : Session} (started : start l = .ok first)
    (events : List (Event ε)) {c : Catalog} (published : (first.after events).catalog = some c) :
    c.Distinct := by
  have consistent : (first.after events).Consistent l := by
    rw [start_eq_ok started]
    exact after_consistent rfl (Or.inl rfl) events
  rcases consistent with nothing | whole
  · have absent : (first.after events).catalog = none := congrArg (fun v => v.2.2) nothing
    rw [absent] at published
    cases published
  · have known : (first.after events).catalog = some _ := congrArg (fun v => v.2.2) whole
    rw [known] at published
    obtain rfl := Option.some.inj published
    exact Catalog.distinct_ofStore _

/-- A copy that follows by deltas alone stays in sync. It is taken at any moment of any run at
which there is a catalog; then come batches, one after the other, and each that succeeds is
applied to the copy. After all of them the copy has the names of the catalog, and under each the
same entries as often. -/
theorem copy_stays_in_sync {l : Layout} {first : Session} (started : start l = .ok first)
    (events : List (Event ε)) {initial : Catalog}
    (ready : (first.after events).catalog = some initial) (batches : List (Batch ε)) :
    let last := batches.foldl reindexWith (first.after events, initial)
    ∃ current, last.1.catalog = some current ∧
      (∀ name, last.2.contains name = current.contains name) ∧
      ∀ name, (last.2.under name).Perm (current.under name) := by
  have distinct := distinct_of_published started events ready
  have begun : InSync (first.after events, initial) := ⟨initial, ready, distinct, .refl initial⟩
  obtain ⟨current, published, -, mirrors⟩ := begun.run batches
  exact ⟨current, published, mirrors.names, mirrors.entries⟩

section Sample

def sharingRead : List (Event String) :=
  [.call (.build sharingFiles), .answer (.ok ((sharingFiles.map project.resolve).map sharing.file))]

def sharingBatches : List (Batch String) :=
  [⟨saved "x.ts", sharing.parser⟩, ⟨saved "y.ts", fun _ => .error "unreadable"⟩,
    ⟨⟨[], [], ["x.ts"]⟩, sharing.parser⟩]

def sharingInitial : Catalog := ((idle.after sharingRead).catalog).getD .empty

def sharingCopy : Session × Catalog :=
  sharingBatches.foldl reindexWith (idle.after sharingRead, sharingInitial)

theorem sharingRead_ready : (idle.after sharingRead).catalog = some sharingInitial := by
  have built : (idle.after sharingRead).catalog.isSome = true := rfl
  obtain ⟨c, found⟩ := Option.isSome_iff_exists.mp built
  rw [sharingInitial, found]
  rfl

theorem sharingCopy_in_sync :
    (∃ current, sharingCopy.1.catalog = some current ∧
      (∀ name, sharingCopy.2.contains name = current.contains name) ∧
      ∀ name, (sharingCopy.2.under name).Perm (current.under name)) ∧
    (sharingInitial.under "Thing").map Entry.origin = ["/x"] ∧
    (sharingCopy.2.under "Thing").map Entry.origin = ["/y"] := by
  refine ⟨copy_stays_in_sync start_project sharingRead sharingRead_ready sharingBatches, ?_, ?_⟩
  · decide +kernel
  · decide +kernel

end Sample

end Session

end ExportIndex
